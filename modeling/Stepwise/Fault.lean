import Stepwise.Source.Position
import Stepwise.Value

/-! What a program can do wrong while it runs. A fault is a cause at a position, and its wording is
made in one place. -/

namespace Stepwise

inductive Fault.Cause where
  /-- The divisor of `/` is zero, or of `%` when `modulo` holds. -/
  | divisionByZero (modulo : Bool)
  | nullDereference
  /-- The slot was there once. -/
  | dangling (a : Address)
  /-- The slot was never there. -/
  | invalidAddress (a : Address)
  | outOfBounds (index : Int) (size : Nat)
  | undefinedVariable (name : String)
  /-- A place is read before anything was stored in it. -/
  | uninitialized (place : String)
  | typeMismatch (expected found : String)
  | missingField (struct field : String)
  | badFormat (reason : String)
  /-- Only a pointer to a heap node can be freed. -/
  | badFree (a : Address)
  /-- A field of formatted output is wider than any text. Nothing is left of such a run. -/
  | capacityOverflow
  /-- What the grammar and the check of references rule out; it is reported as the cause inside. -/
  | internal (shown : Cause)
deriving DecidableEq, Repr

structure Fault where
  cause : Fault.Cause
  pos : Position
deriving DecidableEq, Repr

namespace Fault

inductive Kind where
  | divisionByZero
  | nullDereference
  | indexOutOfBounds
  | undefinedVariable
  | typeMismatch
deriving DecidableEq, Repr

def Kind.all : List Kind :=
  [.divisionByZero, .nullDereference, .indexOutOfBounds, .undefinedVariable, .typeMismatch]

def Kind.name : Kind → String
  | divisionByZero => "DivisionByZero"
  | nullDereference => "NullDereference"
  | indexOutOfBounds => "IndexOutOfBounds"
  | undefinedVariable => "UndefinedVariable"
  | typeMismatch => "TypeMismatch"

def Cause.kind : Cause → Kind
  | divisionByZero _ => .divisionByZero
  | nullDereference | dangling _ | invalidAddress _ => .nullDereference
  | outOfBounds .. => .indexOutOfBounds
  | undefinedVariable _ | uninitialized _ => .undefinedVariable
  | typeMismatch .. | missingField .. | badFormat _ | badFree _
  | capacityOverflow => .typeMismatch
  | internal shown => shown.kind

def Cause.message (loc : String) : Cause → String
  | .divisionByZero modulo => (if modulo then "modulo" else "division") ++ s!" by zero at {loc}"
  | .nullDereference => s!"null pointer dereference at {loc}"
  | .dangling a => "dangling pointer " ++ addressText a ++ s!" dereferenced at {loc}"
  | .invalidAddress a => "invalid address " ++ addressText a ++ s!" dereferenced at {loc}"
  | .outOfBounds index size => s!"index {index} out of bounds for array of size {size} at {loc}"
  | .undefinedVariable name => s!"undefined variable '{name}' at {loc}"
  | .uninitialized place => s!"'{place}' is read before it is initialized at {loc}"
  | .typeMismatch expected found => s!"type mismatch at {loc}: expected {expected}, found {found}"
  | .missingField struct field => s!"struct {struct} has no field '{field}' at {loc}"
  | .badFormat reason => s!"invalid format at {loc}: {reason}"
  | .badFree a => "free of " ++ addressText a ++ s!", which is not a live heap node, at {loc}"
  | .capacityOverflow => s!"capacity overflow at {loc}"
  | .internal shown => shown.message loc

def message (f : Fault) : String := f.cause.message f.pos.text

end Fault

end Stepwise
