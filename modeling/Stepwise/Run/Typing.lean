import Stepwise.Program.Render
import Stepwise.Run.Machine

/-! The type of an expression, found without evaluating it. Only `sizeof` asks for it, so a variable
has the type of its allocation. -/

namespace Stepwise

/-- A type, with a length when it is that of a whole array. -/
structure StaticType where
  type : CType
  arrayLen : Option Nat
deriving DecidableEq, Repr

namespace StaticType

def ofType (t : CType) : StaticType := ⟨t, none⟩

def decayed (t : StaticType) : CType :=
  match t.arrayLen with
  | some _ => t.type.pointerTo
  | none => t.type

def element? (t : StaticType) : Option CType :=
  match t.arrayLen with
  | some _ => some t.type
  | none => if t.type.isPointer then some t.type.pointee else none

end StaticType

def arithType (left right : CType) : CType :=
  match left.isPointer, right.isPointer with
  | true, true => .int
  | true, false => left
  | false, true => right
  | false, false => if left.isFloating || right.isFloating then .double else .int

def Environment.variable (env : Environment) (name : String) (pos : Position) :
    Except Fault Allocation :=
  match env.lookup? name with
  | none => .error ⟨.undefinedVariable name, pos⟩
  | some (a, _) =>
    match env.memory.allocation? a with
    | none => .error ⟨.internal (.invalidAddress a), pos⟩
    | some al => .ok al

def Allocation.arrayLen (al : Allocation) : Option Nat :=
  if al.kind = .array then some al.len else none

def Structs.fieldType (structs : Structs) (t : CType) (field : String) (pos : Position) :
    Except Fault CType :=
  match t.structName? with
  | none => .error ⟨.typeMismatch "struct" t.text, pos⟩
  | some name =>
    match structs.find? name with
    | none => .error ⟨.internal (.typeMismatch "defined struct" t.text), pos⟩
    | some d =>
      match d.fields.find? (·.name == field) with
      | none => .error ⟨.missingField name field, pos⟩
      | some f => .ok f.type

def staticType (s : Setting) (env : Environment) : Expr → Except Fault StaticType
  | .int .. | .char .. | .sizeofType .. | .sizeofExpr .. | .print .. | .read ..
  | .unary .not _ _ | .binary (.compare _) .. | .binary (.connect _) .. => .ok (.ofType .int)
  | .float .. => .ok (.ofType .double)
  | .null _ => .ok (.ofType ⟨.void, 1⟩)
  | .var name pos => do
    let al ← env.variable name pos
    return ⟨al.type, al.arrayLen⟩
  | .index array _ pos => do
    let t ← staticType s env array
    match t.element? with
    | some elem => return .ofType elem
    | none => throw ⟨.typeMismatch "array or pointer" t.type.text, pos⟩
  | .deref operand pos => do
    let t ← staticType s env operand
    match t.element? with
    | some elem => return .ofType elem
    | none => throw ⟨.typeMismatch "pointer" t.type.text, pos⟩
  | .field object name _ pos => do
    let t ← staticType s env object
    return .ofType (← s.structs.fieldType t.type name pos)
  | .addressOf operand _ => do
    let t ← staticType s env operand
    return .ofType t.type.pointerTo
  | .binary (.arith _) left right _ => do
    let l ← staticType s env left
    let r ← staticType s env right
    return .ofType (arithType l.decayed r.decayed)
  | .unary .neg operand _ => do
    let t ← staticType s env operand
    return .ofType (if t.decayed.isFloating then t.decayed else .int)
  | .step _ operand _ => do
    let t ← staticType s env operand
    return .ofType t.decayed
  | .call name _ pos =>
    match s.function? name with
    | some f => .ok (.ofType f.returns)
    -- a heap node that is freed has no type
    | none => .error ⟨.undefinedVariable name, pos⟩
  | .cast type _ _ => .ok (.ofType type)
  | .newNode struct _ => .ok (.ofType ⟨.struct struct, 1⟩)

def sizeofExpr (s : Setting) (env : Environment) (e : Expr) : Except Fault Nat := do
  let t ← staticType s env e
  let elem := s.structs.size t.type
  return match t.arrayLen with
    | some len => elem * len
    | none => elem

end Stepwise
