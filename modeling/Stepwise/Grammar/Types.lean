import Stepwise.Grammar.Parser

/-! The grammar of types: a base type and at most one star. -/

namespace Stepwise.Grammar

open Stepwise.Parser

def baseType : Parser Base := do
  rejectReserved
  match (← current).token with
  | .keyword .intWord => do advance; return .int
  | .keyword .charWord => do advance; return .char
  | .keyword .floatWord => do advance; return .float
  | .keyword .doubleWord => do advance; return .double
  | .keyword .voidWord => do advance; return .void
  | .keyword .structWord => do advance; return .struct (← identifier)
  | _ => failExpected .type

/-- The stars behind a base type; a second one is left out of the subset. -/
def withStars (base : Base) : Parser CType := do
  let depth := if ← accept .star then 1 else 0
  if ← sees .star then failUnsupported .pointerToPointer (← position)
  return ⟨base, depth⟩

def type : Parser CType := do withStars (← baseType)

def checkStorable (t : CType) (pos : Position) : Parser Unit :=
  if t.isPointer then return ()
  else match t.base with
    | .void => throw ⟨.voidVariable, pos⟩
    | .struct _ => failUnsupported .structVariable pos
    | _ => return ()

end Stepwise.Grammar
