import Stepwise.Grammar.Expressions

/-! The grammar of variable declarations: a base type and one or more declarators, each a name
with its own star, size and initial value. -/

namespace Stepwise.Grammar

open Stepwise.Parser

/-- The size of an array: a positive integer literal. -/
def arraySize : Parser Nat := do
  let here ← current
  match here.token with
  | .int n => do
    advance
    if n ≤ 0 ∨ 2147483647 < n then throw ⟨.badSize, here.pos⟩
    return n.toNat
  | _ => failUnsupported .computedSize here.pos

/-- The items of an initializer up to its closing brace; a comma may follow the last. -/
def items : Parser (List Expr) :=
  Parser.fix (σ := Unit) (fun again _ => do
    if ← sees .closeBrace then return []
    let e ← expression
    if ← accept .comma then return e :: (← again ())
    else return [e]) ()

def arrayInitializer : Parser (List Expr) := do
  let here ← current
  if here.token matches .string _ then failUnsupported .strayString here.pos
  expect .openBrace "to open array initializer"
  let values ← items
  expect .closeBrace "to close array initializer"
  return values

/-- The size that an array gets from its written size and its initializer. -/
def decideSize (name : String) (pos : Position) (size : Option Nat) (init : Option (List Expr)) :
    Parser Nat :=
  match size, init with
  | some size, some values =>
    if size < values.length then throw ⟨.tooManyItems name size values.length, pos⟩
    else return size
  | some size, none => return size
  | none, some (first :: rest) => return (first :: rest).length
  | none, _ => throw ⟨.noSize name, pos⟩

def arrayFrom (name : String) (elem : CType) (pos : Position) : Parser Decl := do
  let size ← if ← sees .closeBracket then pure none else some <$> arraySize
  expect .closeBracket "after array size"
  if ← sees .openBracket then failUnsupported .arrayOfArrays (← position)
  let init ← if ← accept .eq then some <$> arrayInitializer else pure none
  return .array name elem (← decideSize name pos size init) init pos

def declarator (base : Base) : Parser Decl := do
  let t ← withStars base
  let pos ← position
  let name ← identifier
  checkStorable t pos
  if ← accept .openBracket then arrayFrom name t pos
  else if ← accept .eq then
    if ← sees .openBrace then throw ⟨.listForScalar name, ← position⟩
    return .scalar name t (some (← expression)) pos
  else return .scalar name t none pos

def declarators (base : Base) : Parser (List Decl) :=
  Parser.fix (σ := Unit) (fun again _ => do
    let d ← declarator base
    if ← accept .comma then return d :: (← again ())
    else return [d]) ()

/-- A whole declaration with its semicolon; each declarator is a declaration of its own. -/
def declaration : Parser (List Decl) := do
  let base ← baseType
  let ds ← declarators base
  expect .semicolon "after declaration"
  return ds

end Stepwise.Grammar
