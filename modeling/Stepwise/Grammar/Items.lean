import Stepwise.Grammar.Statements

/-! The grammar of whole programs: struct definitions, functions, prototypes, which leave no trace,
and declarations of global variables. -/

namespace Stepwise

namespace Grammar

open Stepwise.Parser

def fields (struct : String) : List Member → Parser (List Member) :=
  Parser.fix fun again seen => do
    let here ← current
    if here.token matches .symbol .closeBrace | .eof then return seen
    let t ← type
    checkStorable t here.pos
    let name ← identifier
    if ← sees .openBracket then failUnsupported .arrayField (← position)
    if seen.any (·.name == name) then throw ⟨.duplicateField name struct, here.pos⟩
    expect .semicolon "after struct field"
    again (seen ++ [⟨name, t⟩])

def structFrom (pos : Position) : Parser StructDef := do
  let name ← identifier
  expect .openBrace "after struct name"
  let members ← fields name []
  expect .closeBrace "after struct fields"
  expect .semicolon "after struct definition"
  if members.isEmpty then throw ⟨.noFields name, pos⟩
  return ⟨name, members, pos⟩

/-- The type of a parameter written with brackets: a pointer to its elements. -/
def decayedParameter (t : CType) (pos : Position) : Parser CType := do
  if ← accept .openBracket then
    unless ← sees .closeBracket do discard arraySize
    expect .closeBracket "after array parameter"
    if t.isPointer then failUnsupported .pointerArrayParameter pos
    return t.pointerTo
  else return t

def parameters : List Member → Parser (List Member) :=
  Parser.fix fun again seen => do
    let pos ← position
    let t ← type
    let name ← identifier
    let t ← decayedParameter t pos
    checkStorable t pos
    if seen.any (·.name == name) then throw ⟨.duplicateParameter name, pos⟩
    let seen := seen ++ [⟨name, t⟩]
    if ← accept .comma then again seen else return seen

/-- What stands between the parentheses of a function; `void` alone means nothing. -/
def parameterList : Parser (List Member) := do
  if ← sees .closeParen then return []
  let here ← current
  let next ← ahead 1
  if here.token matches .keyword .voidWord then
    if next matches some (.symbol .closeParen) then
      advance
      return []
  parameters []

/-- A function from behind its return type on; nothing for a prototype. -/
def functionFrom (returns : CType) : Parser (Option Function) := do
  let pos ← position
  let name ← identifier
  if returns.isStruct then failUnsupported .structReturn pos
  expect .openParen "after function name"
  let params ← parameterList
  expect .closeParen "after parameters"
  if ← accept .semicolon then return none
  expect .openBrace "before function body"
  let stmts ← statements statement
  let endPos ← position
  expect .closeBrace "after function body"
  return some ⟨name, params, returns, stmts, pos, endPos⟩

def seesFunctionName : Parser Bool := return match (← current).token, ← ahead 1 with
  | .ident _, some (.symbol .openParen) => true
  | _, _ => false

def seesStructDefinition : Parser Bool := return match (← current).token, ← ahead 1, ← ahead 2 with
  | .keyword .structWord, some (.ident _), some (.symbol .openBrace) => true
  | _, _, _ => false

/-- One item at the top of a program. Whether it is a function shows only behind its return type;
if it is none, the declaration is read from its beginning. -/
def item : Parser (List Item) := do
  rejectReserved
  if ← seesStructDefinition then
    let pos ← position
    advance
    return [.struct (← structFrom pos)]
  let start ← get
  let base ← baseType
  let star ← accept .star
  if ← seesFunctionName then
    let f ← functionFrom ⟨base, if star then 1 else 0⟩
    return f.toList.map .function
  set start
  return (← declaration).map .global

def program : Parser Program :=
  Parser.fix (σ := Unit) (fun again _ => do
    if (← current).token matches .eof then return []
    let first ← item
    return first ++ (← again ())) ()

end Grammar

def Program.ofTokens (tokens : List Lexeme) : Except ParseError Program :=
  (Grammar.program.run tokens).map (·.1)

end Stepwise
