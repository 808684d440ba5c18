import Stepwise.Grammar.Declarations

/-! The grammar of statements. Assignment is a statement, so every store is a statement of its
own. The rules take the rule for statements as a parameter, and `statement` ties the knot. -/

namespace Stepwise.Grammar

open Stepwise.Parser

/-- The sign of an assignment; `some none` is the plain one. -/
def assignSign? : Token → Option (Option Arith)
  | .symbol .eq => some none
  | .symbol .plusEq => some (some .add)
  | .symbol .minusEq => some (some .sub)
  | .symbol .starEq => some (some .mul)
  | .symbol .slashEq => some (some .div)
  | .symbol .percentEq => some (some .mod)
  | _ => none

def simple : Parser Simple := do
  let pos ← position
  let e ← expression
  let here ← current
  match assignSign? here.token with
  | none => return .effect e pos
  | some op =>
    advance
    unless e.isPlace do throw ⟨.notAssignable, here.pos⟩
    let value ← expression
    let next ← current
    if (assignSign? next.token).isSome then failUnsupported .chainedAssignment next.pos
    return .assign e op value pos

def statements (statement : Parser Stmt) : Parser (List Stmt) :=
  Parser.fix (σ := Unit) (fun again _ => do
    let here ← current
    if here.token matches .symbol .closeBrace | .eof then return []
    if ← seesType then
      let ds ← declaration
      return ds.map (fun d => .simple (.declare d)) ++ (← again ())
    else
      let s ← statement
      return s :: (← again ())) ()

def blockFrom (statement : Parser Stmt) : Parser (List Stmt) := do
  let body ← statements statement
  expect .closeBrace "after block"
  return body

def body (statement : Parser Stmt) : Parser (List Stmt) := do
  if ← accept .openBrace then blockFrom statement
  else return [← statement]

/-- The first clause of a `for` header: a declaration of one name, or a simple statement. -/
def forInit : Parser (Option Simple) := do
  if ← sees .semicolon then return none
  else if ← seesType then
    let d ← declarator (← baseType)
    if ← sees .comma then failUnsupported .severalInForHeader (← position)
    return some (.declare d)
  else return some (← simple)

def forFrom (statement : Parser Stmt) (pos : Position) : Parser Stmt := do
  expect .openParen "after 'for'"
  let init ← forInit
  expect .semicolon "after for initializer"
  let cond ← if ← sees .semicolon then pure none else some <$> expression
  expect .semicolon "after for condition"
  let update ← if ← sees .closeParen then pure none else some <$> simple
  expect .closeParen "after for clauses"
  return .forLoop init cond update (← body statement) pos

def branchFrom (statement : Parser Stmt) (pos : Position) : Parser Stmt := do
  expect .openParen "after 'if'"
  let cond ← expression
  expect .closeParen "after if condition"
  let yes ← body statement
  let no ← if ← acceptWord .elseWord then some <$> body statement else pure none
  return .branch cond yes no pos

def whileFrom (statement : Parser Stmt) (pos : Position) : Parser Stmt := do
  expect .openParen "after 'while'"
  let cond ← expression
  expect .closeParen "after while condition"
  return .whileLoop cond (← body statement) pos

def returnFrom (pos : Position) : Parser Stmt := do
  let value ← if ← sees .semicolon then pure none else some <$> expression
  expect .semicolon "after return"
  return .leave value pos

/-- One statement, with `statement` for those inside it. -/
def statementOver (statement : Parser Stmt) : Parser Stmt := do
  rejectReserved
  let here ← current
  match here.token with
  | .keyword .returnWord => do advance; returnFrom here.pos
  | .keyword .ifWord => do advance; branchFrom statement here.pos
  | .keyword .whileWord => do advance; whileFrom statement here.pos
  | .keyword .forWord => do advance; forFrom statement here.pos
  | .keyword .breakWord => do
    advance
    expect .semicolon "after 'break'"
    return .breakLoop here.pos
  | .keyword .continueWord => do
    advance
    expect .semicolon "after 'continue'"
    return .continueLoop here.pos
  | .symbol .openBrace => do
    advance
    return .block (← blockFrom statement) here.pos
  | _ => do
    if ← seesType then throw ⟨.misplacedDeclaration, here.pos⟩
    if here.token matches .ident _ then
      if (← ahead 1) matches some (.symbol .colon) then failUnsupported .label here.pos
    let s ← simple
    expect .semicolon "after expression"
    return .simple s

def statement : Parser Stmt := Parser.fix (σ := Unit) (fun again _ => statementOver (again ())) ()

end Stepwise.Grammar
