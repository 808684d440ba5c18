import Stepwise.Grammar.Types

/-! The grammar of expressions. Binary operators are read by climbing through their levels; then come
prefix forms, and tightest the postfix ones. The rules take the rule for prefix forms as a
parameter, and `unary` ties the knot. -/

namespace Stepwise.Grammar

open Stepwise.Parser

/-- A binary operator and its level, from those that bind loosest (one) on. -/
def binaryOperator? : Token → Option (BinOp × Nat)
  | .symbol .pipePipe => some (.connect .or, 1)
  | .symbol .ampAmp => some (.connect .and, 2)
  | .symbol .eqEq => some (.compare .eq, 3)
  | .symbol .bangEq => some (.compare .ne, 3)
  | .symbol .less => some (.compare .lt, 4)
  | .symbol .lessEq => some (.compare .le, 4)
  | .symbol .greater => some (.compare .gt, 4)
  | .symbol .greaterEq => some (.compare .ge, 4)
  | .symbol .plus => some (.arith .add, 5)
  | .symbol .minus => some (.arith .sub, 5)
  | .symbol .star => some (.arith .mul, 6)
  | .symbol .slash => some (.arith .div, 6)
  | .symbol .percent => some (.arith .mod, 6)
  | _ => none

/-- Goes on with operators of the level `least` or above for as long as they come. What stands on the
right of one is read by `climb` from the next level on, so that operators of one level group to the
left. -/
def operators (climb : Nat → Parser Expr) (least : Nat) : Expr → Parser Expr :=
  Parser.fix fun again left => do
    let here ← current
    match binaryOperator? here.token with
    | some (op, level) =>
      if level < least then return left
      else
        advance
        let right ← climb (level + 1)
        again (.binary op left right here.pos)
    | none => return left

/-- Expressions whose operators outside parentheses are of the given level or above. -/
def climb (unary : Parser Expr) : Nat → Parser Expr :=
  Parser.fix fun climb least => do
    let first ← unary
    operators climb least first

/-- Any expression. An operator of C that the subset leaves out must not follow it. -/
def expressionOver (unary : Parser Expr) : Parser Expr := do
  let e ← climb unary 1
  let here ← current
  match here.token with
  | .symbol .question | .symbol .colon => failUnsupported .conditional here.pos
  | .symbol .amp => failUnsupported (.bitwise .amp) here.pos
  | .symbol .pipe => failUnsupported (.bitwise .pipe) here.pos
  | .symbol .caret => failUnsupported (.bitwise .caret) here.pos
  | .symbol .lessLess => failUnsupported (.bitwise .lessLess) here.pos
  | .symbol .greaterGreater => failUnsupported (.bitwise .greaterGreater) here.pos
  | _ => return e

def arguments (expression : Parser Expr) : Parser (List Expr) :=
  Parser.fix (σ := Unit) (fun again _ => do
    let here ← current
    if here.token matches .string _ then failUnsupported .strayString here.pos
    let e ← expression
    if ← accept .comma then return e :: (← again ())
    else return [e]) ()

def argumentList (expression : Parser Expr) : Parser (List Expr) := do
  let args ← if ← sees .closeParen then pure [] else arguments expression
  expect .closeParen "after arguments"
  return args

def formatText (function : String) : Parser String := do
  let here ← current
  match here.token with
  | .string text => do
    advance
    unless ← sees .closeParen do expect .comma "after format string"
    return text
  | _ => throw ⟨.needsFormat function, here.pos⟩

/-- The places that formatted input reads into; each argument must be the address of one. -/
def scanTargets : List Expr → Parser (List Expr)
  | [] => return []
  | .addressOf target _ :: rest => return target :: (← scanTargets rest)
  | other :: _ => failUnsupported .scanTarget other.pos

/-- A call from behind its opening parenthesis on. Output, input and node allocation have forms of
their own. -/
def call (expression : Parser Expr) (name : String) (pos : Position) : Parser Expr := do
  if name = "printf" then
    let format ← formatText name
    return .print format (← argumentList expression) pos
  else if name = "scanf" then
    let format ← formatText name
    return .read format (← scanTargets (← argumentList expression)) pos
  else if name = "malloc" then
    match ← argumentList expression with
    | [.sizeofType ⟨.struct struct, 0⟩ _] => return .newNode struct pos
    | _ => failUnsupported .otherMalloc pos
  else return .call name (← argumentList expression) pos

def primary (expression : Parser Expr) : Parser Expr := do
  rejectReserved
  let here ← current
  match here.token with
  | .int n => do
    advance
    if n < -2147483648 ∨ 2147483647 < n then throw ⟨.outOfRange n, here.pos⟩
    return .int (Int32.ofInt n) here.pos
  | .float x => do advance; return .float x here.pos
  | .char c => do advance; return .char c here.pos
  | .keyword .nullWord => do advance; return .null here.pos
  | .ident name => do advance; return .var name here.pos
  | .string _ => failUnsupported .strayString here.pos
  | .symbol .openParen => do
    advance
    let e ← expression
    expect .closeParen "after expression"
    return e
  | _ => failExpected .expression

def postfixes (expression : Parser Expr) : Expr → Parser Expr :=
  Parser.fix fun again e => do
    let here ← current
    match here.token with
    | .symbol .openBracket => do
      advance
      let index ← expression
      expect .closeBracket "after index"
      again (.index e index here.pos)
    | .symbol .dot => do
      advance
      again (.field e (← identifier) false here.pos)
    | .symbol .arrow => do
      advance
      again (.field e (← identifier) true here.pos)
    | .symbol .plusPlus => do
      advance
      again (.step .postInc e here.pos)
    | .symbol .minusMinus => do
      advance
      again (.step .postDec e here.pos)
    | .symbol .openParen =>
      match e with
      | .var name pos => do
        advance
        again (← call expression name pos)
      | _ => failUnsupported .computedCall here.pos
    | _ => return e

def seesTypeInParens : Parser Bool := return match ← ahead 1 with
  | some (.keyword k) => k.beginsType
  | some (.reserved _) => true
  | _ => false

/-- A cast from behind its opening parenthesis on. The only cast to a pointer is the one around the
allocation of such a node. -/
def castFrom (unary : Parser Expr) (pos : Position) : Parser Expr := do
  let target ← type
  expect .closeParen "after cast type"
  let e ← unary
  if target.isPointer then
    match e with
    | .newNode struct _ =>
      if target.structName? = some struct then return e
      else failUnsupported (.pointerCast target) pos
    | _ => failUnsupported (.pointerCast target) pos
  else match target.base with
    | .void | .struct _ => failUnsupported (.castTo target) pos
    | _ => return .cast target e pos

def sizeofFrom (unary : Parser Expr) (pos : Position) : Parser Expr := do
  if (← sees .openParen) && (← seesTypeInParens) then
    advance
    let target ← type
    expect .closeParen "after sizeof type"
    return .sizeofType target pos
  else return .sizeofExpr (← unary) pos

/-- One prefix form, with `unary` for what stands behind it. -/
def unaryOver (unary : Parser Expr) : Parser Expr := do
  let here ← current
  match here.token with
  | .symbol .minus => do
    let next ← ahead 1
    advance
    -- the least int, which has no literal of its own
    if next matches some (.int 2147483648) then
      advance
      return .int (-2147483648) here.pos
    return .unary .neg (← unary) here.pos
  | .symbol .bang => do advance; return .unary .not (← unary) here.pos
  | .symbol .plusPlus => do advance; return .step .preInc (← unary) here.pos
  | .symbol .minusMinus => do advance; return .step .preDec (← unary) here.pos
  | .symbol .plus => do advance; unary
  | .symbol .amp => do advance; return .addressOf (← unary) here.pos
  | .symbol .star => do advance; return .deref (← unary) here.pos
  | .symbol .tilde => failUnsupported (.bitwise .tilde) here.pos
  | .keyword .sizeofWord => do advance; sizeofFrom unary here.pos
  | .symbol .openParen => do
    if ← seesTypeInParens then
      advance
      castFrom unary here.pos
    else
      let expression := expressionOver unary
      postfixes expression (← primary expression)
  | _ => do
    let expression := expressionOver unary
    postfixes expression (← primary expression)

def unary : Parser Expr := Parser.fix (σ := Unit) (fun again _ => unaryOver (again ())) ()

def expression : Parser Expr := expressionOver unary

end Stepwise.Grammar
