import Stepwise.Run.Builtins

/-! Evaluating expressions. Recursion is on the expression alone: what a call does is given by a
`CallHandler`, so the evaluator needs no measure. Operands are evaluated from left to right. -/

namespace Stepwise

abbrev CallHandler := Function → List Value → Position → Run Value

def StepOp.arith : StepOp → Arith
  | preInc | postInc => .add
  | preDec | postDec => .sub

def StepOp.isPost : StepOp → Bool
  | postInc | postDec => true
  | preInc | preDec => false

/-- Changes the place that `operand` names by one; gives the value of the whole expression and the
value that was stored. -/
def stepPlace (op : StepOp) (place : Place) (operand : Expr) (pos : Position) :
    Run (Value × Value) := do
  let old ← place.read operand
  let new ← Run.ofCause pos (op.arith.eval old (.int 1))
  let stored ← place.write new pos
  return (if op.isPost then old else stored, stored)

/-- The value that a connective has by its left side alone. -/
def Connective.settled? (op : Connective) (left : Value) : Option Value :=
  match op, left.truth? with
  | and, some false => some (.int 0)
  | or, some true => some (.int 1)
  | _, _ => none

def printedSize (text : String) : Value := .int (Int32.ofNat text.utf8ByteSize)

/-- Calls the function of a name, or ends a heap node. -/
def callByName (s : Setting) (call : CallHandler) (name : String) (args : List Value)
    (pos : Position) : Run Value :=
  if name = "free" then freeNode args pos
  else match s.function? name with
    | some f => call f args pos
    | none => Run.fail (.internal (.undefinedVariable name)) pos

mutual

/-- The value of an expression; a call of a function without a result has the undefined one. -/
def evalExpr (s : Setting) (call : CallHandler) : Expr → Run Value
  | .int n _ => pure (.int n)
  | .float x _ => pure (.float x)
  | .char c _ => pure (.char c)
  | .null _ => pure .null
  | .var name pos => do
    let place ← Place.ofName name pos
    place.readScalar (.var name pos)
  | .index array index pos => do
    let es ← Place.elements array (evalExpr s call array) pos
    let place ← Place.element es (← evalExpr s call index) pos
    place.readScalar (.index array index pos)
  | .deref operand pos => do
    let place ← Place.behind (← evalExpr s call operand) pos
    place.readScalar (.deref operand pos)
  | .field object name true pos => do
    let base ← requirePointer (← evalExpr s call object) pos
    let place ← Place.field s base name pos
    place.readScalar (.field object name true pos)
  | .field object name false pos => do
    let base ← (← evalPlace s call object).requireStruct pos
    let place ← Place.field s base name pos
    place.readScalar (.field object name false pos)
  | .binary (.connect op) left right pos => do
    let l ← requireDefined (← evalExpr s call left) left
    match op.settled? l with
    | some v => return v
    | none =>
      let r ← requireDefined (← evalExpr s call right) right
      Run.ofCause pos (op.eval l r)
  | .binary op left right pos => do
    let l ← requireDefined (← evalExpr s call left) left
    let r ← requireDefined (← evalExpr s call right) right
    Run.ofCause pos (op.eval l r)
  | .unary op operand pos => do
    let v ← requireDefined (← evalExpr s call operand) operand
    Run.ofCause pos (op.eval v)
  | .step op operand pos => do
    let place ← evalPlace s call operand
    return (← stepPlace op place operand pos).1
  | .addressOf operand _ => do
    let place ← evalPlace s call operand
    return .address place.address
  | .call name args pos => do
    let values ← evalArgs s call args
    callByName s call name values pos
  | .cast type operand pos => do
    let v ← requireDefined (← evalExpr s call operand) operand
    match v.convert type with
    | some converted => return converted
    | none => Run.fail (.typeMismatch ("value convertible to " ++ type.text) v.shape) pos
  | .sizeofType type _ => pure (.int (Int32.ofNat (s.structs.size type)))
  | .sizeofExpr operand _ => do
    let env ← Run.environment
    let size ← Run.ofFault (sizeofExpr s env operand)
    return .int (Int32.ofNat size)
  | .newNode struct pos => newNode s struct pos
  | .print format args pos => do
    let values ← evalArgs s call args
    return printedSize (← printFormatted format values pos)
  | .read format targets pos => do
    let places ← evalPlaces s call targets
    return .int (← readFormatted format targets places pos).result

def evalPlace (s : Setting) (call : CallHandler) : Expr → Run Place
  | .var name pos => Place.ofName name pos
  | .index array index pos => do
    let es ← Place.elements array (evalExpr s call array) pos
    Place.element es (← evalExpr s call index) pos
  | .deref operand pos => do Place.behind (← evalExpr s call operand) pos
  | .field object name true pos => do
    let base ← requirePointer (← evalExpr s call object) pos
    Place.field s base name pos
  | .field object name false pos => do
    let base ← (← evalPlace s call object).requireStruct pos
    Place.field s base name pos
  | e => Run.fail (.typeMismatch "assignable location" e.render) e.pos

def evalArgs (s : Setting) (call : CallHandler) : List Expr → Run (List Value)
  | [] => pure []
  | e :: rest => do
    let v ← requireDefined (← evalExpr s call e) e
    let vs ← evalArgs s call rest
    return v :: vs

def evalPlaces (s : Setting) (call : CallHandler) : List Expr → Run (List Place)
  | [] => pure []
  | e :: rest => do
    let place ← evalPlace s call e
    let places ← evalPlaces s call rest
    return place :: places

end

def evalOperand (s : Setting) (call : CallHandler) (e : Expr) : Run Value := do
  requireDefined (← evalExpr s call e) e

def evalCondition (s : Setting) (call : CallHandler) (e : Expr) (pos : Position) : Run Bool := do
  let v ← evalOperand s call e
  match v.truth? with
  | some b => return b
  | none => Run.fail (.internal (.typeMismatch "condition" v.shape)) pos

end Stepwise
