import Stepwise.Run.Expression

/-! Running statements. Each one that changes what can be seen records one step when it is done;
the head of a loop records one whenever its condition is tested. Like the evaluator, the recursion
is on the statement, calls come from a handler, and a loop turns as often as its fuel allows. -/

namespace Stepwise

inductive Flow where
  | normal
  | breakLoop
  | continueLoop
  | leave (v : Value)
deriving DecidableEq, Repr

def atFileScope : Run Bool := return (← Run.environment).frames.isEmpty

def declareScalar (name : String) (type : CType) (v : Value) : Run Unit :=
  Run.changeEnvironment fun env =>
    let (a, memory) := env.memory.allocate .scalar type 1 v
    { env with memory }.declare name a

def storeRun (pos : Position) : Address → List Value → Run Unit
  | _, [] => pure ()
  | a, v :: vs => do
    Run.assured (storeSlot a v pos)
    storeRun pos (a + 1) vs

def scopeWord (isGlobal : Bool) : String := if isGlobal then "global " else ""

def evalItems (s : Setting) (call : CallHandler) (elem : CType) (pos : Position) :
    List Expr → Run (List Value)
  | [] => pure []
  | e :: rest => do
    let v ← convertTo elem (← evalOperand s call e) pos
    let vs ← evalItems s call elem pos rest
    return v :: vs

def initialValue (s : Setting) (call : CallHandler) (type : CType) (init : Option Expr)
    (pos : Position) : Run Value :=
  match init with
  | some e => do convertTo type (← evalOperand s call e) pos
  | none => return if ← atFileScope then .zero type else .undefined

def declareArray (name : String) (elem : CType) (size : Nat) (fill : Value) (values : List Value)
    (pos : Position) : Run Unit := do
  let env ← Run.environment
  let room := env.memory.allocate .array elem size fill
  Run.changeEnvironment fun env => { env with memory := room.2 }
  storeRun pos room.1 values
  Run.changeEnvironment fun env => env.declare name room.1

/-- Declares a variable and describes it. A global one without an initial value, and the rest of an
array that has some, are zero; any other slot stays undefined. -/
def declare (s : Setting) (call : CallHandler) : Decl → Run String
  | .scalar name type init pos => do
    let v ← initialValue s call type init pos
    let word := scopeWord (← atFileScope)
    declareScalar name type v
    let head := "declare " ++ word ++ type.text ++ " " ++ name
    return if v.isDefined then head ++ " = " ++ v.text else head
  | .array name elem size init pos => do
    let isGlobal ← atFileScope
    let values ← evalItems s call elem pos (init.getD [])
    let fill := if isGlobal || init.isSome then .zero elem else .undefined
    declareArray name elem size fill values pos
    let head := "declare " ++ scopeWord isGlobal ++ elem.text ++ " " ++ name ++ s!"[{size}]"
    return if init.isSome then
      head ++ " = \x7b" ++ commaSeparated (values.map Value.text) ++ "\x7d"
    else head

/-- Stores a value, or the result of an operator on it and the old one, and gives what was stored.
The value is found before the place. -/
def assign (s : Setting) (call : CallHandler) (target : Expr) (op : Option Arith) (value : Expr)
    (pos : Position) : Run Value := do
  let right ← evalOperand s call value
  let place ← evalPlace s call target
  match op with
  | none => place.write right pos
  | some op =>
    let old ← place.read target
    let new ← Run.ofCause pos (op.eval old right)
    place.write new pos

def describeEffect (s : Setting) (call : CallHandler) : Expr → Run String
  | .print format args pos => do
    let values ← evalArgs s call args
    let text ← printFormatted format values pos
    return "print " ++ Text.quoted text
  | .read format targets pos => do
    let places ← evalPlaces s call targets
    let reading ← readFormatted format targets places pos
    return if reading.bound.isEmpty then "read (no value bound)"
      else "read " ++ commaSeparated (reading.bound.map fun b => b.1 ++ " = " ++ b.2.text)
  | .step op operand pos => do
    let place ← evalPlace s call operand
    let (_, stored) ← stepPlace op place operand pos
    return "update " ++ operand.render ++ " = " ++ stored.text
  | .call name args pos => do
    let v ← evalExpr s call (.call name args pos)
    return if v.isDefined then "call " ++ name ++ " returned " ++ v.text
      else "call " ++ (Expr.call name args pos).render
  | e => do
    let v ← evalExpr s call e
    return "evaluate " ++ e.render ++ " = " ++ v.text

def perform (s : Setting) (call : CallHandler) : Simple → Run String
  | .declare d => declare s call d
  | .assign target op value pos => do
    let stored ← assign s call target op value pos
    return "assign " ++ target.render ++ " = " ++ stored.text
  | .effect e _ => describeEffect s call e

def runSimple (s : Setting) (call : CallHandler) (c : Simple) : Run Unit := do
  let description ← perform s call c
  Run.record s c.pos.line description none

/-- Runs a clause of a loop's head. It records no step of its own, unless it prints or reads. -/
def runClause (s : Setting) (call : CallHandler) (c : Simple) : Run Unit :=
  if c.usesConsole then runSimple s call c
  else match c with
    | .declare d => discard (declare s call d)
    | .assign target op value pos => discard (assign s call target op value pos)
    | .effect e _ => discard (evalExpr s call e)

def runOptionalClause (s : Setting) (call : CallHandler) : Option Simple → Run Unit
  | some c => runClause s call c
  | none => pure ()

def loopCondition (s : Setting) (call : CallHandler) (cond : Option Expr) (pos : Position) :
    Run Bool :=
  match cond with
  | some e => evalCondition s call e pos
  | none => pure true

def testLoop (s : Setting) (call : CallHandler) (cond : Option Expr) (pos : Position) :
    Run Bool := do
  let holds ← loopCondition s call cond pos
  let text := match cond with
    | some e => e.render
    | none => "(empty)"
  Run.record s pos.line ("loop condition " ++ text ++ " is " ++ (if holds then "true" else "false"))
    none
  return holds

def loop (test : Run Bool) (body : Run Flow) (update : Run Unit) : Nat → Run Flow
  | 0 => throw .outOfFuel
  | fuel + 1 => do
    if ← test then
      match ← body with
      | .normal | .continueLoop =>
        update
        loop test body update fuel
      | .breakLoop => return .normal
      | .leave v => return .leave v
    else return .normal

/-- Runs something in a block of its own. A halt leaves the block open: nothing is recorded behind it,
so that no step shows whether the block was closed. -/
def inBlock (body : Run Flow) : Run Flow := do
  Run.changeEnvironment Environment.openBlock
  let flow ← body
  Run.changeEnvironment Environment.closeBlock
  return flow

def returnedValue (s : Setting) (call : CallHandler) (returns : CType) (value : Option Expr)
    (pos : Position) : Run Value :=
  match value with
  | none => pure .undefined
  | some e =>
    if returns = ⟨.void, 0⟩ then Run.fail (.typeMismatch "no return value" e.render) pos
    else do convertTo returns (← evalOperand s call e) pos

def leaveWith (s : Setting) (call : CallHandler) (returns : CType) (value : Option Expr)
    (pos : Position) : Run Flow := do
  let v ← returnedValue s call returns value pos
  if v.isDefined then Run.record s pos.line ("return " ++ v.text) (some v)
  else Run.record s pos.line "return" none
  return .leave v

mutual

def runStmt (s : Setting) (call : CallHandler) (returns : CType) : Stmt → Run Flow
  | .simple c => do
    runSimple s call c
    return .normal
  | .block body _ => inBlock (runStmts s call returns body)
  | .branch cond yes no pos => do
    if ← evalCondition s call cond pos then
      Run.record s pos.line ("condition " ++ cond.render ++ " is true, entering if branch") none
      inBlock (runStmts s call returns yes)
    else match no with
      | some no =>
        Run.record s pos.line ("condition " ++ cond.render ++ " is false, entering else branch")
          none
        inBlock (runStmts s call returns no)
      | none => return .normal
  | .whileLoop cond body pos =>
    loop (testLoop s call (some cond) pos) (inBlock (runStmts s call returns body)) (pure ()) s.fuel
  | .forLoop init cond update body pos => inBlock do
    runOptionalClause s call init
    loop (testLoop s call cond pos) (inBlock (runStmts s call returns body))
      (runOptionalClause s call update) s.fuel
  | .leave value pos => leaveWith s call returns value pos
  | .breakLoop pos => do
    Run.record s pos.line "break" none
    return .breakLoop
  | .continueLoop pos => do
    Run.record s pos.line "continue" none
    return .continueLoop

/-- Runs statements until one of them ends in another way than by going on. -/
def runStmts (s : Setting) (call : CallHandler) (returns : CType) : List Stmt → Run Flow
  | [] => pure .normal
  | stmt :: rest => do
    match ← runStmt s call returns stmt with
    | .normal => runStmts s call returns rest
    | flow => return flow

end

end Stepwise
