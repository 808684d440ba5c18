import Stepwise.Grammar
import Stepwise.Run.Statement
import Stepwise.Trace.Status

/-! Running a whole program and tracing a source text. -/

namespace Stepwise

def bindParams (pos : Position) : List Member → List Value → Run (List String)
  | p :: ps, v :: vs => do
    let v ← convertTo p.type v pos
    declareScalar p.name p.type v
    let more ← bindParams pos ps vs
    return (p.name ++ " = " ++ v.text) :: more
  | _, _ => pure []

/-- What a function returns whose body ends without saying so. -/
def Function.fallback (f : Function) : Value := if f.name = "main" then .int 0 else .undefined

def checkDepth (s : Setting) (f : Function) (pos : Position) : Run Unit := do
  let env ← Run.environment
  if s.limits.depth ≤ env.depth then throw (.excess (.depth s.limits.depth f.name pos))
  else pure ()

def checkArity (f : Function) (args : List Value) (pos : Position) : Run Unit :=
  let wanted := f.params.length
  let given := args.length
  if given ≠ wanted then
    Run.fail (.internal (.typeMismatch (s!"{wanted} argument(s) to " ++ f.name) s!"{given}")) pos
  else pure ()

/-- Runs the body of a function whose arguments are bound. A step is recorded when the body ends
without a return. -/
def runBody (s : Setting) (call : CallHandler) (f : Function) : Run Value := do
  match ← runStmts s call f.returns f.body with
  | .leave v => return v
  | _ =>
    Run.record s f.endPos.line ("exit " ++ f.name) none
    return f.fallback

def openFrame (s : Setting) (f : Function) (args : List Value) (callLine : Nat) (pos : Position) :
    Run Unit := do
  checkArity f args pos
  Run.changeEnvironment fun env => env.pushFrame (.enter ⟨f.name, callLine, f.pos.line⟩)
  let bound ← bindParams pos f.params args
  Run.record s f.pos.line ("enter " ++ f.name ++ "(" ++ commaSeparated bound ++ ")") none

def runInFrame (s : Setting) (call : CallHandler) (f : Function) (args : List Value)
    (callLine : Nat) (pos : Position) : Run Value := do
  openFrame s f args callLine pos
  let result ← runBody s call f
  Run.changeEnvironment Environment.popFrame
  return result

def enterFunction (s : Setting) (call : CallHandler) (f : Function) (args : List Value)
    (callLine : Nat) (pos : Position) : Run Value := do
  checkDepth s f pos
  runInFrame s call f args callLine pos

/-- Calls a function; calls inside it may nest `fuel` deep. -/
def callFunction (s : Setting) : Nat → Function → List Value → Nat → Position → Run Value
  | 0, _, _, _, _ => throw .outOfFuel
  | fuel + 1, f, args, callLine, pos =>
    enterFunction s (fun g values place => callFunction s fuel g values place.line place) f args callLine
      pos

def Setting.handlerWithin (s : Setting) (fuel : Nat) : CallHandler :=
  fun f args pos => callFunction s fuel f args pos.line pos

def Setting.handler (s : Setting) : CallHandler := s.handlerWithin s.fuel

def runGlobals (s : Setting) : List Decl → Run Unit
  | [] => pure ()
  | d :: rest => do
    runSimple s s.handler (.declare d)
    runGlobals s rest

def runProgram (s : Setting) (globals : List Decl) : Run Unit := do
  runGlobals s globals
  match s.function? "main" with
  | none => Run.fail (.internal (.undefinedVariable "main")) .start
  | some f => discard (callFunction s s.fuel f [] 0 f.pos)

def Program.run (p : Program) (s : Setting) (input : String) : List Moment × Except Halt Unit :=
  match runProgram s p.globals (.start input) with
  | .ok _ m => (m.recorder.toList, .ok ())
  | .error h m => (m.recorder.toList, .error h)

def Program.trace (p : Program) (s : Setting) (input : String) : Trace :=
  let (moments, outcome) := p.run s input
  .finish (moments.map (·.step s)) outcome

/-- The trace of a source text on an input, or of a run that was called off before it began. -/
def traceSource (source input : String) (limits : Limits) (cancelled : Bool) : Trace :=
  match Program.parse source with
  | .error e => .ofParseError e
  | .ok p => p.trace (.ofProgram p source limits cancelled) input

/-- Whether a run broke off in a way that leaves nothing of it. -/
def isCrash : Except Halt Unit → Bool
  | .error (.fault f) => f.cause = .capacityOverflow
  | _ => false

/-- The trace of a program that is given out: none if the run crashed. -/
def Program.report? (p : Program) (s : Setting) (input : String) : Option Trace :=
  let (moments, outcome) := p.run s input
  if isCrash outcome then none else some (.finish (moments.map (·.step s)) outcome)

def reportSource? (source input : String) (limits : Limits) (cancelled : Bool) : Option Trace :=
  match Program.parse source with
  | .error e => some (.ofParseError e)
  | .ok p => p.report? (.ofProgram p source limits cancelled) input

end Stepwise
