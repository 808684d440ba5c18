import Stepwise.Program.Structs
import Stepwise.Text.Blank
import Stepwise.Trace.Capture
import Stepwise.Trace.Recorder

/-! The machine that runs a program: what stays fixed during a run, the state that changes, and the
recording of a step. -/

namespace Stepwise

/-- What a run does not change: the program, the lines of its source, and the limits. -/
structure Setting where
  functions : List Function
  structs : Structs
  lines : Array String
  limits : Limits
  /-- Whether the run was called off before its first step. -/
  cancelled : Bool
  /-- How deep calls may nest, and how often a loop may turn. -/
  fuel : Nat

namespace Setting

def ofProgram (p : Program) (source : String) (limits : Limits) (cancelled : Bool) : Setting where
  functions := p.functions
  structs := .ofDefs p.structs
  lines := ((Text.lines source.toList).map fun line => String.ofList (Text.trim line)).toArray
  limits := limits
  cancelled := cancelled
  -- each call and each turn records a step, so the limit on steps is met before
  fuel := limits.steps + 1

def function? (s : Setting) (name : String) : Option Function :=
  s.functions.find? (·.name == name)

def code (s : Setting) : Nat → String
  | 0 => ""
  | n + 1 => s.lines[n]?.getD ""

end Setting

/-- A moment of a run: the number that was reserved for it, the state, and what is said about it. -/
structure Moment where
  ordinal : Nat
  env : Environment
  line : Nat
  description : String
  returned : Option Value
  console : String
deriving Inhabited

def Moment.step (m : Moment) (s : Setting) : Step :=
  m.env.capture s.structs m.ordinal m.line (s.code m.line) m.description m.console m.returned

structure Machine where
  env : Environment
  console : Console
  /-- The input that was not read yet. -/
  input : List Char
  recorder : Recorder Moment
deriving Inhabited

def Machine.start (input : String) : Machine := ⟨.empty, .empty, input.toList, .empty⟩

/-- A piece of a run. A halt keeps the state that was reached. -/
abbrev Run := EStateM Halt Machine

namespace Run

variable {α : Type}

def fail (cause : Fault.Cause) (pos : Position) : Run α := throw (.fault ⟨cause, pos⟩)

def ofFault : Except Fault α → Run α
  | .ok a => pure a
  | .error f => throw (.fault f)

def ofCause (pos : Position) : Except Fault.Cause α → Run α
  | .ok a => pure a
  | .error cause => fail cause pos

/-- A piece that was made sure not to be at fault: if it is, that is internal. -/
def assured (x : Run α) : Run α := fun m =>
  match x m with
  | .error (.fault f) m' => .error (.fault { f with cause := .internal f.cause }) m'
  | r => r

def environment : Run Environment := return (← get).env

def changeEnvironment (f : Environment → Environment) : Run Unit :=
  modify fun m => { m with env := f m.env }

def print (text : String) : Run Unit :=
  modify fun m => { m with console := m.console.print text }

def record (s : Setting) (line : Nat) (description : String) (returned : Option Value) :
    Run Unit := do
  let m ← get
  match m.recorder.reserve s.limits s.cancelled with
  | .error h => throw h
  | .ok ordinal =>
    let console := m.console.snapshot
    let moment : Moment := ⟨ordinal, m.env, line, description, returned, console.shared.text⟩
    -- the copy stays made even if the step is refused
    set { m with console }
    match m.recorder.push s.limits console.shared (moment.step s).size moment with
    | .error h => throw h
    | .ok recorder => set { m with console, recorder }

end Run

end Stepwise
