import Stepwise.Halt
import Stepwise.Program.Error
import Stepwise.Trace.Step

/-! Traces: the steps of a run and how it ended. -/

namespace Stepwise

inductive Status where
  | completed
  | parseError (line column : Nat) (message : String)
  /-- A fault, with the number that the next step would have had. -/
  | runtimeError (kind : Fault.Kind) (message : String) (stepIndex : Nat)
      (line column : Option Nat)
  | limitExceeded (kind : Excess.Kind) (message : String)
deriving DecidableEq, Repr, Inhabited

def Halt.status (h : Halt) (count : Nat) : Status :=
  match h with
  | .fault f => .runtimeError f.cause.kind f.message count f.pos.line f.pos.column
  | .excess e => .limitExceeded e.kind e.message
  | .cancelled | .outOfFuel => .limitExceeded .time h.message

structure Trace where
  steps : List Step
  status : Status
deriving BEq, Inhabited

namespace Trace

def ofParseError (e : ParseError) : Trace :=
  ⟨[], .parseError e.pos.line e.pos.column e.message⟩

def finish (steps : List Step) (outcome : Except Halt Unit) : Trace where
  steps := steps
  status := match outcome with
    | .ok () => .completed
    | .error h => h.status steps.length

def isCompleted (t : Trace) : Bool := t.status = .completed

def lastStep? (t : Trace) : Option Step := t.steps.getLast?

end Trace

end Stepwise
