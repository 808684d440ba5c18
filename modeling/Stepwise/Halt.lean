import Stepwise.Fault

/-! Why a run stops before its end. -/

namespace Stepwise

inductive Excess where
  | steps (limit : Nat)
  | depth (limit : Nat) (function : String) (pos : Position)
  /-- The bytes recorded so far, to which one more step cannot be added. -/
  | memory (used limit : Nat)
deriving DecidableEq, Repr

namespace Excess

/-- The kinds of limits; nothing but a lapse of time ends a run with the last. -/
inductive Kind where
  | steps
  | depth
  | memory
  | time
deriving DecidableEq, Repr

def Kind.all : List Kind := [.steps, .depth, .memory, .time]

def Kind.name : Kind → String
  | steps => "StepBudgetExceeded"
  | depth => "RecursionDepthExceeded"
  | memory => "SnapshotMemoryExceeded"
  | time => "TimeLimitExceeded"

def kind : Excess → Kind
  | steps _ => .steps
  | depth .. => .depth
  | memory .. => .memory

def message : Excess → String
  | steps limit => s!"step budget of {limit} steps exhausted"
  | depth limit function pos =>
    s!"recursion depth limit of {limit} exceeded calling '{function}' at " ++ pos.text
  | memory used limit =>
    s!"snapshot memory limit of {limit} bytes exceeded ({used} bytes recorded)"

end Excess

inductive Halt where
  | fault (f : Fault)
  | excess (e : Excess)
  | cancelled
  /-- The recursion of the evaluator was cut off; the limit on steps is always met before. -/
  | outOfFuel
deriving DecidableEq, Repr

namespace Halt

def message : Halt → String
  | fault f => f.message
  | excess e => e.message
  | cancelled => "run cancelled"
  | outOfFuel => "out of fuel"

def faultKind? : Halt → Option Fault.Kind
  | fault f => some f.cause.kind
  | _ => none

def excessKind? : Halt → Option Excess.Kind
  | excess e => some e.kind
  | _ => none

def pos? : Halt → Option Position
  | fault f => some f.pos
  | excess (.depth _ _ pos) => some pos
  | _ => none

end Halt

end Stepwise
