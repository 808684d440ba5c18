import Stepwise.Decimal.Numeral
import Stepwise.Text.Blank

/-! The limits of a run, and how they are set from outside. -/

namespace Stepwise

structure Limits where
  /-- How many steps may be recorded. -/
  steps : Nat
  /-- How many calls may be under way at once; the first function counts. -/
  depth : Nat
  /-- How many bytes the recorded steps may take, as estimated. -/
  memory : Nat
deriving DecidableEq, Repr

namespace Limits

def standard : Limits := ⟨200000, 5000, 1073741824⟩

/-- A limit written as text: a number of 64 bits, blanks around it, and perhaps a plus sign. -/
def read? (text : String) : Option Nat :=
  (Decimal.readNat? 10 (Text.trim text.toList)).filter (· < UInt64.size)

def variableNames : List String := ["CTRACE_STEP_BUDGET", "CTRACE_MAX_DEPTH", "CTRACE_SNAPSHOT_MEMORY"]

/-- The standard limits but for those that the surroundings set; a text that is no limit sets
none. -/
def ofVariables (lookup : String → Option String) : Limits :=
  let limit (name : String) (default : Nat) := ((lookup name).bind read?).getD default
  { steps := limit "CTRACE_STEP_BUDGET" standard.steps
    depth := limit "CTRACE_MAX_DEPTH" standard.depth
    memory := limit "CTRACE_SNAPSHOT_MEMORY" standard.memory }

end Limits

end Stepwise
