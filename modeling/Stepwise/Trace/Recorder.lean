import Stepwise.Halt
import Stepwise.Limits
import Stepwise.Trace.Console

/-! Recording under limits. What is recorded is any kind of item of which a size is known; a
recording that would go over a limit is refused and changes nothing. -/

namespace Stepwise

/-- Recorded items (the newest first) and how many they are, the bytes they are taken to need, and
the copy of the console that the newest holds. -/
structure Recorder (α : Type) where
  items : List α
  count : Nat
  used : Nat
  held : Option Copy
  count_eq : count = items.length

namespace Recorder

variable {α : Type}

def empty : Recorder α := ⟨[], 0, 0, none, rfl⟩

instance : Inhabited (Recorder α) := ⟨empty⟩

def toList (r : Recorder α) : List α := r.items.reverse

/-- The number of the next item, unless the run was called off or has no step left. -/
def reserve (r : Recorder α) (limits : Limits) (cancelled : Bool) : Except Halt Nat :=
  if cancelled then .error .cancelled
  else if limits.steps ≤ r.count then .error (.excess (.steps limits.steps))
  else .ok r.count

/-- The bytes of the console that an item adds: none when it holds the same copy as the last. -/
def consoleSize (r : Recorder α) (copy : Copy) : Nat :=
  if r.held.map Copy.number = some copy.number then 0 else copy.text.utf8ByteSize

def push (r : Recorder α) (limits : Limits) (copy : Copy) (size : Nat) (item : α) :
    Except Halt (Recorder α) :=
  let used := r.used + (size + r.consoleSize copy)
  if limits.memory < used then .error (.excess (.memory r.used limits.memory))
  else .ok
    { items := item :: r.items
      count := r.count + 1
      used
      held := some copy
      count_eq := by rw [List.length_cons, r.count_eq] }

end Recorder

end Stepwise
