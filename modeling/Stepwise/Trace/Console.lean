/-! What a program has printed, and the copies of it that steps hold. -/

namespace Stepwise

/-- A copy of a text, with a number that tells it from other copies. -/
structure Copy where
  number : Nat
  text : String
deriving DecidableEq, Repr, Inhabited

/-- All text printed so far, the copy of it that was made last, and whether something was printed
since. -/
structure Console where
  text : String
  shared : Copy
  dirty : Bool
  shared_text : dirty = false → shared.text = text

namespace Console

def empty : Console := ⟨"", ⟨0, ""⟩, false, fun _ => rfl⟩

instance : Inhabited Console := ⟨empty⟩

def print (c : Console) (text : String) : Console :=
  if text.isEmpty then c else ⟨c.text ++ text, c.shared, true, Bool.noConfusion⟩

/-- Makes a new copy to hand out, unless nothing was printed since the last one was made. -/
def snapshot (c : Console) : Console :=
  if c.dirty then ⟨c.text, ⟨c.shared.number + 1, c.text⟩, false, fun _ => rfl⟩ else c

@[simp]
theorem text_snapshot (c : Console) : c.snapshot.text = c.text := by
  unfold snapshot
  split <;> rfl

@[simp]
theorem dirty_snapshot (c : Console) : c.snapshot.dirty = false := by
  unfold snapshot
  split
  · rfl
  · simp_all

/-- The copy that is handed out has the whole text. -/
@[simp]
theorem text_shared_snapshot (c : Console) : c.snapshot.shared.text = c.text := by
  rw [c.snapshot.shared_text c.dirty_snapshot, text_snapshot]

end Console

end Stepwise
