import Stepwise.Proofs.Lasting

/-! What a trace needs of each limit, read off its steps: how many they are, how deep calls are nested
at them, and how many bytes they are taken to need. The recorder keeps the last of these as it goes,
looking at which copy of the console a step holds and never at its text; the copies tell the same. -/

namespace Stepwise

open Run

variable {s : Setting}

/-- The bytes of steps that follow one with the console `last`: of each its size, and its console when
that has changed. -/
def Step.estimateAfter (last : Option String) : List Step → Nat
  | [] => 0
  | x :: rest =>
    x.size + (if last = some x.console then 0 else x.console.utf8ByteSize) +
      estimateAfter (some x.console) rest

namespace Trace

def estimate (t : Trace) : Nat := Step.estimateAfter none t.steps

/-- The most calls that are under way at a step of a trace. -/
def deepest (t : Trace) : Nat := t.steps.foldr (fun x deepest => max x.callStack.length deepest) 0

theorem callStack_le_deepest {t : Trace} {x : Step} (hx : x ∈ t.steps) :
    x.callStack.length ≤ t.deepest := by
  obtain ⟨steps, status⟩ := t
  unfold deepest
  induction steps with
  | nil => exact absurd hx List.not_mem_nil
  | cons y rest ih =>
    rw [List.foldr_cons]
    rcases List.mem_cons.mp hx with rfl | hx
    · exact Nat.le_max_left _ _
    · exact Nat.le_trans (ih hx) (Nat.le_max_right _ _)

end Trace

theorem Step.estimateAfter_concat (last : Option String) (xs : List Step) (x : Step) :
    estimateAfter last (xs ++ [x]) = estimateAfter last xs + (x.size +
      if (xs.getLast?.map Step.console).or last = some x.console then 0
      else x.console.utf8ByteSize) := by
  induction xs generalizing last with
  | nil => exact (Nat.zero_add _).symm
  | cons y rest ih =>
    rw [List.cons_append, estimateAfter, estimateAfter, ih, List.getLast?_cons]
    cases rest.getLast? <;> exact (Nat.add_assoc _ _ _).symm

/-- A copy that the console has handed out, whose text has been added to since if it is not the last one. -/
structure Console.Gave (c : Console) (k : Copy) : Prop where
  number_le : k.number ≤ c.shared.number
  same : k.number = c.shared.number → k = c.shared
  size_le : k.text.utf8ByteSize ≤ c.text.utf8ByteSize
  size_lt : k.number < c.shared.number ∨ c.dirty = true → k.text.utf8ByteSize < c.text.utf8ByteSize

namespace Console.Gave

variable {c : Console} {k : Copy}

theorem now (c : Console) : c.snapshot.Gave c.snapshot.shared where
  number_le := Nat.le_refl _
  same _ := rfl
  size_le := by simp
  size_lt := by simp

theorem print (h : c.Gave k) (text : String) : (c.print text).Gave k := by
  unfold Console.print
  split
  · exact h
  · rename_i nonempty
    have longer : k.text.utf8ByteSize < (c.text ++ text).utf8ByteSize := by
      have : 0 < text.utf8ByteSize := by
        simpa [String.isEmpty, Nat.pos_iff_ne_zero] using nonempty
      have := h.size_le
      rw [String.utf8ByteSize_append]
      omega
    exact ⟨h.number_le, h.same, Nat.le_of_lt longer, fun _ => longer⟩

theorem snapshot (h : c.Gave k) : c.snapshot.Gave k := by
  unfold Console.snapshot
  split
  · rename_i dirty
    -- the new copy has a number that none before it had
    have older := h.number_le
    refine ⟨Nat.le_succ_of_le older, fun same => ?_, h.size_le, fun _ => h.size_lt (.inr dirty)⟩
    have : k.number = c.shared.number + 1 := same
    omega
  · exact h

/-- The same copy is handed out again just when the text is the same. -/
theorem number_eq_iff (h : c.Gave k) : k.number = c.snapshot.shared.number ↔ k.text = c.text := by
  have later := h.snapshot
  constructor
  · intro same
    rw [later.same same, c.text_shared_snapshot]
  · intro same
    have older := later.number_le
    refine Nat.le_antisymm older (Nat.not_lt.mp fun earlier => ?_)
    have shorter := later.size_lt (.inl earlier)
    rw [c.text_snapshot, same] at shorter
    exact Nat.lt_irrefl _ shorter

end Console.Gave

/-- The copy that a recorder keeps is the one that its newest item shows. -/
structure Recorder.Holds {α : Type} (shown : α → String) (r : Recorder α) (c : Console) : Prop where
  fresh : r.items = [] → r.held = none
  last : ∀ x ∈ r.items.head?, ∃ k, c.Gave k ∧ r.held = some k ∧ shown x = k.text

namespace Recorder.Holds

variable {α : Type} {shown : α → String} {r r' : Recorder α} {c : Console} {x : α}

theorem print (h : r.Holds shown c) (text : String) : r.Holds shown (c.print text) where
  fresh := h.fresh
  last y hy :=
    have ⟨k, gave, held⟩ := h.last y hy
    ⟨k, gave.print text, held⟩

theorem snapshot (h : r.Holds shown c) : r.Holds shown c.snapshot where
  fresh := h.fresh
  last y hy :=
    have ⟨k, gave, held⟩ := h.last y hy
    ⟨k, gave.snapshot, held⟩

theorem push (items : r'.items = x :: r.items) (held : r'.held = some c.snapshot.shared)
    (text : shown x = c.text) : r'.Holds shown c.snapshot where
  fresh none := by
    rw [items] at none
    cases none
  last y hy := by
    rw [items] at hy
    obtain rfl : x = y := Option.some.inj hy
    exact ⟨_, .now c, held, by rw [text, c.text_shared_snapshot]⟩

/-- The copy is the one to hand out now just when the newest item shows the text of now. -/
theorem held_eq_iff (h : r.Holds shown c) : r.held.map Copy.number = some c.snapshot.shared.number ↔
    r.items.head?.map shown = some c.text := by
  cases hr : r.items with
  | nil => simp [h.fresh hr]
  | cons y rest =>
    obtain ⟨k, gave, held, text⟩ := h.last y (by rw [hr]; rfl)
    simp [held, text, gave.number_eq_iff]

/-- What an item is charged for the console, by texts. -/
theorem consoleSize_eq (h : r.Holds shown c) : r.consoleSize c.snapshot.shared =
    if r.items.head?.map shown = some c.text then 0 else c.text.utf8ByteSize := by
  simp only [consoleSize, h.held_eq_iff, Console.text_shared_snapshot]

end Recorder.Holds

def Recorder.steps (r : Recorder Moment) (s : Setting) : List Step :=
  r.toList.map (·.step s)

theorem Machine.steps_recorded (m : Machine) (s : Setting) (x : Moment) :
    (m.recorded s x).recorder.steps s = m.recorder.steps s ++ [x.step s] := by
  rw [Recorder.steps, m.recorded_toList, List.map_append]
  rfl

theorem Recorder.Extends.steps {r r' : Recorder Moment} (h : r.Extends r') (s : Setting) :
    r.steps s <+: r'.steps s := by
  obtain ⟨newer, hr⟩ := h.items
  unfold Recorder.steps Recorder.toList
  rw [← hr, List.reverse_append, List.map_append]
  exact List.prefix_append _ _

theorem Program.trace_of_ok {p : Program} {input : String} {u : Unit} {m : Machine}
    (h : runProgram s p.globals (.start input) = .ok u m) :
    p.trace s input = ⟨m.recorder.steps s, .completed⟩ := by
  simp only [trace, run, h]
  rfl

theorem Program.trace_of_error {p : Program} {input : String} {e : Halt} {m : Machine}
    (h : runProgram s p.globals (.start input) = .error e m) :
    p.trace s input = ⟨m.recorder.steps s, e.status (m.recorder.steps s).length⟩ := by
  simp only [trace, run, h]
  rfl

/-- The count of bytes is right, and what is kept of the newest item's console fits its text. -/
structure Accounted (s : Setting) (r : Recorder Moment) (c : Console) : Prop where
  used : r.used = Step.estimateAfter none (r.steps s)
  holds : r.Holds Moment.console c

namespace Accounted

variable {r : Recorder Moment} {c : Console}

theorem getLast?_steps (r : Recorder Moment) (s : Setting) :
    (r.steps s).getLast?.map Step.console = r.items.head?.map Moment.console := by
  rw [Recorder.steps, List.getLast?_map, Recorder.toList, List.getLast?_reverse, Option.map_map]
  rfl

theorem record (m : Machine) (line : Nat) (description : String) (returned : Option Value)
    (h : Accounted s m.recorder m.console) :
    Accounted s (m.recorded s (m.moment line description returned)).recorder m.console.snapshot where
  used := by
    rw [m.steps_recorded, Step.estimateAfter_concat, getLast?_steps, Option.or_none, ← h.used]
    show _ + (_ + Recorder.consoleSize _ _) = _
    rw [h.holds.consoleSize_eq]
    rfl
  holds := .push rfl rfl rfl

theorem lasting (s : Setting) : Lasting s (Accounted s) where
  print _ _ text h := ⟨h.used, h.holds.print text⟩
  copy _ _ h := ⟨h.used, h.holds.snapshot⟩
  record m line description returned h _ _ := record m line description returned h

theorem start : Accounted s .empty .empty := ⟨rfl, fun _ => rfl, fun _ hx => nomatch hx⟩

/-- The bytes that a run has counted are those of its steps. -/
theorem runProgram (s : Setting) (globals : List Decl) (input : String) :
    Leaves (Stepwise.runProgram s globals) (.start input) fun m => Accounted s m.recorder m.console :=
  Keeps.runProgram s globals _ (lasting s) (.start input) start

end Accounted

end Stepwise
