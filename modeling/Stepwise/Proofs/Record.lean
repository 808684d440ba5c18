import Stepwise.Proofs.Ensures

/-! Where a run meets its limits. Recording a step is refused, which changes nothing but that the console
may have a new copy, or it puts the present moment in front of those recorded before; entering a function
only looks at the depth. -/

namespace Stepwise

open Run

namespace Machine

def momentAs (m : Machine) (ordinal line : Nat) (description : String) (returned : Option Value) : Moment :=
  ⟨ordinal, m.env, line, description, returned, m.console.text⟩

/-- The present moment under the number that is reserved for it. -/
def moment (m : Machine) (line : Nat) (description : String) (returned : Option Value) : Moment :=
  m.momentAs m.recorder.count line description returned

def charge (m : Machine) (s : Setting) (x : Moment) : Nat :=
  (x.step s).size + m.recorder.consoleSize m.console.snapshot.shared

def copied (m : Machine) : Machine := { m with console := m.console.snapshot }

def recorded (m : Machine) (s : Setting) (x : Moment) : Machine :=
  { m.copied with recorder :=
    { items := x :: m.recorder.items
      count := m.recorder.count + 1
      used := m.recorder.used + m.charge s x
      held := some m.console.snapshot.shared
      count_eq := by rw [List.length_cons, m.recorder.count_eq] } }

theorem recorded_items (m : Machine) (s : Setting) (x : Moment) :
    (m.recorded s x).recorder.items = x :: m.recorder.items := rfl

/-- Afterwards only the number of the next moment is another. -/
theorem momentAs_recorded (m : Machine) (s : Setting) (x : Moment) (ordinal line : Nat) (description : String)
    (returned : Option Value) : (m.recorded s x).momentAs ordinal line description returned =
      m.momentAs ordinal line description returned :=
  congrArg (Moment.mk ordinal m.env line description returned) m.console.text_snapshot

theorem push_eq (m : Machine) (s : Setting) (x : Moment) :
    m.recorder.push s.limits m.console.snapshot.shared (x.step s).size x =
      if s.limits.memory < m.recorder.used + m.charge s x then
        .error (.excess (.memory m.recorder.used s.limits.memory))
      else .ok (m.recorded s x).recorder := rfl

theorem recorded_toList (m : Machine) (s : Setting) (x : Moment) :
    (m.recorded s x).recorder.toList = m.recorder.toList ++ [x] := List.reverse_cons

end Machine

variable (s : Setting) (line : Nat) (description : String) (returned : Option Value) (m : Machine)

theorem record_eq : Run.record s line description returned m =
    if s.cancelled then .error .cancelled m
    else if s.limits.steps ≤ m.recorder.count then .error (.excess (.steps s.limits.steps)) m
    else if s.limits.memory < m.recorder.used + m.charge s (m.moment line description returned) then
      .error (.excess (.memory m.recorder.used s.limits.memory)) m.copied
    else .ok () (m.recorded s (m.moment line description returned)) := by
  have hget : (get : Run Machine) m = .ok m m := rfl
  unfold Run.record
  rw [bind_ok hget]
  unfold Recorder.reserve
  split
  · rfl
  · split
    · rfl
    · have hset : (set m.copied : Run Unit) m = .ok () m.copied := rfl
      refine (bind_ok hset).trans ?_
      rw [Console.text_shared_snapshot, Machine.push_eq]
      unfold Machine.moment Machine.momentAs
      split <;> rfl

/-- What recording comes to; only a free step with enough memory is taken. -/
theorem record_ensures : Ensures (Run.record s line description returned) m
    (fun _ m' => m' = m.recorded s (m.moment line description returned) ∧
      m.recorder.count < s.limits.steps ∧
      m.recorder.used + m.charge s (m.moment line description returned) ≤ s.limits.memory)
    (fun e m' => (m' = m ∨ m' = m.copied) ∧
      (e = .cancelled ∧ s.cancelled ∨ ∃ excess, e = .excess excess)) := by
  have h := record_eq s line description returned m
  by_cases hc : s.cancelled
  · rw [if_pos hc] at h
    exact (ensures_iff_of_error h).mpr ⟨.inl rfl, .inl ⟨rfl, hc⟩⟩
  rw [if_neg hc] at h
  by_cases hs : s.limits.steps ≤ m.recorder.count
  · rw [if_pos hs] at h
    exact (ensures_iff_of_error h).mpr ⟨.inl rfl, .inr ⟨_, rfl⟩⟩
  rw [if_neg hs] at h
  by_cases hm : s.limits.memory < m.recorder.used + m.charge s (m.moment line description returned)
  · rw [if_pos hm] at h
    exact (ensures_iff_of_error h).mpr ⟨.inr rfl, .inr ⟨_, rfl⟩⟩
  · rw [if_neg hm] at h
    exact (ensures_iff_of_ok h).mpr ⟨rfl, by omega, by omega⟩

theorem record_eq_ok {s line description returned m} {m' : Machine}
    (h : Run.record s line description returned m = .ok () m') :
    m' = m.recorded s (m.moment line description returned) :=
  ((record_ensures s line description returned m).ok h).1

theorem checkDepth_eq (f : Function) (pos : Position) : checkDepth s f pos m =
    if s.limits.depth ≤ m.env.depth then .error (.excess (.depth s.limits.depth f.name pos)) m
    else .ok () m := by
  show (if s.limits.depth ≤ m.env.depth then _ else _ : Run Unit) m = _
  split <;> rfl

theorem checkDepth_ensures (f : Function) (pos : Position) : Ensures (checkDepth s f pos) m
    (fun _ m' => m' = m)
    (fun e m' => m' = m ∧ e = .excess (.depth s.limits.depth f.name pos)) := by
  unfold Ensures
  rw [checkDepth_eq]
  split
  · rename_i h
    split at h <;> cases h
    rfl
  · rename_i h
    split at h <;> cases h
    exact ⟨rfl, rfl⟩

end Stepwise
