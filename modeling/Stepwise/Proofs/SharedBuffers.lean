import Stepwise.Proofs.Accounting

/-! What recorded steps are charged for the console. A step is charged for its console unless it holds the same
copy as the step before it, and a new copy is made only when something was printed since the last. This amounts
to comparing texts, and to counting prints, however prints, copies and refused steps follow each other; so the
bytes counted are a sum over the steps as they are. -/

namespace Stepwise

/-- A console and a recorder of steps. Beside them it is counted how often something was printed, up to now and
up to the newest step. -/
structure Recording where
  console : Console
  recorder : Recorder Step
  prints : Nat
  lastPrints : Option Nat

inductive RecordOp where
  | print (text : String)
  | snapshot
  | push (s : Step)

namespace Recording

def start : Recording := ⟨.empty, .empty, 0, none⟩

def carrying (r : Recording) (s : Step) : Step := { s with console := r.console.snapshot.shared.text }

def push (limits : Limits) (r : Recording) (s : Step) : Except Halt (Recorder Step) :=
  r.recorder.push limits r.console.snapshot.shared (r.carrying s).size (r.carrying s)

def perform (limits : Limits) (r : Recording) : RecordOp → Recording
  | .print text =>
    { r with
      console := r.console.print text
      prints := if text.isEmpty then r.prints else r.prints + 1 }
  | .snapshot => { r with console := r.console.snapshot }
  | .push s =>
    match r.push limits s with
    | .ok recorder => { r with console := r.console.snapshot, recorder, lastPrints := some r.prints }
    | .error _ => { r with console := r.console.snapshot }

def performAll (limits : Limits) (ops : List RecordOp) : Recording := ops.foldl (perform limits) start

/-- The bytes of the console that the next step adds, if only prints are counted. -/
def countedSize (r : Recording) : Nat :=
  if r.lastPrints = some r.prints then 0 else r.console.text.utf8ByteSize

def lastText (r : Recording) : Option String := r.recorder.toList.getLast?.map Step.console

/-! Counting prints -/

/-- A text that was all text after `n` prints, as seen from now. -/
structure Since (r : Recording) (n : Nat) (text : String) : Prop where
  prints : n ≤ r.prints
  size : text.utf8ByteSize ≤ r.console.text.utf8ByteSize
  same : n = r.prints ↔ text = r.console.text

variable {limits : Limits} {r : Recording} {n : Nat} {text : String}

theorem Since.now (r : Recording) : r.Since r.prints r.console.text :=
  ⟨Nat.le_refl _, Nat.le_refl _, by simp⟩

theorem Since.print (h : r.Since n text) (more : String) : (r.perform limits (.print more)).Since n text := by
  unfold perform Console.print
  by_cases empty : more.isEmpty = true
  · simp only [empty, if_true]
    exact h
  · simp only [empty]
    have fewer := h.prints
    have longer : text.utf8ByteSize < (r.console.text ++ more).utf8ByteSize := by
      have : 0 < more.utf8ByteSize := by
        simpa [String.isEmpty, Nat.pos_iff_ne_zero] using empty
      have := h.size
      rw [String.utf8ByteSize_append]
      omega
    refine ⟨Nat.le_succ_of_le fewer, Nat.le_of_lt longer, iff_of_false (fun same => ?_) (fun same => ?_)⟩
    · have : n = r.prints + 1 := same
      omega
    · have : text = r.console.text ++ more := same
      rw [← this] at longer
      exact Nat.lt_irrefl _ longer

theorem Since.of_text {r' : Recording} (h : r.Since n text) (prints : r'.prints = r.prints)
    (same : r'.console.text = r.console.text) : r'.Since n text :=
  ⟨prints ▸ h.prints, same ▸ h.size, by rw [prints, same, h.same]⟩

/-! What the recorder keeps -/

/-- The count of bytes is right and within the limit, and what is kept of the newest step's console fits it. -/
structure Sound (limits : Limits) (r : Recording) : Prop where
  used : r.recorder.used = Step.estimateAfter none r.recorder.toList
  within : r.recorder.used ≤ limits.memory
  holds : r.recorder.Holds Step.console r.console
  fresh : r.recorder.items = [] → r.lastPrints = none
  counted : ∀ x ∈ r.recorder.items.head?, ∃ n, r.lastPrints = some n ∧ r.Since n x.console

theorem Sound.start : Sound limits start where
  used := rfl
  within := Nat.zero_le _
  holds := ⟨fun _ => rfl, fun _ hx => nomatch hx⟩
  fresh _ := rfl
  counted _ hx := nomatch hx

theorem lastText_eq (r : Recording) : r.lastText = r.recorder.items.head?.map Step.console := by
  rw [lastText, Recorder.toList, List.getLast?_reverse]

/-- Copies tell a console that has not changed. -/
theorem Sound.held_eq_iff (h : Sound limits r) :
    r.recorder.held.map Copy.number = some r.console.snapshot.shared.number ↔
      r.lastText = some r.console.text := by
  rw [h.holds.held_eq_iff, lastText_eq]

/-- Counting tells it as well. -/
theorem Sound.lastPrints_eq_iff (h : Sound limits r) :
    r.lastPrints = some r.prints ↔ r.lastText = some r.console.text := by
  rw [lastText_eq]
  cases hr : r.recorder.items with
  | nil => simp [h.fresh hr]
  | cons x rest =>
    obtain ⟨n, prints, since⟩ := h.counted x (by rw [hr]; rfl)
    simp [prints, since.same]

theorem Sound.consoleSize_eq (h : Sound limits r) :
    r.recorder.consoleSize r.console.snapshot.shared = r.countedSize := by
  rw [h.holds.consoleSize_eq, countedSize]
  simp only [h.lastPrints_eq_iff, lastText_eq]

/-- The recorder reckons a step at what it adds to the sum. -/
theorem Sound.reckoned (h : Sound limits r) (s : Step) :
    r.recorder.used + ((r.carrying s).size + r.recorder.consoleSize r.console.snapshot.shared) =
      Step.estimateAfter none (r.recorder.toList ++ [r.carrying s]) := by
  have shown : (r.carrying s).console = r.console.text := r.console.text_shared_snapshot
  rw [Step.estimateAfter_concat, ← h.used, Option.or_none, shown, h.holds.consoleSize_eq, ← lastText_eq]
  rfl

theorem toList_of_items {recorder recorder' : Recorder Step} {x : Step}
    (h : recorder'.items = x :: recorder.items) : recorder'.toList = recorder.toList ++ [x] := by
  rw [Recorder.toList, h, List.reverse_cons]
  rfl

theorem Sound.push_eq (h : Sound limits r) {s : Step}
    (fits : Step.estimateAfter none (r.recorder.toList ++ [r.carrying s]) ≤ limits.memory) :
    ∃ recorder, r.push limits s = .ok recorder ∧ recorder.items = r.carrying s :: r.recorder.items ∧
      recorder.used = Step.estimateAfter none (r.recorder.toList ++ [r.carrying s]) ∧
      recorder.held = some r.console.snapshot.shared := by
  unfold push Recorder.push
  rw [h.reckoned, if_neg (Nat.not_lt.mpr fits)]
  exact ⟨_, rfl, rfl, rfl, rfl⟩

theorem Sound.push_refused (h : Sound limits r) {s : Step}
    (exceeds : limits.memory < Step.estimateAfter none (r.recorder.toList ++ [r.carrying s])) :
    r.push limits s = .error (.excess (.memory r.recorder.used limits.memory)) := by
  unfold push Recorder.push
  rw [h.reckoned, if_pos exceeds]

/-! One operation, and all of them -/

theorem Sound.print (h : Sound limits r) (text : String) : Sound limits (r.perform limits (.print text)) where
  used := h.used
  within := h.within
  holds := h.holds.print text
  fresh := h.fresh
  counted x hx := by
    obtain ⟨n, prints, since⟩ := h.counted x hx
    exact ⟨n, prints, since.print text⟩

theorem Sound.snapshot (h : Sound limits r) : Sound limits { r with console := r.console.snapshot } where
  used := h.used
  within := h.within
  holds := h.holds.snapshot
  fresh := h.fresh
  counted x hx := by
    obtain ⟨n, prints, since⟩ := h.counted x hx
    exact ⟨n, prints, since.of_text rfl r.console.text_snapshot⟩

theorem Sound.push (h : Sound limits r) (s : Step) : Sound limits (r.perform limits (.push s)) := by
  rcases Nat.lt_or_ge limits.memory
    (Step.estimateAfter none (r.recorder.toList ++ [r.carrying s])) with exceeds | fits
  · simp only [perform, h.push_refused exceeds]
    exact h.snapshot
  · obtain ⟨recorder, added, items, used, held⟩ := h.push_eq fits
    have shown : (r.carrying s).console = r.console.text := r.console.text_shared_snapshot
    simp only [perform, added]
    refine ⟨?_, ?_, .push items held shown, ?_, ?_⟩
    · rw [used, toList_of_items items]
    · rw [used]
      exact fits
    · intro none
      rw [items] at none
      cases none
    · intro x hx
      rw [items] at hx
      obtain rfl := Option.some.inj hx
      refine ⟨r.prints, rfl, ?_⟩
      rw [shown]
      exact (Since.now r).of_text rfl r.console.text_snapshot

theorem Sound.perform (h : Sound limits r) (op : RecordOp) : Sound limits (r.perform limits op) := by
  cases op with
  | print text => exact h.print text
  | snapshot => exact h.snapshot
  | push s => exact h.push s

theorem Sound.performAll (limits : Limits) (ops : List RecordOp) : Sound limits (performAll limits ops) := by
  have kept (r : Recording) (h : Sound limits r) : Sound limits (ops.foldl (Recording.perform limits) r) := by
    induction ops generalizing r with
    | nil => exact h
    | cons op ops ih => exact ih _ (h.perform op)
  exact kept Recording.start .start

structure Exact (limits : Limits) (r : Recording) : Prop where
  /-- A step shows what was printed up to it. -/
  shown : ∀ s, (r.carrying s).console = r.console.text
  /-- The bytes counted are those of all steps, and of the consoles of those that show another text than the
  step before or are the first. -/
  used : r.recorder.used = Step.estimateAfter none r.recorder.toList
  within : r.recorder.used ≤ limits.memory
  /-- The newest step holds the copy that is handed out now just when it shows the text of now. -/
  shared : r.recorder.held.map Copy.number = some r.console.snapshot.shared.number ↔
    r.lastText = some r.console.text
  /-- Nothing was printed since the newest step just then. -/
  uncharged : r.lastPrints = some r.prints ↔ r.lastText = some r.console.text
  /-- So a step is charged for the console as if prints were counted. -/
  counted : r.recorder.consoleSize r.console.snapshot.shared = r.countedSize
  /-- A step that would take too many bytes is refused, and the recorder stays what it was. -/
  refused : ∀ s, limits.memory < Step.estimateAfter none (r.recorder.toList ++ [r.carrying s]) →
    r.push limits s = .error (.excess (.memory r.recorder.used limits.memory)) ∧
      (r.perform limits (.push s)).recorder = r.recorder
  /-- Any other step is recorded behind the others. -/
  recorded : ∀ s, Step.estimateAfter none (r.recorder.toList ++ [r.carrying s]) ≤ limits.memory →
    r.push limits s = .ok (r.perform limits (.push s)).recorder ∧
      (r.perform limits (.push s)).recorder.toList = r.recorder.toList ++ [r.carrying s]

end Recording

/-- The bytes that a recorder has counted are exact after every history of prints, copies and steps, refused
ones among them. -/
theorem recording_exact (limits : Limits) (ops : List RecordOp) :
    (Recording.performAll limits ops).Exact limits := by
  have sound := Recording.Sound.performAll limits ops
  exact
    { shown := fun _ => Console.text_shared_snapshot _
      used := sound.used
      within := sound.within
      shared := sound.held_eq_iff
      uncharged := sound.lastPrints_eq_iff
      counted := sound.consoleSize_eq
      refused := fun s exceeds => by
        have error := sound.push_refused exceeds
        exact ⟨error, by simp only [Recording.perform, error]⟩
      recorded := fun s fits => by
        obtain ⟨recorder, added, items, -⟩ := sound.push_eq fits
        simp only [Recording.perform, added]
        exact ⟨trivial, Recording.toList_of_items items⟩ }

/-- A step that is refused for its size leaves room for a smaller one, which is charged for the console that
none before it was. -/
example :
    let blank (description : String) : Step :=
      ⟨0, 1, "", description, .empty, .empty, .empty, .empty, "", [], none⟩
    (Recording.performAll ⟨9, 9, 219⟩ [.print "ab", .push (blank "assign"), .snapshot, .print "",
      .push (blank "x")]).recorder.used = 219 := by
  decide +kernel

end Stepwise
