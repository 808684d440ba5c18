import Stepwise.Proofs.Effects

/-! The clauses of a loop's head. A clause is run like the statement that it would be, except that it
records no step of its own when neither printing nor reading stands in it. So what a clause prints or reads
is always shown by a step, and what is not shown by one neither prints nor reads. -/

namespace Stepwise

open Run

variable {α β : Type} {s : Setting} {call : CallHandler} {m m' : Machine}

/-! Effects that reach the console -/

def Effect.onConsole : Effect → Bool
  | .print | .read => true
  | .call _ | .store | .declare | .newNode => false

mutual

theorem Expr.offConsole (e : Expr) (h : e.usesConsole = false) :
    ∀ x ∈ e.effects, x.onConsole = false := by
  cases e with
  | int | float | char | null | var | sizeofType | sizeofExpr => exact List.forall_mem_nil _
  | unary _ e | addressOf e | deref e | field e | cast _ e => exact e.offConsole h
  | binary _ e e' | index e e' =>
    obtain ⟨h, h'⟩ := Bool.or_eq_false_iff.mp h
    exact List.forall_mem_append.mpr ⟨e.offConsole h, e'.offConsole h'⟩
  | step _ e =>
    exact List.forall_mem_append.mpr ⟨e.offConsole h, List.forall_mem_singleton.mpr rfl⟩
  | call _ es =>
    exact List.forall_mem_append.mpr ⟨effectsAll_offConsole es h, List.forall_mem_singleton.mpr rfl⟩
  | newNode => exact List.forall_mem_singleton.mpr rfl
  | print => cases h
  | read => cases h

theorem effectsAll_offConsole (es : List Expr) (h : anyUsesConsole es = false) :
    ∀ x ∈ effectsAll es, x.onConsole = false := by
  cases es with
  | nil => exact List.forall_mem_nil _
  | cons e rest =>
    obtain ⟨he, hrest⟩ := Bool.or_eq_false_iff.mp h
    exact List.forall_mem_append.mpr ⟨e.offConsole he, effectsAll_offConsole rest hrest⟩

end

theorem Decl.offConsole (d : Decl) (h : d.usesConsole = false) :
    ∀ x ∈ d.effects, x.onConsole = false := by
  have last : ∀ x ∈ [Effect.declare], x.onConsole = false := List.forall_mem_singleton.mpr rfl
  cases d with
  | scalar name type init pos =>
    cases init with
    | none => exact last
    | some e => exact List.forall_mem_append.mpr ⟨e.offConsole h, last⟩
  | array name elem size init pos =>
    cases init with
    | none => exact last
    | some es => exact List.forall_mem_append.mpr ⟨effectsAll_offConsole es h, last⟩

theorem Simple.offConsole (c : Simple) (h : c.usesConsole = false) :
    ∀ x ∈ c.effects, x.onConsole = false := by
  cases c with
  | declare d => exact d.offConsole h
  | assign target op value pos =>
    obtain ⟨htarget, hvalue⟩ := Bool.or_eq_false_iff.mp h
    exact List.forall_mem_append.mpr ⟨value.offConsole hvalue,
      List.forall_mem_append.mpr ⟨target.offConsole htarget, List.forall_mem_singleton.mpr rfl⟩⟩
  | effect e pos => exact e.offConsole h

/-! Clauses without a step of their own -/

theorem discard_eq (x : Run α) : discard x = (do let _ ← x; pure ()) := map_eq_pure_bind _ x

/-- What a value is made into does not matter where it is dropped. -/
theorem discard_thenReturn (x : Run α) (g : α → β) : discard (do return g (← x)) = discard x := by
  rw [discard_eq, discard_eq, bind_assoc]
  simp only [pure_bind]

theorem discard_describeEffect {e : Expr} (h : e.usesConsole = false) :
    discard (describeEffect s call e) = discard (evalExpr s call e) := by
  cases e with
  | print => cases h
  | read => cases h
  | step op operand pos =>
    rw [discard_eq, discard_eq]
    simp only [describeEffect, evalExpr, bind_assoc, pure_bind]
  | call name args pos => exact discard_thenReturn _ _
  | _ => exact discard_thenReturn _ _

/-- Unless it prints or reads, a clause does what the statement does, and nothing more. -/
theorem runClause_eq {c : Simple} (h : c.usesConsole = false) :
    runClause s call c = discard (perform s call c) := by
  unfold runClause
  rw [h]
  cases c with
  | declare d => rfl
  | assign target op value pos => exact (discard_thenReturn _ _).symm
  | effect e pos => exact (discard_describeEffect h).symm

/-! A clause beside the statement that it would be -/

/-- What a run shares with whoever uses it: what it printed, and what it has not read yet. -/
def Machine.outside (m : Machine) : String × List Char := (m.console.text, m.input)

def Setting.Calls (s : Setting) (c : Simple) (f : Function) : Prop :=
  ∃ name, .call name ∈ c.effects ∧ name ≠ "free" ∧ s.function? name = some f

/-- How a clause of a loop's head compares with the same text as a statement. -/
structure ClauseAgrees (s : Setting) (call : CallHandler) (c : Simple) (m : Machine) : Prop where
  /-- At most the last step of the statement is missing, the one of its own. -/
  success : ∀ m', runSimple s call c m = .ok () m' → ∃ m₁, runClause s call c m = .ok () m₁ ∧
    m₁.env = m'.env ∧ m₁.input = m'.input ∧
    if c.usesConsole then m₁.console = m'.console ∧ m₁.recorder = m'.recorder
    else m₁.console.snapshot = m'.console ∧ ∃ text, m'.recorder.toList =
      m₁.recorder.toList ++ [m'.momentAs m₁.recorder.count c.pos.line text none]
  failure : ∀ h m', runClause s call c m = .error h m' → runSimple s call c m = .error h m'
  /-- What a clause that prints or reads leaves on the console is what its own step shows. -/
  shown : c.usesConsole → ∀ m', runClause s call c m = .ok () m' →
    ∃ text m₁, perform s call c m = .ok text m₁ ∧ m'.recorder.toList =
      m₁.recorder.toList ++ [m'.momentAs m₁.recorder.count c.pos.line text none]
  /-- Without a step of its own, a clause prints and reads only where it calls a function that does. -/
  silent : c.usesConsole = false →
    (∀ f, s.Calls c f → ∀ args pos m, Leaves (call f args pos) m (·.outside = m.outside)) →
    Leaves (runClause s call c) m (·.outside = m.outside)

theorem runSimple_eq_ok {c : Simple} (h : runSimple s call c m = .ok () m') :
    ∃ text m₁, perform s call c m = .ok text m₁ ∧ m' = m₁.recorded s (m₁.moment c.pos.line text none) := by
  obtain ⟨text, m₁, performed, recorded⟩ := bind_eq_ok h
  exact ⟨text, m₁, performed, record_eq_ok recorded⟩

theorem runClause_of_usesConsole {c : Simple} (h : c.usesConsole) :
    runClause s call c = runSimple s call c := if_pos h

theorem perform_outside {c : Simple} (h : c.usesConsole = false)
    (quiet : ∀ f, s.Calls c f → ∀ args pos m, Leaves (call f args pos) m (·.outside = m.outside)) :
    (Trait.keeps Machine.outside).Has (perform s call c) := by
  have aside (m : Machine) (env : Environment) : Machine.outside { m with env } = m.outside := rfl
  refine Trait.perform_has c fun x hx => ?_
  cases x with
  | call name => exact Trait.keeps_call aside fun other f hf => quiet f ⟨name, hx, other, hf⟩
  | store => exact Trait.keeps_store aside
  | declare => exact Trait.keeps_declare aside
  | newNode => exact Trait.keeps_newNode aside
  | print => cases c.offConsole h _ hx
  | read => cases c.offConsole h _ hx

/-- Where the statement succeeds, so does the clause, in the state before or after the last step. -/
theorem runClause_of_ok {c : Simple} (h : runSimple s call c m = .ok () m') :
    ∃ text m₁, perform s call c m = .ok text m₁ ∧ m' = m₁.recorded s (m₁.moment c.pos.line text none) ∧
      runClause s call c m = .ok () (if c.usesConsole then m' else m₁) := by
  obtain ⟨text, m₁, performed, recorded⟩ := runSimple_eq_ok h
  refine ⟨text, m₁, performed, recorded, ?_⟩
  by_cases console : c.usesConsole
  · rw [runClause_of_usesConsole console, h, if_pos console]
  · rw [runClause_eq (eq_false_of_ne_true console), discard_eq, bind_ok performed, if_neg console]
    rfl

/-- A clause halts only while it does what the statement does first. -/
theorem runSimple_of_error {c : Simple} {halt : Halt} (h : runClause s call c m = .error halt m') :
    runSimple s call c m = .error halt m' := by
  by_cases console : c.usesConsole
  · rwa [runClause_of_usesConsole console] at h
  · rw [runClause_eq (eq_false_of_ne_true console), discard_eq] at h
    cases performed : perform s call c m with
    | ok text m₁ =>
      rw [bind_ok performed] at h
      cases h
    | error halt' m₁ =>
      rw [bind_error performed] at h
      cases h
      exact bind_error performed

/-- The head of a loop does what its clauses would do as statements. Only the step that a statement records
at its end can be missing, and it is not missing where something was printed or read. -/
theorem clauses_agree (s : Setting) (call : CallHandler) (c : Simple) (m : Machine) :
    ClauseAgrees s call c m where
  success := by
    intro m' h
    obtain ⟨text, m₁, -, rfl, clause⟩ := runClause_of_ok h
    refine ⟨_, clause, ?_⟩
    by_cases console : c.usesConsole
    · simp only [if_pos console, and_self]
    · simp only [if_neg console, m₁.momentAs_recorded]
      exact ⟨rfl, rfl, rfl, text, m₁.recorded_toList s _⟩
  failure _ _ := runSimple_of_error
  shown := by
    intro console m' h
    rw [runClause_of_usesConsole console] at h
    obtain ⟨text, m₁, performed, rfl⟩ := runSimple_eq_ok h
    refine ⟨text, m₁, performed, ?_⟩
    rw [m₁.momentAs_recorded]
    exact m₁.recorded_toList s _
  silent := by
    intro console quiet
    rw [runClause_eq console, discard_eq]
    exact Trait.andLook (perform_outside console quiet) (fun _ => looks_pure ()) m

/-- A clause that calls a function which prints, one that prints, and one that does neither: the second
records its own step, the first only those of the call, and the third none. -/
theorem clauses_agree_counter :
    let source := "int i; int next() \x7b printf(\"%d\", i); i = i + 1; return i; \x7d " ++
      "int main() \x7b return 0; \x7d"
    let pos : Position := ⟨1, 1⟩
    let calling : Simple := .assign (.var "i" pos) none (.call "next" [] pos) pos
    let printing : Simple := .effect (.print "x" [] pos) pos
    let counting : Simple := .effect (.step .postInc (.var "i" pos) pos) pos
    ∃ p, Program.parse source = .ok p ∧
      let s := Setting.ofProgram p source ⟨100, 9, 99999⟩ false
      ∃ m m' m₁ m₂, runGlobals s p.globals (.start "") = .ok () m ∧
        runSimple s s.handler calling m = .ok () m' ∧ runClause s s.handler calling m = .ok () m₁ ∧
        m₁.env = m'.env ∧ m₁.console.text = "0" ∧ m'.recorder.count = 6 ∧
        (∃ x, m'.recorder.toList = m₁.recorder.toList ++ [x]) ∧
        runClause s s.handler printing m = .ok () m₂ ∧
        (∃ before ordinal text, m₂.recorder.toList = before ++ [m₂.momentAs ordinal 1 text none]) ∧
        Leaves (runClause s s.handler counting) m (·.outside = m.outside) := by
  intro source pos calling printing counting
  have facts : (Program.parse source).toOption.any (fun p =>
      let s := Setting.ofProgram p source ⟨100, 9, 99999⟩ false
      Ensures (runGlobals s p.globals) (.start "") (fun _ m =>
        Ensures (runSimple s s.handler calling) m
          (fun _ m' => m'.console.text = "0" ∧ m'.recorder.count = 6) (fun _ _ => False) ∧
        Ensures (runClause s s.handler printing) m (fun _ _ => True) (fun _ _ => False))
        (fun _ _ => False)) = true := by
    decide +kernel
  obtain ⟨p, accepted, facts⟩ := Program.exists_of_any facts
  obtain ⟨⟨⟩, m, globals, called, printed⟩ := (of_decide_eq_true facts).exists_ok
  obtain ⟨⟨⟩, m', called, text, steps⟩ := called.exists_ok
  obtain ⟨⟨⟩, m₂, printed, -⟩ := printed.exists_ok
  let s := Setting.ofProgram p source ⟨100, 9, 99999⟩ false
  obtain ⟨m₁, clause, env, -, own⟩ := (clauses_agree s s.handler calling m).success m' called
  rw [if_neg (by decide)] at own
  obtain ⟨copied, last, own⟩ := own
  have same : m₁.console.text = m'.console.text := by rw [← copied, m₁.console.text_snapshot]
  obtain ⟨words, m₃, -, shown⟩ := (clauses_agree s s.handler printing m).shown rfl m₂ printed
  have silent := (clauses_agree s s.handler counting m).silent rfl fun f hf => by
    obtain ⟨name, called, -⟩ := hf
    cases List.mem_singleton.mp called
  exact ⟨p, accepted, m, m', m₁, m₂, globals, called, clause, env, same.trans text, steps,
    ⟨_, own⟩, printed, ⟨_, _, words, shown⟩, silent⟩

end Stepwise
