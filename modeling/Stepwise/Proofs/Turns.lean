import Stepwise.Proofs.Clauses

/-! The steps of a loop. A loop whose head and body run no functions turns some number of times, and what it
records follows from that number alone: a step of its test before each turn and one after the last, and
between two tests the steps of the body's statements, one for each. -/

namespace Stepwise

open Run

variable {α β : Type} {s : Setting} {call : CallHandler} {m m' : Machine}

/-! Code that runs no function records nothing while it is evaluated -/

/-- The effect runs a function; `free` is none. -/
def Effect.runsFunction : Effect → Bool
  | .call name => name != "free"
  | .store | .declare | .newNode | .print | .read => false

def RunsNone (effects : List Effect) : Prop := ∀ x ∈ effects, x.runsFunction = false

instance (effects : List Effect) : Decidable (RunsNone effects) :=
  inferInstanceAs (Decidable (∀ x ∈ effects, x.runsFunction = false))

theorem RunsNone.allows {effects : List Effect} (h : RunsNone effects) :
    (Trait.keeps Machine.recorder).AllowsAll s call effects := by
  have aside (m : Machine) (env : Environment) : Machine.recorder { m with env } = m.recorder := rfl
  intro x hx
  cases x with
  | call name => exact Trait.keeps_call aside fun other => absurd (bne_eq_false_iff_eq.mp (h _ hx)) other
  | store => exact Trait.keeps_store aside
  | declare => exact Trait.keeps_declare aside
  | newNode => exact Trait.keeps_newNode aside
  | print =>
    intro format values pos
    exact Trait.look (.of_inspects fun _ => inspects_ofFormat pos _) fun text =>
      Trait.andLook (fun _ => rfl) fun _ => looks_pure text
  | read =>
    intro format targets places pos m
    exact ((steady_readFormatted format targets places pos).quiet m).mono (fun _ _ h => h.1)
      fun _ _ h => h.2.1

theorem runOptionalClause_recorder {c : Option Simple}
    (h : ∀ x ∈ c, RunsNone x.effects ∧ x.usesConsole = false) :
    (Trait.keeps Machine.recorder).Has (runOptionalClause s call c) := by
  cases c with
  | none => exact Trait.pure ()
  | some c =>
    obtain ⟨noCalls, console⟩ := h c rfl
    show (Trait.keeps Machine.recorder).Has (runClause s call c)
    rw [runClause_eq console, discard_eq]
    exact Trait.andLook (Trait.perform_has c noCalls.allows) fun _ => looks_pure ()

/-! One step -/

/-- The step of number `i` is the one that was recorded when `x` ran, which gave `a`. -/
def StepOf (steps : List Moment) (i : Nat) (x : Run α) (a : α) : Prop :=
  i < steps.length ∧ ∃ m m', x m = .ok a m' ∧ m.recorder.toList = steps.take i ∧
    m'.recorder.toList = steps.take (i + 1)

namespace StepOf

variable {steps more : List Moment} {i : Nat} {x : Run α} {a : α}

theorem of_recorded {y : Moment} (h : x m = .ok a m')
    (recorded : m'.recorder.toList = m.recorder.toList ++ [y]) :
    StepOf m'.recorder.toList m.recorder.toList.length x a := by
  refine ⟨by simp [recorded], m, m', h, ?_, ?_⟩
  · rw [recorded, List.take_left]
  · exact (List.take_of_length_le (by simp [recorded])).symm

/-- What is recorded later does not matter. -/
theorem mono (h : StepOf steps i x a) (later : steps <+: more) : StepOf more i x a := by
  obtain ⟨bound, m, m', run, before, after⟩ := h
  have long := later.length_le
  refine ⟨by omega, m, m', run, ?_, ?_⟩
  · rw [before, List.prefix_iff_eq_take.mp later, List.take_take]
    congr 1
    omega
  · rw [after, List.prefix_iff_eq_take.mp later, List.take_take]
    congr 1
    omega

/-- What is true of the last step whenever the piece has run is true of this one. -/
theorem getElem? (h : StepOf steps i x a) {P : Moment → Prop}
    (told : ∀ m m', x m = .ok a m' → ∃ y before, m'.recorder.toList = before ++ [y] ∧ P y) :
    ∃ y, steps[i]? = some y ∧ P y := by
  obtain ⟨bound, m, m', run, -, after⟩ := h
  obtain ⟨y, before, last, hy⟩ := told m m' run
  refine ⟨y, ?_, hy⟩
  have ends : (steps.take (i + 1)).getLast? = some y := by
    rw [← after, last, List.getLast?_concat]
  rwa [List.getLast?_take, if_neg (Nat.succ_ne_zero i), Nat.add_sub_cancel,
    List.getElem?_eq_getElem bound, Option.some_or, ← List.getElem?_eq_getElem bound] at ends

end StepOf

theorem runSimple_adds {c : Simple} (noCalls : RunsNone c.effects)
    (h : runSimple s call c m = .ok () m') :
    ∃ y, m'.recorder.toList = m.recorder.toList ++ [y] := by
  obtain ⟨text, m₁, performed, rfl⟩ := runSimple_eq_ok h
  have kept : m₁.recorder = m.recorder := (Trait.perform_has c noCalls.allows m).ok performed
  exact ⟨_, kept ▸ m₁.recorded_toList s _⟩

def loopText (cond : Option Expr) (holds : Bool) : String :=
  "loop condition " ++ (cond.map Expr.render).getD "(empty)" ++ " is " ++
    (if holds then "true" else "false")

theorem testLoop_eq_ok {cond : Option Expr} {pos : Position} {holds : Bool}
    (h : testLoop s call cond pos m = .ok holds m') : ∃ m₁, loopCondition s call cond pos m = .ok holds m₁ ∧
      m' = m₁.recorded s (m₁.moment pos.line (loopText cond holds) none) := by
  obtain ⟨result, m₁, tested, rest⟩ := bind_eq_ok h
  obtain ⟨⟨⟩, m₂, recorded, ended⟩ := bind_eq_ok rest
  cases ended
  refine ⟨m₁, tested, ?_⟩
  cases cond with
  | none => exact record_eq_ok recorded
  | some e => exact record_eq_ok recorded

theorem testLoop_adds {cond : Option Expr} {pos : Position} {holds : Bool}
    (noCalls : ∀ e ∈ cond, RunsNone e.effects) (h : testLoop s call cond pos m = .ok holds m') :
    ∃ y, m'.recorder.toList = m.recorder.toList ++ [y] := by
  obtain ⟨m₁, tested, rfl⟩ := testLoop_eq_ok h
  have kept : m₁.recorder = m.recorder := by
    cases cond with
    | none => exact ((looks_pure true).ok tested) ▸ rfl
    | some e => exact (Trait.evalCondition_has (noCalls e rfl).allows pos m).ok tested
  exact ⟨_, kept ▸ m₁.recorded_toList s _⟩

/-! The body -/

structure StepsOf (s : Setting) (call : CallHandler) (body : List Simple) (before after : List Moment) :
    Prop where
  kept : before <+: after
  length : after.length = before.length + body.length
  step : ∀ j c, body[j]? = some c → StepOf after (before.length + j) (runSimple s call c) ()

variable {returns : CType} {body : List Simple} {flow : Flow}

theorem runStmts_steps (noCalls : ∀ c ∈ body, RunsNone c.effects)
    (h : runStmts s call returns (body.map .simple) m = .ok flow m') :
    flow = .normal ∧ StepsOf s call body m.recorder.toList m'.recorder.toList := by
  induction body generalizing m with
  | nil =>
    cases h
    exact ⟨rfl, List.prefix_rfl, rfl, fun j c hc => by cases hc⟩
  | cons c rest ih =>
    obtain ⟨way, m₁, first, others⟩ := bind_eq_ok h
    obtain ⟨⟨⟩, m₂, ran, ended⟩ := bind_eq_ok first
    cases ended
    obtain ⟨hc, hrest⟩ := List.forall_mem_cons.mp noCalls
    obtain ⟨y, recorded⟩ := runSimple_adds hc ran
    obtain ⟨normal, steps⟩ := ih hrest others
    have count : m₁.recorder.toList.length = m.recorder.toList.length + 1 := by simp [recorded]
    refine ⟨normal, (recorded ▸ List.prefix_append _ _).trans steps.kept, ?_, ?_⟩
    · rw [steps.length, count, List.length_cons]
      omega
    · intro j c' hc'
      cases j with
      | zero =>
        cases hc'
        exact (StepOf.of_recorded ran recorded).mono steps.kept
      | succ j =>
        have later := steps.step j c' hc'
        rw [count] at later
        rwa [Nat.add_assoc, Nat.add_comm 1 j] at later

theorem inBlock_eq_ok {x : Run Flow} (h : inBlock x m = .ok flow m') :
    ∃ m₁, x { m with env := m.env.openBlock } = .ok flow m₁ ∧ m' = { m₁ with env := m₁.env.closeBlock } := by
  obtain ⟨⟨⟩, m₀, opened, rest⟩ := bind_eq_ok h
  cases opened
  obtain ⟨way, m₁, ran, rest⟩ := bind_eq_ok rest
  obtain ⟨⟨⟩, m₂, closed, ended⟩ := bind_eq_ok rest
  cases closed
  cases ended
  exact ⟨m₁, ran, rfl⟩

theorem inBlock_steps (noCalls : ∀ c ∈ body, RunsNone c.effects)
    (h : inBlock (runStmts s call returns (body.map .simple)) m = .ok flow m') :
    flow = .normal ∧ StepsOf s call body m.recorder.toList m'.recorder.toList := by
  obtain ⟨m₁, ran, rfl⟩ := inBlock_eq_ok h
  -- neither the start nor the end of a block is recorded
  have steps := runStmts_steps noCalls ran
  exact steps

/-! Turns -/

/-- A loop turns a number of times: as often its test holds, its body goes on normally and its update is
made, and then the test fails. -/
inductive Turns (test : Run Bool) (body : Run Flow) (update : Run Unit) : Nat → Machine → Machine → Prop
  | done {m m' : Machine} : test m = .ok false m' → Turns test body update 0 m m'
  | turn {n : Nat} {m m₁ m₂ m₃ m' : Machine} : test m = .ok true m₁ → body m₁ = .ok .normal m₂ →
      update m₂ = .ok () m₃ → Turns test body update n m₃ m' → Turns test body update (n + 1) m m'

theorem turns_of_loop {test : Run Bool} {turn : Run Flow} {update : Run Unit}
    (normal : ∀ {m way m'}, turn m = .ok way m' → way = .normal) {fuel : Nat}
    (h : loop test turn update fuel m = .ok flow m') :
    flow = .normal ∧ ∃ n, Turns test turn update n m m' := by
  induction fuel generalizing m with
  | zero => cases h
  | succ fuel ih =>
    obtain ⟨holds, m₁, tested, rest⟩ := bind_eq_ok h
    cases holds with
    | false =>
      cases rest
      exact ⟨rfl, 0, .done tested⟩
    | true =>
      obtain ⟨way, m₂, turned, rest⟩ := bind_eq_ok rest
      cases normal turned
      obtain ⟨⟨⟩, m₃, updated, rest⟩ := bind_eq_ok rest
      obtain ⟨ends, n, turns⟩ := ih rest
      exact ⟨ends, n + 1, .turn tested turned updated turns⟩

/-- From `before` to `after`, a loop that turned `n` times recorded its steps: those of its test stand at
the multiples of one more than the body has statements, and each body's follow the test that let it run. -/
structure LoopSteps (s : Setting) (call : CallHandler) (cond : Option Expr) (pos : Position)
    (body : List Simple) (n : Nat) (before after : List Moment) : Prop where
  kept : before <+: after
  length : after.length = before.length + ((n + 1) + n * body.length)
  test : ∀ k ≤ n, StepOf after (before.length + k * (body.length + 1)) (testLoop s call cond pos)
    (decide (k < n))
  statement : ∀ k < n, ∀ j c, body[j]? = some c →
    StepOf after (before.length + k * (body.length + 1) + 1 + j) (runSimple s call c) ()
  testText : ∀ k ≤ n, ∃ y, after[before.length + k * (body.length + 1)]? = some y ∧
    y.line = pos.line ∧ y.description = loopText cond (decide (k < n)) ∧ y.returned = none
  statementLine : ∀ k < n, ∀ j c, body[j]? = some c →
    ∃ y, after[before.length + k * (body.length + 1) + 1 + j]? = some y ∧ y.line = c.pos.line

/-- What the steps say follows from what they are steps of. -/
theorem LoopSteps.of_stepOf {cond : Option Expr} {pos : Position} {n : Nat} {before after : List Moment}
    (kept : before <+: after) (length : after.length = before.length + ((n + 1) + n * body.length))
    (test : ∀ k ≤ n, StepOf after (before.length + k * (body.length + 1)) (testLoop s call cond pos)
      (decide (k < n)))
    (statement : ∀ k < n, ∀ j c, body[j]? = some c →
      StepOf after (before.length + k * (body.length + 1) + 1 + j) (runSimple s call c) ()) :
    LoopSteps s call cond pos body n before after where
  kept := kept
  length := length
  test := test
  statement := statement
  testText k hk := (test k hk).getElem? fun m m' h => by
    obtain ⟨m₁, -, rfl⟩ := testLoop_eq_ok h
    exact ⟨_, _, m₁.recorded_toList s _, rfl, rfl, rfl⟩
  statementLine k hk j c hc := (statement k hk j c hc).getElem? fun m m' h => by
    obtain ⟨text, m₁, -, rfl⟩ := runSimple_eq_ok h
    exact ⟨_, _, m₁.recorded_toList s _, rfl⟩

theorem Turns.steps {cond : Option Expr} {pos : Position} {update : Run Unit} {n : Nat}
    (test : ∀ e ∈ cond, RunsNone e.effects) (noCalls : ∀ c ∈ body, RunsNone c.effects)
    (hupdate : (Trait.keeps Machine.recorder).Has update)
    (h : Turns (testLoop s call cond pos) (inBlock (runStmts s call returns (body.map .simple))) update
      n m m') : LoopSteps s call cond pos body n m.recorder.toList m'.recorder.toList := by
  -- each turn adds the steps of one test and one body before those of the turns that are left
  induction h with
  | done tested =>
    obtain ⟨y, recorded⟩ := testLoop_adds test tested
    refine .of_stepOf (recorded ▸ List.prefix_append _ _) (by simp [recorded]) (fun k hk => ?_)
      fun k hk => by omega
    obtain rfl : k = 0 := by omega
    simpa using StepOf.of_recorded tested recorded
  | @turn n m m₁ m₂ m₃ m' tested turned updated turns ih =>
    obtain ⟨y, recorded⟩ := testLoop_adds test tested
    have steps := (inBlock_steps noCalls turned).2
    have same : m₃.recorder = m₂.recorder := (hupdate m₂).ok updated
    rw [same] at ih
    have count : m₁.recorder.toList.length = m.recorder.toList.length + 1 := by simp [recorded]
    have total := steps.length
    have further (k : Nat) : m₂.recorder.toList.length + k * (body.length + 1) =
        m.recorder.toList.length + (k + 1) * (body.length + 1) := by
      rw [total, count, Nat.add_one_mul]
      omega
    refine .of_stepOf ((recorded ▸ List.prefix_append _ _).trans (steps.kept.trans ih.kept)) ?_ ?_ ?_
    · rw [ih.length, total, count, Nat.add_one_mul]
      omega
    · intro k hk
      cases k with
      | zero => simpa using (StepOf.of_recorded tested recorded).mono (steps.kept.trans ih.kept)
      | succ k =>
        have later := ih.test k (by omega)
        rw [further] at later
        simpa using later
    · intro k hk j c hc
      cases k with
      | zero =>
        have now := (steps.step j c hc).mono ih.kept
        rw [count] at now
        simpa using now
      | succ k =>
        have later := ih.statement k (by omega) j c hc
        rwa [further] at later

/-- A loop over statements that run no function, which comes to its end, turned some number of times, and
recorded just the steps of that many turns; a clause of its head that runs no function and neither prints
nor reads records none. -/
theorem loop_steps (s : Setting) (call : CallHandler) (returns : CType) (body : List Simple)
    (noCalls : ∀ c ∈ body, RunsNone c.effects) (m m' : Machine) (flow : Flow) (pos : Position) :
    let turn := inBlock (runStmts s call returns (body.map .simple))
    (∀ cond : Expr, RunsNone cond.effects →
      runStmt s call returns (.whileLoop cond (body.map .simple) pos) m = .ok flow m' →
      flow = .normal ∧ ∃ n, Turns (testLoop s call (some cond) pos) turn (pure ()) n m m' ∧
        LoopSteps s call (some cond) pos body n m.recorder.toList m'.recorder.toList) ∧
    ∀ (init update : Option Simple) (cond : Option Expr), (∀ e ∈ cond, RunsNone e.effects) →
      (∀ c ∈ init, RunsNone c.effects ∧ c.usesConsole = false) →
      (∀ c ∈ update, RunsNone c.effects ∧ c.usesConsole = false) →
      runStmt s call returns (.forLoop init cond update (body.map .simple) pos) m = .ok flow m' →
      flow = .normal ∧ ∃ n m₁ m₂,
        runOptionalClause s call init { m with env := m.env.openBlock } = .ok () m₁ ∧
        Turns (testLoop s call cond pos) turn (runOptionalClause s call update) n m₁ m₂ ∧
        m' = { m₂ with env := m₂.env.closeBlock } ∧ m₁.recorder = m.recorder ∧
        (∀ m, Leaves (runOptionalClause s call update) m (·.recorder = m.recorder)) ∧
        LoopSteps s call cond pos body n m.recorder.toList m'.recorder.toList := by
  intro turn
  have normal {m way m'} (h : turn m = .ok way m') : way = .normal := (inBlock_steps noCalls h).1
  refine ⟨fun cond hcond h => ?_, fun init update cond hcond hinit hupdate h => ?_⟩
  · obtain ⟨ends, n, turns⟩ := turns_of_loop normal h
    exact ⟨ends, n, turns, turns.steps (fun e he => Option.mem_some.mp he ▸ hcond) noCalls (Trait.pure ())⟩
  · obtain ⟨m₂, ran, rfl⟩ := inBlock_eq_ok h
    obtain ⟨⟨⟩, m₁, begun, looped⟩ := bind_eq_ok ran
    have first : m₁.recorder = m.recorder :=
      (runOptionalClause_recorder hinit { m with env := m.env.openBlock }).ok begun
    obtain ⟨ends, n, turns⟩ := turns_of_loop normal looped
    have steps := turns.steps hcond noCalls (runOptionalClause_recorder hupdate)
    rw [first] at steps
    exact ⟨ends, n, m₁, m₂, begun, turns, rfl, first, runOptionalClause_recorder hupdate, steps⟩

/-- Three turns over a declaration and a print record ten steps, and a loop that never turns records one. -/
theorem loop_steps_three :
    let pos : Position := ⟨1, 1⟩
    let s : Setting := ⟨[], .ofDefs [], #[], ⟨100, 9, 99999⟩, false, 101⟩
    let m : Machine := { Machine.start "" with env := Environment.empty.pushFrame (.enter ⟨"main", 0, 1⟩) }
    let i : Expr := .var "i" pos
    let cond : Expr := .binary (.compare .lt) i (.int 3 pos) pos
    let init : Simple := .declare (.scalar "i" ⟨.int, 0⟩ (some (.int 0 pos)) pos)
    let update : Simple := .effect (.step .postInc i pos) pos
    let body : List Simple := [.declare (.scalar "k" ⟨.int, 0⟩ (some i) pos),
      .effect (.print "%d" [.var "k" pos] pos) pos]
    let counting : Stmt := .forLoop (some init) (some cond) (some update) (body.map .simple) pos
    let idle : Stmt := .whileLoop (.int 0 pos) (body.map .simple) pos
    (∃ m', runStmt s s.handler ⟨.int, 0⟩ counting m = .ok .normal m' ∧ m'.console.text = "012" ∧
      LoopSteps s s.handler (some cond) pos body 3 m.recorder.toList m'.recorder.toList) ∧
    ∃ m', runStmt s s.handler ⟨.int, 0⟩ idle m = .ok .normal m' ∧
      LoopSteps s s.handler (some (.int 0 pos)) pos body 0 m.recorder.toList m'.recorder.toList := by
  intro pos s m i cond init update body counting idle
  have counted : Ensures (runStmt s s.handler ⟨.int, 0⟩ counting) m
      (fun _ m' => m'.console.text = "012" ∧ m'.recorder.toList.length = 10) (fun _ _ => False) := by
    decide +kernel
  have idled : Ensures (runStmt s s.handler ⟨.int, 0⟩ idle) m
      (fun _ m' => m'.recorder.toList.length = 1) (fun _ _ => False) := by
    decide +kernel
  obtain ⟨flow, m', counted, text, ten⟩ := counted.exists_ok
  obtain ⟨flow', m₁, idled, one⟩ := idled.exists_ok
  have noCalls : ∀ c ∈ body, RunsNone c.effects := by decide
  have steps := loop_steps s s.handler ⟨.int, 0⟩ body noCalls
  obtain ⟨rfl, n, -, -, -, -, -, -, -, three⟩ := (steps m m' flow pos).2 (some init) (some update) (some cond)
    (by decide) (by decide) (by decide) counted
  obtain ⟨rfl, n', -, zero⟩ := (steps m m₁ flow' pos).1 (.int 0 pos) (by decide) idled
  -- how often each of them turned follows from how much it recorded
  obtain rfl : n = 3 := by
    have total : 10 = 0 + ((n + 1) + n * 2) := ten.symm.trans three.length
    omega
  obtain rfl : n' = 0 := by
    have total : 1 = 0 + ((n' + 1) + n' * 2) := one.symm.trans zero.length
    omega
  exact ⟨⟨m', counted, text, three⟩, m₁, idled, zero⟩

end Stepwise
