import Stepwise.Proofs.Lasting

/-! Every run ends. The evaluator recurses on fuel, of which a call takes one unit and a turn of a loop
another. Both record a step before they can come round again, and the limit on steps refuses the step
after the last, so fuel beyond that limit is never used up: a recorded step pays for a unit of fuel. -/

namespace Stepwise

open Run

variable {α β : Type} {s : Setting} {n k : Nat}

/-- A reason to halt that is not the evaluator's own: it may be called off, but not give up. -/
def Halt.Genuine (s : Setting) : Halt → Prop
  | .outOfFuel => False
  | .cancelled => s.cancelled
  | .fault _ | .excess _ => True

/-- A piece that does not run out of fuel and stays within the limit on steps, when it is begun within
that limit and the steps still free are fewer than `n`. -/
def Ends (s : Setting) (n : Nat) (x : Run α) : Prop :=
  ∀ m, m.recorder.count ≤ s.limits.steps → s.limits.steps < n + m.recorder.count →
    Ensures x m
      (fun _ m' => m.recorder.count ≤ m'.recorder.count ∧ m'.recorder.count ≤ s.limits.steps)
      (fun e m' => e.Genuine s ∧ m'.recorder.count ≤ s.limits.steps)

namespace Ends

/-- With fewer than no steps free there is nothing to show. -/
theorem zero (x : Run α) : Ends s 0 x := by
  intro m hm hn
  omega

theorem mono {x : Run α} (hx : Ends s n x) (hk : k ≤ n) : Ends s k x :=
  fun m hm hn => hx m hm (by omega)

/-- More fuel than the limit on steps is enough for any state. -/
theorem ofFuel {x : Run α} (hk : s.limits.steps < k) (hx : Ends s k x) : Ends s n x :=
  fun m hm _ => hx m hm (by omega)

theorem ofQuiet {x : Run α} (hx : Quiet x) : Ends s n x := by
  intro m hm hn
  refine (hx m).mono (fun a m' h => ?_) fun e m' h => ?_
  · rw [h.1]
    exact ⟨Nat.le_refl _, hm⟩
  · obtain ⟨⟨f, rfl⟩, hr, -⟩ := h
    rw [hr]
    exact ⟨trivial, hm⟩

theorem print (text : String) : Ends s n (Run.print text) := fun _ hm _ => ⟨Nat.le_refl _, hm⟩

theorem bind {x : Run α} {f : α → Run β} (hx : Ends s n x) (hf : ∀ a, Ends s n (f a)) :
    Ends s n (x >>= f) := by
  intro m hm hn
  refine Ensures.bind ((hx m hm hn).mono (fun a m' h => ?_) fun _ _ h => h)
  refine (hf a m' h.2 (by omega)).mono (fun b m'' h' => ?_) fun _ _ h => h
  exact ⟨Nat.le_trans h.1 h'.1, h'.2⟩

theorem output (format : String) (values : List Value) (pos : Position) :
    Ends s n (printFormatted format values pos) :=
  (ofQuiet (steady_ofFormat pos _).quiet).bind fun text => (print text).bind fun _ =>
    ofQuiet (quiet_pure text)

/-- A recorded step pays for one unit of fuel. -/
theorem afterRecord {x : Run α} (hx : Ends s n x) (line : Nat) (description : String)
    (returned : Option Value) :
    Ends s (n + 1) (do Run.record s line description returned; x) := by
  intro m hm hn
  refine Ensures.bind ((record_ensures s line description returned m).mono ?_ ?_)
  · rintro - m' ⟨rfl, hlt, -⟩
    have hn' : s.limits.steps < n + (m.recorder.count + 1) := by omega
    refine (hx (m.recorded s (m.moment line description returned)) hlt hn').mono ?_ fun _ _ h => h
    exact fun a m'' h => ⟨Nat.le_trans (Nat.le_succ _) h.1, h.2⟩
  · rintro e m' ⟨same, he⟩
    have genuine : e.Genuine s := by
      obtain ⟨rfl, hc⟩ | ⟨excess, rfl⟩ := he
      · exact hc
      · trivial
    obtain rfl | rfl := same <;> exact ⟨genuine, hm⟩

theorem record (line : Nat) (description : String) (returned : Option Value) :
    Ends s n (Run.record s line description returned) := by
  have h : Ends s (n + 1) (do Run.record s line description returned; pure ()) :=
    (ofQuiet (quiet_pure ())).afterRecord line description returned
  rw [bind_pure_unit] at h
  exact h.mono (Nat.le_succ n)

/-- A loop ends that has fuel for the steps still free, since each of its tests records one. -/
theorem loop {test : Run Bool} {body : Run Flow} {update : Run Unit} (ht : Ends s n test)
    (hb : Ends s n body) (hu : Ends s n update) (line : Nat) (text : Bool → String) (k j : Nat)
    (hjk : j ≤ k) (hjn : j ≤ n) :
    Ends s j (loop (do let b ← test; Run.record s line (text b) none; return b) body update k) := by
  induction k generalizing j with
  | zero =>
    obtain rfl : j = 0 := by omega
    exact zero _
  | succ k ih =>
    cases j with
    | zero => exact zero _
    | succ j =>
      unfold Stepwise.loop
      simp only [bind_assoc, pure_bind]
      refine (ht.mono hjn).bind fun b => afterRecord ?_ line (text b) none
      -- one step later the loop has a unit of fuel less
      have again := (hu.mono (by omega)).bind fun _ => ih j (by omega) (by omega)
      cases b with
      | false => exact ofQuiet (quiet_pure _)
      | true =>
        refine (hb.mono (by omega)).bind fun flow => ?_
        cases flow with
        | normal => exact again
        | continueLoop => exact again
        | breakLoop => exact ofQuiet (quiet_pure _)
        | leave v => exact ofQuiet (quiet_pure _)

/-- A loop with more fuel than the limit on steps ends wherever it begins. -/
theorem fullLoop (hf : s.limits.steps < s.fuel) {test : Run Bool} {body : Run Flow}
    {update : Run Unit} (ht : Ends s n test) (hb : Ends s n body) (hu : Ends s n update) (line : Nat)
    (text : Bool → String) : Ends s n
      (Stepwise.loop (do let b ← test; Run.record s line (text b) none; return b) body update
        s.fuel) := by
  rcases Nat.le_total n s.fuel with h | h
  · exact loop ht hb hu line text s.fuel n h (Nat.le_refl n)
  · exact ofFuel hf (loop ht hb hu line text s.fuel s.fuel (Nat.le_refl _) h)

def congruence (hf : s.limits.steps < s.fuel) (n : Nat) : Congruence s s where
  Rel x _ := Ends s n x
  code := .refl s
  quiet := ofQuiet
  output := output
  record := record
  bind := bind
  loop ht hb hu := fullLoop hf ht hb hu _ _

theorem checkDepth (f : Function) (pos : Position) : Ends s n (checkDepth s f pos) := by
  intro m hm hn
  refine (checkDepth_ensures s m f pos).mono ?_ ?_
  · rintro - m' rfl
    exact ⟨Nat.le_refl _, hm⟩
  · rintro e m' ⟨rfl, rfl⟩
    exact ⟨trivial, hm⟩

/-- A call ends that has fuel for the steps still free: it records one before its body runs. -/
theorem callFunction (hf : s.limits.steps < s.fuel) (n : Nat) (f : Function) (args : List Value)
    (line : Nat) (pos : Position) : Ends s n (callFunction s n f args line pos) := by
  induction n generalizing f args line pos with
  | zero => exact zero _
  | succ n ih =>
    have calls : (congruence hf n).Calls (s.handlerWithin n) (s.handlerWithin n) :=
      fun f args pos => ih f args pos.line pos
    have body : Ends s n (runBody s (s.handlerWithin n) f) := (congruence hf n).runBody_rel calls f
    have left : Ends s n (do
        let v ← runBody s (s.handlerWithin n) f
        Run.changeEnvironment Environment.popFrame
        return v) :=
      body.bind fun v => ofQuiet ((quiet_changeEnvironment _).bind fun _ => quiet_pure v)
    refine (checkDepth f pos).bind fun _ => ?_
    unfold runInFrame openFrame
    simp only [bind_assoc]
    exact (ofQuiet (steady_checkArity f args pos).quiet).bind fun _ =>
      (ofQuiet (quiet_changeEnvironment _)).bind fun _ =>
      (ofQuiet (quiet_bindParams pos f.params args)).bind fun bound => left.afterRecord _ _ _

theorem runProgram (hf : s.limits.steps < s.fuel) (globals : List Decl) :
    Ends s s.fuel (runProgram s globals) :=
  (congruence hf s.fuel).runProgram_rel (callFunction hf s.fuel) globals

end Ends

/-- The second piece does what the first does, unless that runs out of fuel. -/
def Prolongs (x x' : Run α) : Prop := ∀ m, x m = x' m ∨ ∃ m', x m = .error .outOfFuel m'

namespace Prolongs

theorem refl (x : Run α) : Prolongs x x := fun _ => .inl rfl

theorem bind {x x' : Run α} {f f' : α → Run β} (hx : Prolongs x x')
    (hf : ∀ a, Prolongs (f a) (f' a)) : Prolongs (x >>= f) (x' >>= f') := by
  intro m
  rcases hx m with h | ⟨m', h⟩
  · cases hm : x m with
    | ok a m' =>
      rw [bind_ok hm, bind_ok (h ▸ hm)]
      exact hf a m'
    | error e m' =>
      rw [bind_error hm, bind_error (h ▸ hm)]
      exact .inl rfl
  · exact .inr ⟨m', bind_error h⟩

theorem loop {test test' : Run Bool} {body body' : Run Flow} {update update' : Run Unit}
    (ht : Prolongs test test') (hb : Prolongs body body') (hu : Prolongs update update')
    (k k' : Nat) (hk : k ≤ k') :
    Prolongs (loop test body update k) (Stepwise.loop test' body' update' k') := by
  have all := loop_rel (fun _ => refl _) bind ht hb hu (k' - k) (fun m => .inr ⟨m, rfl⟩) k
  rwa [Nat.sub_add_cancel hk] at all

def congruence (s : Setting) (fuel : Nat) (hf : s.fuel ≤ fuel) : Congruence s { s with fuel } where
  Rel := Prolongs
  code := ⟨rfl, rfl⟩
  quiet _ := refl _
  output _ _ _ := refl _
  record _ _ _ := refl _
  bind := bind
  loop ht hb hu := loop (ht.bind fun _ => refl _) hb hu s.fuel fuel hf

theorem callFunction {fuel : Nat} (hf : s.fuel ≤ fuel) (n n' : Nat) (hn : n ≤ n') (f : Function)
    (args : List Value) (line : Nat) (pos : Position) :
    Prolongs (callFunction s n f args line pos)
      (Stepwise.callFunction { s with fuel } n' f args line pos) := by
  induction n generalizing n' f args line pos with
  | zero => exact fun m => .inr ⟨m, rfl⟩
  | succ n ih =>
    obtain ⟨n', rfl⟩ : ∃ j, n' = j + 1 := ⟨n' - 1, by omega⟩
    have calls : (congruence s fuel hf).Calls (s.handlerWithin n)
        (Setting.handlerWithin { s with fuel } n') :=
      fun f args pos => ih n' (by omega) f args pos.line pos
    exact bind (refl _) fun _ => (congruence s fuel hf).runInFrame_rel calls f args line pos

end Prolongs

/-- Fuel beyond the limit on steps makes no difference. -/
theorem runProgram_fuel (hf : s.limits.steps < s.fuel) {fuel : Nat} (hle : s.fuel ≤ fuel)
    (globals : List Decl) (input : String) :
    runProgram { s with fuel } globals (.start input) = runProgram s globals (.start input) := by
  have longer := (Prolongs.congruence s fuel hle).runProgram_rel
    (Prolongs.callFunction hle s.fuel fuel hle) globals
  rcases longer (.start input) with h | ⟨m', h⟩
  · exact h.symm
  · exact absurd ((Ends.runProgram hf globals (.start input) (Nat.zero_le _) hf).error h).1 id

theorem Program.trace_status (p : Program) (s : Setting) (input : String) :
    (p.trace s input).status = match (p.run s input).2 with
      | .ok () => .completed
      | .error e => e.status (p.trace s input).steps.length := rfl

/-- No limit on steps, depth or memory is one on time. -/
theorem Halt.not_genuine_of_time {e : Halt} {count : Nat} {message : String}
    (hc : s.cancelled = false) (h : e.status count = .limitExceeded .time message) :
    ¬ e.Genuine s := by
  cases e with
  | fault f => exact nomatch h
  | excess excess => cases excess <;> exact nomatch h
  | cancelled => simp [Genuine, hc]
  | outOfFuel => exact id

theorem run_ends (p : Program) (hf : s.limits.steps < s.fuel) (input : String) :
    (∀ e, (p.run s input).2 = .error e → e.Genuine s) ∧
      (p.run s input).1.length ≤ s.limits.steps := by
  have h := Ends.runProgram hf p.globals (.start input) (Nat.zero_le _) (by omega)
  have hlen (m : Machine) (hm : m.recorder.count ≤ s.limits.steps) :
      m.recorder.toList.length ≤ s.limits.steps := by
    rwa [Recorder.toList, List.length_reverse, ← m.recorder.count_eq]
  unfold Program.run
  split
  · rename_i hr
    exact ⟨nofun, hlen _ (h.ok hr).2⟩
  · rename_i hr
    refine ⟨?_, hlen _ (h.error hr).2⟩
    rintro e ⟨⟩
    exact (h.error hr).1

/-- Every run comes to an end of its own: the evaluator does not run out of fuel, and no other amount
of fuel beyond the limit on steps would change anything. The reason is that a loop records a step each
time its condition is tested, a call records one before its body runs, and once as many steps are
recorded as the limit allows the next one is refused. -/
theorem run_terminates (p : Program) (source input : String) (limits : Limits) (cancelled : Bool) :
    let s := Setting.ofProgram p source limits cancelled
    (p.run s input).2 ≠ .error .outOfFuel ∧
    (p.run s input).1.length ≤ limits.steps ∧
    (cancelled = false → ∀ message, (p.trace s input).status ≠ .limitExceeded .time message) ∧
    (∀ fuel, limits.steps < fuel → p.run { s with fuel } input = p.run s input) ∧
    (∀ n cond pos m, Ensures (testLoop s (s.handlerWithin n) cond pos) m
      (fun _ m' => m.recorder.count < m'.recorder.count) (fun _ _ => True)) ∧
    (∀ f args line pos m, Ensures (openFrame s f args line pos) m
      (fun _ m' => m'.recorder.count = m.recorder.count + 1) (fun _ _ => True)) ∧
    (∀ line description returned m, limits.steps ≤ m.recorder.count →
      ∃ e, Run.record s line description returned m = .error e m) := by
  intro s
  have hf : s.limits.steps < s.fuel := Nat.lt_succ_self _
  obtain ⟨genuine, short⟩ := run_ends p hf input
  refine ⟨fun h => genuine _ h, short, ?_, ?_, testLoop_records, ?_, ?_⟩
  · intro hc message h
    rw [p.trace_status] at h
    cases hr : (p.run s input).2 with
    | ok u =>
      rw [hr] at h
      exact nomatch h
    | error e =>
      rw [hr] at h
      exact Halt.not_genuine_of_time hc h (genuine e hr)
  · intro fuel hfuel
    unfold Program.run
    rw [runProgram_fuel hf hfuel]
  · intro f args line pos m
    refine (openFrame_records f args line pos m).mono ?_ fun _ _ => id
    rintro - m' ⟨x, items, -⟩
    rw [m'.recorder.count_eq, m.recorder.count_eq, items, List.length_cons]
  · intro line description returned m hm
    rw [record_eq]
    split
    · exact ⟨_, rfl⟩
    · exact ⟨_, if_pos hm⟩

end Stepwise
