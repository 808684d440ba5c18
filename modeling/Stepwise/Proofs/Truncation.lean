import Stepwise.Proofs.Accounting
import Stepwise.Proofs.Termination

/-! Limits cut a trace off and do nothing else. A run under some limits and the same run under wider
ones go the same way until the narrower limits stop the first; and a run that came to its end comes to
the same end under all limits that its trace fits into, wider or not. -/

namespace Stepwise

open Run

variable {α β : Type} {s : Setting} {limits : Limits}

def Setting.under (s : Setting) (limits : Limits) : Setting := { s with limits }

theorem Setting.under_samePace (s : Setting) (limits : Limits) : s.SamePace (s.under limits) :=
  ⟨⟨rfl, rfl⟩, rfl⟩

structure Limits.Within (c c' : Limits) : Prop where
  steps : c.steps ≤ c'.steps
  depth : c.depth ≤ c'.depth
  memory : c.memory ≤ c'.memory

/-- The first piece does what the second does, unless it goes over a limit; then all that it has
recorded the second has recorded too when it ends. -/
def Truncates (x x' : Run α) : Prop :=
  ∀ m, x m = x' m ∨ ∃ excess m₁, x m = .error (.excess excess) m₁ ∧
    Leaves x' m fun m' => m₁.recorder.Extends m'.recorder

namespace Truncates

theorem refl (x : Run α) : Truncates x x := fun _ => .inl rfl

theorem bind {x x' : Run α} {f f' : α → Run β} (hx : Truncates x x')
    (hf : ∀ a, Truncates (f a) (f' a)) (hk : ∀ a, Keeps s (f' a)) :
    Truncates (x >>= f) (x' >>= f') := by
  intro m
  rcases hx m with h | ⟨excess, m₁, h, hx'⟩
  · cases hm : x m with
    | ok a m' =>
      unfold Leaves Ensures
      rw [bind_ok hm, bind_ok (h ▸ hm)]
      exact hf a m'
    | error e m' =>
      rw [bind_error hm, bind_error (h ▸ hm)]
      exact .inl rfl
  · refine .inr ⟨excess, m₁, bind_error h, Ensures.bind (hx'.mono (fun a m' hm' => ?_) ?_)⟩
    · exact ((hk a).extends m').mono (fun _ _ => hm'.trans) fun _ _ => hm'.trans
    · exact fun _ _ h => h

theorem record (hc : s.cancelled = false) (hl : s.limits.Within limits) (line : Nat)
    (description : String) (returned : Option Value) :
    Truncates (Run.record s line description returned)
      (Run.record (s.under limits) line description returned) := by
  intro m
  have more := (Keeps.record (s := s.under limits) line description returned).extends m
  have h := record_eq s line description returned m
  rw [if_neg (by simp [hc])] at h
  by_cases hs : s.limits.steps ≤ m.recorder.count
  · rw [if_pos hs] at h
    exact .inr ⟨_, m, h, more⟩
  rw [if_neg hs] at h
  by_cases hm : s.limits.memory < m.recorder.used + m.charge s (m.moment line description returned)
  · rw [if_pos hm] at h
    exact .inr ⟨_, m.copied, h, more⟩
  rw [if_neg hm] at h
  left
  rw [h, record_eq, if_neg (by simp [Setting.under, hc]), if_neg, if_neg]
  · rfl
  · exact Nat.not_lt.mpr (Nat.le_trans (Nat.not_lt.mp hm) hl.memory)
  · exact Nat.not_le.mpr (Nat.lt_of_lt_of_le (Nat.not_le.mp hs) hl.steps)

theorem checkDepth (hl : s.limits.Within limits) (f : Function) (pos : Position) :
    Truncates (checkDepth s f pos) (Stepwise.checkDepth (s.under limits) f pos) := by
  intro m
  have more := (Keeps.checkDepth (s := s.under limits) f pos).extends m
  by_cases h : s.limits.depth ≤ m.env.depth
  · have refused : Stepwise.checkDepth s f pos m = _ := (checkDepth_eq s m f pos).trans (if_pos h)
    exact .inr ⟨_, m, refused, more⟩
  · left
    rw [checkDepth_eq, checkDepth_eq, if_neg h, if_neg]
    exact Nat.not_le.mpr (Nat.lt_of_lt_of_le (Nat.not_le.mp h) hl.depth)

def congruence (hc : s.cancelled = false) (hl : s.limits.Within limits) :
    Congruence s (s.under limits) :=
  .ofBind (fun x x' => Keeps (s.under limits) x' ∧ Truncates x x') (s.under_samePace limits)
    (fun hx => ⟨.ofQuiet hx, refl _⟩) (fun _ _ _ => ⟨.output _ _ _, refl _⟩)
    (fun _ _ _ => ⟨.record _ _ _, record hc hl _ _ _⟩)
    (fun hx hf => ⟨hx.1.bind fun a => (hf a).1, hx.2.bind (fun a => (hf a).2) fun a => (hf a).1⟩)
    ⟨.throw _, refl _⟩

theorem callFunction (hc : s.cancelled = false) (hl : s.limits.Within limits) (n : Nat)
    (f : Function) (args : List Value) (line : Nat) (pos : Position) :
    Truncates (callFunction s n f args line pos)
      (Stepwise.callFunction (s.under limits) n f args line pos) := by
  induction n generalizing f args line pos with
  | zero => exact refl _
  | succ n ih =>
    have calls : (congruence hc hl).Calls (s.handlerWithin n) ((s.under limits).handlerWithin n) :=
      fun f args pos => ⟨.callFunction _ n f args pos.line pos, ih f args pos.line pos⟩
    have framed := (congruence hc hl).runInFrame_rel calls f args line pos
    exact (checkDepth hl f pos).bind (fun _ => framed.2) fun _ => framed.1

theorem runProgram (hc : s.cancelled = false) (hl : s.limits.Within limits) (globals : List Decl) :
    Truncates (runProgram s globals) (Stepwise.runProgram (s.under limits) globals) :=
  ((congruence hc hl).runProgram_rel (fun f args line pos =>
    ⟨.callFunction _ _ f args line pos, callFunction hc hl _ f args line pos⟩) globals).2

end Truncates

structure Limits.Admits (c : Limits) (r : Recorder Moment) : Prop where
  steps : r.count ≤ c.steps
  depth : ∀ x ∈ r.items, x.env.depth ≤ c.depth
  memory : r.used ≤ c.memory

theorem Limits.Admits.mono {c : Limits} {r r' : Recorder Moment} (h : c.Admits r')
    (hr : r.Extends r') : c.Admits r where
  steps := Nat.le_trans hr.count h.steps
  depth x hx := h.depth x (hr.items.mem hx)
  memory := Nat.le_trans hr.used h.memory

/-- What the second piece does, if it ends with all that was recorded within limits, the first does. -/
def Repeats (limits : Limits) (x x' : Run α) : Prop :=
  ∀ m a m', x' m = .ok a m' → limits.Admits m'.recorder → x m = .ok a m'

namespace Repeats

theorem refl (x : Run α) : Repeats limits x x := fun _ _ _ h _ => h

theorem bind {x x' : Run α} {f f' : α → Run β} (hx : Repeats limits x x')
    (hf : ∀ a, Repeats limits (f a) (f' a)) (hk : ∀ a, Keeps s (f' a)) :
    Repeats limits (x >>= f) (x' >>= f') := by
  intro m b m' h fits
  obtain ⟨a, m₁, ha, hb⟩ := bind_eq_ok h
  have earlier := fits.mono (((hk a).extends m₁).ok hb)
  rw [bind_ok (hx m a m₁ ha earlier)]
  exact hf a m₁ b m' hb fits

theorem record (hc : s.cancelled = false) (line : Nat) (description : String)
    (returned : Option Value) :
    Repeats s.limits (Run.record s line description returned)
      (Run.record (s.under limits) line description returned) := by
  intro m a m' h fits
  obtain ⟨rfl, -, -⟩ := (record_ensures _ line description returned m).ok h
  rw [record_eq, if_neg (by simp [hc]), if_neg, if_neg]
  · rfl
  · exact Nat.not_lt.mpr fits.memory
  · exact Nat.not_le.mpr fits.steps

def congruence (hc : s.cancelled = false) (limits : Limits) : Congruence s (s.under limits) :=
  .ofBind (fun x x' => Keeps (s.under limits) x' ∧ Repeats s.limits x x') (s.under_samePace limits)
    (fun hx => ⟨.ofQuiet hx, refl _⟩) (fun _ _ _ => ⟨.output _ _ _, refl _⟩)
    (fun _ _ _ => ⟨.record _ _ _, record hc _ _ _⟩)
    (fun hx hf => ⟨hx.1.bind fun a => (hf a).1, hx.2.bind (fun a => (hf a).2) fun a => (hf a).1⟩)
    ⟨.throw _, refl _⟩

/-- A call that returns has recorded a moment with its own frame, so it was not too deep. -/
theorem checkDepth_eq_ok {n : Nat} {f : Function} {args : List Value} {line : Nat} {pos : Position}
    {m m' : Machine} {v : Value}
    (h : runInFrame (s.under limits) ((s.under limits).handlerWithin n) f args line pos m = .ok v m')
    (fits : s.limits.Admits m'.recorder) : checkDepth s f pos m = .ok () m := by
  obtain ⟨u, m₁, opened, ran⟩ := bind_eq_ok h
  obtain ⟨x, items, depth⟩ := (openFrame_records f args line pos m).ok opened
  have calls : (Keeps.congruence (s.under limits)).Calls ((s.under limits).handlerWithin n)
      ((s.under limits).handlerWithin n) := fun f args pos => .callFunction _ n f args pos.line pos
  have rest := (Keeps.congruence (s.under limits)).andThen
    ((Keeps.congruence (s.under limits)).runBody_rel calls f) fun v =>
      (quiet_changeEnvironment Environment.popFrame).bind fun _ => quiet_pure v
  have later : m₁.recorder.items <:+ m'.recorder.items := ((rest.extends m₁).ok ran).items
  have fit := fits.depth x (later.mem (items ▸ List.mem_cons_self))
  rw [checkDepth_eq, if_neg (by omega)]

theorem callFunction (hc : s.cancelled = false) (n : Nat) (f : Function) (args : List Value)
    (line : Nat) (pos : Position) :
    Repeats s.limits (callFunction s n f args line pos)
      (Stepwise.callFunction (s.under limits) n f args line pos) := by
  induction n generalizing f args line pos with
  | zero => exact refl _
  | succ n ih =>
    have calls : (congruence hc limits).Calls (s.handlerWithin n) ((s.under limits).handlerWithin n) :=
      fun f args pos => ⟨.callFunction _ n f args pos.line pos, ih f args pos.line pos⟩
    have framed := (congruence hc limits).runInFrame_rel calls f args line pos
    intro m v m' h fits
    obtain ⟨u, m₁, checked, ran⟩ := bind_eq_ok h
    obtain rfl := (checkDepth_ensures _ m f pos).ok checked
    have repeated := framed.2 m₁ v m' ran fits
    exact (bind_ok (checkDepth_eq_ok ran fits)).trans repeated

theorem runProgram (hc : s.cancelled = false) (globals : List Decl) :
    Repeats s.limits (runProgram s globals) (Stepwise.runProgram (s.under limits) globals) :=
  ((congruence hc limits).runProgram_rel (fun f args line pos =>
    ⟨.callFunction _ _ f args line pos, callFunction hc _ f args line pos⟩) globals).2

end Repeats

/-- Limits that a trace fits into admit the run that it shows. -/
theorem Limits.admits_of_trace {c : Limits} {m : Machine} {t : Trace}
    (counted : Accounted s m.recorder m.console) (shown : t.steps = m.recorder.steps s)
    (steps : t.steps.length ≤ c.steps) (depth : t.deepest ≤ c.depth)
    (memory : t.estimate ≤ c.memory) : c.Admits m.recorder where
  steps := by
    rwa [shown, Recorder.steps, List.length_map, Recorder.toList, List.length_reverse,
      ← m.recorder.count_eq] at steps
  depth x hx := by
    have mem : x.step s ∈ t.steps :=
      shown ▸ List.mem_map.mpr ⟨x, List.mem_reverse.mpr hx, rfl⟩
    have deep := Nat.le_trans (Trace.callStack_le_deepest mem) depth
    rwa [Moment.step, Environment.capture, Environment.callStack, List.length_reverse,
      List.length_map] at deep
  memory := by
    rwa [Trace.estimate, shown, ← counted.used] at memory

/-- The same run with fuel for other limits too. -/
theorem Program.trace_fuel (p : Program) (source input : String) (c : Limits) {fuel : Nat}
    (hf : c.steps < fuel) :
    p.trace (.ofProgram p source c false) input =
      p.trace { Setting.ofProgram p source c false with fuel } input := by
  have same := runProgram_fuel (s := .ofProgram p source c false) (Nat.lt_succ_self _) hf p.globals
    input
  unfold trace run
  rw [same]
  rfl

/-- A trace under limits is the trace under wider ones, or they cut it off. -/
theorem Program.trace_truncates (p : Program) (hc : s.cancelled = false)
    (hl : s.limits.Within limits) (input : String) :
    p.trace s input = p.trace (s.under limits) input ∨
      (∃ kind message, (p.trace s input).status = .limitExceeded kind message) ∧
        (p.trace s input).steps <+: (p.trace (s.under limits) input).steps := by
  rcases Truncates.runProgram hc hl p.globals (.start input) with h | ⟨excess, m, h, h'⟩
  · left
    unfold trace run
    rw [h]
    rfl
  · right
    rw [trace_of_error h]
    refine ⟨⟨_, _, rfl⟩, ?_⟩
    cases hr : runProgram (s.under limits) p.globals (.start input) with
    | ok u m' =>
      rw [trace_of_ok hr]
      exact (h'.ok hr).steps s
    | error e m' =>
      rw [trace_of_error hr]
      exact (h'.error hr).steps s

/-- A trace that came to its end is the same under all limits that it fits into. -/
theorem Program.trace_repeats (p : Program) (hc : s.cancelled = false) (input : String)
    (completed : (p.trace (s.under limits) input).status = .completed)
    (steps : (p.trace (s.under limits) input).steps.length ≤ s.limits.steps)
    (depth : (p.trace (s.under limits) input).deepest ≤ s.limits.depth)
    (memory : (p.trace (s.under limits) input).estimate ≤ s.limits.memory) :
    p.trace s input = p.trace (s.under limits) input := by
  cases hr : runProgram (s.under limits) p.globals (.start input) with
  | ok u m =>
    have counted := (Accounted.runProgram (s.under limits) p.globals input).ok hr
    have shown := congrArg Trace.steps (trace_of_ok hr)
    have admits := Limits.admits_of_trace counted shown steps depth memory
    rw [trace_of_ok (Repeats.runProgram hc p.globals _ u m hr admits), trace_of_ok hr]
    rfl
  | error e m =>
    rw [trace_of_error hr] at completed
    cases e <;> exact nomatch completed

/-- Limits cut traces off and do nothing else: of two traces of one source on one input the one under
limits that are nowhere wider is the other, or it ends at a limit and its steps come first in the other.
Moreover a trace that came to its end is the trace under all limits that leave room for as many steps,
for calls nested as deep, and for the bytes that its steps are taken to need. -/
theorem limits_only_truncate (source input : String) (c c' : Limits) :
    let t := traceSource source input c false
    let t' := traceSource source input c' false
    (c.steps ≤ c'.steps → c.depth ≤ c'.depth → c.memory ≤ c'.memory →
      t = t' ∨ (∃ kind message, t.status = .limitExceeded kind message) ∧ t.steps <+: t'.steps) ∧
    (t'.status = .completed → t'.steps.length ≤ c.steps → t'.deepest ≤ c.depth →
      t'.estimate ≤ c.memory → t = t') := by
  unfold traceSource
  cases Program.parse source with
  | error e => exact ⟨fun _ _ _ => .inl rfl, nofun⟩
  | ok p =>
    dsimp only
    -- with fuel for both, the two settings differ in their limits alone
    have hf : c.steps < max c.steps c'.steps + 1 := by omega
    have hf' : c'.steps < max c.steps c'.steps + 1 := by omega
    rw [p.trace_fuel source input c hf, p.trace_fuel source input c' hf']
    let s : Setting := { Setting.ofProgram p source c false with fuel := max c.steps c'.steps + 1 }
    exact ⟨fun hs hd hm => p.trace_truncates (s := s) rfl ⟨hs, hd, hm⟩ input,
      @Program.trace_repeats s c' p rfl input⟩

/-- A call inside a print takes five steps, two calls at once and 1925 bytes. Limits of just that are
enough, and with room for three steps the trace is cut off. -/
theorem limits_only_truncate_print :
    let source := "int f(int n) \x7b return n; \x7d " ++
      "int main() \x7b printf(\"%d\", f(2)); return 0; \x7d"
    let full := traceSource source "" ⟨100, 9, 9999⟩ false
    let short := traceSource source "" ⟨3, 9, 9999⟩ false
    (full.status = .completed ∧ full.steps.length = 5 ∧ full.deepest = 2 ∧ full.estimate = 1925) ∧
    traceSource source "" ⟨5, 2, 1925⟩ false = full ∧
    (short = full ∨ (∃ kind message, short.status = .limitExceeded kind message) ∧
      short.steps <+: full.steps) := by
  intro source full short
  have needs : full.status = .completed ∧ full.steps.length = 5 ∧ full.deepest = 2 ∧
      full.estimate = 1925 := by decide +kernel
  obtain ⟨completed, steps, depth, memory⟩ := needs
  refine ⟨⟨completed, steps, depth, memory⟩, ?_, ?_⟩
  · exact (limits_only_truncate source "" ⟨5, 2, 1925⟩ ⟨100, 9, 9999⟩).2 completed
      (Nat.le_of_eq steps) (Nat.le_of_eq depth) (Nat.le_of_eq memory)
  · exact (limits_only_truncate source "" ⟨3, 9, 9999⟩ ⟨100, 9, 9999⟩).1 (by decide)
      (Nat.le_refl _) (Nat.le_refl _)

end Stepwise
