import Stepwise.Proofs.Bracketing
import Stepwise.Proofs.Termination

/-! What every trace is like, whatever is run and however the run ends: its steps are numbered, their
consoles show what was printed up to them, the limits are kept, and the status fits the steps. -/

namespace Stepwise

open Run

variable {α β : Type} {s : Setting} {m m' : Machine}

/-! What is printed -/

/-- What a run does that can be seen: it prints a text or records a step. -/
inductive Deed where
  | print (text : String)
  | record (x : Step)

namespace Deed

def steps : List Deed → List Step
  | [] => []
  | print _ :: rest => steps rest
  | record x :: rest => x :: steps rest

def printed : List Deed → String
  | [] => ""
  | print text :: rest => text ++ printed rest
  | record _ :: rest => printed rest

theorem steps_append (ds ds' : List Deed) : steps (ds ++ ds') = steps ds ++ steps ds' := by
  induction ds with
  | nil => rfl
  | cons d rest ih => cases d <;> simp [steps, ih]

theorem printed_append (ds ds' : List Deed) : printed (ds ++ ds') = printed ds ++ printed ds' := by
  induction ds with
  | nil => simp [printed]
  | cons d rest ih => cases d <;> simp [printed, ih, String.append_assoc]

theorem exists_split_of_mem_steps {ds : List Deed} {x : Step} (h : x ∈ steps ds) :
    ∃ before after, ds = before ++ .record x :: after := by
  induction ds with
  | nil => exact nomatch h
  | cons d rest ih =>
    have later (h : x ∈ steps rest) : ∃ before after, d :: rest = before ++ .record x :: after := by
      obtain ⟨before, after, rfl⟩ := ih h
      exact ⟨d :: before, after, rfl⟩
    cases d with
    | print text => exact later h
    | record y =>
      rcases List.mem_cons.mp h with rfl | h
      · exact ⟨[], rest, rfl⟩
      · exact later h

/-- Where one more deed stands behind others, a deed is that one or stands among them. -/
theorem split_concat {ds before after : List Deed} {d y : Deed} (h : ds ++ [d] = before ++ y :: after) :
    before = ds ∧ y = d ∨ ∃ rest, ds = before ++ y :: rest := by
  rcases List.eq_nil_or_concat after with rfl | ⟨rest, z, rfl⟩
  · obtain ⟨rfl, last⟩ := List.append_inj' h rfl
    exact .inl ⟨rfl, (List.cons.inj last).1.symm⟩
  · rw [List.concat_eq_append, ← List.cons_append, ← List.append_assoc] at h
    exact .inr ⟨rest, (List.append_inj' h rfl).1⟩

end Deed

/-- The deeds of a run from one state to another: nothing is printed but by formatted output, and
nothing is recorded but the present state. -/
inductive Does (s : Setting) (m : Machine) : List Deed → Machine → Prop where
  | begin : Does s m [] m
  | other {ds : List Deed} {m₁ m₂ : Machine} (before : Does s m ds m₁)
    (recorder : m₂.recorder = m₁.recorder) (console : m₂.console.text = m₁.console.text) :
    Does s m ds m₂
  | print {ds : List Deed} {m₁ m₂ : Machine} {format text : String} {values : List Value}
    {pos : Position} (before : Does s m ds m₁)
    (output : printFormatted format values pos m₁ = .ok text m₂) : Does s m (ds ++ [.print text]) m₂
  | record {ds : List Deed} {m₁ m₂ : Machine} {line : Nat} {description : String}
    {returned : Option Value} (before : Does s m ds m₁)
    (recorded : Run.record s line description returned m₁ = .ok () m₂) :
    Does s m (ds ++ [.record ((m₁.moment line description returned).step s)]) m₂

namespace Does

variable {ds ds' : List Deed}

theorem trans {m₁ : Machine} (h : Does s m ds m₁) (h' : Does s m₁ ds' m') : Does s m (ds ++ ds') m' := by
  induction h' with
  | begin => rwa [List.append_nil]
  | other _ recorder console ih => exact .other ih recorder console
  | print _ output ih =>
    rw [← List.append_assoc]
    exact .print ih output
  | record _ recorded ih =>
    rw [← List.append_assoc]
    exact .record ih recorded

/-- Formatted output puts its text behind what the console shows. -/
theorem output_ensures (format : String) (values : List Value) (pos : Position) (m : Machine) :
    Ensures (printFormatted format values pos) m
      (fun text m' => Format.output format values = .ok text ∧
        m' = { m with console := m.console.print text } ∧ m'.console.text = m.console.text ++ text)
      (fun _ m' => m' = m) := by
  refine Ensures.bind ?_
  cases Format.output format values with
  | error e => exact (ensures_iff_of_error rfl).mpr rfl
  | ok text =>
    refine ⟨rfl, rfl, ?_⟩
    show (m.console.print text).text = _
    unfold Console.print
    split
    · rename_i empty
      rw [String.isEmpty_iff.mp empty, String.append_empty]
    · rfl

theorem recorded_eq {line : Nat} {description : String} {returned : Option Value}
    (h : Run.record s line description returned m = .ok () m') :
    m' = m.recorded s (m.moment line description returned) :=
  ((record_ensures s line description returned m).ok h).1

theorem steps (h : Does s m ds m') : m'.recorder.steps s = m.recorder.steps s ++ Deed.steps ds := by
  induction h with
  | begin => exact (List.append_nil _).symm
  | other _ recorder _ ih => rw [recorder, ih]
  | print _ output ih =>
    obtain ⟨-, rfl, -⟩ := (output_ensures _ _ _ _).ok output
    rw [Deed.steps_append]
    simpa [Deed.steps] using ih
  | record _ recorded ih =>
    rw [recorded_eq recorded, Machine.steps_recorded, ih, Deed.steps_append, List.append_assoc]
    rfl

theorem console (h : Does s m ds m') : m'.console.text = m.console.text ++ Deed.printed ds := by
  induction h with
  | begin => exact String.append_empty.symm
  | other _ _ console ih => rw [console, ih]
  | print _ output ih =>
    obtain ⟨-, -, text⟩ := (output_ensures _ _ _ _).ok output
    rw [text, ih, Deed.printed_append, String.append_assoc]
    simp [Deed.printed]
  | record _ recorded ih =>
    rw [recorded_eq recorded, Deed.printed_append]
    simpa [Deed.printed, Machine.recorded, Machine.copied] using ih

/-- A recorded step shows what was printed before it. -/
theorem shows (h : Does s m ds m') {before after : List Deed} {x : Step}
    (hds : ds = before ++ .record x :: after) :
    x.console = m.console.text ++ Deed.printed before := by
  induction h generalizing before after with
  | begin => exact absurd hds (by simp)
  | other _ _ _ ih => exact ih hds
  | print _ _ ih =>
    rcases Deed.split_concat hds with ⟨-, last⟩ | ⟨rest, earlier⟩
    · exact nomatch last
    · exact ih earlier
  | record done _ ih =>
    rcases Deed.split_concat hds with ⟨rfl, last⟩ | ⟨rest, earlier⟩
    · obtain rfl := Deed.record.inj last
      exact done.console
    · exact ih earlier

/-- What one step shows all later ones show too. -/
theorem consoles (h : Does s m ds m') :
    (Deed.steps ds).Pairwise fun x y => ∃ text, y.console = x.console ++ text := by
  induction h with
  | begin => exact .nil
  | other _ _ _ ih => exact ih
  | print _ _ ih =>
    rw [Deed.steps_append]
    simpa [Deed.steps] using ih
  | record done _ ih =>
    rw [Deed.steps_append]
    refine List.pairwise_append.mpr ⟨ih, List.pairwise_singleton _ _, fun x hx y hy => ?_⟩
    obtain ⟨before, after, rfl⟩ := Deed.exists_split_of_mem_steps hx
    obtain rfl := List.mem_singleton.mp hy
    refine ⟨Deed.printed after, done.console.trans ?_⟩
    rw [done.shows rfl, Deed.printed_append, String.append_assoc]
    rfl

/-- Each text printed was made by a format. -/
theorem output (h : Does s m ds m') {text : String} (ht : .print text ∈ ds) :
    ∃ format values, Format.output format values = .ok text := by
  induction h with
  | begin => exact nomatch ht
  | other _ _ _ ih => exact ih ht
  | print _ output ih =>
    rcases List.mem_append.mp ht with ht | ht
    · exact ih ht
    · obtain rfl := Deed.print.inj (List.mem_singleton.mp ht)
      exact ⟨_, _, ((output_ensures _ _ _ _).ok output).1⟩
  | record _ _ ih =>
    rcases List.mem_append.mp ht with ht | ht
    · exact ih ht
    · exact nomatch List.mem_singleton.mp ht

end Does

def Acts (s : Setting) (x : Run α) : Prop := ∀ m, Leaves x m fun m' => ∃ ds, Does s m ds m'

namespace Acts

theorem ofQuiet {x : Run α} (hx : Quiet x) : Acts s x := fun m =>
  (hx m).mono (fun _ _ h => ⟨[], .other .begin h.1 (congrArg Console.text h.2)⟩)
    fun _ _ h => ⟨[], .other .begin h.2.1 (congrArg Console.text h.2.2)⟩

theorem bind {x : Run α} {f : α → Run β} (hx : Acts s x) (hf : ∀ a, Acts s (f a)) :
    Acts s (x >>= f) := by
  intro m
  refine Ensures.bind ((hx m).mono ?_ fun _ _ => id)
  rintro a m₁ ⟨ds, does⟩
  refine (hf a m₁).mono ?_ ?_
  · rintro b m₂ ⟨more, does'⟩
    exact ⟨ds ++ more, does.trans does'⟩
  · rintro e m₂ ⟨more, does'⟩
    exact ⟨ds ++ more, does.trans does'⟩

theorem output (format : String) (values : List Value) (pos : Position) :
    Acts s (printFormatted format values pos) := by
  intro m
  cases h : printFormatted format values pos m with
  | ok text m' => exact (ensures_iff_of_ok h).mpr ⟨_, .print .begin h⟩
  | error e m' =>
    obtain rfl := (Does.output_ensures format values pos m).error h
    exact (ensures_iff_of_error h).mpr ⟨[], .begin⟩

theorem record (line : Nat) (description : String) (returned : Option Value) :
    Acts s (Run.record s line description returned) := by
  intro m
  cases h : Run.record s line description returned m with
  | ok u m' => exact (ensures_iff_of_ok h).mpr ⟨_, .record .begin h⟩
  | error e m' =>
    refine (ensures_iff_of_error h).mpr ⟨[], ?_⟩
    obtain ⟨rfl | rfl, -⟩ := (record_ensures s line description returned m).error h
    · exact .begin
    · exact .other .begin rfl m.console.text_snapshot

theorem throw (e : Halt) : Acts s (throw e : Run α) := fun _ => ⟨[], .begin⟩

def congruence (s : Setting) : Congruence s s :=
  .ofBind (fun x _ => Acts s x) (.refl s) ofQuiet output record bind (throw _)

theorem callFunction (s : Setting) (n : Nat) (f : Function) (args : List Value) (line : Nat)
    (pos : Position) : Acts s (callFunction s n f args line pos) := by
  induction n generalizing f args line pos with
  | zero => exact throw _
  | succ n ih =>
    have calls : (congruence s).Calls (s.handlerWithin n) (s.handlerWithin n) :=
      fun f args pos => ih f args pos.line pos
    have depth : Acts s (checkDepth s f pos) := by
      intro m
      refine (checkDepth_ensures s m f pos).mono ?_ ?_
      · rintro - m' rfl
        exact ⟨[], .begin⟩
      · rintro e m' ⟨rfl, -⟩
        exact ⟨[], .begin⟩
    exact depth.bind fun _ => (congruence s).runInFrame_rel calls f args line pos

theorem runProgram (s : Setting) (globals : List Decl) : Acts s (runProgram s globals) :=
  (congruence s).runProgram_rel (callFunction s s.fuel) globals

end Acts

/-! The limit on steps -/

/-- A piece that is halted for want of steps only when all of them are recorded. -/
def Exhausts (s : Setting) (x : Run α) : Prop :=
  ∀ m, Ensures x m (fun _ _ => True)
    (fun e m' => ∀ n, e = .excess (.steps n) → s.limits.steps ≤ m'.recorder.count)

namespace Exhausts

theorem ofQuiet {x : Run α} (hx : Quiet x) : Exhausts s x := by
  intro m
  refine (hx m).mono (fun _ _ _ => trivial) ?_
  rintro e m' ⟨⟨f, rfl⟩, -⟩ n heq
  exact nomatch heq

theorem bind {x : Run α} {f : α → Run β} (hx : Exhausts s x) (hf : ∀ a, Exhausts s (f a)) :
    Exhausts s (x >>= f) :=
  fun m => Ensures.bind ((hx m).mono (fun a m' _ => hf a m') fun _ _ => id)

theorem output (format : String) (values : List Value) (pos : Position) :
    Exhausts s (printFormatted format values pos) := by
  have print (text : String) : Exhausts s (Run.print text) := fun _ => trivial
  exact (ofQuiet (steady_ofFormat pos _).quiet).bind fun text => (print text).bind fun _ =>
    ofQuiet (quiet_pure text)

theorem record (line : Nat) (description : String) (returned : Option Value) :
    Exhausts s (Run.record s line description returned) := by
  intro m
  unfold Ensures
  rw [record_eq]
  by_cases hc : s.cancelled
  · rw [if_pos hc]
    exact fun n heq => nomatch heq
  rw [if_neg hc]
  by_cases hs : s.limits.steps ≤ m.recorder.count
  · rw [if_pos hs]
    exact fun _ _ => hs
  rw [if_neg hs]
  by_cases hm : s.limits.memory < m.recorder.used + m.charge s (m.moment line description returned)
  · rw [if_pos hm]
    exact fun n heq => nomatch heq
  · rw [if_neg hm]
    trivial

theorem throw {e : Halt} (he : ∀ n, e ≠ .excess (.steps n)) : Exhausts s (throw e : Run α) :=
  fun _ n heq => absurd heq (he n)

def congruence (s : Setting) : Congruence s s :=
  .ofBind (fun x _ => Exhausts s x) (.refl s) ofQuiet output record bind (throw nofun)

theorem callFunction (s : Setting) (n : Nat) (f : Function) (args : List Value) (line : Nat)
    (pos : Position) : Exhausts s (callFunction s n f args line pos) := by
  induction n generalizing f args line pos with
  | zero => exact throw nofun
  | succ n ih =>
    have calls : (congruence s).Calls (s.handlerWithin n) (s.handlerWithin n) :=
      fun f args pos => ih f args pos.line pos
    have depth : Exhausts s (checkDepth s f pos) := by
      intro m
      refine (checkDepth_ensures s m f pos).mono (fun _ _ _ => trivial) ?_
      rintro e m' ⟨-, rfl⟩ n heq
      exact nomatch heq
    exact depth.bind fun _ => (congruence s).runInFrame_rel calls f args line pos

theorem runProgram (s : Setting) (globals : List Decl) : Exhausts s (runProgram s globals) :=
  (congruence s).runProgram_rel (callFunction s s.fuel) globals

end Exhausts

/-! The numbers of steps -/

def Recorder.Numbered (r : Recorder Moment) : Prop := r.toList.map Moment.ordinal = List.range r.count

namespace Recorder.Numbered

/-- The number that is reserved for an item is the one that it gets. -/
theorem record (m : Machine) (line : Nat) (description : String) (returned : Option Value)
    (h : m.recorder.Numbered) : (m.recorded s (m.moment line description returned)).recorder.Numbered := by
  unfold Numbered at h ⊢
  rw [m.recorded_toList, List.map_append, h]
  exact List.range_succ.symm

theorem lasting (s : Setting) : Lasting s fun r _ => r.Numbered where
  print _ _ _ h := h
  copy _ _ h := h
  record m line description returned h _ _ := record m line description returned h

theorem runProgram (s : Setting) (globals : List Decl) (input : String) :
    Leaves (Stepwise.runProgram s globals) (.start input) fun m => m.recorder.Numbered :=
  Keeps.runProgram s globals _ (lasting s) (.start input) rfl

theorem ordinal_eq {r : Recorder Moment} (h : r.Numbered) {i : Nat} {x : Step}
    (hx : (r.steps s)[i]? = some x) : x.ordinal = i := by
  have numbers : (r.steps s).map Step.ordinal = List.range r.count := by
    rw [← h, Recorder.steps, List.map_map]
    rfl
  have found : (List.range r.count)[i]? = some x.ordinal := by
    rw [← numbers, List.getElem?_map, hx]
    rfl
  obtain ⟨_, number⟩ := List.getElem?_eq_some_iff.mp found
  rw [← number, List.getElem_range]

end Recorder.Numbered

/-! Whole traces -/

/-- Formatted output as a program asks for it: the arguments are evaluated, and the text that the format
makes of their values is put behind what the console shows. -/
def Prints (s : Setting) (call : CallHandler) (format : String) (args : List Expr) (m : Machine)
    (text : String) (m' : Machine) : Prop :=
  ∃ values m₁, evalArgs s call args m = .ok values m₁ ∧ Format.output format values = .ok text ∧
    m' = { m₁ with console := m₁.console.print text } ∧ m'.console.text = m₁.console.text ++ text

theorem prints_of_ok {call : CallHandler} {format : String} {args : List Expr} {pos : Position}
    {g : String → α} {a : α} (h : (do
      let values ← evalArgs s call args
      let text ← printFormatted format values pos
      return g text : Run α) m = .ok a m') : ∃ text, Prints s call format args m text m' ∧ a = g text := by
  obtain ⟨values, m₁, evaluated, h⟩ := bind_eq_ok h
  obtain ⟨text, m₂, output, h⟩ := bind_eq_ok h
  obtain ⟨made, console, shown⟩ := (Does.output_ensures format values pos m₁).ok output
  cases h
  exact ⟨text, ⟨values, m₁, evaluated, made, console, shown⟩, rfl⟩

structure Trace.WellFormed (t : Trace) (limits : Limits) : Prop where
  ordinal : ∀ (i : Nat) (x : Step), t.steps[i]? = some x → x.ordinal = i
  length : t.steps.length ≤ limits.steps
  exhausted : ∀ message, t.status = .limitExceeded .steps message → t.steps.length = limits.steps
  depth : ∀ x ∈ t.steps, x.callStack.length ≤ limits.depth
  /-- What one step shows as printed all later steps show too. -/
  console : t.steps.Pairwise fun x y => ∃ text, y.console = x.console ++ text
  parseError : ∀ line column message, t.status = .parseError line column message → t.steps = []
  runtimeError : ∀ kind message index line column,
    t.status = .runtimeError kind message index line column →
    index = t.steps.length ∧ line.isSome ∧ column.isSome
  /-- The last step of a run that came to its end leaves `main`, the only call under way. -/
  completed : t.status = .completed →
    ∃ x c, t.steps.getLast? = some x ∧ x.leaves = true ∧ x.callStack = [c] ∧ c.function = "main"

namespace Program

variable (p : Program) (input : String)

/-- What a trace shows is all that its run did. -/
theorem trace_does (s : Setting) : ∃ deeds, (p.trace s input).steps = Deed.steps deeds ∧
    Leaves (runProgram s p.globals) (.start input) fun m => Does s (.start input) deeds m := by
  have acts := Acts.runProgram s p.globals (.start input)
  have shown {ds : List Deed} {m : Machine} (does : Does s (.start input) ds m) :
      m.recorder.steps s = Deed.steps ds := does.steps
  cases h : runProgram s p.globals (.start input) with
  | ok u m =>
    obtain ⟨ds, does⟩ := acts.ok h
    exact ⟨ds, by rw [trace_of_ok h, shown does], (ensures_iff_of_ok h).mpr does⟩
  | error e m =>
    obtain ⟨ds, does⟩ := acts.error h
    exact ⟨ds, by rw [trace_of_error h, shown does], (ensures_iff_of_error h).mpr does⟩

theorem exists_does {s : Setting} {deeds : List Deed}
    (h : Leaves (runProgram s p.globals) (.start input) fun m => Does s (.start input) deeds m) :
    ∃ m, Does s (.start input) deeds m := by
  cases hr : runProgram s p.globals (.start input) with
  | ok u m => exact ⟨m, h.ok hr⟩
  | error e m => exact ⟨m, h.error hr⟩

theorem length_trace_le {s : Setting} (hf : s.limits.steps < s.fuel) :
    (p.trace s input).steps.length ≤ s.limits.steps := by
  show (List.map _ (p.run s input).1).length ≤ _
  rw [List.length_map]
  exact (run_ends p hf input).2

theorem trace_exhausted {s : Setting} (hf : s.limits.steps < s.fuel) {message : String}
    (h : (p.trace s input).status = .limitExceeded .steps message) :
    (p.trace s input).steps.length = s.limits.steps := by
  have most := p.length_trace_le input hf
  cases hr : runProgram s p.globals (.start input) with
  | ok u m =>
    rw [trace_of_ok hr] at h
    cases h
  | error e m =>
    rw [trace_of_error hr] at h most ⊢
    refine Nat.le_antisymm most ?_
    have count : (m.recorder.steps s).length = m.recorder.count := by
      rw [Recorder.steps, List.length_map, Recorder.toList, List.length_reverse, m.recorder.count_eq]
    rw [count]
    cases e with
    | fault f => cases h
    | cancelled => cases h
    | outOfFuel => cases h
    | excess excess =>
      cases excess with
      | steps n => exact (Exhausts.runProgram s p.globals (.start input)).error hr n rfl
      | depth => cases h
      | memory => cases h

theorem trace_completed {s : Setting} (h : (p.trace s input).status = .completed) :
    ∃ x c, (p.trace s input).steps.getLast? = some x ∧ x.leaves = true ∧ x.callStack = [c] ∧
      c.function = "main" := by
  have run := runProgram_brackets s p.globals input
  cases hr : runProgram s p.globals (.start input) with
  | ok u m =>
    obtain ⟨before, c, first, inner, last, steps, -, made, name⟩ := run.ok hr
    refine ⟨last, c, ?_, made.closes.leaves, made.closes.callStack, name⟩
    rw [trace_of_ok hr, steps, ← List.append_assoc]
    exact List.getLast?_concat
  | error e m =>
    rw [trace_of_error hr] at h
    cases e <;> cases h

theorem wellFormed_trace {s : Setting} (hf : s.limits.steps < s.fuel) :
    (p.trace s input).WellFormed s.limits where
  ordinal i x hx := by
    have numbered := Recorder.Numbered.runProgram s p.globals input
    cases hr : runProgram s p.globals (.start input) with
    | ok u m =>
      rw [trace_of_ok hr] at hx
      exact (numbered.ok hr).ordinal_eq hx
    | error e m =>
      rw [trace_of_error hr] at hx
      exact (numbered.error hr).ordinal_eq hx
  length := p.length_trace_le input hf
  exhausted _ h := p.trace_exhausted input hf h
  depth := (p.trace_underway s input).1.depth (Nat.zero_le _)
  console := by
    obtain ⟨deeds, steps, does⟩ := p.trace_does input s
    obtain ⟨m, does⟩ := p.exists_does input does
    rw [steps]
    exact does.consoles
  parseError line column message h := by
    cases hr : runProgram s p.globals (.start input) with
    | ok u m =>
      rw [trace_of_ok hr] at h
      cases h
    | error e m =>
      rw [trace_of_error hr] at h
      cases e <;> cases h
  runtimeError kind message index line column h := by
    cases hr : runProgram s p.globals (.start input) with
    | ok u m =>
      rw [trace_of_ok hr] at h
      cases h
    | error e m =>
      rw [trace_of_error hr] at h ⊢
      cases e with
      | fault f =>
        cases h
        exact ⟨rfl, rfl, rfl⟩
      | _ => cases h
  completed h := p.trace_completed input h

end Program

/-- Every trace is well-formed, whatever the source, the input and the limits are. Each step shows just
what was printed up to it: the run does nothing that can be seen but to print by formatted output and to
record its present state, the steps are what it recorded, and the console of each is all that was printed
before it, one text behind the other. Wherever a program asks for formatted output, that text is what the
format makes of the values. -/
theorem trace_wellFormed (source input : String) (limits : Limits) (cancelled : Bool) :
    let t := traceSource source input limits cancelled
    t.WellFormed limits ∧
    (∃ deeds, t.steps = Deed.steps deeds ∧
      (∀ before x after, deeds = before ++ .record x :: after → x.console = Deed.printed before) ∧
      (∀ text, .print text ∈ deeds → ∃ format values, Format.output format values = .ok text) ∧
      ∀ p, Program.parse source = .ok p →
        Leaves (runProgram (.ofProgram p source limits cancelled) p.globals) (.start input)
          fun m => Does (.ofProgram p source limits cancelled) (.start input) deeds m) ∧
    ∀ (s : Setting) call format args pos m m',
      (∀ v, evalExpr s call (.print format args pos) m = .ok v m' →
        ∃ text, Prints s call format args m text m' ∧ v = printedSize text) ∧
      ∀ description, describeEffect s call (.print format args pos) m = .ok description m' →
        ∃ text, Prints s call format args m text m' ∧ description = "print " ++ Text.quoted text := by
  refine ⟨?_, ?_, fun s call format args pos m m' => ⟨fun v h => ?_, fun description h => ?_⟩⟩
  · unfold traceSource
    cases Program.parse source with
    | error e => exact ⟨nofun, Nat.zero_le _, nofun, nofun, .nil, fun _ _ _ _ => rfl, nofun, nofun⟩
    | ok p => exact p.wellFormed_trace input (Nat.lt_succ_self _)
  · unfold traceSource
    cases hp : Program.parse source with
    | error e => exact ⟨[], rfl, fun before x after h => absurd h (by simp), nofun, nofun⟩
    | ok p =>
      obtain ⟨deeds, steps, does⟩ := p.trace_does input (.ofProgram p source limits cancelled)
      obtain ⟨m, does'⟩ := p.exists_does input does
      refine ⟨deeds, steps, fun before x after h => ?_, fun text => does'.output, ?_⟩
      · exact (does'.shows h).trans String.empty_append
      · rintro _ ⟨⟩
        exact does
  · rw [evalExpr] at h
    exact prints_of_ok h
  · rw [describeEffect] at h
    exact prints_of_ok h

/-- A run that prints twice and then divides by zero has four steps, and one that may record three of them
has just those. -/
theorem trace_wellFormed_cut :
    let source := "int main() \x7b printf(\"a\"); int n = 0; printf(\"b\"); return 1 / n; \x7d"
    let t := traceSource source "" ⟨100, 9, 9999⟩ false
    let cut := traceSource source "" ⟨3, 9, 9999⟩ false
    t.steps.map (·.console) = ["", "a", "a", "ab"] ∧
    t.status = .runtimeError .divisionByZero "division by zero at line 1, column 60"
      t.steps.length (some 1) (some 60) ∧
    cut.status = .limitExceeded .steps "step budget of 3 steps exhausted" ∧ cut.steps.length = 3 := by
  intro source t cut
  have runs : t.steps.map (·.console) = ["", "a", "a", "ab"] ∧
      t.status = .runtimeError .divisionByZero "division by zero at line 1, column 60" 4
        (some 1) (some 60) ∧
      cut.status = .limitExceeded .steps "step budget of 3 steps exhausted" := by decide +kernel
  obtain ⟨consoles, fault, short⟩ := runs
  have index := ((trace_wellFormed source "" ⟨100, 9, 9999⟩ false).1.runtimeError _ _ _ _ _ fault).1
  exact ⟨consoles, index ▸ fault, short,
    (trace_wellFormed source "" ⟨3, 9, 9999⟩ false).1.exhausted _ short⟩

end Stepwise
