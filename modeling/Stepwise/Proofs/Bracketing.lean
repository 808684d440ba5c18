import Stepwise.Proofs.Accounting
import Stepwise.Proofs.Nesting

/-! The calls of a run are nested like brackets. Evaluating an expression leaves the frames as they are
and records nested steps; a statement changes the innermost frame at most, and when it leaves the
function the last of its steps says so. -/

namespace Stepwise

open Run

variable {α β : Type} {s : Setting} {call : CallHandler}

/-! Descriptions -/

/-- A text that does not begin as one about entering or leaving a function does. -/
def Unmarked (text : String) : Prop :=
  firstWord text ∉ ["enter".toList, "return".toList, "exit".toList]

instance (text : String) : Decidable (Unmarked text) := inferInstanceAs (Decidable (_ ∉ _))

/-- The beginning of such a text, with its first word whole. -/
structure Remark (head : String) : Prop where
  blank : ' ' ∈ head.toList
  unmarked : Unmarked head

theorem Remark.append {head : String} (h : Remark head) (tail : String) : Remark (head ++ tail) where
  blank := by
    rw [String.toList_append]
    exact List.mem_append_left _ h.blank
  unmarked := by
    unfold Unmarked
    rw [firstWord_append h.blank]
    exact h.unmarked

theorem Remark.unmarked_append {head : String} (h : Remark head) (tail : String) :
    Unmarked (head ++ tail) := (h.append tail).unmarked

def Run.Yields (x : Run α) (P : α → Prop) : Prop :=
  ∀ m, Ensures x m (fun a _ => P a) (fun _ _ => True)

namespace Run

variable {P : α → Prop}

theorem yields_any (x : Run α) : Yields x fun _ => True := by
  intro m
  unfold Ensures
  split <;> trivial

theorem Yields.after {x : Run β} {f : β → Run α} (hf : ∀ b, Yields (f b) P) : Yields (x >>= f) P :=
  fun m => Ensures.bind ((yields_any x m).mono (fun b m' _ => hf b m') fun _ _ => id)

theorem yields_pure {a : α} (h : P a) : Yields (pure a) P := fun _ => h

end Run

theorem remark_declare : Remark "declare " := ⟨by decide, by decide⟩

theorem declare_remarks (d : Decl) : Yields (declare s call d) Unmarked := by
  cases d with
  | scalar name type init pos =>
    refine .after fun v => .after fun isGlobal => .after fun _ => yields_pure ?_
    have head := ((remark_declare.append (scopeWord isGlobal)).append type.text).append " "
    split
    · exact ((head.append name).append " = ").unmarked_append v.text
    · exact head.unmarked_append name
  | array name elem size init pos =>
    refine .after fun isGlobal => .after fun values => .after fun _ => yields_pure ?_
    have head := (((remark_declare.append (scopeWord isGlobal)).append elem.text).append " ").append name
    split
    · exact (((head.append s!"[{size}]").append " = \x7b").append _).unmarked_append "\x7d"
    · exact head.unmarked_append s!"[{size}]"

theorem describeEffect_remarks (e : Expr) : Yields (describeEffect s call e) Unmarked := by
  have evaluate : Remark "evaluate " := ⟨by decide, by decide⟩
  cases e with
  | print format args pos =>
    have head : Remark "print " := ⟨by decide, by decide⟩
    exact .after fun values => .after fun text => yields_pure (head.unmarked_append _)
  | read format targets pos =>
    have head : Remark "read " := ⟨by decide, by decide⟩
    refine .after fun places => .after fun reading => yields_pure ?_
    split
    · decide
    · exact head.unmarked_append _
  | step op operand pos =>
    have head : Remark "update " := ⟨by decide, by decide⟩
    exact .after fun place => .after fun _ => yields_pure
      (((head.append _).append " = ").unmarked_append _)
  | call name args pos =>
    have head : Remark "call " := ⟨by decide, by decide⟩
    refine .after fun v => yields_pure ?_
    split
    · exact ((head.append name).append " returned ").unmarked_append _
    · exact head.unmarked_append _
  | _ => exact .after fun v => yields_pure (((evaluate.append _).append " = ").unmarked_append _)

theorem perform_remarks (c : Simple) : Yields (perform s call c) Unmarked := by
  cases c with
  | declare d => exact declare_remarks d
  | assign target op value pos =>
    have head : Remark "assign " := ⟨by decide, by decide⟩
    exact .after fun stored => yields_pure (((head.append _).append " = ").unmarked_append _)
  | effect e pos => exact describeEffect_remarks e

/-! Telling -/

/-- The steps of a piece that may have left the function it belongs to: if so, the last step says it. -/
inductive Told (limit : Nat) (base : List Call) : Bool → List Step → Prop where
  | stayed {xs : List Step} (within : Nested limit base xs) : Told limit base false xs
  | left {xs : List Step} {x : Step} (within : Nested limit base xs) (callStack : x.callStack = base)
    (leaves : x.leaves = true) : Told limit base true (xs ++ [x])

theorem Told.prepend {limit : Nat} {base : List Call} {left : Bool} {xs ys : List Step}
    (h : Nested limit base xs) (h' : Told limit base left ys) : Told limit base left (xs ++ ys) := by
  cases h' with
  | stayed within => exact .stayed (h.append within)
  | left within callStack leaves =>
    rw [← List.append_assoc]
    exact .left (h.append within) callStack leaves

/-- A piece that begins and ends in environments of a kind `I`, in which the calls `base` are under way,
and whose steps are nested; `left` says of its value whether the function was left. -/
def Tells (s : Setting) (I : Environment → Prop) (base : List Call) (x : Run α) (left : α → Bool) :
    Prop :=
  ∀ m, I m.env → Ensures x m
    (fun a m' => I m'.env ∧ ∃ new, m'.recorder.steps s = m.recorder.steps s ++ new ∧
      Told s.limits.depth base (left a) new)
    (fun _ m' => ∃ new, m'.recorder.steps s = m.recorder.steps s ++ new ∧
      Underway s.limits.depth base new)

abbrev Stays (s : Setting) (I : Environment → Prop) (base : List Call) (x : Run α) : Prop :=
  Tells s I base x fun _ => false

def Finishes (I : Environment → Prop) (x : Run α) (left : α → Bool) : Prop :=
  ∀ m, I m.env → ∃ a m', x m = .ok a m' ∧ I m'.env ∧ m'.recorder = m.recorder ∧ left a = true

namespace Tells

variable {I : Environment → Prop} {base : List Call} {x : Run α} {f : α → Run β} {left : α → Bool}
  {left' : β → Bool} {P : α → Prop}

/-- One piece after another; behind one that has left the function only the frame is put in order. -/
theorem bind (hx : Tells s I base x left) (hy : Yields x P)
    (go : ∀ a, P a → left a = false → Tells s I base (f a) left')
    (stop : ∀ a, left a = true → Finishes I (f a) left') : Tells s I base (x >>= f) left' := by
  intro m hm
  refine Ensures.bind (((hx m hm).and (hy m)).mono ?_ fun _ _ h => h.1)
  rintro a m₁ ⟨⟨hm₁, new, steps, told⟩, ha⟩
  cases hl : left a with
  | true =>
    obtain ⟨b, m₂, ended, hm₂, same, hb⟩ := stop a hl m₁ hm₁
    refine (ensures_iff_of_ok ended).mpr ⟨hm₂, new, ?_, ?_⟩
    · rw [same, steps]
    · rw [hb, ← hl]
      exact told
  | false =>
    rw [hl] at told
    obtain ⟨within⟩ := told
    refine (go a ha hl m₁ hm₁).mono ?_ ?_
    · rintro b m₂ ⟨hm₂, more, steps', told'⟩
      exact ⟨hm₂, new ++ more, by rw [steps', steps, List.append_assoc], told'.prepend within⟩
    · rintro e m₂ ⟨more, steps', underway⟩
      exact ⟨new ++ more, by rw [steps', steps, List.append_assoc], underway.prepend within⟩

theorem andThen (hx : Stays s I base x) (hf : ∀ a, Tells s I base (f a) left') :
    Tells s I base (x >>= f) left' :=
  hx.bind (yields_any x) (fun a _ _ => hf a) nofun

/-- A quiet piece tells nothing. -/
theorem ofQuiet (hx : Quiet x)
    (hI : ∀ m, I m.env → Ensures x m (fun _ m' => I m'.env) (fun _ _ => True)) : Stays s I base x := by
  intro m hm
  refine ((hx m).and (hI m hm)).mono ?_ ?_
  · rintro a m' ⟨⟨same, -⟩, hm'⟩
    exact ⟨hm', [], by rw [same, List.append_nil], .stayed .nil⟩
  · rintro e m' ⟨⟨-, same, -⟩, -⟩
    exact ⟨[], by rw [same, List.append_nil], .nested .nil⟩

theorem value {a : α} (ha : left a = false) : Tells s I base (pure a) left := by
  intro m hm
  refine (ensures_iff_of_ok rfl).mpr ⟨hm, [], (List.append_nil _).symm, ?_⟩
  rw [ha]
  exact .stayed .nil

theorem pure (a : α) : Stays s I base (Pure.pure a : Run α) := value rfl

theorem throw (e : Halt) : Tells s I base (throw e : Run α) left :=
  fun _ _ => ⟨[], (List.append_nil _).symm, .nested .nil⟩

theorem change {g : Environment → Environment} (hg : ∀ env, I env → I (g env)) :
    Stays s I base (changeEnvironment g) :=
  ofQuiet (quiet_changeEnvironment g) fun m hm => hg m.env hm

/-- A recorded step of a text that is no mark. -/
theorem record (stack : ∀ env, I env → env.callStack = base) {text : String} (ht : Unmarked text)
    (line : Nat) (returned : Option Value) : Stays s I base (Run.record s line text returned) := by
  intro m hm
  refine (record_ensures s line text returned m).mono ?_ ?_
  · rintro - m' ⟨rfl, -, -⟩
    refine ⟨hm, _, m.steps_recorded s _, .stayed (.one ⟨stack _ hm, ?_, ?_⟩)⟩
    · exact decide_eq_false fun heq => ht (by simp [show firstWord text = _ from heq])
    · refine Bool.or_eq_false_iff.mpr ⟨?_, ?_⟩
      · exact decide_eq_false fun heq => ht (by simp [show firstWord text = _ from heq])
      · exact decide_eq_false fun heq => ht (by simp [show firstWord text = _ from heq])
  · rintro e m' ⟨rfl | rfl, -⟩ <;> exact ⟨[], (List.append_nil _).symm, .nested .nil⟩

/-- A recorded step that says that the function is left. -/
theorem recordLeaving (stack : ∀ env, I env → env.callStack = base) {text : String}
    (ht : firstWord text = "return".toList ∨ firstWord text = "exit".toList) (line : Nat)
    (returned : Option Value) : Tells s I base (Run.record s line text returned) fun _ => true := by
  intro m hm
  refine (record_ensures s line text returned m).mono ?_ ?_
  · rintro - m' ⟨rfl, -, -⟩
    refine ⟨hm, [] ++ [_], m.steps_recorded s _, .left .nil (stack _ hm) ?_⟩
    exact Bool.or_eq_true_iff.mpr (ht.imp decide_eq_true decide_eq_true)
  · rintro e m' ⟨rfl | rfl, -⟩ <;> exact ⟨[], (List.append_nil _).symm, .nested .nil⟩

end Tells

/-! Expressions -/

def Frame.calls (frames : List Frame) : List Call := (frames.map (·.call)).reverse

/-- A piece that leaves the frames and the global names alone and tells nested steps. -/
def Calm (s : Setting) (x : Run α) : Prop :=
  ∀ frames globals, Stays s (fun env => env.frames = frames ∧ env.globals = globals)
    (Frame.calls frames) x

namespace Calm

theorem ofSteady {x : Run α} (hx : Steady x) : Calm s x := fun _ _ =>
  Tells.ofQuiet hx.quiet fun m hm => (hx.names m).mono (fun _ _ h => ⟨h.1.trans hm.1, h.2.trans hm.2⟩)
    fun _ _ => id

theorem bind {x : Run α} {f : α → Run β} (hx : Calm s x) (hf : ∀ a, Calm s (f a)) : Calm s (x >>= f) :=
  fun frames globals => (hx frames globals).andThen fun a => hf a frames globals

theorem output (format : String) (values : List Value) (pos : Position) :
    Calm s (printFormatted format values pos) := by
  have print (text : String) : Calm s (Run.print text) := fun _ _ m hm =>
    ⟨hm, [], (List.append_nil _).symm, .stayed .nil⟩
  exact (ofSteady (steady_ofFormat pos _)).bind fun text => (print text).bind fun _ =>
    ofSteady (steady_pure text)

def compatibility (s : Setting) : Compatibility s s where
  Rel x _ := Calm s x
  code := .refl s
  steady := ofSteady
  output := output
  bind := bind

end Calm

abbrev CalmCalls (s : Setting) (call : CallHandler) : Prop := (Calm.compatibility s).Calls call call

/-! Declarations -/

/-- Environments in which the calls `base` are under way, told apart by what neither a change of memory
nor a declaration alters. -/
structure Stage (I : Environment → Prop) (base : List Call) : Prop where
  callStack : ∀ env, I env → env.callStack = base
  names : ∀ {env env' : Environment}, I env → env'.frames = env.frames →
    env'.globals = env.globals → I env'
  declare : ∀ {env : Environment} (name : String) (a : Address), I env → I (env.declare name a)

section

variable {I : Environment → Prop} {base : List Call} (hI : Stage I base)
include hI

theorem Calm.stays {x : Run α} (hx : Calm s x) : Stays s I base x := by
  intro m hm
  have told := hx m.env.frames m.env.globals m ⟨rfl, rfl⟩
  rw [show Frame.calls m.env.frames = base from hI.callStack m.env hm] at told
  refine told.mono ?_ fun _ _ => id
  rintro a m' ⟨⟨frames, globals⟩, steps⟩
  exact ⟨hI.names hm frames globals, steps⟩

theorem declareScalar_stays (name : String) (type : CType) (v : Value) :
    Stays s I base (declareScalar name type v) :=
  Tells.change fun _ hm => hI.declare name _ (hI.names hm rfl rfl)

theorem declare_stays (hc : CalmCalls s call) (d : Decl) : Stays s I base (declare s call d) := by
  cases d with
  | scalar name type init pos =>
    exact (((Calm.compatibility s).initialValue_rel hc type init pos).stays hI).andThen fun v =>
      ((Calm.ofSteady steady_atFileScope).stays hI).andThen fun _ =>
      (declareScalar_stays hI name type v).andThen fun _ => Tells.pure _
  | array name elem size init pos =>
    refine ((Calm.ofSteady steady_atFileScope).stays hI).andThen fun _ =>
      (((Calm.compatibility s).evalItems_rel hc elem pos _).stays hI).andThen fun values => ?_
    refine Tells.andThen ?_ fun _ => Tells.pure _
    exact ((Calm.ofSteady steady_environment).stays hI).andThen fun _ =>
      ((Calm.ofSteady (steady_changeMemory _)).stays hI).andThen fun _ =>
      ((Calm.ofSteady (steady_storeRun pos _ values)).stays hI).andThen fun _ =>
      Tells.change fun _ hm => hI.declare name _ hm

theorem perform_stays (hc : CalmCalls s call) (c : Simple) : Stays s I base (perform s call c) := by
  cases c with
  | declare d => exact declare_stays hI hc d
  | assign target op value pos =>
    exact (((Calm.compatibility s).assign_rel hc target op value pos).stays hI).andThen
      fun _ => Tells.pure _
  | effect e pos => exact ((Calm.compatibility s).describeEffect_rel hc e).stays hI

theorem runSimple_stays (hc : CalmCalls s call) (c : Simple) : Stays s I base (runSimple s call c) :=
  (perform_stays hI hc c).bind (perform_remarks c)
    (fun _ ht _ => Tells.record hI.callStack ht c.pos.line none) nofun

theorem runClause_stays (hc : CalmCalls s call) (c : Simple) : Stays s I base (runClause s call c) := by
  unfold runClause
  split
  · exact runSimple_stays hI hc c
  · cases c with
    | declare d => exact (declare_stays hI hc d).andThen fun _ => Tells.pure _
    | assign target op value pos =>
      exact (((Calm.compatibility s).assign_rel hc target op value pos).stays hI).andThen
        fun _ => Tells.pure _
    | effect e pos =>
      exact (((Calm.compatibility s).evalExpr_rel hc e).stays hI).andThen fun _ => Tells.pure _

theorem runOptionalClause_stays (hc : CalmCalls s call) (c : Option Simple) :
    Stays s I base (runOptionalClause s call c) := by
  cases c with
  | none => exact Tells.pure ()
  | some c => exact runClause_stays hI hc c

end

/-! Statements -/

def Inside (rest : List Frame) (c : Call) (globals : Bindings) (env : Environment) : Prop :=
  ∃ top, env.frames = top :: rest ∧ top.call = c ∧ env.globals = globals

section

variable {rest : List Frame} {c : Call} {globals : Bindings}

theorem Frame.call_declare (f : Frame) (name : String) (a : Address) :
    (f.declare name a).call = f.call := by
  unfold declare
  split <;> rfl

theorem Inside.stage : Stage (Inside rest c globals) (Frame.calls rest ++ [c]) where
  callStack env h := by
    obtain ⟨top, frames, rfl, -⟩ := h
    simp [Environment.callStack, Frame.calls, frames]
  names h frames same := by
    obtain ⟨top, frames', hc, hg⟩ := h
    exact ⟨top, frames.trans frames', hc, same.trans hg⟩
  declare name a h := by
    obtain ⟨top, frames, hc, hg⟩ := h
    refine ⟨top.declare name a, ?_, (top.call_declare name a).trans hc, ?_⟩
    · rw [Environment.declare, frames]
    · rw [Environment.declare, frames]
      exact hg

theorem Inside.openBlock {env : Environment} (h : Inside rest c globals env) :
    Inside rest c globals env.openBlock := by
  obtain ⟨top, frames, hc, hg⟩ := h
  refine ⟨top.openBlock, ?_, hc, ?_⟩
  · rw [Environment.openBlock, Environment.onFrame, frames]
  · rw [Environment.openBlock, Environment.onFrame, frames]
    exact hg

theorem Inside.closeBlock {env : Environment} (h : Inside rest c globals env) :
    Inside rest c globals env.closeBlock := by
  obtain ⟨top, frames, hc, hg⟩ := h
  refine ⟨top.closeBlock.2, ?_, ?_, ?_⟩
  · rw [Environment.closeBlock, frames]
  · unfold Frame.closeBlock
    split <;> exact hc
  · rw [Environment.closeBlock, frames]
    exact hg

def Flow.left : Flow → Bool
  | .leave _ => true
  | _ => false

abbrev Goes (s : Setting) (rest : List Frame) (c : Call) (globals : Bindings) (x : Run Flow) : Prop :=
  Tells s (Inside rest c globals) (Frame.calls rest ++ [c]) x Flow.left

theorem inBlock_goes {body : Run Flow} (hb : Goes s rest c globals body) :
    Goes s rest c globals (inBlock body) := by
  refine (Tells.change fun _ h => h.openBlock).andThen fun _ =>
    hb.bind (yields_any _) (fun flow _ stays => ?_) fun flow left m hm => ?_
  · exact (Tells.change fun _ h => h.closeBlock).andThen fun _ => Tells.value stays
  · exact ⟨flow, _, rfl, hm.closeBlock, rfl, left⟩

theorem testLoop_stays (hc : CalmCalls s call) (cond : Option Expr) (pos : Position) :
    Stays s (Inside rest c globals) (Frame.calls rest ++ [c]) (testLoop s call cond pos) := by
  have head : Remark "loop condition " := ⟨by decide, by decide⟩
  refine (((Calm.compatibility s).loopCondition_rel hc cond pos).stays Inside.stage).andThen
    fun holds => ?_
  exact (Tells.record Inside.stage.callStack (((head.append _).append " is ").unmarked_append _)
    pos.line none).andThen fun _ => Tells.pure holds

theorem loop_goes {test : Run Bool} {body : Run Flow} {update : Run Unit}
    (ht : Stays s (Inside rest c globals) (Frame.calls rest ++ [c]) test)
    (hb : Goes s rest c globals body)
    (hu : Stays s (Inside rest c globals) (Frame.calls rest ++ [c]) update) (fuel : Nat) :
    Goes s rest c globals (loop test body update fuel) := by
  induction fuel with
  | zero => exact Tells.throw _
  | succ fuel ih =>
    refine ht.andThen fun holds => ?_
    cases holds with
    | false => exact Tells.value rfl
    | true =>
      refine hb.bind (yields_any _) (fun flow _ stays => ?_) fun flow left => ?_
      · cases flow with
        | normal => exact hu.andThen fun _ => ih
        | continueLoop => exact hu.andThen fun _ => ih
        | breakLoop => exact Tells.value rfl
        | leave v => exact nomatch stays
      · cases flow with
        | leave v => exact fun m hm => ⟨_, m, rfl, hm, rfl, rfl⟩
        | _ => exact nomatch left

theorem leaveWith_goes (hc : CalmCalls s call) (returns : CType) (value : Option Expr) (pos : Position) :
    Goes s rest c globals (leaveWith s call returns value pos) := by
  have leave (v : Value) {text : String} (ht : firstWord text = "return".toList)
      (returned : Option Value) : Goes s rest c globals (do
        Run.record s pos.line text returned
        return .leave v) :=
    (Tells.recordLeaving Inside.stage.callStack (.inl ht) pos.line returned).bind (yields_any _)
      nofun fun _ _ m hm => ⟨_, m, rfl, hm, rfl, rfl⟩
  refine (((Calm.compatibility s).returnedValue_rel hc returns value pos).stays Inside.stage).andThen
    fun v => ?_
  dsimp only
  split
  · exact leave v ((firstWord_append (by decide) v.text).trans (by decide)) _
  · exact leave v (by decide) _

mutual

theorem runStmt_goes (hc : CalmCalls s call) (returns : CType) (stmt : Stmt) :
    Goes s rest c globals (runStmt s call returns stmt) := by
  cases stmt with
  | simple c => exact (runSimple_stays Inside.stage hc c).andThen fun _ => Tells.value rfl
  | block body pos => exact inBlock_goes (runStmts_goes hc returns body)
  | branch cond yes no pos =>
    have head : Remark "condition " := ⟨by decide, by decide⟩
    have condition : Stays s (Inside rest c globals) (Frame.calls rest ++ [c])
        (evalCondition s call cond pos) :=
      ((Calm.compatibility s).evalCondition_rel hc cond pos).stays Inside.stage
    have entered (text : String) {body : List Stmt}
        (hb : Goes s rest c globals (runStmts s call returns body)) : Goes s rest c globals (do
          Run.record s pos.line ("condition " ++ cond.render ++ text) none
          inBlock (runStmts s call returns body)) :=
      (Tells.record Inside.stage.callStack ((head.append _).unmarked_append text) pos.line none).andThen
        fun _ => inBlock_goes hb
    -- the statement only unfolds once it is known whether there is an `else`
    cases no with
    | none =>
      refine condition.andThen fun holds => ?_
      cases holds with
      | true => exact entered _ (runStmts_goes hc returns yes)
      | false => exact Tells.value rfl
    | some no =>
      refine condition.andThen fun holds => ?_
      cases holds with
      | true => exact entered _ (runStmts_goes hc returns yes)
      | false => exact entered _ (runStmts_goes hc returns no)
  | whileLoop cond body pos =>
    exact loop_goes (testLoop_stays hc (some cond) pos) (inBlock_goes (runStmts_goes hc returns body))
      (Tells.pure ()) s.fuel
  | forLoop init cond update body pos =>
    exact inBlock_goes ((runOptionalClause_stays Inside.stage hc init).andThen fun _ =>
      loop_goes (testLoop_stays hc cond pos) (inBlock_goes (runStmts_goes hc returns body))
        (runOptionalClause_stays Inside.stage hc update) s.fuel)
  | leave value pos => exact leaveWith_goes hc returns value pos
  | breakLoop pos =>
    exact (Tells.record Inside.stage.callStack (by decide) pos.line none).andThen
      fun _ => Tells.value rfl
  | continueLoop pos =>
    exact (Tells.record Inside.stage.callStack (by decide) pos.line none).andThen
      fun _ => Tells.value rfl

theorem runStmts_goes (hc : CalmCalls s call) (returns : CType) (stmts : List Stmt) :
    Goes s rest c globals (runStmts s call returns stmts) := by
  cases stmts with
  | nil => exact Tells.value rfl
  | cons stmt more =>
    refine (runStmt_goes hc returns stmt).bind (yields_any _) (fun flow _ stays => ?_) fun flow left => ?_
    · cases flow with
      | normal => exact runStmts_goes hc returns more
      | breakLoop => exact Tells.value rfl
      | continueLoop => exact Tells.value rfl
      | leave v => exact nomatch stays
    · cases flow with
      | leave v => exact fun m hm => ⟨_, m, rfl, hm, rfl, rfl⟩
      | _ => exact nomatch left

end

theorem runBody_tells (hc : CalmCalls s call) (f : Function) :
    Tells s (Inside rest c globals) (Frame.calls rest ++ [c]) (runBody s call f) fun _ => true := by
  have word : firstWord ("exit " ++ f.name) = "exit".toList :=
    (firstWord_append (by decide) f.name).trans (by decide)
  have exit : Tells s (Inside rest c globals) (Frame.calls rest ++ [c]) (do
      Run.record s f.endPos.line ("exit " ++ f.name) none
      return f.fallback) fun _ => true :=
    (Tells.recordLeaving Inside.stage.callStack (.inr word) f.endPos.line none).bind (yields_any _)
      nofun fun _ _ m hm => ⟨_, m, rfl, hm, rfl, rfl⟩
  refine (runStmts_goes hc f.returns f.body).bind (yields_any _) (fun flow _ stays => ?_)
    fun flow left => ?_
  · cases flow with
    | leave v => exact nomatch stays
    | _ => exact exit
  · cases flow with
    | leave v => exact fun m hm => ⟨v, m, rfl, hm, rfl, rfl⟩
    | _ => exact nomatch left

end

/-! Calls and whole runs -/

def Function.callFrom (f : Function) (line : Nat) : Call := ⟨f.name, line, f.pos.line⟩

/-- The steps of one call from its first to its last, made while the calls `base` are under way. -/
structure CallSteps (limit : Nat) (base : List Call) (c : Call) (first : Step) (inner : List Step)
    (last : Step) : Prop where
  free : base.length < limit
  opens : first.Opens base c
  within : Nested limit (base ++ [c]) inner
  closes : last.Closes base c

theorem CallSteps.nested {limit : Nat} {base : List Call} {c : Call} {first last : Step}
    {inner : List Step} (h : CallSteps limit base c first inner last) :
    Nested limit base (first :: inner ++ [last]) :=
  .call h.free h.opens h.within h.closes .nil

theorem bindParams_stays {I : Environment → Prop} {base : List Call} (hI : Stage I base)
    (pos : Position) (ps : List Member) (vs : List Value) :
    Stays s I base (bindParams pos ps vs) := by
  induction ps generalizing vs with
  | nil => exact Tells.pure _
  | cons p ps ih =>
    cases vs with
    | nil => exact Tells.pure _
    | cons v vs =>
      exact ((Calm.ofSteady (steady_convertTo p.type v pos)).stays hI).andThen fun v =>
        (declareScalar_stays hI p.name p.type v).andThen fun _ => (ih vs).andThen fun _ => Tells.pure _

/-- Opening a frame records the step that enters the function, unless it halts before. -/
theorem openFrame_opens (f : Function) (args : List Value) (line : Nat) (pos : Position) (m : Machine) :
    Ensures (openFrame s f args line pos) m
      (fun _ m' => Inside m.env.frames (f.callFrom line) m.env.globals m'.env ∧ ∃ first,
        m'.recorder.steps s = m.recorder.steps s ++ [first] ∧
        first.Opens m.env.callStack (f.callFrom line))
      (fun _ m' => m'.recorder.steps s = m.recorder.steps s) := by
  refine Ensures.bind ?_
  unfold checkArity
  dsimp only
  split
  · exact (ensures_iff_of_error rfl).mpr rfl
  let pushed : Machine := { m with env := m.env.pushFrame (.enter (f.callFrom line)) }
  have inside : Inside m.env.frames (f.callFrom line) m.env.globals pushed.env := ⟨_, rfl, rfl, rfl⟩
  have bound := (quiet_bindParams pos f.params args pushed).and
    (bindParams_stays (s := s) Inside.stage pos f.params args pushed inside)
  refine Ensures.bind (Ensures.bind (bound.mono ?_ ?_))
  · rintro texts m₁ ⟨⟨same, -⟩, inside₁, -⟩
    have steps : m₁.recorder.steps s = m.recorder.steps s := congrArg (Recorder.steps · s) same
    refine (record_ensures s _ _ _ m₁).mono ?_ ?_
    · rintro - m' ⟨rfl, -, -⟩
      refine ⟨inside₁, _, by rw [m₁.steps_recorded, steps], Inside.stage.callStack _ inside₁, ?_, ?_, rfl⟩
      · refine decide_eq_true ?_
        show firstWord ("enter " ++ f.name ++ "(" ++ commaSeparated texts ++ ")") = _
        simp only [String.append_assoc]
        exact (firstWord_append (by decide) _).trans (by decide)
      · refine ⟨(commaSeparated texts).toList ++ ")".toList, ?_⟩
        rw [← List.append_assoc, ← String.toList_append, ← String.toList_append]
        rfl
    · rintro e m' ⟨rfl | rfl, -⟩ <;> exact steps
  · rintro e m₁ ⟨⟨-, same, -⟩, -⟩
    exact congrArg (Recorder.steps · s) same

/-- A piece that is the call `c`: if it comes to its end it has recorded the steps of a whole call, and
has left the frames and the global names as they were. -/
def Brackets (s : Setting) (x : Run α) (c : Call) (m : Machine) : Prop :=
  Ensures x m
    (fun _ m' => (m'.env.frames = m.env.frames ∧ m'.env.globals = m.env.globals) ∧
      ∃ first inner last, m'.recorder.steps s = m.recorder.steps s ++ (first :: inner ++ [last]) ∧
        CallSteps s.limits.depth m.env.callStack c first inner last)
    (fun _ m' => ∃ new, m'.recorder.steps s = m.recorder.steps s ++ new ∧
      Underway s.limits.depth m.env.callStack new)

theorem Brackets.calm {x : Run α} {c : Call} (h : ∀ m, Brackets s x c m) : Calm s x := by
  rintro frames globals m ⟨rfl, rfl⟩
  refine (h m).mono ?_ fun _ _ => id
  rintro v m' ⟨same, first, inner, last, steps, made⟩
  exact ⟨same, _, steps, .stayed made.nested⟩

theorem runInFrame_brackets (hc : CalmCalls s call) (f : Function) (args : List Value) (line : Nat)
    (pos : Position) {m : Machine} (free : m.env.callStack.length < s.limits.depth) :
    Brackets s (runInFrame s call f args line pos) (f.callFrom line) m := by
  refine Ensures.bind ((openFrame_opens f args line pos m).mono ?_ ?_)
  · rintro - m₁ ⟨inside, first, steps, opens⟩
    have steps₁ (new : List Step) : m₁.recorder.steps s ++ new = m.recorder.steps s ++ first :: new := by
      rw [steps, List.append_assoc]
      rfl
    refine Ensures.bind ((runBody_tells hc f m₁ inside).mono ?_ ?_)
    · rintro v m₂ ⟨⟨top, frames, -, globals⟩, new, steps', told⟩
      cases told with
      | left within callStack leaves =>
        refine ⟨⟨?_, ?_⟩, first, _, _, steps'.trans (steps₁ _), free, opens, within, callStack, leaves⟩
        · show m₂.env.popFrame.frames = _
          rw [Environment.popFrame, frames]
        · show m₂.env.popFrame.globals = _
          rw [Environment.popFrame, frames]
          exact globals
    · rintro e m₂ ⟨new, steps', underway⟩
      exact ⟨first :: new, steps'.trans (steps₁ new), .call .nil free opens underway⟩
  · rintro e m₁ steps
    exact ⟨[], by rw [steps, List.append_nil], .nested .nil⟩

theorem callFunction_brackets (s : Setting) (n : Nat) (f : Function) (args : List Value) (line : Nat)
    (pos : Position) (m : Machine) :
    Brackets s (callFunction s n f args line pos) (f.callFrom line) m := by
  induction n generalizing f args line pos m with
  | zero => exact ⟨[], (List.append_nil _).symm, .nested .nil⟩
  | succ n ih =>
    have calls : CalmCalls s (s.handlerWithin n) :=
      fun g values place => Brackets.calm (ih g values place.line place)
    refine Ensures.bind ?_
    unfold Ensures
    rw [checkDepth_eq]
    by_cases deep : s.limits.depth ≤ m.env.depth
    · rw [if_pos deep]
      exact ⟨[], (List.append_nil _).symm, .nested .nil⟩
    · rw [if_neg deep]
      refine runInFrame_brackets calls f args line pos ?_
      rw [Environment.callStack, List.length_reverse, List.length_map]
      exact Nat.not_le.mp deep

theorem calmCalls_handlerWithin (s : Setting) (n : Nat) : CalmCalls s (s.handlerWithin n) :=
  fun f args pos => Brackets.calm (callFunction_brackets s n f args pos.line pos)

/-- Before the first function is entered no call is under way. -/
theorem stage_outside : Stage (·.frames = []) [] where
  callStack env h := by
    rw [Environment.callStack, h]
    rfl
  names h frames _ := frames.trans h
  declare name a h := by
    rw [Environment.declare, h]

theorem runGlobals_stays (s : Setting) (ds : List Decl) :
    Stays s (·.frames = []) [] (runGlobals s ds) := by
  induction ds with
  | nil => exact Tells.pure ()
  | cons d rest ih =>
    exact (runSimple_stays stage_outside (calmCalls_handlerWithin s s.fuel) (.declare d)).andThen
      fun _ => ih

/-- A run that comes to its end ends with the whole call of `main`, and all of its steps are nested. -/
theorem runProgram_brackets (s : Setting) (globals : List Decl) (input : String) :
    Ensures (runProgram s globals) (.start input)
      (fun _ m => ∃ before c first inner last,
        m.recorder.steps s = before ++ (first :: inner ++ [last]) ∧ Nested s.limits.depth [] before ∧
        CallSteps s.limits.depth [] c first inner last ∧ c.function = "main")
      (fun _ m => Underway s.limits.depth [] (m.recorder.steps s)) := by
  have begun : (Machine.start input).recorder.steps s = [] := rfl
  refine Ensures.bind ((runGlobals_stays s globals (.start input) rfl).mono ?_ ?_)
  · rintro ⟨⟩ m ⟨outside, before, steps, told⟩
    obtain ⟨nested⟩ := told
    rw [begun, List.nil_append] at steps
    have stack : m.env.callStack = [] := stage_outside.callStack m.env outside
    cases hf : s.function? "main" with
    | none =>
      refine (ensures_iff_of_error rfl).mpr ?_
      rw [steps]
      exact .nested nested
    | some f =>
      have name : f.name = "main" := by simpa using List.find?_some hf
      have main := callFunction_brackets s s.fuel f [] 0 f.pos m
      rw [Brackets, stack] at main
      refine Ensures.bind (main.mono ?_ ?_)
      · rintro v m' ⟨-, first, inner, last, steps', made⟩
        exact ⟨before, _, first, inner, last, steps ▸ steps', nested, made, name⟩
      · rintro e m' ⟨new, steps', underway⟩
        rw [steps', steps]
        exact underway.prepend nested
  · rintro e m ⟨new, steps, underway⟩
    rw [steps, begun]
    exact underway

theorem Program.trace_underway (p : Program) (s : Setting) (input : String) :
    Underway s.limits.depth [] (p.trace s input).steps ∧
      ((p.trace s input).status = .completed → Nested s.limits.depth [] (p.trace s input).steps) := by
  have run := runProgram_brackets s p.globals input
  cases h : runProgram s p.globals (.start input) with
  | ok u m =>
    obtain ⟨before, c, first, inner, last, steps, nested, made, -⟩ := run.ok h
    have whole : Nested s.limits.depth [] (m.recorder.steps s) := by
      rw [steps]
      exact nested.append made.nested
    rw [trace_of_ok h]
    exact ⟨.nested whole, fun _ => whole⟩
  | error e m =>
    rw [trace_of_error h]
    refine ⟨run.error h, fun completed => ?_⟩
    cases e <;> exact nomatch completed

/-- The calls of a trace are nested like brackets. At each step just those calls are under way that the
step before it leaves, with one more on top if the step enters a function. So the steps of a trace that
came to its end are nested, those of any other are so but for the calls that were cut off; and a call
that comes to its end has recorded one step that enters its function, one that leaves it, and between
them steps through which it is under way, in which functions are entered and left only above it. -/
theorem calls_bracketed (source input : String) (limits : Limits) (cancelled : Bool) :
    let t := traceSource source input limits cancelled
    (∀ before x after, t.steps = before ++ x :: after →
      (x.enters = true → ∃ c, x.callStack = remainingAfter [] before ++ [c]) ∧
      (x.enters = false → x.callStack = remainingAfter [] before)) ∧
    Underway limits.depth [] t.steps ∧
    (t.status = .completed → Nested limits.depth [] t.steps) ∧
    ∀ (s : Setting) n f args line pos m v m', callFunction s n f args line pos m = .ok v m' →
      m'.env.frames = m.env.frames ∧ ∃ first inner last,
        m'.recorder.steps s = m.recorder.steps s ++ (first :: inner ++ [last]) ∧
        first.Opens m.env.callStack (f.callFrom line) ∧ last.Closes m.env.callStack (f.callFrom line) ∧
        Nested s.limits.depth (m.env.callStack ++ [f.callFrom line]) inner ∧
        ∀ x ∈ inner, m.env.callStack ++ [f.callFrom line] <+: x.callStack ∧
          (x.enters = true ∨ x.leaves = true → m.env.callStack.length + 1 < x.callStack.length) := by
  intro t
  have told : Underway limits.depth [] t.steps ∧
      (t.status = .completed → Nested limits.depth [] t.steps) := by
    show Underway _ _ (traceSource source input limits cancelled).steps ∧ _
    unfold t traceSource
    cases Program.parse source with
    | error e => exact ⟨.nested .nil, nofun⟩
    | ok p => exact p.trace_underway (.ofProgram p source limits cancelled) input
  refine ⟨?_, told.1, told.2, ?_⟩
  · intro before x after steps
    have bracketed := told.1.bracketed
    rw [steps] at bracketed
    have follows := bracketed.follows
    unfold Step.Follows at follows
    refine ⟨fun enters => ?_, fun enters => ?_⟩
    · rwa [if_pos enters] at follows
    · rwa [enters] at follows
  · intro s n f args line pos m v m' h
    obtain ⟨⟨frames, -⟩, first, inner, last, steps, made⟩ :=
      (callFunction_brackets s n f args line pos m).ok h
    refine ⟨frames, first, inner, last, steps, made.opens, made.closes, made.within, ?_⟩
    have above := made.within.above
    rwa [List.length_append, List.length_singleton] at above

/-- The calls of an argument and around it follow each other inside of `main`. -/
theorem calls_bracketed_argument :
    let source := "int f(int n) \x7b return n; \x7d int main() \x7b f(f(1)); \x7d"
    let t := traceSource source "" ⟨100, 9, 9999⟩ false
    t.status = .completed ∧
    t.steps.map (fun x => (x.enters, x.leaves, x.callStack.map (·.function))) =
      [(true, false, ["main"]), (true, false, ["main", "f"]), (false, true, ["main", "f"]),
        (true, false, ["main", "f"]), (false, true, ["main", "f"]), (false, false, ["main"]),
        (false, true, ["main"])] ∧
    Nested 9 [] t.steps := by
  intro source t
  have run : t.status = .completed ∧
      t.steps.map (fun x => (x.enters, x.leaves, x.callStack.map (·.function))) =
        [(true, false, ["main"]), (true, false, ["main", "f"]), (false, true, ["main", "f"]),
          (true, false, ["main", "f"]), (false, true, ["main", "f"]), (false, false, ["main"]),
          (false, true, ["main"])] := by decide +kernel
  exact ⟨run.1, run.2, (calls_bracketed source "" ⟨100, 9, 9999⟩ false).2.2.1 run.1⟩

end Stepwise
