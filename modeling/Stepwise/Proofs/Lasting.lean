import Stepwise.Proofs.Congruence
import Stepwise.Proofs.Record

/-! What is recorded and printed in a run changes in three ways only: a text is printed, a copy of all text
is made, or the present moment is recorded with such a copy. A property that survives these survives whatever
a program does. -/

namespace Stepwise

open Run

variable {α β : Type} {s : Setting}

/-- A property of what was recorded and printed that no print, no copy and no recorded step ends. -/
structure Lasting (s : Setting) (I : Recorder Moment → Console → Prop) : Prop where
  print : ∀ r c text, I r c → I r (c.print text)
  copy : ∀ r c, I r c → I r c.snapshot
  record : ∀ (m : Machine) line description returned, I m.recorder m.console →
    m.recorder.count < s.limits.steps →
    m.recorder.used + m.charge s (m.moment line description returned) ≤ s.limits.memory →
    I (m.recorded s (m.moment line description returned)).recorder m.console.snapshot

/-- A piece of a run that ends no lasting property, even if it halts. -/
def Keeps (s : Setting) (x : Run α) : Prop :=
  ∀ I, Lasting s I → ∀ m, I m.recorder m.console → Leaves x m fun m' => I m'.recorder m'.console

namespace Keeps

theorem ofQuiet {x : Run α} (hx : Quiet x) : Keeps s x := by
  intro I _ m hm
  refine (hx m).mono (fun a m' h => ?_) fun e m' h => ?_
  · rwa [h.1, h.2]
  · rwa [h.2.1, h.2.2]

theorem print (text : String) : Keeps s (Run.print text) :=
  fun _ hI m hm => hI.print m.recorder m.console text hm

theorem record (line : Nat) (description : String) (returned : Option Value) :
    Keeps s (Run.record s line description returned) := by
  intro I hI m hm
  refine (record_ensures s line description returned m).mono ?_ ?_
  · rintro - m' ⟨rfl, hsteps, hmemory⟩
    exact hI.record m line description returned hm hsteps hmemory
  · rintro e m' ⟨rfl | rfl, -⟩
    · exact hm
    · exact hI.copy m.recorder m.console hm

theorem bind {x : Run α} {f : α → Run β} (hx : Keeps s x) (hf : ∀ a, Keeps s (f a)) :
    Keeps s (x >>= f) := fun I hI m hm =>
  Ensures.bind ((hx I hI m hm).mono (fun a m' h => hf a I hI m' h) fun _ _ h => h)

theorem throw (e : Halt) : Keeps s (throw e : Run α) := fun _ _ _ hm => hm

theorem output (format : String) (values : List Value) (pos : Position) :
    Keeps s (printFormatted format values pos) :=
  (ofQuiet (steady_ofFormat pos _).quiet).bind fun text => (print text).bind fun _ =>
    ofQuiet (quiet_pure text)

def congruence (s : Setting) : Congruence s s :=
  .ofBind (fun x _ => Keeps s x) (.refl s) ofQuiet output record bind (throw _)

theorem checkDepth (f : Function) (pos : Position) : Keeps s (checkDepth s f pos) := by
  intro I _ m hm
  refine (checkDepth_ensures s m f pos).mono ?_ ?_
  · rintro - m' rfl
    exact hm
  · rintro e m' ⟨rfl, -⟩
    exact hm

theorem callFunction (s : Setting) (n : Nat) (f : Function) (args : List Value) (line : Nat)
    (pos : Position) : Keeps s (callFunction s n f args line pos) := by
  induction n generalizing f args line pos with
  | zero => exact throw _
  | succ n ih =>
    have calls : (congruence s).Calls (s.handlerWithin n) (s.handlerWithin n) :=
      fun f args pos => ih f args pos.line pos
    exact (checkDepth f pos).bind fun _ => (congruence s).runInFrame_rel calls f args line pos

theorem runProgram (s : Setting) (globals : List Decl) : Keeps s (runProgram s globals) :=
  (congruence s).runProgram_rel (callFunction s s.fuel) globals

end Keeps

structure Recorder.Extends (r r' : Recorder α) : Prop where
  items : r.items <:+ r'.items
  used : r.used ≤ r'.used

namespace Recorder.Extends

theorem refl (r : Recorder α) : r.Extends r := ⟨List.suffix_refl _, Nat.le_refl _⟩

theorem trans {r r' r'' : Recorder α} (h : r.Extends r') (h' : r'.Extends r'') : r.Extends r'' :=
  ⟨h.items.trans h'.items, Nat.le_trans h.used h'.used⟩

theorem count {r r' : Recorder α} (h : r.Extends r') : r.count ≤ r'.count := by
  rw [r.count_eq, r'.count_eq]
  exact h.items.length_le

/-- Whatever was recorded stays. -/
theorem lasting (r₀ : Recorder Moment) : Lasting s (fun r _ => r₀.Extends r) where
  print _ _ _ h := h
  copy _ _ h := h
  record _ _ _ _ h _ _ :=
    ⟨h.items.trans (List.suffix_cons _ _), Nat.le_trans h.used (Nat.le_add_right _ _)⟩

end Recorder.Extends

theorem Keeps.extends {x : Run α} (hx : Keeps s x) (m : Machine) :
    Leaves x m fun m' => m.recorder.Extends m'.recorder :=
  hx _ (Recorder.Extends.lasting m.recorder) m (Recorder.Extends.refl m.recorder)

/-- A loop records a step on every turn before anything can repeat. -/
theorem testLoop_records (n : Nat) (cond : Option Expr) (pos : Position) (m : Machine) :
    Ensures (testLoop s (s.handlerWithin n) cond pos) m
      (fun _ m' => m.recorder.count < m'.recorder.count) (fun _ _ => True) := by
  have calls : (Keeps.congruence s).Calls (s.handlerWithin n) (s.handlerWithin n) :=
    fun f args pos => Keeps.callFunction s n f args pos.line pos
  have condition : Keeps s (loopCondition s (s.handlerWithin n) cond pos) :=
    (Keeps.congruence s).loopCondition_rel calls cond pos
  refine Ensures.bind ((condition.extends m).mono (fun b m₁ h => ?_) fun _ _ _ => trivial)
  refine Ensures.bind ((record_ensures s _ _ _ m₁).mono ?_ fun _ _ _ => trivial)
  rintro - m' ⟨rfl, -, -⟩
  exact Nat.lt_succ_of_le h.count

theorem Environment.depth_declare (env : Environment) (name : String) (a : Address) :
    (env.declare name a).depth = env.depth := by
  unfold declare depth
  split <;> rename_i h <;> simp [h]

theorem bindParams_depth (pos : Position) (ps : List Member) (vs : List Value) (m : Machine) :
    Ensures (bindParams pos ps vs) m (fun _ m' => m'.env.depth = m.env.depth) (fun _ _ => True) := by
  induction ps generalizing vs m with
  | nil => rfl
  | cons p ps ih =>
    cases vs with
    | nil => rfl
    | cons v vs =>
      unfold bindParams
      refine Ensures.bind ?_
      unfold convertTo
      cases v.convert p.type with
      | none => trivial
      | some v =>
        refine Ensures.bind (Ensures.bind ((ih vs _).mono (fun _ m' h => h.trans ?_) fun _ _ => id))
        exact Environment.depth_declare _ _ _

/-- A call records a step before its body runs, the moment with one more frame. -/
theorem openFrame_records (f : Function) (args : List Value) (line : Nat) (pos : Position)
    (m : Machine) : Ensures (openFrame s f args line pos) m
      (fun _ m' => ∃ x, m'.recorder.items = x :: m.recorder.items ∧ x.env.depth = m.env.depth + 1)
      (fun _ _ => True) := by
  refine Ensures.bind ?_
  unfold checkArity
  dsimp only
  split
  · trivial
  have bound (m₁ : Machine) :=
    (quiet_bindParams pos f.params args m₁).and (bindParams_depth pos f.params args m₁)
  refine Ensures.bind (Ensures.bind ((bound _).mono (fun _ m₁ h => ?_) fun _ _ _ => trivial))
  refine (record_ensures s _ _ _ m₁).mono ?_ fun _ _ _ => trivial
  rintro - m' ⟨rfl, -, -⟩
  rw [Machine.recorded_items, h.1.1]
  exact ⟨_, rfl, h.2⟩

end Stepwise
