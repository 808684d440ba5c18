import Stepwise.Proofs.Ensures

/-! Pieces of a run that neither record a step nor print, and that halt by a fault if at all. Every
primitive effect but the two named ones is of this kind, so what is proved of a trace only has to look
at `Run.record`, at `Run.print` and at how pieces are put together. Most of them leave the frames and
the global names alone too: those are the steady ones, and evaluating is made of them. -/

namespace Stepwise

variable {α β : Type}

namespace Run

/-- A piece that neither records nor prints, and that halts only by a fault. -/
def Quiet (x : Run α) : Prop :=
  ∀ m, Ensures x m (fun _ m' => m'.recorder = m.recorder ∧ m'.console = m.console)
    (fun e m' => (∃ f, e = .fault f) ∧ m'.recorder = m.recorder ∧ m'.console = m.console)

theorem Quiet.bind {x : Run α} {f : α → Run β} (hx : Quiet x) (hf : ∀ a, Quiet (f a)) :
    Quiet (x >>= f) := by
  intro m
  refine Ensures.bind ((hx m).mono (fun a m' h => ?_) fun _ _ h => h)
  rw [← h.1, ← h.2]
  exact hf a m'

structure Steady (x : Run α) : Prop where
  quiet : Quiet x
  names : ∀ m, Ensures x m (fun _ m' => m'.env.frames = m.env.frames ∧ m'.env.globals = m.env.globals)
    (fun _ _ => True)

theorem Steady.bind {x : Run α} {f : α → Run β} (hx : Steady x) (hf : ∀ a, Steady (f a)) :
    Steady (x >>= f) where
  quiet := hx.quiet.bind fun a => (hf a).quiet
  names m := by
    refine Ensures.bind ((hx.names m).mono (fun a m' h => ?_) fun _ _ h => h)
    rw [← h.1, ← h.2]
    exact (hf a).names m'

theorem steady_pure (a : α) : Steady (pure a) := ⟨fun _ => ⟨rfl, rfl⟩, fun _ => ⟨rfl, rfl⟩⟩

theorem quiet_pure (a : α) : Quiet (pure a) := (steady_pure a).quiet

theorem steady_fail (cause : Fault.Cause) (pos : Position) : Steady (fail cause pos : Run α) :=
  ⟨fun _ => ⟨⟨_, rfl⟩, rfl, rfl⟩, fun _ => trivial⟩

theorem steady_ofFault (r : Except Fault α) : Steady (ofFault r) := by
  cases r with
  | ok a => exact steady_pure a
  | error f => exact steady_fail f.cause f.pos

theorem steady_ofCause (pos : Position) (r : Except Fault.Cause α) : Steady (ofCause pos r) := by
  cases r with
  | ok a => exact steady_pure a
  | error cause => exact steady_fail cause pos

theorem steady_ofFormat (pos : Position) (r : Except Format.Error α) : Steady (ofFormat pos r) := by
  cases r with
  | ok a => exact steady_pure a
  | error e => exact steady_fail _ pos

theorem Steady.assured {x : Run α} (hx : Steady x) : Steady (assured x) where
  quiet m := (hx.quiet m).assured fun _ _ h => ⟨⟨_, rfl⟩, h.2⟩
  names m := (hx.names m).assured fun _ _ h => h

theorem steady_get : Steady (get : Run Machine) := ⟨fun _ => ⟨rfl, rfl⟩, fun _ => ⟨rfl, rfl⟩⟩

theorem steady_environment : Steady environment := ⟨fun _ => ⟨rfl, rfl⟩, fun _ => ⟨rfl, rfl⟩⟩

theorem quiet_changeEnvironment (f : Environment → Environment) : Quiet (changeEnvironment f) :=
  fun _ => ⟨rfl, rfl⟩

theorem steady_changeMemory (f : Environment → Memory) :
    Steady (changeEnvironment fun env => { env with memory := f env }) :=
  ⟨quiet_changeEnvironment _, fun _ => ⟨rfl, rfl⟩⟩

theorem steady_setInput (rest : List Char) :
    Steady (modify fun m => { m with input := rest } : Run Unit) :=
  ⟨fun _ => ⟨rfl, rfl⟩, fun _ => ⟨rfl, rfl⟩⟩

end Run

open Run

/-! Places -/

theorem steady_requireDefined (v : Value) (e : Expr) : Steady (requireDefined v e) := by
  unfold requireDefined
  split
  · exact steady_pure v
  · exact steady_fail _ _

theorem steady_convertTo (t : CType) (v : Value) (pos : Position) : Steady (convertTo t v pos) := by
  unfold convertTo
  split
  · exact steady_pure _
  · exact steady_fail _ _

theorem steady_requirePointer (v : Value) (pos : Position) : Steady (requirePointer v pos) := by
  unfold requirePointer
  split
  · exact steady_pure _
  · exact steady_fail _ _

theorem steady_liveAllocation (a : Address) (pos : Position) : Steady (liveAllocation a pos) := by
  refine steady_environment.bind fun env => ?_
  split
  · exact steady_pure _
  · exact steady_fail _ _

theorem steady_storeSlot (a : Address) (v : Value) (pos : Position) : Steady (storeSlot a v pos) := by
  refine steady_environment.bind fun env => ?_
  split
  · exact steady_changeMemory _
  · exact steady_fail _ _

namespace Place

theorem steady_ofName (name : String) (pos : Position) : Steady (ofName name pos) :=
  steady_environment.bind fun _ => (steady_ofFault _).bind fun _ => steady_pure _

theorem steady_elementsBehind (v : Value) (pos : Position) : Steady (elementsBehind v pos) := by
  refine (steady_requirePointer v pos).bind fun start => (steady_liveAllocation start pos).bind
    fun al => ?_
  split
  · exact steady_fail _ _
  · exact steady_pure _

theorem steady_element (es : Elements) (index : Value) (pos : Position) :
    Steady (element es index pos) := by
  unfold element
  split
  · exact steady_fail _ _
  · split
    · exact steady_fail _ _
    · exact steady_pure _

theorem steady_behind (v : Value) (pos : Position) : Steady (behind v pos) :=
  (steady_requirePointer v pos).bind fun target => (steady_liveAllocation target pos).bind
    fun _ => steady_pure _

theorem steady_requireStruct (place : Place) (pos : Position) : Steady (requireStruct place pos) := by
  unfold requireStruct
  split
  · exact steady_pure _
  · exact steady_fail _ _

theorem steady_field (s : Setting) (base : Address) (name : String) (pos : Position) :
    Steady (field s base name pos) := by
  refine (steady_liveAllocation base pos).bind fun al => ?_
  split
  · split
    · split
      · exact steady_fail _ _
      · split
        · exact steady_fail _ _
        · exact steady_pure _
    · exact steady_fail _ _
  · exact steady_fail _ _

theorem steady_read (place : Place) (e : Expr) : Steady (read place e) := by
  unfold read
  split
  · exact steady_pure _
  · refine steady_environment.bind fun env => ?_
    split
    · exact steady_fail _ _
    · split
      · exact steady_pure _
      · exact steady_fail _ _

theorem steady_readScalar (place : Place) (e : Expr) : Steady (readScalar place e) := by
  unfold readScalar
  split
  · exact steady_fail _ _
  · exact steady_read place e

theorem steady_write (place : Place) (v : Value) (pos : Position) : Steady (write place v pos) := by
  unfold write
  split
  · exact steady_fail _ _
  · exact (steady_convertTo _ _ _).bind fun stored => (steady_storeSlot _ _ _).bind
      fun _ => steady_pure stored

end Place

/-! Input, heap nodes and declarations -/

theorem steady_checkTargets (pos : Position) (cs : List Format.Conversion) (ps : List Place) :
    Steady (checkTargets pos cs ps) := by
  induction cs generalizing ps with
  | nil => exact steady_pure _
  | cons c cs ih =>
    cases ps with
    | nil => exact steady_pure _
    | cons p ps =>
      unfold checkTargets
      split
      · exact steady_fail _ _
      · exact ih ps

theorem steady_storeAll (pos : Position) (vs : List Value) (ps : List Place) (es : List Expr) :
    Steady (storeAll pos vs ps es) := by
  induction vs generalizing ps es with
  | nil => exact steady_pure _
  | cons v vs ih =>
    cases ps with
    | nil => exact steady_pure _
    | cons p ps =>
      cases es with
      | nil => exact steady_pure _
      | cons e es =>
        exact (Place.steady_write p v pos).bind fun _ => (ih ps es).bind fun _ => steady_pure _

theorem steady_readFormatted (format : String) (targets : List Expr) (places : List Place)
    (pos : Position) : Steady (readFormatted format targets places pos) := by
  refine steady_get.bind fun m => ?_
  refine (steady_setInput _).bind fun _ => (steady_ofFormat pos _).bind fun scan => ?_
  dsimp only
  have rest : Steady (do
      checkTargets pos scan.conversions places
      let bound ← storeAll pos scan.values places targets
      pure (⟨scan.result, bound⟩ : Reading)) :=
    (steady_checkTargets _ _ _).bind fun _ => (steady_storeAll _ _ _ _).bind fun _ => steady_pure _
  split
  · exact (steady_fail _ _).bind fun _ => rest
  · exact rest

theorem steady_newNode (s : Setting) (struct : String) (pos : Position) :
    Steady (newNode s struct pos) := by
  unfold newNode
  split
  · exact steady_fail _ _
  · exact steady_environment.bind fun _ => (steady_changeMemory _).bind fun _ => steady_pure _

theorem steady_freeNode (args : List Value) (pos : Position) : Steady (freeNode args pos) := by
  unfold freeNode
  split
  · split
    · exact steady_pure _
    · refine steady_environment.bind fun env => ?_
      split
      · exact steady_fail _ _
      · split
        · exact (steady_changeMemory _).bind fun _ => steady_pure _
        · exact steady_fail _ _
  · exact steady_fail _ _
  · exact steady_fail _ _

theorem steady_stepPlace (op : StepOp) (place : Place) (operand : Expr) (pos : Position) :
    Steady (stepPlace op place operand pos) :=
  (Place.steady_read place operand).bind fun _ => (steady_ofCause pos _).bind
    fun _ => (Place.steady_write place _ pos).bind fun _ => steady_pure _

theorem steady_atFileScope : Steady atFileScope := steady_environment.bind fun _ => steady_pure _

theorem quiet_declareScalar (name : String) (type : CType) (v : Value) :
    Quiet (declareScalar name type v) := quiet_changeEnvironment _

theorem steady_storeRun (pos : Position) (a : Address) (vs : List Value) :
    Steady (storeRun pos a vs) := by
  induction vs generalizing a with
  | nil => exact steady_pure _
  | cons v vs ih => exact (steady_storeSlot a v pos).assured.bind fun _ => ih (a + 1)

theorem quiet_declareArray (name : String) (elem : CType) (size : Nat) (fill : Value)
    (values : List Value) (pos : Position) :
    Quiet (declareArray name elem size fill values pos) :=
  steady_environment.quiet.bind fun _ => (quiet_changeEnvironment _).bind fun _ =>
    (steady_storeRun pos _ values).quiet.bind fun _ => quiet_changeEnvironment _

theorem quiet_bindParams (pos : Position) (ps : List Member) (vs : List Value) :
    Quiet (bindParams pos ps vs) := by
  induction ps generalizing vs with
  | nil => exact quiet_pure _
  | cons p ps ih =>
    cases vs with
    | nil => exact quiet_pure _
    | cons v vs =>
      exact (steady_convertTo p.type v pos).quiet.bind fun v => (quiet_declareScalar p.name p.type v).bind
        fun _ => (ih vs).bind fun _ => quiet_pure _

theorem steady_checkArity (f : Function) (args : List Value) (pos : Position) :
    Steady (checkArity f args pos) := by
  unfold checkArity
  dsimp only
  split
  · exact steady_fail _ _
  · exact steady_pure _

end Stepwise
