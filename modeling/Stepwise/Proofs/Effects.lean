import Stepwise.Proofs.Course

/-! What code can do besides looking at the state, read off its text: it calls, stores, declares, makes
nodes, prints and reads. A trait that pieces keep when they are put together belongs to all that evaluating
does, provided that it belongs to the effects that stand in the text. Code without any effect leaves the
state as it is, however it ends; so an assignment that has no other effect changes one slot. -/

namespace Stepwise

open Run

variable {α β : Type} {s : Setting} {call : CallHandler} {m m' : Machine}

/-! Effects that stand in the text -/

inductive Effect where
  /-- The call of `free` ends a heap node, any other runs a function. -/
  | call (name : String)
  | store
  | declare
  | newNode
  | print
  | read
deriving DecidableEq, Repr

mutual

/-- The effects of evaluating an expression, in order. The operand of `sizeof` is not evaluated. -/
def Expr.effects : Expr → List Effect
  | .int .. | .float .. | .char .. | .null _ | .var .. | .sizeofType .. | .sizeofExpr .. => []
  | .unary _ e _ | .addressOf e _ | .deref e _ | .field e .. | .cast _ e _ => e.effects
  | .binary _ e e' _ | .index e e' _ => e.effects ++ e'.effects
  | .step _ e _ => e.effects ++ [.store]
  | .call name es _ => effectsAll es ++ [.call name]
  | .newNode .. => [.newNode]
  | .print _ es _ => effectsAll es ++ [.print]
  | .read _ es _ => effectsAll es ++ [.read]

def effectsAll : List Expr → List Effect
  | [] => []
  | e :: rest => e.effects ++ effectsAll rest

end

def Decl.effects : Decl → List Effect
  | .scalar _ _ init _ => (init.map Expr.effects).getD [] ++ [.declare]
  | .array _ _ _ init _ => effectsAll (init.getD []) ++ [.declare]

def Simple.effects : Simple → List Effect
  | .declare d => d.effects
  | .assign target _ value _ => value.effects ++ (target.effects ++ [.store])
  | .effect e _ => e.effects

/-! Pieces that only look -/

namespace Run

def Looks (x : Run α) : Prop := ∀ m, Inspects x m fun _ => True

variable {x : Run α} {f : α → Run β}

theorem Looks.bind (hx : Looks x) (hf : ∀ a, Looks (f a)) : Looks (x >>= f) :=
  fun m => (hx m).bind fun a _ => hf a m

theorem Looks.of_inspects {Q : Machine → α → Prop} (h : ∀ m, Inspects x m (Q m)) : Looks x :=
  fun m => (h m).mono fun _ _ => trivial

theorem Looks.ok {a : α} (hx : Looks x) (h : x m = .ok a m') : m' = m := ((hx m).ok h).1

theorem Looks.leaves (hx : Looks x) (m : Machine) : Leaves x m (· = m) :=
  Ensures.mono (hx m) (fun _ _ h => h.1) fun _ _ h => h

theorem looks_pure (a : α) : Looks (pure a) := fun _ => inspects_pure trivial

theorem looks_fail (cause : Fault.Cause) (pos : Position) : Looks (fail cause pos : Run α) :=
  fun _ => inspects_fail cause pos

theorem looks_environment : Looks environment := .of_inspects fun _ => inspects_environment

theorem looks_ofCause (pos : Position) (r : Except Fault.Cause α) : Looks (ofCause pos r) :=
  .of_inspects fun _ => inspects_ofCause pos r

end Run

theorem looks_requireDefined (v : Value) (e : Expr) : Looks (requireDefined v e) :=
  .of_inspects fun _ => inspects_requireDefined v e

theorem looks_convertTo (t : CType) (v : Value) (pos : Position) : Looks (convertTo t v pos) :=
  .of_inspects fun _ => inspects_convertTo t v pos

theorem looks_requirePointer (v : Value) (pos : Position) : Looks (requirePointer v pos) :=
  .of_inspects fun _ => inspects_requirePointer v pos

theorem looks_atFileScope : Looks atFileScope := .of_inspects fun _ => inspects_atFileScope

theorem looks_sizeofExpr (e : Expr) (pos : Position) : Looks (evalExpr s call (.sizeofExpr e pos)) :=
  looks_environment.bind fun _ => Looks.bind (.of_inspects fun _ => inspects_ofFault _)
    fun _ => looks_pure _

namespace Place

theorem looks_ofName (name : String) (pos : Position) : Looks (ofName name pos) :=
  .of_inspects fun _ => inspects_ofName name pos

theorem looks_element (es : Elements) (index : Value) (pos : Position) :
    Looks (element es index pos) := .of_inspects fun _ => inspects_element es index pos

theorem looks_behind (v : Value) (pos : Position) : Looks (behind v pos) :=
  .of_inspects fun _ => inspects_behind v pos

theorem looks_requireStruct (p : Place) (pos : Position) : Looks (requireStruct p pos) :=
  fun _ => inspects_requireStruct p pos

theorem looks_read (p : Place) (e : Expr) : Looks (p.read e) := fun _ => inspects_read p e

theorem looks_readScalar (p : Place) (e : Expr) : Looks (p.readScalar e) :=
  fun _ => inspects_readScalar p e

end Place

/-! Traits -/

/-- A trait of pieces: those that only look have it, and two that have it have it one after the other. -/
structure Trait where
  Has : {α : Type} → Run α → Prop
  looks : ∀ {α : Type} {x : Run α}, Looks x → Has x
  bind : ∀ {α β : Type} {x : Run α} {f : α → Run β}, Has x → (∀ a, Has (f a)) → Has (x >>= f)

namespace Trait

variable (T : Trait)

def Allows (s : Setting) (call : CallHandler) : Effect → Prop
  | .call name => ∀ args pos, T.Has (callByName s call name args pos)
  | .store => ∀ place v pos, T.Has (Place.write place v pos)
  | .declare => (∀ name type v, T.Has (declareScalar name type v)) ∧
      ∀ name elem size fill values pos, T.Has (declareArray name elem size fill values pos)
  | .newNode => ∀ struct pos, T.Has (newNode s struct pos)
  | .print => ∀ format values pos, T.Has (printFormatted format values pos)
  | .read => ∀ format targets places pos, T.Has (readFormatted format targets places pos)

def AllowsAll (s : Setting) (call : CallHandler) (effects : List Effect) : Prop :=
  ∀ x ∈ effects, T.Allows s call x

variable {T} {effects effects' : List Effect} {x : Effect}

theorem allowsAll_append : T.AllowsAll s call (effects ++ effects') ↔
    T.AllowsAll s call effects ∧ T.AllowsAll s call effects' := List.forall_mem_append

theorem AllowsAll.last (h : T.AllowsAll s call (effects ++ [x])) :
    T.AllowsAll s call effects ∧ T.Allows s call x :=
  ⟨(allowsAll_append.mp h).1, (allowsAll_append.mp h).2 x List.mem_cons_self⟩

theorem pure (a : α) : T.Has (Pure.pure a : Run α) := T.looks (looks_pure a)

theorem look {x : Run α} {f : α → Run β} (hx : Looks x) (hf : ∀ a, T.Has (f a)) : T.Has (x >>= f) :=
  T.bind (T.looks hx) hf

theorem andLook {x : Run α} {f : α → Run β} (hx : T.Has x) (hf : ∀ a, Looks (f a)) :
    T.Has (x >>= f) := T.bind hx fun a => T.looks (hf a)

theorem elements_has {array : Expr} {value : Run Value} (h : T.Has value) (pos : Position) :
    T.Has (Place.elements array value pos) := by
  have behind : T.Has (do Place.elementsBehind (← value) pos) :=
    T.andLook h fun v => Place.looks_elementsBehind v pos
  unfold Place.elements
  split
  · refine T.look (Place.looks_ofName _ _) fun place => ?_
    split
    · exact T.pure _
    · exact behind
  · exact behind

theorem stepPlace_has (h : T.Allows s call .store) (op : StepOp) (place : Place) (operand : Expr)
    (pos : Position) : T.Has (stepPlace op place operand pos) :=
  T.look (place.looks_read operand) fun _ => T.look (looks_ofCause pos _)
    fun new => T.andLook (h place new pos) fun _ => looks_pure _

/-- To read what a place-shaped expression names is to look, once the place is found. -/
theorem read_has {e : Expr} (he : e.isPlace) (h : T.Has (evalPlace s call e)) :
    T.Has (evalExpr s call e) := by
  rw [evalExpr_of_isPlace s call he]
  exact T.andLook h fun p => p.looks_readScalar e

/-! Places, by the parts of the expressions that name them -/

theorem var_has (name : String) (pos : Position) : T.Has (evalPlace s call (.var name pos)) :=
  T.looks (Place.looks_ofName name pos)

theorem index_has {array index : Expr} (ha : T.Has (evalExpr s call array))
    (hi : T.Has (evalExpr s call index)) (pos : Position) :
    T.Has (evalPlace s call (.index array index pos)) :=
  T.bind (elements_has ha pos) fun es => T.andLook hi fun v => Place.looks_element es v pos

theorem deref_has {operand : Expr} (h : T.Has (evalExpr s call operand)) (pos : Position) :
    T.Has (evalPlace s call (.deref operand pos)) := T.andLook h fun v => Place.looks_behind v pos

theorem arrow_has {object : Expr} (h : T.Has (evalExpr s call object)) (name : String)
    (pos : Position) : T.Has (evalPlace s call (.field object name true pos)) :=
  T.andLook h fun v => (looks_requirePointer v pos).bind fun base => Place.looks_field base name pos

theorem dot_has {object : Expr} (h : T.Has (evalPlace s call object)) (name : String)
    (pos : Position) : T.Has (evalPlace s call (.field object name false pos)) :=
  T.andLook h fun p => (p.looks_requireStruct pos).bind fun base => Place.looks_field base name pos

mutual

theorem evalExpr_has (e : Expr) (h : T.AllowsAll s call e.effects) : T.Has (evalExpr s call e) := by
  cases e with
  | int n pos => exact T.pure _
  | float x pos => exact T.pure _
  | char c pos => exact T.pure _
  | null pos => exact T.pure _
  | sizeofType type pos => exact T.pure _
  | sizeofExpr operand pos => exact T.looks (looks_sizeofExpr operand pos)
  | var name pos => exact read_has rfl (var_has name pos)
  | index array index pos =>
    obtain ⟨ha, hi⟩ := allowsAll_append.mp h
    exact read_has rfl (index_has (evalExpr_has array ha) (evalExpr_has index hi) pos)
  | deref operand pos => exact read_has rfl (deref_has (evalExpr_has operand h) pos)
  | field object name arrow pos =>
    cases arrow with
    | true => exact read_has rfl (arrow_has (evalExpr_has object h) name pos)
    | false => exact read_has rfl (dot_has (evalPlace_has object h) name pos)
  | binary op left right pos =>
    obtain ⟨hl, hr⟩ := allowsAll_append.mp h
    have both (f : Value → Run Value) (hf : ∀ l, T.Has (f l)) :
        T.Has (evalExpr s call left >>= fun v => requireDefined v left >>= f) :=
      T.bind (evalExpr_has left hl) fun v => T.look (looks_requireDefined v left) hf
    have second (l : Value) : T.Has (evalExpr s call right >>= fun v =>
        requireDefined v right >>= fun r => ofCause pos (op.eval l r)) :=
      T.andLook (evalExpr_has right hr) fun v => (looks_requireDefined v right).bind
        fun r => looks_ofCause pos _
    cases op with
    | connect op =>
      refine both _ fun l => ?_
      split
      · exact T.pure _
      · exact second l
    | arith op => exact both _ second
    | compare op => exact both _ second
  | unary op operand pos =>
    exact T.andLook (evalExpr_has operand h) fun v => (looks_requireDefined v operand).bind
      fun v => looks_ofCause pos _
  | step op operand pos =>
    exact T.bind (evalPlace_has operand h.last.1) fun place =>
      T.andLook (stepPlace_has h.last.2 op place operand pos) fun _ => looks_pure _
  | addressOf operand pos => exact T.andLook (evalPlace_has operand h) fun _ => looks_pure _
  | call name args pos =>
    exact T.bind (evalArgs_has args h.last.1) fun values => h.last.2 values pos
  | cast type operand pos =>
    refine T.andLook (evalExpr_has operand h) fun v => (looks_requireDefined v operand).bind
      fun v => ?_
    split
    · exact looks_pure _
    · exact looks_fail _ _
  | newNode struct pos => exact h .newNode List.mem_cons_self struct pos
  | print format args pos =>
    exact T.bind (evalArgs_has args h.last.1) fun values =>
      T.andLook (h.last.2 format values pos) fun _ => looks_pure _
  | read format targets pos =>
    exact T.bind (evalPlaces_has targets h.last.1) fun places =>
      T.andLook (h.last.2 format targets places pos) fun _ => looks_pure _

theorem evalPlace_has (e : Expr) (h : T.AllowsAll s call e.effects) :
    T.Has (evalPlace s call e) := by
  cases e with
  | var name pos => exact var_has name pos
  | index array index pos =>
    obtain ⟨ha, hi⟩ := allowsAll_append.mp h
    exact index_has (evalExpr_has array ha) (evalExpr_has index hi) pos
  | deref operand pos => exact deref_has (evalExpr_has operand h) pos
  | field object name arrow pos =>
    cases arrow with
    | true => exact arrow_has (evalExpr_has object h) name pos
    | false => exact dot_has (evalPlace_has object h) name pos
  | _ => exact T.looks (looks_fail _ _)

theorem evalArgs_has (es : List Expr) (h : T.AllowsAll s call (effectsAll es)) :
    T.Has (evalArgs s call es) := by
  cases es with
  | nil => exact T.pure _
  | cons e rest =>
    obtain ⟨he, hrest⟩ := allowsAll_append.mp h
    exact T.bind (evalExpr_has e he) fun v => T.look (looks_requireDefined v e) fun v =>
      T.andLook (evalArgs_has rest hrest) fun vs => looks_pure _

theorem evalPlaces_has (es : List Expr) (h : T.AllowsAll s call (effectsAll es)) :
    T.Has (evalPlaces s call es) := by
  cases es with
  | nil => exact T.pure _
  | cons e rest =>
    obtain ⟨he, hrest⟩ := allowsAll_append.mp h
    exact T.bind (evalPlace_has e he) fun place => T.andLook (evalPlaces_has rest hrest)
      fun places => looks_pure _

end

theorem evalOperand_has {e : Expr} (h : T.AllowsAll s call e.effects) :
    T.Has (evalOperand s call e) :=
  T.andLook (evalExpr_has e h) fun v => looks_requireDefined v e

theorem evalCondition_has {e : Expr} (h : T.AllowsAll s call e.effects) (pos : Position) :
    T.Has (evalCondition s call e pos) := by
  refine T.andLook (evalOperand_has h) fun v => ?_
  split
  · exact looks_pure _
  · exact looks_fail _ _

/-! Statements without parts -/

theorem evalItems_has (elem : CType) (pos : Position) (es : List Expr)
    (h : T.AllowsAll s call (effectsAll es)) : T.Has (evalItems s call elem pos es) := by
  induction es with
  | nil => exact T.pure _
  | cons e rest ih =>
    obtain ⟨he, hrest⟩ := allowsAll_append.mp h
    exact T.bind (evalOperand_has he) fun v => T.look (looks_convertTo elem v pos) fun v =>
      T.andLook (ih hrest) fun vs => looks_pure _

theorem initialValue_has (type : CType) (init : Option Expr) (pos : Position)
    (h : T.AllowsAll s call ((init.map Expr.effects).getD [])) :
    T.Has (initialValue s call type init pos) := by
  cases init with
  | none => exact T.looks (looks_atFileScope.bind fun _ => looks_pure _)
  | some e => exact T.andLook (evalOperand_has h) fun v => looks_convertTo type v pos

theorem declare_has (d : Decl) (h : T.AllowsAll s call d.effects) : T.Has (declare s call d) := by
  cases d with
  | scalar name type init pos =>
    exact T.bind (initialValue_has type init pos h.last.1) fun v =>
      T.look looks_atFileScope fun _ =>
        T.andLook (h.last.2.1 name type v) fun _ => looks_pure _
  | array name elem size init pos =>
    exact T.look looks_atFileScope fun _ =>
      T.bind (evalItems_has elem pos _ h.last.1) fun values =>
        T.andLook (h.last.2.2 name elem size _ values pos) fun _ => looks_pure _

theorem assign_has {target value : Expr} (op : Option Arith) (pos : Position)
    (h : T.AllowsAll s call (Simple.assign target op value pos).effects) :
    T.Has (assign s call target op value pos) := by
  obtain ⟨hvalue, htarget⟩ := allowsAll_append.mp h
  refine T.bind (evalOperand_has hvalue) fun right => T.bind (evalPlace_has target htarget.last.1)
    fun place => ?_
  split
  · exact htarget.last.2 place right pos
  · exact T.look (place.looks_read target) fun old =>
      T.look (looks_ofCause pos _) fun new => htarget.last.2 place new pos

theorem describeEffect_has (e : Expr) (h : T.AllowsAll s call e.effects) :
    T.Has (describeEffect s call e) := by
  cases e with
  | print format args pos =>
    exact T.bind (evalArgs_has args h.last.1) fun values =>
      T.andLook (h.last.2 format values pos) fun _ => looks_pure _
  | read format targets pos =>
    exact T.bind (evalPlaces_has targets h.last.1) fun places =>
      T.andLook (h.last.2 format targets places pos) fun _ => looks_pure _
  | step op operand pos =>
    exact T.bind (evalPlace_has operand h.last.1) fun place =>
      T.andLook (stepPlace_has h.last.2 op place operand pos) fun _ => looks_pure _
  | call name args pos =>
    exact T.andLook (evalExpr_has (.call name args pos) h) fun _ => looks_pure _
  | _ => exact T.andLook (evalExpr_has _ h) fun _ => looks_pure _

theorem perform_has (c : Simple) (h : T.AllowsAll s call c.effects) : T.Has (perform s call c) := by
  cases c with
  | declare d => exact declare_has d h
  | assign target op value pos => exact T.andLook (assign_has op pos h) fun _ => looks_pure _
  | effect e pos => exact describeEffect_has e h

end Trait

/-! What effects leave alone -/

/-- The trait of pieces that keep what a view shows of the state, however they end. -/
def Trait.keeps {γ : Type} (view : Machine → γ) : Trait where
  Has x := ∀ m, Leaves x m (view · = view m)
  looks hx m := (hx.leaves m).mono (fun _ _ h => h ▸ rfl) fun _ _ h => h ▸ rfl
  bind hx hf m := by
    refine Ensures.bind ((hx m).imp fun a m₁ h => ?_)
    rw [← h]
    exact hf a m₁

section

variable {γ : Type} {view : Machine → γ} (aside : ∀ m env, view { m with env } = view m)

include aside

namespace Trait

theorem keeps_changeEnvironment (f : Environment → Environment) :
    (keeps view).Has (changeEnvironment f) := fun m => aside m (f m.env)

theorem keeps_storeSlot (a : Address) (v : Value) (pos : Position) :
    (keeps view).Has (storeSlot a v pos) := by
  refine (keeps view).look looks_environment fun env => ?_
  split
  · exact keeps_changeEnvironment aside _
  · exact (keeps view).looks (looks_fail _ _)

theorem keeps_storeRun (pos : Position) (a : Address) (vs : List Value) :
    (keeps view).Has (storeRun pos a vs) := by
  induction vs generalizing a with
  | nil => exact (keeps view).pure ()
  | cons v vs ih =>
    exact Trait.bind _ (fun m => (keeps_storeSlot aside a v pos m).assured fun _ _ h => h)
      fun _ => ih (a + 1)

theorem keeps_store : (keeps view).Allows s call .store := by
  intro place v pos
  unfold Place.write
  split
  · exact (keeps view).looks (looks_fail _ _)
  · exact (keeps view).look (looks_convertTo _ v pos) fun stored =>
      (keeps view).andLook (keeps_storeSlot aside _ stored pos) fun _ => looks_pure stored

theorem keeps_declare : (keeps view).Allows s call .declare := by
  refine ⟨fun name type v => keeps_changeEnvironment aside _, fun name elem size fill values pos => ?_⟩
  exact (keeps view).look looks_environment fun _ =>
    Trait.bind _ (keeps_changeEnvironment aside _) fun _ =>
      Trait.bind _ (keeps_storeRun aside pos _ values) fun _ => keeps_changeEnvironment aside _

theorem keeps_newNode : (keeps view).Allows s call .newNode := by
  intro struct pos
  unfold newNode
  split
  · exact (keeps view).looks (looks_fail _ _)
  · exact (keeps view).look looks_environment fun _ =>
      (keeps view).andLook (keeps_changeEnvironment aside _) fun _ => looks_pure _

theorem keeps_freeNode (args : List Value) (pos : Position) :
    (keeps view).Has (freeNode args pos) := by
  unfold freeNode
  split
  · split
    · exact (keeps view).pure _
    · refine (keeps view).look looks_environment fun env => ?_
      split
      · exact (keeps view).looks (looks_fail _ _)
      · split
        · exact (keeps view).andLook (keeps_changeEnvironment aside _) fun _ => looks_pure _
        · exact (keeps view).looks (looks_fail _ _)
  · exact (keeps view).looks (looks_fail _ _)
  · exact (keeps view).looks (looks_fail _ _)

/-- A call keeps what the function keeps that it runs; `free` runs none. -/
theorem keeps_call {name : String} (h : name ≠ "free" → ∀ f, s.function? name = some f →
      ∀ args pos, (keeps view).Has (call f args pos)) : (keeps view).Allows s call (.call name) := by
  intro args pos
  unfold callByName
  split
  · exact keeps_freeNode aside args pos
  · rename_i other
    split
    · rename_i f hf
      exact h other f hf args pos
    · exact (keeps view).looks (looks_fail _ _)

end Trait

end

/-! Code without effects -/

def Trait.looking : Trait := ⟨Looks, id, Looks.bind⟩

theorem Trait.allowsAll_of_nil {T : Trait} {effects : List Effect} (h : effects = []) :
    T.AllowsAll s call effects := by
  subst h
  exact List.forall_mem_nil _

section

variable {e : Expr} (h : e.effects = [])

include h

theorem looks_evalExpr : Looks (evalExpr s call e) :=
  Trait.looking.evalExpr_has e (Trait.allowsAll_of_nil h)

theorem looks_evalPlace : Looks (evalPlace s call e) :=
  Trait.looking.evalPlace_has e (Trait.allowsAll_of_nil h)

theorem looks_evalOperand : Looks (evalOperand s call e) :=
  Trait.looking.evalOperand_has (Trait.allowsAll_of_nil h)

theorem looks_evalCondition (pos : Position) : Looks (evalCondition s call e pos) :=
  Trait.looking.evalCondition_has (Trait.allowsAll_of_nil h) pos

end

/-! Assignments -/

theorem convertTo_eq_ok {t : CType} {v w : Value} {pos : Position}
    (h : convertTo t v pos m = .ok w m') : v.convert t = some w ∧ m' = m := by
  unfold convertTo at h
  cases hv : v.convert t with
  | none =>
    rw [hv] at h
    cases h
  | some stored =>
    rw [hv] at h
    cases h
    exact ⟨rfl, rfl⟩

namespace Place

variable {p : Place} {v stored : Value} {pos : Position}

/-- The value at a slot, or the value that an operator makes of it and of `right`, as it is stored. -/
def Takes (p : Place) (memory : Memory) (op : Option Arith) (right stored : Value) : Prop :=
  match op with
  | none => right.convert p.type = some stored
  | some op => ∃ old new, memory.read p.address = .ok old ∧ old.isDefined ∧
      op.eval old right = .ok new ∧ new.convert p.type = some stored

theorem write_eq_ok (h : p.write v pos m = .ok stored m') : p.arrayLen = none ∧
    v.convert p.type = some stored ∧
    m' = { m with env.memory.slots := m.env.memory.slots.insert p.address stored } := by
  unfold write at h
  cases hp : p.arrayLen with
  | some len =>
    rw [hp] at h
    cases h
  | none =>
    rw [hp] at h
    obtain ⟨w, m₁, hw, hstore⟩ := bind_eq_ok h
    obtain ⟨converted, rfl⟩ := convertTo_eq_ok hw
    obtain ⟨⟨⟩, m₂, hs, hend⟩ := bind_eq_ok hstore
    cases hend
    exact ⟨rfl, converted, storeSlot_eq_ok hs⟩

theorem read_eq_ok {e : Expr} (hp : p.arrayLen = none) (h : p.read e m = .ok v m') :
    m.env.memory.read p.address = .ok v ∧ v.isDefined := by
  unfold read at h
  rw [hp] at h
  obtain ⟨env, m₁, he, h⟩ := bind_eq_ok h
  cases he
  cases hv : m.env.memory.read p.address with
  | error fault =>
    simp only [hv] at h
    cases h
  | ok w =>
    simp only [hv] at h
    split at h
    · cases h
      exact ⟨rfl, ‹_›⟩
    · cases h

end Place

/-- An assignment finds the value, then the place, and then stores in the one slot of the place. -/
theorem assign_eq_ok {target value : Expr} {op : Option Arith} {pos : Position} {stored : Value}
    (h : assign s call target op value pos m = .ok stored m') :
    ∃ right m₁ place m₂, evalOperand s call value m = .ok right m₁ ∧
      evalPlace s call target m₁ = .ok place m₂ ∧ place.arrayLen = none ∧
      place.Takes m₂.env.memory op right stored ∧
      m' = { m₂ with env.memory.slots := m₂.env.memory.slots.insert place.address stored } := by
  obtain ⟨right, m₁, hvalue, hrest⟩ := bind_eq_ok h
  obtain ⟨place, m₂, htarget, hstore⟩ := bind_eq_ok hrest
  refine ⟨right, m₁, place, m₂, hvalue, htarget, ?_⟩
  cases op with
  | none =>
    obtain ⟨single, converted, rfl⟩ := Place.write_eq_ok hstore
    exact ⟨single, converted, rfl⟩
  | some op =>
    obtain ⟨old, m₃, hold, hcompute⟩ := bind_eq_ok hstore
    obtain rfl := (place.looks_read target).ok hold
    obtain ⟨new, m₄, hnew, hwrite⟩ := bind_eq_ok hcompute
    obtain rfl := (looks_ofCause pos _).ok hnew
    obtain ⟨single, converted, rfl⟩ := Place.write_eq_ok hwrite
    obtain ⟨held, defined⟩ := Place.read_eq_ok single hold
    refine ⟨single, ⟨old, new, held, defined, ?_, converted⟩, rfl⟩
    cases heval : op.eval old right with
    | error cause =>
      rw [heval] at hnew
      cases hnew
    | ok w =>
      rw [heval] at hnew
      cases hnew
      rfl

/-- From `m` to `m'` the value in one slot was replaced, and one step was recorded. -/
structure Machine.Replaces (m m' : Machine) (a : Address) (v : Value) (x : Moment) : Prop where
  slot : m'.env.memory.slots[a]? = some v
  slots : ∀ b, b ≠ a → m'.env.memory.slots[b]? = m.env.memory.slots[b]?
  allocations : m'.env.memory.allocations = m.env.memory.allocations
  counters : m'.env.memory.nextStack = m.env.memory.nextStack ∧
    m'.env.memory.nextHeap = m.env.memory.nextHeap
  bindings : m'.env.frames = m.env.frames ∧ m'.env.globals = m.env.globals
  /-- A copy of the console is made for the step, and the text stays. -/
  console : m'.console = m.console.snapshot
  input : m'.input = m.input
  steps : m'.recorder.toList = m.recorder.toList ++ [x]

theorem Machine.replaces_recorded (m : Machine) (s : Setting) (a : Address) (v : Value) (x : Moment) :
    m.Replaces ({ m with env.memory.slots := m.env.memory.slots.insert a v }.recorded s x) a v x where
  slot := Std.TreeMap.getElem?_insert_self
  slots b hb := by
    show (m.env.memory.slots.insert a v)[b]? = _
    rw [Std.TreeMap.getElem?_insert, if_neg]
    simpa using hb.symm
  allocations := rfl
  counters := ⟨rfl, rfl⟩
  bindings := ⟨rfl, rfl⟩
  console := rfl
  input := rfl
  steps := Machine.recorded_toList _ s x

/-- Whoever evaluates code without effects, finds what it names or tests it, however that ends, leaves all
as it was. An assignment of such a value to such a target replaces what is in one slot, and the step of it
is the only one recorded. -/
theorem effectFree_frame (s : Setting) (call : CallHandler) (m : Machine) :
    (∀ e : Expr, e.effects = [] → Leaves (evalExpr s call e) m (· = m) ∧
      Leaves (evalPlace s call e) m (· = m) ∧
      ∀ pos, Leaves (evalCondition s call e pos) m (· = m)) ∧
    (∀ (e : Expr) (pos : Position), (Expr.sizeofExpr e pos).effects = []) ∧
    ∀ (target value : Expr) (op : Option Arith) (pos : Position) (m' : Machine),
      target.effects = [] → value.effects = [] →
      runSimple s call (.assign target op value pos) m = .ok () m' →
      ∃ right place stored, evalOperand s call value m = .ok right m ∧
        evalPlace s call target m = .ok place m ∧ place.arrayLen = none ∧
        place.Takes m.env.memory op right stored ∧
        m.Replaces m' place.address stored
          (m'.momentAs m.recorder.count pos.line ("assign " ++ target.render ++ " = " ++ stored.text)
            none) := by
  refine ⟨fun e he => ⟨(looks_evalExpr he).leaves m, (looks_evalPlace he).leaves m,
    fun pos => (looks_evalCondition he pos).leaves m⟩, fun _ _ => rfl, ?_⟩
  intro target value op pos m' htarget hvalue h
  obtain ⟨description, m₁, hperform, hrecord⟩ := bind_eq_ok h
  obtain ⟨stored, m₂, hassign, hdescribe⟩ := bind_eq_ok hperform
  cases hdescribe
  obtain ⟨right, m₃, place, m₄, found, named, single, taken, rfl⟩ := assign_eq_ok hassign
  obtain rfl := (looks_evalOperand hvalue).ok found
  obtain rfl := (looks_evalPlace htarget).ok named
  obtain rfl := record_eq_ok hrecord
  refine ⟨right, place, stored, found, named, single, taken, ?_⟩
  rw [Machine.momentAs_recorded]
  exact Machine.replaces_recorded _ s _ _ _

/-- The middle element of an array grows by the size of `i++`; what `i` holds stays, like all the rest. -/
theorem effectFree_frame_sizeof :
    let source := "int a[3] = \x7b1, 2, 3\x7d; int i = 1; int main() \x7b return 0; \x7d"
    let pos : Position := ⟨1, 1⟩
    let target : Expr := .index (.var "a" pos) (.var "i" pos) pos
    let value : Expr := .sizeofExpr (.step .postInc (.var "i" pos) pos) pos
    target.effects = [] ∧ value.effects = [] ∧ ∃ p, Program.parse source = .ok p ∧
      let s := Setting.ofProgram p source ⟨100, 9, 99999⟩ false
      ∃ m m', runGlobals s p.globals (.start "") = .ok () m ∧
        Leaves (evalCondition s s.handler target pos) m (· = m) ∧
        runSimple s s.handler (.assign target (some .add) value pos) m = .ok () m' ∧
        ∃ place x, evalPlace s s.handler target m = .ok place m ∧
          m.Replaces m' place.address (.int 6) x := by
  intro source pos target value
  have facts : (Program.parse source).toOption.any (fun p =>
      let s := Setting.ofProgram p source ⟨100, 9, 99999⟩ false
      Ensures (runGlobals s p.globals) (.start "") (fun _ m =>
        Ensures (runSimple s s.handler (.assign target (some .add) value pos)) m (fun _ m' =>
          Ensures (evalPlace s s.handler target) m (fun place _ =>
            m'.env.memory.slots[place.address]? = some (.int 6)) (fun _ _ => False))
          (fun _ _ => False)) (fun _ _ => False)) = true := by
    decide +kernel
  obtain ⟨p, accepted, facts⟩ := Program.exists_of_any facts
  obtain ⟨⟨⟩, m, globals, ran⟩ := (of_decide_eq_true facts).exists_ok
  obtain ⟨⟨⟩, m', ran, holds⟩ := ran.exists_ok
  obtain ⟨still, -, replaced⟩ :=
    effectFree_frame (Setting.ofProgram p source ⟨100, 9, 99999⟩ false) _ m
  obtain ⟨right, place, stored, -, named, -, -, one⟩ :=
    replaced target value (some .add) pos m' rfl rfl ran
  obtain rfl := Option.some.inj (one.slot.symm.trans (holds.ok named))
  exact ⟨rfl, rfl, p, accepted, m, m', globals, (still target rfl).2.2 pos, ran, place, _, named, one⟩

end Stepwise
