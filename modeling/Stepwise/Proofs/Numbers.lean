import Stepwise.Proofs.Extent
import Stepwise.Proofs.WellFormed

/-! The numbers that a trace shows. Faults stand where something stands in the program, calls are made and
functions begin on its lines, steps are numbered within their limit, and the elements of the arrays that a step
shows take memory within its limit. So a trace of a text that a machine can hold, with limits that it can hold,
shows only numbers that it can hold. -/

namespace Stepwise

open Run

variable {α β : Type} {n : Nat}

/-- The calls under way were made on lines up to `n`, of functions that begin on such lines. -/
def Environment.CallsWithin (n : Nat) (env : Environment) : Prop :=
  ∀ f ∈ env.frames, f.call.callLine ≤ n ∧ f.call.entryLine ≤ n

structure Machine.Within (n : Nat) (m : Machine) : Prop where
  now : m.env.CallsWithin n
  before : ∀ x ∈ m.recorder.items, x.env.CallsWithin n

def Halt.Within (n : Nat) : Halt → Prop
  | .fault f => f.pos.Within n
  | _ => True

namespace Environment.CallsWithin

variable {env : Environment}

theorem onTop {top : Frame} {rest : List Frame} {env' : Environment} (h : env.CallsWithin n)
    (old : env.frames = top :: rest) {top' : Frame} (new : env'.frames = top' :: rest)
    (same : top'.call = top.call) : env'.CallsWithin n := by
  unfold CallsWithin at *
  rw [old] at h
  rw [new]
  obtain ⟨htop, hrest⟩ := List.forall_mem_cons.mp h
  exact List.forall_mem_cons.mpr ⟨same ▸ htop, hrest⟩

theorem declare (h : env.CallsWithin n) (name : String) (a : Address) : (env.declare name a).CallsWithin n := by
  unfold Environment.declare
  split
  · exact h
  · rename_i top rest frames
    refine h.onTop frames rfl ?_
    unfold Frame.declare
    split <;> rfl

theorem openBlock (h : env.CallsWithin n) : env.openBlock.CallsWithin n := by
  unfold Environment.openBlock onFrame
  split
  · exact h
  · rename_i top rest frames
    exact h.onTop frames rfl rfl

theorem closeBlock (h : env.CallsWithin n) : env.closeBlock.CallsWithin n := by
  unfold Environment.closeBlock
  split
  · exact h
  · rename_i top rest frames
    refine h.onTop frames rfl ?_
    unfold Frame.closeBlock
    split <;> rfl

theorem popFrame (h : env.CallsWithin n) : env.popFrame.CallsWithin n := by
  unfold Environment.popFrame
  split
  · exact h
  · rename_i top rest frames
    exact fun f hf => h f (frames ▸ List.mem_cons_of_mem top hf)

end Environment.CallsWithin

/-! Pieces of a run -/

/-- Whatever goes wrong does so at a position within `n`. -/
def FaultsWithin (n : Nat) (r : Except Fault α) : Prop := ∀ f, r = .error f → f.pos.Within n

namespace FaultsWithin

theorem ok (a : α) : FaultsWithin n (.ok a) := by
  intro f failed
  cases failed

theorem error {f : Fault} (hp : f.pos.Within n) : FaultsWithin n (.error f : Except Fault α) := by
  intro f' failed
  cases failed
  exact hp

theorem bind {r : Except Fault α} {g : α → Except Fault β} (hr : FaultsWithin n r)
    (hg : ∀ a, FaultsWithin n (g a)) : FaultsWithin n (r >>= g) := by
  cases r with
  | ok a => exact hg a
  | error f => exact error (hr f rfl)

end FaultsWithin

namespace Run

/-- A piece that keeps calls within `n` and halts with faults within `n` only. -/
def Confined (n : Nat) (x : Run α) : Prop :=
  ∀ m, m.Within n → Ensures x m (fun _ m' => m'.Within n) (fun h m' => m'.Within n ∧ h.Within n)

namespace Confined

variable {x : Run α} {f : α → Run β} {p : Position}

theorem pure (a : α) : Confined n (pure a) := fun _ h => h

theorem bind (hx : Confined n x) (hf : ∀ a, Confined n (f a)) : Confined n (x >>= f) :=
  fun m hm => (hx m hm).andThen fun a m' => hf a m'

theorem fail (hp : p.Within n) (cause : Fault.Cause) : Confined n (fail cause p : Run α) := fun _ hm => ⟨hm, hp⟩

theorem ite {c : Prop} [Decidable c] {y : Run α} (hx : Confined n x) (hy : Confined n y) :
    Confined n (if c then x else y) := by
  split
  · exact hx
  · exact hy

theorem look {f : Environment → Run β} (h : ∀ env, Confined n (f env)) : Confined n (environment >>= f) :=
  bind (fun _ hm => hm) h

theorem change {g : Environment → Environment} (h : ∀ env, env.CallsWithin n → (g env).CallsWithin n) :
    Confined n (changeEnvironment g) := fun m hm => ⟨h m.env hm.now, hm.before⟩

/-- Memory has no part in calls. -/
theorem changeMemory (g : Environment → Memory) :
    Confined n (changeEnvironment fun env => { env with memory := g env }) := change fun _ h => h

theorem ofCause (hp : p.Within n) (r : Except Fault.Cause α) : Confined n (ofCause p r) := by
  cases r with
  | ok a => exact pure a
  | error cause => exact fail hp cause

theorem ofFormat (hp : p.Within n) (r : Except Format.Error α) : Confined n (ofFormat p r) := by
  cases r with
  | ok a => exact pure a
  | error e => exact fail hp e.cause

theorem ofFault {r : Except Fault α} (h : FaultsWithin n r) : Confined n (ofFault r) := by
  cases r with
  | ok a => exact pure a
  | error f => exact fun _ hm => ⟨hm, h f rfl⟩

theorem assured (hx : Confined n x) : Confined n (assured x) := fun m hm => (hx m hm).assured fun _ _ h => h

theorem record {s : Setting} {line : Nat} {description : String} {returned : Option Value} :
    Confined n (Run.record s line description returned) := by
  intro m hm
  refine (record_ensures s line description returned m).mono ?_ ?_
  · rintro - m' ⟨rfl, -⟩
    exact ⟨hm.now, List.forall_mem_cons.mpr ⟨hm.now, hm.before⟩⟩
  · rintro e m' ⟨same, reason⟩
    refine ⟨?_, ?_⟩
    · rcases same with rfl | rfl <;> exact ⟨hm.now, hm.before⟩
    · rcases reason with ⟨rfl, -⟩ | ⟨excess, rfl⟩ <;> trivial

end Confined

end Run

/-! Places -/

section Places

variable {p : Position} (hp : p.Within n)

theorem requireDefined_confined (v : Value) {e : Expr} (he : e.pos.Within n) : Confined n (requireDefined v e) :=
  .ite (.pure v) (.fail he _)

include hp

theorem convertTo_confined (t : CType) (v : Value) : Confined n (convertTo t v p) := by
  unfold convertTo
  split
  · exact .pure _
  · exact .fail hp _

theorem requirePointer_confined (v : Value) : Confined n (requirePointer v p) := by
  unfold requirePointer
  split
  · exact .pure _
  · exact .fail hp _

theorem liveAllocation_confined (a : Address) : Confined n (liveAllocation a p) := by
  refine .look fun env => ?_
  split
  · exact .pure _
  · exact .fail hp _

theorem storeSlot_confined (a : Address) (v : Value) : Confined n (storeSlot a v p) := by
  refine .look fun env => ?_
  split
  · exact .changeMemory _
  · exact .fail hp _

theorem Environment.variable_within (env : Environment) (name : String) :
    FaultsWithin n (env.variable name p) := by
  unfold Environment.variable
  split
  · exact .error hp
  · split
    · exact .error hp
    · exact .ok _

namespace Place

theorem ofName_confined (name : String) : Confined n (ofName name p) :=
  .look fun env => .bind (.ofFault (env.variable_within hp name)) fun _ => .pure _

theorem elementsBehind_confined (v : Value) : Confined n (elementsBehind v p) := by
  refine (requirePointer_confined hp v).bind fun start => (liveAllocation_confined hp start).bind fun al => ?_
  split
  · exact .fail hp _
  · exact .pure _

theorem elements_confined {array : Expr} (ha : array.pos.Within n) {value : Run Value} (hv : Confined n value) :
    Confined n (elements array value p) := by
  have behind : Confined n (do elementsBehind (← value) p) := hv.bind fun v => elementsBehind_confined hp v
  cases array with
  | var name q =>
    refine (ofName_confined ha name).bind fun place => ?_
    split
    · exact .pure _
    · exact behind
  | _ => exact behind

theorem element_confined (es : Elements) (index : Value) : Confined n (element es index p) := by
  unfold element
  split
  · exact .fail hp _
  · exact .ite (.fail hp _) (.pure _)

theorem behind_confined (v : Value) : Confined n (behind v p) :=
  (requirePointer_confined hp v).bind fun target => (liveAllocation_confined hp target).bind fun _ => .pure _

theorem requireStruct_confined (place : Place) : Confined n (place.requireStruct p) := .ite (.pure _) (.fail hp _)

theorem field_confined (s : Setting) (base : Address) (name : String) : Confined n (field s base name p) := by
  refine (liveAllocation_confined hp base).bind fun al => ?_
  dsimp only
  split
  · refine .ite ?_ (.fail hp _)
    split
    · exact .fail hp _
    · split
      · exact .fail hp _
      · exact .pure _
  · exact .fail hp _

omit hp in
theorem read_confined (place : Place) {e : Expr} (he : e.pos.Within n) : Confined n (place.read e) := by
  unfold read
  split
  · exact .pure _
  · refine .look fun env => ?_
    split
    · exact .fail he _
    · exact .ite (.pure _) (.fail he _)

omit hp in
theorem readScalar_confined (place : Place) {e : Expr} (he : e.pos.Within n) : Confined n (place.readScalar e) :=
  .ite (.fail he _) (place.read_confined he)

theorem write_confined (place : Place) (v : Value) : Confined n (place.write v p) := by
  unfold write
  split
  · exact .fail hp _
  · exact (convertTo_confined hp _ v).bind fun stored => (storeSlot_confined hp _ stored).bind fun _ => .pure _

end Place

/-! What a program does besides computing -/

theorem printFormatted_confined (format : String) (values : List Value) :
    Confined n (printFormatted format values p) :=
  (Confined.ofFormat hp _).bind fun _ => .bind (fun _ hm => ⟨hm.now, hm.before⟩) fun _ => .pure _

theorem checkTargets_confined (cs : List Format.Conversion) (ps : List Place) :
    Confined n (checkTargets p cs ps) := by
  induction cs generalizing ps with
  | nil => exact .pure ()
  | cons c cs ih =>
    cases ps with
    | nil => exact .pure ()
    | cons place ps => exact .ite (.fail hp _) (ih ps)

theorem storeAll_confined (vs : List Value) (ps : List Place) (es : List Expr) :
    Confined n (storeAll p vs ps es) := by
  induction vs generalizing ps es with
  | nil => exact .pure []
  | cons v vs ih =>
    cases ps with
    | nil => exact .pure []
    | cons place ps =>
      cases es with
      | nil => exact .pure []
      | cons e es => exact (place.write_confined hp v).bind fun _ => (ih ps es).bind fun _ => .pure _

theorem readFormatted_confined (format : String) (targets : List Expr) (places : List Place) :
    Confined n (readFormatted format targets places p) := by
  refine .bind (fun _ hm => hm) fun m => .bind (fun _ hm => ⟨hm.now, hm.before⟩) fun _ => ?_
  refine (Confined.ofFormat hp _).bind fun scan => ?_
  have rest : Confined n (do
      checkTargets p scan.conversions places
      let bound ← storeAll p scan.values places targets
      return (⟨scan.result, bound⟩ : Reading)) :=
    (checkTargets_confined hp _ _).bind fun _ => (storeAll_confined hp _ _ _).bind fun _ => .pure _
  exact .ite ((Confined.fail hp _).bind fun _ => rest) rest

theorem newNode_confined (s : Setting) (struct : String) : Confined n (newNode s struct p) := by
  unfold newNode
  split
  · exact .fail hp _
  · exact .look fun env => (Confined.changeMemory _).bind fun _ => .pure _

theorem freeNode_confined (args : List Value) : Confined n (freeNode args p) := by
  unfold freeNode
  split
  · refine .ite (.pure _) (.look fun env => ?_)
    split
    · exact .fail hp _
    · exact .ite ((Confined.changeMemory _).bind fun _ => .pure _) (.fail hp _)
  · exact .fail hp _
  · exact .fail hp _

theorem stepPlace_confined (op : StepOp) (place : Place) {operand : Expr} (ho : operand.pos.Within n) :
    Confined n (stepPlace op place operand p) :=
  (place.read_confined ho).bind fun _ => (Confined.ofCause hp _).bind fun _ => (place.write_confined hp _).bind
    fun _ => .pure _

end Places

/-! Types -/

section Types

variable {s : Setting} {env : Environment}

theorem Structs.fieldType_within (structs : Structs) {p : Position} (hp : p.Within n) (t : CType) (name : String) :
    FaultsWithin n (structs.fieldType t name p) := by
  unfold Structs.fieldType
  split
  · exact .error hp
  · split
    · exact .error hp
    · split
      · exact .error hp
      · exact .ok _

/-- A type that cannot be found is missing inside the expression. -/
theorem staticType_within (e : Expr) (he : ∀ x ∈ e.parts, x.pos.Within n) :
    FaultsWithin n (staticType s env e) := by
  have hp := he e e.self_mem_parts
  cases e with
  | var name p => exact (env.variable_within hp name).bind fun _ => .ok _
  | index array index p =>
    obtain ⟨ha, -⟩ := List.forall_mem_append.mp (List.forall_mem_cons.mp he).2
    refine (staticType_within array ha).bind fun t => ?_
    split
    · exact .ok _
    · exact .error hp
  | deref operand p =>
    refine (staticType_within operand (List.forall_mem_cons.mp he).2).bind fun t => ?_
    split
    · exact .ok _
    · exact .error hp
  | field object name arrow p =>
    exact (staticType_within object (List.forall_mem_cons.mp he).2).bind fun t =>
      (s.structs.fieldType_within hp t.type name).bind fun _ => .ok _
  | addressOf operand p | step op operand p =>
    exact (staticType_within operand (List.forall_mem_cons.mp he).2).bind fun _ => .ok _
  | unary op operand p =>
    cases op with
    | neg => exact (staticType_within operand (List.forall_mem_cons.mp he).2).bind fun _ => .ok _
    | not => exact .ok _
  | binary op left right p =>
    cases op with
    | arith op =>
      obtain ⟨hl, hr⟩ := List.forall_mem_append.mp (List.forall_mem_cons.mp he).2
      exact (staticType_within left hl).bind fun _ => (staticType_within right hr).bind fun _ => .ok _
    | compare op | connect op => exact .ok _
  | call name args p =>
    unfold staticType
    split
    · exact .ok _
    · exact .error hp
  | _ => exact .ok _

theorem sizeofExpr_within {e : Expr} (he : ∀ x ∈ e.parts, x.pos.Within n) :
    FaultsWithin n (sizeofExpr s env e) :=
  (staticType_within e he).bind fun _ => .ok _

end Types

/-! Expressions -/

section Expressions

variable {s : Setting} {call : CallHandler}

def CallsConfined (n : Nat) (s : Setting) (call : CallHandler) : Prop :=
  ∀ f ∈ s.functions, ∀ args p, p.Within n → Confined n (call f args p)

theorem callByName_confined (hc : CallsConfined n s call) {p : Position} (hp : p.Within n) (name : String)
    (args : List Value) : Confined n (callByName s call name args p) := by
  refine .ite (freeNode_confined hp args) ?_
  split
  · rename_i f found
    exact hc f (List.mem_of_find?_eq_some found) args p hp
  · exact .fail hp _

mutual

theorem evalExpr_confined (hc : CallsConfined n s call) (e : Expr) (he : ∀ x ∈ e.parts, x.pos.Within n) :
    Confined n (evalExpr s call e) := by
  have hp := he e e.self_mem_parts
  cases e with
  | int k p | float x p | char c p | null p | sizeofType type p => exact .pure _
  | var name p => exact (Place.ofName_confined hp name).bind fun place => place.readScalar_confined hp
  | index array index p =>
    obtain ⟨ha, hi⟩ := List.forall_mem_append.mp (List.forall_mem_cons.mp he).2
    refine (Place.elements_confined hp (ha array array.self_mem_parts) (evalExpr_confined hc array ha)).bind
      fun es => (evalExpr_confined hc index hi).bind fun v => ?_
    exact (Place.element_confined hp es v).bind fun place => place.readScalar_confined hp
  | deref operand p =>
    exact (evalExpr_confined hc operand (List.forall_mem_cons.mp he).2).bind fun v =>
      (Place.behind_confined hp v).bind fun place => place.readScalar_confined hp
  | field object name arrow p =>
    obtain ⟨-, ho⟩ := List.forall_mem_cons.mp he
    cases arrow with
    | true =>
      exact (evalExpr_confined hc object ho).bind fun v => (requirePointer_confined hp v).bind fun base =>
        (Place.field_confined hp s base name).bind fun place => place.readScalar_confined hp
    | false =>
      exact (evalPlace_confined hc object ho).bind fun q => (q.requireStruct_confined hp).bind fun base =>
        (Place.field_confined hp s base name).bind fun place => place.readScalar_confined hp
  | binary op left right p =>
    obtain ⟨hl, hr⟩ := List.forall_mem_append.mp (List.forall_mem_cons.mp he).2
    have operand := fun v => requireDefined_confined v (hl left left.self_mem_parts)
    have second (l : Value) : Confined n (do
        let r ← requireDefined (← evalExpr s call right) right
        Run.ofCause p (op.eval l r)) :=
      (evalExpr_confined hc right hr).bind fun v =>
        (requireDefined_confined v (hr right right.self_mem_parts)).bind fun r => .ofCause hp _
    cases op with
    | connect op =>
      refine (evalExpr_confined hc left hl).bind fun v => (operand v).bind fun l => ?_
      split
      · exact .pure _
      · exact second l
    | arith op | compare op => exact (evalExpr_confined hc left hl).bind fun v => (operand v).bind second
  | unary op operand p =>
    obtain ⟨-, ho⟩ := List.forall_mem_cons.mp he
    exact (evalExpr_confined hc operand ho).bind fun v =>
      (requireDefined_confined v (ho operand operand.self_mem_parts)).bind fun v => .ofCause hp _
  | step op operand p =>
    obtain ⟨-, ho⟩ := List.forall_mem_cons.mp he
    exact (evalPlace_confined hc operand ho).bind fun place =>
      (stepPlace_confined hp op place (ho operand operand.self_mem_parts)).bind fun _ => .pure _
  | addressOf operand p =>
    exact (evalPlace_confined hc operand (List.forall_mem_cons.mp he).2).bind fun _ => .pure _
  | call name args p =>
    exact (evalArgs_confined hc args (List.forall_mem_cons.mp he).2).bind fun values =>
      callByName_confined hc hp name values
  | cast type operand p =>
    obtain ⟨-, ho⟩ := List.forall_mem_cons.mp he
    refine (evalExpr_confined hc operand ho).bind fun v =>
      (requireDefined_confined v (ho operand operand.self_mem_parts)).bind fun v => ?_
    split
    · exact .pure _
    · exact .fail hp _
  | sizeofExpr operand p =>
    exact .look fun env => .bind (.ofFault (sizeofExpr_within (List.forall_mem_cons.mp he).2)) fun _ => .pure _
  | newNode struct p => exact newNode_confined hp s struct
  | print format args p =>
    exact (evalArgs_confined hc args (List.forall_mem_cons.mp he).2).bind fun values =>
      (printFormatted_confined hp format values).bind fun _ => .pure _
  | read format targets p =>
    exact (evalPlaces_confined hc targets (List.forall_mem_cons.mp he).2).bind fun places =>
      (readFormatted_confined hp format targets places).bind fun _ => .pure _

theorem evalPlace_confined (hc : CallsConfined n s call) (e : Expr) (he : ∀ x ∈ e.parts, x.pos.Within n) :
    Confined n (evalPlace s call e) := by
  have hp := he e e.self_mem_parts
  cases e with
  | var name p => exact Place.ofName_confined hp name
  | index array index p =>
    obtain ⟨ha, hi⟩ := List.forall_mem_append.mp (List.forall_mem_cons.mp he).2
    exact (Place.elements_confined hp (ha array array.self_mem_parts) (evalExpr_confined hc array ha)).bind
      fun es => (evalExpr_confined hc index hi).bind fun v => Place.element_confined hp es v
  | deref operand p =>
    exact (evalExpr_confined hc operand (List.forall_mem_cons.mp he).2).bind fun v => Place.behind_confined hp v
  | field object name arrow p =>
    obtain ⟨-, ho⟩ := List.forall_mem_cons.mp he
    cases arrow with
    | true =>
      exact (evalExpr_confined hc object ho).bind fun v => (requirePointer_confined hp v).bind fun base =>
        Place.field_confined hp s base name
    | false =>
      exact (evalPlace_confined hc object ho).bind fun q => (q.requireStruct_confined hp).bind fun base =>
        Place.field_confined hp s base name
  | _ => exact .fail hp _

theorem evalArgs_confined (hc : CallsConfined n s call) (es : List Expr)
    (he : ∀ x ∈ partsAll es, x.pos.Within n) : Confined n (evalArgs s call es) := by
  cases es with
  | nil => exact .pure _
  | cons e rest =>
    obtain ⟨he, hrest⟩ := List.forall_mem_append.mp he
    exact (evalExpr_confined hc e he).bind fun v => (requireDefined_confined v (he e e.self_mem_parts)).bind
      fun _ => (evalArgs_confined hc rest hrest).bind fun _ => .pure _

theorem evalPlaces_confined (hc : CallsConfined n s call) (es : List Expr)
    (he : ∀ x ∈ partsAll es, x.pos.Within n) : Confined n (evalPlaces s call es) := by
  cases es with
  | nil => exact .pure _
  | cons e rest =>
    obtain ⟨he, hrest⟩ := List.forall_mem_append.mp he
    exact (evalPlace_confined hc e he).bind fun _ => (evalPlaces_confined hc rest hrest).bind fun _ => .pure _

end

/-! Statements -/

theorem evalOperand_confined (hc : CallsConfined n s call) (e : Expr) (he : ∀ x ∈ e.parts, x.pos.Within n) :
    Confined n (evalOperand s call e) :=
  (evalExpr_confined hc e he).bind fun v => requireDefined_confined v (he e e.self_mem_parts)

theorem evalCondition_confined (hc : CallsConfined n s call) (e : Expr) (he : ∀ x ∈ e.parts, x.pos.Within n)
    {p : Position} (hp : p.Within n) : Confined n (evalCondition s call e p) := by
  refine (evalOperand_confined hc e he).bind fun v => ?_
  split
  · exact .pure _
  · exact .fail hp _

theorem evalItems_confined (hc : CallsConfined n s call) (elem : CType) {p : Position} (hp : p.Within n)
    (es : List Expr) (he : ∀ x ∈ partsAll es, x.pos.Within n) : Confined n (evalItems s call elem p es) := by
  induction es with
  | nil => exact .pure _
  | cons e rest ih =>
    obtain ⟨he, hrest⟩ := List.forall_mem_append.mp he
    exact (evalOperand_confined hc e he).bind fun v => (convertTo_confined hp elem v).bind fun _ =>
      (ih hrest).bind fun _ => .pure _

theorem atFileScope_confined : Confined n atFileScope := .look fun _ => .pure _

theorem declareScalar_confined (name : String) (type : CType) (v : Value) :
    Confined n (declareScalar name type v) := by
  refine .change fun env h => ?_
  have later : { env with memory := (env.memory.allocate .scalar type 1 v).2 }.CallsWithin n := h
  exact later.declare name _

theorem storeRun_confined {p : Position} (hp : p.Within n) (a : Address) (vs : List Value) :
    Confined n (storeRun p a vs) := by
  induction vs generalizing a with
  | nil => exact .pure ()
  | cons v vs ih => exact (storeSlot_confined hp a v).assured.bind fun _ => ih (a + 1)

theorem declareArray_confined (name : String) (elem : CType) (size : Nat) (fill : Value) (values : List Value)
    {p : Position} (hp : p.Within n) : Confined n (declareArray name elem size fill values p) :=
  .look fun _ => (Confined.changeMemory _).bind fun _ => (storeRun_confined hp _ values).bind fun _ =>
    .change fun _ h => h.declare name _

theorem declare_confined (hc : CallsConfined n s call) (d : Decl) (hp : d.pos.Within n)
    (hd : ∀ x ∈ d.parts, x.pos.Within n) : Confined n (declare s call d) := by
  cases d with
  | scalar name type init p =>
    have first : Confined n (initialValue s call type init p) := by
      cases init with
      | none => exact atFileScope_confined.bind fun _ => .pure _
      | some e => exact (evalOperand_confined hc e hd).bind fun v => convertTo_confined hp type v
    exact first.bind fun v => atFileScope_confined.bind fun _ =>
      (declareScalar_confined name type v).bind fun _ => .pure _
  | array name elem size init p =>
    have items : Confined n (evalItems s call elem p (init.getD [])) := by
      cases init with
      | none => exact .pure _
      | some es => exact evalItems_confined hc elem hp es hd
    exact atFileScope_confined.bind fun _ => items.bind fun values =>
      (declareArray_confined name elem size _ values hp).bind fun _ => .pure _

theorem assign_confined (hc : CallsConfined n s call) {target value : Expr} (op : Option Arith)
    (ht : ∀ x ∈ target.parts, x.pos.Within n) (hv : ∀ x ∈ value.parts, x.pos.Within n) {p : Position}
    (hp : p.Within n) : Confined n (assign s call target op value p) := by
  refine (evalOperand_confined hc value hv).bind fun right => (evalPlace_confined hc target ht).bind
    fun place => ?_
  cases op with
  | none => exact place.write_confined hp right
  | some op =>
    exact (place.read_confined (ht target target.self_mem_parts)).bind fun old =>
      (Confined.ofCause hp _).bind fun new => place.write_confined hp new

theorem describeEffect_confined (hc : CallsConfined n s call) (e : Expr)
    (he : ∀ x ∈ e.parts, x.pos.Within n) : Confined n (describeEffect s call e) := by
  have hp := he e e.self_mem_parts
  have other : Confined n (evalExpr s call e) := evalExpr_confined hc e he
  cases e with
  | print format args p =>
    exact (evalArgs_confined hc args (List.forall_mem_cons.mp he).2).bind fun values =>
      (printFormatted_confined hp format values).bind fun _ => .pure _
  | read format targets p =>
    exact (evalPlaces_confined hc targets (List.forall_mem_cons.mp he).2).bind fun places =>
      (readFormatted_confined hp format targets places).bind fun _ => .pure _
  | step op operand p =>
    obtain ⟨-, ho⟩ := List.forall_mem_cons.mp he
    exact (evalPlace_confined hc operand ho).bind fun place =>
      (stepPlace_confined hp op place (ho operand operand.self_mem_parts)).bind fun _ => .pure _
  | _ => exact other.bind fun _ => .pure _

theorem perform_confined (hc : CallsConfined n s call) (c : Simple) (hp : c.pos.Within n)
    (h : ∀ x ∈ c.parts, x.pos.Within n) : Confined n (perform s call c) := by
  cases c with
  | declare d => exact declare_confined hc d hp h
  | assign target op value p =>
    obtain ⟨ht, hv⟩ := List.forall_mem_append.mp h
    exact (assign_confined hc op ht hv hp).bind fun _ => .pure _
  | effect e p => exact describeEffect_confined hc e h

theorem runSimple_confined (hc : CallsConfined n s call) (c : Simple) (hp : c.pos.Within n)
    (h : ∀ x ∈ c.parts, x.pos.Within n) : Confined n (runSimple s call c) :=
  (perform_confined hc c hp h).bind fun _ => .record

theorem runOptionalClause_confined (hc : CallsConfined n s call) (c : Option Simple)
    (hp : ∀ q ∈ c.toList.map Simple.pos, q.Within n)
    (h : ∀ x ∈ (c.map Simple.parts).getD [], x.pos.Within n) : Confined n (runOptionalClause s call c) := by
  cases c with
  | none => exact .pure ()
  | some c =>
    have hp := hp c.pos (List.mem_singleton_self _)
    refine .ite (runSimple_confined hc c hp h) ?_
    cases c with
    | declare d => exact (declare_confined hc d hp h).bind fun _ => .pure _
    | assign target op value p =>
      obtain ⟨ht, hv⟩ := List.forall_mem_append.mp h
      exact (assign_confined hc op ht hv hp).bind fun _ => .pure _
    | effect e p => exact (evalExpr_confined hc e h).bind fun _ => .pure _

theorem testLoop_confined (hc : CallsConfined n s call) (cond : Option Expr)
    (h : ∀ x ∈ (cond.map Expr.parts).getD [], x.pos.Within n) {p : Position} (hp : p.Within n) :
    Confined n (testLoop s call cond p) := by
  have condition : Confined n (loopCondition s call cond p) := by
    cases cond with
    | none => exact .pure true
    | some e => exact evalCondition_confined hc e h hp
  exact condition.bind fun _ => Confined.record.bind fun _ => .pure _

theorem loop_confined {test : Run Bool} {body : Run Flow} {update : Run Unit} (ht : Confined n test)
    (hb : Confined n body) (hu : Confined n update) (fuel : Nat) : Confined n (loop test body update fuel) := by
  induction fuel with
  | zero => exact fun _ hm => ⟨hm, trivial⟩
  | succ fuel ih =>
    refine ht.bind fun holds => .ite (hb.bind fun flow => ?_) (.pure _)
    cases flow with
    | normal | continueLoop => exact hu.bind fun _ => ih
    | breakLoop | leave v => exact .pure _

theorem inBlock_confined {body : Run Flow} (h : Confined n body) : Confined n (inBlock body) :=
  (Confined.change fun _ h => h.openBlock).bind fun _ => h.bind fun _ =>
    (Confined.change fun _ h => h.closeBlock).bind fun _ => .pure _

theorem leaveWith_confined (hc : CallsConfined n s call) (returns : CType) (value : Option Expr)
    (h : ∀ x ∈ (value.map Expr.parts).getD [], x.pos.Within n) {p : Position} (hp : p.Within n) :
    Confined n (leaveWith s call returns value p) := by
  have returned : Confined n (returnedValue s call returns value p) := by
    cases value with
    | none => exact .pure _
    | some e =>
      exact .ite (.fail hp _) ((evalOperand_confined hc e h).bind fun v => convertTo_confined hp returns v)
  refine returned.bind fun v => ?_
  exact .ite (Confined.record.bind fun _ => .pure _) (Confined.record.bind fun _ => .pure _)

mutual

theorem runStmt_confined (hc : CallsConfined n s call) (returns : CType) (stmt : Stmt)
    (hp : ∀ q ∈ stmt.sites, q.Within n) (h : ∀ x ∈ stmt.parts, x.pos.Within n) :
    Confined n (runStmt s call returns stmt) := by
  cases stmt with
  | simple c =>
    exact (runSimple_confined hc c (hp c.pos (List.mem_singleton_self _)) h).bind fun _ => .pure _
  | block body p => exact inBlock_confined (runStmts_confined hc returns body hp h)
  | branch cond yes no p =>
    cases no with
    | none =>
      obtain ⟨here, hp⟩ := List.forall_mem_cons.mp hp
      obtain ⟨hcond, hy⟩ := List.forall_mem_append.mp h
      refine (evalCondition_confined hc cond hcond here).bind fun holds => .ite ?_ (.pure _)
      exact Confined.record.bind fun _ => inBlock_confined (runStmts_confined hc returns yes hp hy)
    | some no =>
      obtain ⟨here, hp⟩ := List.forall_mem_cons.mp hp
      obtain ⟨py, pn⟩ := List.forall_mem_append.mp hp
      obtain ⟨h, hn⟩ := List.forall_mem_append.mp h
      obtain ⟨hcond, hy⟩ := List.forall_mem_append.mp h
      refine (evalCondition_confined hc cond hcond here).bind fun holds => .ite ?_ ?_
      · exact Confined.record.bind fun _ => inBlock_confined (runStmts_confined hc returns yes py hy)
      · exact Confined.record.bind fun _ => inBlock_confined (runStmts_confined hc returns no pn hn)
  | whileLoop cond body p =>
    obtain ⟨here, hp⟩ := List.forall_mem_cons.mp hp
    obtain ⟨hcond, hb⟩ := List.forall_mem_append.mp h
    exact loop_confined (testLoop_confined hc (some cond) hcond here)
      (inBlock_confined (runStmts_confined hc returns body hp hb)) (.pure ()) s.fuel
  | forLoop init cond update body p =>
    obtain ⟨here, hp⟩ := List.forall_mem_cons.mp hp
    obtain ⟨hp, pb⟩ := List.forall_mem_append.mp hp
    obtain ⟨pi, pu⟩ := List.forall_mem_append.mp hp
    obtain ⟨h, hb⟩ := List.forall_mem_append.mp h
    obtain ⟨h, hu⟩ := List.forall_mem_append.mp h
    obtain ⟨hi, hcond⟩ := List.forall_mem_append.mp h
    refine inBlock_confined ((runOptionalClause_confined hc init pi hi).bind fun _ => ?_)
    exact loop_confined (testLoop_confined hc cond hcond here)
      (inBlock_confined (runStmts_confined hc returns body pb hb))
      (runOptionalClause_confined hc update pu hu) s.fuel
  | leave value p => exact leaveWith_confined hc returns value h (hp p (List.mem_singleton_self _))
  | breakLoop p | continueLoop p => exact Confined.record.bind fun _ => .pure _

theorem runStmts_confined (hc : CallsConfined n s call) (returns : CType) (stmts : List Stmt)
    (hp : ∀ q ∈ sitesOf stmts, q.Within n) (h : ∀ x ∈ partsOf stmts, x.pos.Within n) :
    Confined n (runStmts s call returns stmts) := by
  cases stmts with
  | nil => exact .pure _
  | cons stmt rest =>
    obtain ⟨ps, pr⟩ := List.forall_mem_append.mp hp
    obtain ⟨hs, hr⟩ := List.forall_mem_append.mp h
    refine (runStmt_confined hc returns stmt ps hs).bind fun flow => ?_
    cases flow with
    | normal => exact runStmts_confined hc returns rest pr hr
    | _ => exact .pure _

end

end Expressions

/-! Whole runs -/

namespace Program

variable {p : Program} {source : String} {limits : Limits} {cancelled : Bool}
  (h : p.Stands (Position.Within n))

include h

theorem callFunction_confined (fuel : Nat) {f : Function} (hf : f ∈ p.functions) (args : List Value)
    {line : Nat} (hl : line ≤ n) {q : Position} (hq : q.Within n) :
    Confined n (callFunction (.ofProgram p source limits cancelled) fuel f args line q) := by
  induction fuel generalizing f args line q with
  | zero => exact fun _ hm => ⟨hm, trivial⟩
  | succ fuel ih =>
    obtain ⟨first, -, sites, parts⟩ := h.function hf
    have depth : Confined n (checkDepth (.ofProgram p source limits cancelled) f q) := fun m hm =>
      (checkDepth_ensures _ m f q).mono (fun _ _ same => same ▸ hm) fun _ _ same => same.2 ▸ ⟨same.1 ▸ hm, trivial⟩
    have arity : Confined n (checkArity f args q) := .ite (.fail hq _) (.pure ())
    have bound (vs : List Value) (ps : List Member) : Confined n (bindParams q ps vs) := by
      induction ps generalizing vs with
      | nil => exact .pure _
      | cons m ps ih =>
        cases vs with
        | nil => exact .pure _
        | cons v vs =>
          exact (convertTo_confined hq m.type v).bind fun v => (declareScalar_confined m.name m.type v).bind
            fun _ => (ih vs).bind fun _ => .pure _
    have entered : Confined n (changeEnvironment fun env =>
        env.pushFrame (.enter ⟨f.name, line, f.pos.line⟩)) :=
      .change fun _ calls => List.forall_mem_cons.mpr ⟨⟨hl, first.line⟩, calls⟩
    have body : Confined n (runBody (.ofProgram p source limits cancelled)
        (fun g values place => callFunction (.ofProgram p source limits cancelled) fuel g values place.line place)
        f) := by
      refine (runStmts_confined (fun g hg values r hr => ih hg values hr.line hr) f.returns f.body sites
        parts).bind fun flow => ?_
      cases flow with
      | leave v => exact .pure v
      | _ => exact Confined.record.bind fun _ => .pure _
    refine depth.bind fun _ => Confined.bind ?_ fun _ => body.bind fun _ =>
      (Confined.change fun _ calls => calls.popFrame).bind fun _ => .pure _
    exact arity.bind fun _ => entered.bind fun _ => (bound args f.params).bind fun _ => .record

theorem runProgram_confined (start : Position.start.Within n) :
    Confined n (runProgram (.ofProgram p source limits cancelled) p.globals) := by
  have globals (ds : List Decl) (hds : ∀ d ∈ ds, d ∈ p.globals) :
      Confined n (runGlobals (.ofProgram p source limits cancelled) ds) := by
    induction ds with
    | nil => exact .pure ()
    | cons d rest ih =>
      obtain ⟨hd, hrest⟩ := List.forall_mem_cons.mp hds
      obtain ⟨pos, parts⟩ := h.global hd
      refine (runSimple_confined (fun f hf args q hq => ?_) (.declare d) pos parts).bind fun _ => ih hrest
      exact callFunction_confined h _ hf args hq.line hq
  refine (globals p.globals fun _ => id).bind fun _ => ?_
  split
  · exact .fail start _
  · rename_i f found
    have hf : f ∈ p.functions := List.mem_of_find?_eq_some found
    exact (callFunction_confined h _ hf [] (Nat.zero_le n) (h.function hf).1).bind fun _ => .pure _

end Program

/-! Traces -/

namespace Step

theorem le_total {size : α → Nat} {items : List α} {x : α} (hx : x ∈ items) : size x ≤ total size items := by
  induction items with
  | nil => cases hx
  | cons y rest ih =>
    rcases List.mem_cons.mp hx with rfl | hx
    · exact Nat.le_add_right _ _
    · exact Nat.le_trans (ih hx) (Nat.le_add_left _ _)

theorem length_elements_le {x : Step} {e : String × ArrayView} (he : e ∈ x.arrays.entries) :
    e.2.elements.length ≤ x.size := by
  have own : e.2.elements.length ≤ arraySize e := by
    unfold arraySize
    omega
  have shown : arraySize e ≤ total arraySize x.arrays.entries := le_total he
  unfold size
  omega

end Step

theorem Environment.index_lt {env : Environment} {e : String × ArrayView} (he : e ∈ env.arrays.entries)
    {y : ElementView} (hy : y ∈ e.2.elements) : y.index < e.2.elements.length := by
  obtain ⟨⟨name, a, scope⟩, -, view⟩ := List.mem_filterMap.mp he
  obtain ⟨v, shown, rfl⟩ := Option.map_eq_some_iff.mp view
  dsimp only at shown
  split at shown
  · split at shown
    · cases shown
      obtain ⟨i, hi, rfl⟩ := List.mem_map.mp hy
      rw [arrayView, List.length_map, List.length_range]
      exact List.mem_range.mp hi
    · cases shown
  · cases shown

namespace Program

/-- No step is recorded that takes more memory than there may be. -/
theorem size_recorded_le (s : Setting) (globals : List Decl) (input : String) :
    Leaves (runProgram s globals) (.start input) fun m =>
      ∀ x ∈ m.recorder.items, (x.step s).size ≤ s.limits.memory := by
  refine Keeps.runProgram s globals (fun r _ => ∀ x ∈ r.items, (x.step s).size ≤ s.limits.memory)
    ⟨fun _ _ _ h => h, fun _ _ h => h, fun m line description returned h _ memory => ?_⟩ (.start input) nofun
  refine List.forall_mem_cons.mpr ⟨?_, h⟩
  unfold Machine.charge at memory
  omega

/-- What a run has recorded, and how it halted. -/
theorem run_confined {p : Program} {source : String} (accepted : Program.parse source = .ok p) (limits : Limits)
    (cancelled : Bool) (input : String) :
    let s := Setting.ofProgram p source limits cancelled
    (∀ x ∈ (p.run s input).1, x.env.CallsWithin (source.length + 1) ∧ (x.step s).size ≤ limits.memory) ∧
      ∀ e, (p.run s input).2 = .error e → e.Within (source.length + 1) := by
  intro s
  have confined : Confined (source.length + 1) (runProgram s p.globals) :=
    runProgram_confined (within_ofSource (ofSource_of_parse accepted)) Position.within_start
  have calls := confined (.start input) ⟨nofun, nofun⟩
  have sizes := size_recorded_le s p.globals input
  unfold Program.run
  cases hr : runProgram s p.globals (.start input) with
  | ok u m =>
    refine ⟨fun x hx => ?_, nofun⟩
    have hx := List.mem_reverse.mp hx
    exact ⟨(calls.ok hr).before x hx, sizes.ok hr x hx⟩
  | error e m =>
    refine ⟨fun x hx => ?_, ?_⟩
    · have hx := List.mem_reverse.mp hx
      exact ⟨(calls.error hr).1.before x hx, sizes.error hr x hx⟩
    · rintro _ ⟨⟩
      exact (calls.error hr).2

end Program

end Stepwise
