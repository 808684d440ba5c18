import Stepwise.Proofs.Harmless
import Stepwise.Proofs.Places
import Stepwise.Proofs.References

/-! What an accepted program can rely on while it runs. Names stand for variables that exist, the structs
of all types in memory are defined, calls have the arguments they need, and a new array has room for its
values. So a run is never at fault internally, as long as addresses have not run out. -/

namespace Stepwise

open Run

variable {α β : Type} {s : Setting} {m m' : Machine} {call : CallHandler}

def Memory.Knows (s : Setting) (mem : Memory) : Prop :=
  ∀ a al, mem.allocation? a = some al → s.Knows al.type

namespace Memory.Knows

variable {mem mem' : Memory}

theorem empty : Knows s .empty := by
  intro a al found
  simp [allocation?, Memory.empty] at found

theorem sameTypes (h : mem.Knows s) (same : mem.SameTypes mem') : mem'.Knows s := by
  intro a al' found
  obtain ⟨al, before, type⟩ := same a al' found
  exact type ▸ h a al before

theorem make (h : mem.Knows s) {x : Variable} (known : s.Knows x.type) : (mem.make x).Knows s := by
  intro a al found
  rw [allocation?_make] at found
  split at found
  · obtain rfl := Option.some.inj found
    exact known
  · exact h a al found

theorem newNode (h : mem.Knows s) {struct : String} (fields : List CType)
    (known : ∃ d, s.structs.find? struct = some d) : (mem.allocateNode struct fields).2.Knows s := by
  intro a al found
  rw [allocation?_newNode] at found
  split at found
  · obtain rfl := Option.some.inj found
    intro name named
    obtain rfl := Option.some.inj named
    exact known
  · exact h a al found

end Memory.Knows

structure Settled (s : Setting) (m : Machine) : Prop where
  reached : Reached s m
  types : m.env.memory.Knows s

namespace Run

/-- From a state of a run, the piece keeps the structs of all types in memory defined, and is not at fault
internally as long as addresses have not run out. -/
def Sound (s : Setting) (x : Run α) (m : Machine) : Prop :=
  Settled s m → Ensures x m (fun _ m' => m'.env.memory.Knows s)
    (fun h m' => m'.env.memory.InBounds → h.isInternal = false)

variable {x : Run α} {f : α → Run β} {ds : List Decl} {Q : α → Machine → Prop} {P : α → Prop}

theorem Harmless.sound (h : Harmless x) : Sound s x m := fun hm =>
  (h m).mono (fun _ _ same => hm.types.sameTypes same) fun _ _ ordinary _ => ordinary

namespace Sound

/-- Where one piece ends the next begins, in a state of the run again. -/
theorem bind (follows : Reached s m → Follows s ds x m Q) (hx : Sound s x m)
    (hf : ∀ a m', x m = .ok a m' → Q a m' → Sound s (f a) m') : Sound s (x >>= f) m := by
  intro hm
  refine Ensures.bind ?_
  cases h : x m with
  | error e m' => exact (ensures_iff_of_error h).mpr ((hx hm).error h)
  | ok a m' =>
    obtain ⟨path, hq⟩ := (follows hm.reached).ok h
    exact (ensures_iff_of_ok h).mpr (hf a m' h hq ⟨hm.reached.path path, (hx hm).ok h⟩)

theorem look (looks : Reached s m → Inspects x m P) (hx : Sound s x m)
    (hf : ∀ a, P a → Sound s (f a) m) : Sound s (x >>= f) m := by
  intro hm
  refine Ensures.bind ?_
  cases h : x m with
  | error e m' => exact (ensures_iff_of_error h).mpr ((hx hm).error h)
  | ok a m' =>
    obtain ⟨rfl, ha⟩ := (looks hm.reached).ok h
    exact (ensures_iff_of_ok h).mpr (hf a ha hm)

theorem andThen (hx : Sound s x m) (hf : ∀ a, Harmless (f a)) : Sound s (x >>= f) m := by
  intro hm
  refine Ensures.bind ((hx hm).mono (fun a m' known => ?_) fun _ _ h => h)
  exact (hf a m').mono (fun _ _ same => known.sameTypes same) fun _ _ ordinary _ => ordinary

theorem pure (a : α) : Sound s (pure a) m := (harmless_pure a).sound

end Sound

end Run

/-! Names and their types -/

/-- What a name stands for exists. -/
theorem Reached.isInternal_variable (hm : Reached s m) (hb : m.env.memory.InBounds) {name : String}
    {pos : Position} {f : Fault} (h : m.env.variable name pos = .error f) : f.cause.isInternal = false := by
  unfold Environment.variable at h
  split at h
  · cases h
    rfl
  · rename_i a scope named
    split at h
    · rename_i missing
      obtain ⟨input, ds, path⟩ := hm
      obtain ⟨layout, made, -, owned, -⟩ := path.owns hb
      obtain ⟨site, bound⟩ := Environment.bound_of_lookup? named
      obtain ⟨al, found, -⟩ := owned.bound_lives bound
      rw [missing] at found
      cases found
    · cases h

theorem ofName_sound (name : String) (pos : Position) : Sound s (Place.ofName name pos) m := by
  refine .look (fun _ => inspects_environment) harmless_environment.sound ?_
  rintro env rfl
  refine Sound.andThen (fun hm => ?_) fun al => harmless_pure _
  cases found : m.env.variable name pos with
  | ok al => exact hm.types
  | error f => exact fun hb => hm.reached.isInternal_variable hb found

namespace StaticType

/-- A type was found that is known, or the fault is not internal. -/
def Fair (s : Setting) : Except Fault StaticType → Prop
  | .ok t => s.Knows t.type
  | .error f => f.cause.isInternal = false

variable {r : Except Fault StaticType} {f : StaticType → Except Fault StaticType}

theorem Fair.bind (hr : Fair s r) (hf : ∀ t, s.Knows t.type → Fair s (f t)) : Fair s (r >>= f) := by
  cases r with
  | ok t => exact hf t hr
  | error e => exact hr

theorem knows_of_base {t t' : CType} (h : s.Knows t) (same : t'.base = t.base) : s.Knows t' := by
  intro name named
  refine h name ?_
  unfold CType.structName? at *
  rwa [← same]

theorem knows_int : s.Knows .int := nofun

theorem knows_double : s.Knows .double := nofun

theorem knows_decayed {t : StaticType} (h : s.Knows t.type) : s.Knows t.decayed := by
  unfold decayed
  split
  · exact knows_of_base h rfl
  · exact h

theorem knows_element? {t : StaticType} (h : s.Knows t.type) {elem : CType}
    (he : t.element? = some elem) : s.Knows elem := by
  unfold element? at he
  split at he
  · exact Option.some.inj he ▸ h
  · split at he
    · exact Option.some.inj he ▸ knows_of_base h rfl
    · cases he

theorem knows_arithType {l r : CType} (hl : s.Knows l) (hr : s.Knows r) : s.Knows (arithType l r) := by
  unfold arithType
  split
  · exact knows_int
  · exact hl
  · exact hr
  · split
    · exact knows_double
    · exact knows_int

end StaticType

open StaticType in
/-- The type of an expression names a defined struct, in a state of a run. -/
theorem staticType_fair (hl : s.Linked) (hm : Settled s m) (hb : m.env.memory.InBounds) (e : Expr)
    (he : s.Resolves e.mentions) : Fair s (staticType s m.env e) := by
  cases e with
  | int | char | sizeofType | sizeofExpr | print | read => exact knows_int
  | float => exact knows_double
  | null => exact nofun
  | var name pos =>
    unfold staticType
    cases found : m.env.variable name pos with
    | error f => exact hm.reached.isInternal_variable hb found
    | ok al =>
      obtain ⟨a, -, -, allocated⟩ := Environment.variable_eq_ok found
      exact hm.types a al allocated
  | index array index pos =>
    refine Fair.bind (staticType_fair hl hm hb array (Setting.resolves_append.mp he).1) fun t ht => ?_
    split
    · exact knows_element? ht ‹_›
    · rfl
  | deref operand pos =>
    refine Fair.bind (staticType_fair hl hm hb operand he) fun t ht => ?_
    split
    · exact knows_element? ht ‹_›
    · rfl
  | field object name arrow pos =>
    refine Fair.bind (staticType_fair hl hm hb object he) fun t ht => ?_
    unfold Structs.fieldType
    split
    · rfl
    · rename_i struct named
      obtain ⟨d, found⟩ := ht struct named
      rw [found]
      dsimp only
      split
      · rfl
      · rename_i f hf
        exact hl.fields found f (List.mem_of_find?_eq_some hf)
  | addressOf operand pos =>
    exact Fair.bind (staticType_fair hl hm hb operand he) fun t ht => knows_of_base ht rfl
  | binary op left right pos =>
    obtain ⟨hleft, hright⟩ := Setting.resolves_append.mp he
    cases op with
    | arith op =>
      exact Fair.bind (staticType_fair hl hm hb left hleft) fun l hl' =>
        Fair.bind (staticType_fair hl hm hb right hright) fun r hr' =>
          knows_arithType (knows_decayed hl') (knows_decayed hr')
    | compare op => exact knows_int
    | connect op => exact knows_int
  | unary op operand pos =>
    cases op with
    | not => exact knows_int
    | neg =>
      refine Fair.bind (staticType_fair hl hm hb operand he) fun t ht => ?_
      show s.Knows (if t.decayed.isFloating then t.decayed else .int)
      split
      · exact knows_decayed ht
      · exact knows_int
  | step op operand pos =>
    exact Fair.bind (staticType_fair hl hm hb operand he) fun t ht => knows_decayed ht
  | call name args pos =>
    unfold staticType
    split
    · rename_i f hf
      exact hl.returns f (List.mem_of_find?_eq_some hf)
    · rfl
  | cast type operand pos => exact (Setting.resolves_append.mp he).1.knows
  | newNode struct pos =>
    intro name named
    obtain rfl := Option.some.inj named
    exact he _ List.mem_cons_self

theorem sizeofExpr_sound (hl : s.Linked) (e : Expr) (he : s.Resolves e.mentions) :
    Sound s (ofFault (sizeofExpr s m.env e)) m := by
  intro hm
  unfold sizeofExpr
  cases found : staticType s m.env e with
  | ok t => exact hm.types
  | error f =>
    intro hb
    have fair := staticType_fair hl hm hb e he
    rw [found] at fair
    exact fair

/-! Structs and functions -/

theorem field_sound (base : Address) (name : String) (pos : Position) :
    Sound s (Place.field s base name pos) m := by
  refine .look (fun _ => inspects_liveAllocation base pos) (harmless_liveAllocation base pos).sound
    fun al live => ?_
  split
  · rename_i struct fields node
    split
    · split
      · rename_i missing
        -- a node was made of a struct that is defined
        intro hm hb
        have layout := hm.reached.layout hb
        obtain ⟨allocated, -, -⟩ := layout.of_liveAt live
        obtain ⟨-, -, d, found, -⟩ := (layout.formed allocated).node node
        rw [missing] at found
        cases found
      · split
        · exact (harmless_fail rfl pos).sound
        · exact .pure _
    · exact (harmless_fail rfl pos).sound
  · exact (harmless_fail rfl pos).sound

theorem newNode_sound {struct : String} (known : ∃ d, s.structs.find? struct = some d) (pos : Position) :
    Sound s (newNode s struct pos) m := by
  obtain ⟨d, found⟩ := known
  unfold newNode
  rw [found]
  refine .look (fun _ => inspects_environment) harmless_environment.sound ?_
  rintro env rfl
  refine Sound.andThen (fun hm => ?_) fun _ => harmless_pure _
  exact hm.types.newNode _ ⟨d, found⟩

def SoundCalls (s : Setting) (call : CallHandler) : Prop :=
  ∀ f ∈ s.functions, ∀ args pos m, args.length = f.params.length → Sound s (call f args pos) m

theorem callByName_sound (hk : SoundCalls s call) {name : String} {args : List Value} {pos pos' : Position}
    (ha : s.Answers (.call name args.length pos)) : Sound s (callByName s call name args pos') m := by
  unfold callByName
  simp only [Setting.Answers] at ha
  split
  · rename_i free
    rw [if_pos free] at ha
    exact (harmless_freeNode ha pos').sound
  · rename_i free
    rw [if_neg free] at ha
    obtain ⟨f, found, count⟩ := ha
    rw [found]
    exact hk f (List.mem_of_find?_eq_some found) args pos' m count.symm

theorem elements_sound {array : Expr} {value : Run Value} (hv : Sound s value m) (pos : Position) :
    Sound s (Place.elements array value pos) m := by
  have behind : Sound s (do Place.elementsBehind (← value) pos) m :=
    hv.andThen fun v => Place.harmless_elementsBehind v pos
  unfold Place.elements
  split
  · rename_i name namePos
    refine .look (fun hm => Place.inspects_variable hm name namePos) (ofName_sound name namePos) fun p _ => ?_
    split
    · exact .pure _
    · exact behind
  · exact behind

/-! Expressions -/

theorem length_of_evalArgs {es : List Expr} {vs : List Value} (h : evalArgs s call es m = .ok vs m') :
    vs.length = es.length := by
  induction es generalizing m vs with
  | nil =>
    cases h
    rfl
  | cons e es ih =>
    obtain ⟨_, m₁, -, h⟩ := bind_eq_ok h
    obtain ⟨v, m₂, -, h⟩ := bind_eq_ok h
    obtain ⟨rest, m₃, found, h⟩ := bind_eq_ok h
    cases h
    exact congrArg (· + 1) (ih found)

structure Ready (s : Setting) (call : CallHandler) : Prop where
  linked : s.Linked
  passes : Calls s call
  sound : SoundCalls s call

/-- An operand is evaluated and must have a value. -/
theorem operand_sound (hr : Ready s call) {e : Expr} {f : Value → Run β}
    (he : Sound s (evalExpr s call e) m) (hf : ∀ v m', Sound s (f v) m') :
    Sound s (do let v ← requireDefined (← evalExpr s call e) e; f v) m :=
  .bind (evalExpr_passes hr.passes e m) he fun v m' _ _ =>
    .look (fun _ => inspects_requireDefined v e) (harmless_requireDefined v e).sound fun w _ => hf w m'

theorem index_sound (hr : Ready s call) {array index : Expr} (ha : Sound s (evalExpr s call array) m)
    (hi : ∀ m, Sound s (evalExpr s call index) m) (pos : Position) :
    Sound s (evalPlace s call (.index array index pos)) m :=
  .bind (elements_balanced array (evalExpr_passes hr.passes array m) pos) (elements_sound ha pos)
    fun es m₁ _ _ => (hi m₁).andThen fun v => Place.harmless_element es v pos

theorem arrow_sound (hr : Ready s call) {object : Expr} (ho : Sound s (evalExpr s call object) m)
    (name : String) (pos : Position) : Sound s (evalPlace s call (.field object name true pos)) m :=
  .bind (evalExpr_passes hr.passes object m) ho fun v _ _ _ =>
    .look (fun _ => inspects_requirePointer v pos) (harmless_requirePointer v pos).sound fun base _ =>
      field_sound base name pos

theorem dot_sound (hr : Ready s call) {object : Expr} (ho : Sound s (evalPlace s call object) m)
    (name : String) (pos : Position) : Sound s (evalPlace s call (.field object name false pos)) m :=
  .bind (evalPlace_locates hr.passes object m) ho fun p _ _ _ =>
    .look (fun _ => p.inspects_requireStruct pos) (p.harmless_requireStruct pos).sound fun base _ =>
      field_sound base name pos

/-- What is read at a place that was found. -/
theorem read_sound {e : Expr} (h : e.isPlace) (hp : Sound s (evalPlace s call e) m) :
    Sound s (evalExpr s call e) m := by
  rw [evalExpr_of_isPlace s call h]
  exact hp.andThen fun p => p.harmless_readScalar e

mutual

theorem evalExpr_sound (hr : Ready s call) (e : Expr) (he : s.Resolves e.mentions) (m : Machine) :
    Sound s (evalExpr s call e) m := by
  cases e with
  | int n pos => exact .pure _
  | float x pos => exact .pure _
  | char c pos => exact .pure _
  | null pos => exact .pure _
  | sizeofType type pos => exact .pure _
  | var name pos => exact read_sound rfl (ofName_sound name pos)
  | index array index pos =>
    obtain ⟨ha, hi⟩ := Setting.resolves_append.mp he
    exact read_sound rfl (index_sound hr (evalExpr_sound hr array ha m) (evalExpr_sound hr index hi) pos)
  | deref operand pos =>
    exact read_sound rfl ((evalExpr_sound hr operand he m).andThen fun v => Place.harmless_behind v pos)
  | field object name arrow pos =>
    cases arrow with
    | true => exact read_sound rfl (arrow_sound hr (evalExpr_sound hr object he m) name pos)
    | false => exact read_sound rfl (dot_sound hr (evalPlace_sound hr object he m) name pos)
  | binary op left right pos =>
    obtain ⟨hleft, hright⟩ := Setting.resolves_append.mp he
    have result (op : BinOp) (l r : Value) (m : Machine) : Sound s (ofCause pos (op.eval l r)) m :=
      (harmless_ofCause (fun _ => BinOp.isInternal_eval) pos).sound
    cases op with
    | connect op =>
      refine operand_sound hr (evalExpr_sound hr left hleft m) fun l m₁ => ?_
      split
      · exact .pure _
      · exact operand_sound hr (evalExpr_sound hr right hright m₁) (result (.connect op) l)
    | arith op =>
      exact operand_sound hr (evalExpr_sound hr left hleft m) fun l m₁ =>
        operand_sound hr (evalExpr_sound hr right hright m₁) (result (.arith op) l)
    | compare op =>
      exact operand_sound hr (evalExpr_sound hr left hleft m) fun l m₁ =>
        operand_sound hr (evalExpr_sound hr right hright m₁) (result (.compare op) l)
  | unary op operand pos =>
    exact operand_sound hr (evalExpr_sound hr operand he m) fun v _ =>
      (harmless_ofCause (fun _ => UnOp.isInternal_eval) pos).sound
  | step op operand pos =>
    exact (evalPlace_sound hr operand he m).andThen fun p =>
      (harmless_stepPlace op p operand pos).bind fun _ => harmless_pure _
  | addressOf operand pos => exact (evalPlace_sound hr operand he m).andThen fun _ => harmless_pure _
  | call name args pos =>
    obtain ⟨answered, hargs⟩ := Setting.resolves_cons.mp he
    refine .bind (evalArgs_passes hr.passes args m) (evalArgs_sound hr args hargs m) fun vs m₁ found _ => ?_
    rw [← length_of_evalArgs found] at answered
    exact callByName_sound hr.sound answered
  | cast type operand pos =>
    refine operand_sound hr (evalExpr_sound hr operand (Setting.resolves_append.mp he).2 m) fun v _ => ?_
    split
    · exact .pure _
    · exact (harmless_fail rfl pos).sound
  | sizeofExpr operand pos =>
    refine .look (fun _ => inspects_environment) harmless_environment.sound ?_
    rintro env rfl
    exact (sizeofExpr_sound hr.linked operand he).andThen fun _ => harmless_pure _
  | newNode struct pos => exact newNode_sound (he _ List.mem_cons_self) pos
  | print format args pos =>
    exact (evalArgs_sound hr args he m).andThen fun values =>
      (harmless_printFormatted format values pos).bind fun _ => harmless_pure _
  | read format targets pos =>
    exact (evalPlaces_sound hr targets he m).andThen fun places =>
      (harmless_readFormatted format targets places pos).bind fun _ => harmless_pure _

theorem evalPlace_sound (hr : Ready s call) (e : Expr) (he : s.Resolves e.mentions) (m : Machine) :
    Sound s (evalPlace s call e) m := by
  cases e with
  | var name pos => exact ofName_sound name pos
  | index array index pos =>
    obtain ⟨ha, hi⟩ := Setting.resolves_append.mp he
    exact index_sound hr (evalExpr_sound hr array ha m) (evalExpr_sound hr index hi) pos
  | deref operand pos =>
    exact (evalExpr_sound hr operand he m).andThen fun v => Place.harmless_behind v pos
  | field object name arrow pos =>
    cases arrow with
    | true => exact arrow_sound hr (evalExpr_sound hr object he m) name pos
    | false => exact dot_sound hr (evalPlace_sound hr object he m) name pos
  | _ => exact (harmless_fail rfl _).sound

theorem evalArgs_sound (hr : Ready s call) (es : List Expr) (he : s.Resolves (mentionsAll es))
    (m : Machine) : Sound s (evalArgs s call es) m := by
  cases es with
  | nil => exact .pure _
  | cons e rest =>
    obtain ⟨first, others⟩ := Setting.resolves_append.mp he
    exact operand_sound hr (evalExpr_sound hr e first m) fun _ m₁ =>
      (evalArgs_sound hr rest others m₁).andThen fun _ => harmless_pure _

theorem evalPlaces_sound (hr : Ready s call) (es : List Expr) (he : s.Resolves (mentionsAll es))
    (m : Machine) : Sound s (evalPlaces s call es) m := by
  cases es with
  | nil => exact .pure _
  | cons e rest =>
    obtain ⟨first, others⟩ := Setting.resolves_append.mp he
    exact .bind (evalPlace_locates hr.passes e m) (evalPlace_sound hr e first m) fun _ m₁ _ _ =>
      (evalPlaces_sound hr rest others m₁).andThen fun _ => harmless_pure _

end

theorem evalOperand_sound (hr : Ready s call) {e : Expr} (he : s.Resolves e.mentions) (m : Machine) :
    Sound s (evalOperand s call e) m :=
  (evalExpr_sound hr e he m).andThen fun v => harmless_requireDefined v e

theorem Value.exists_truth? {v : Value} (h : v.isDefined) : ∃ b, v.truth? = some b := by
  cases v with
  | undefined => cases h
  | _ => exact ⟨_, rfl⟩

/-- A condition that was evaluated is true or false. -/
theorem evalCondition_sound (hr : Ready s call) {e : Expr} (he : s.Resolves e.mentions) (pos : Position)
    (m : Machine) : Sound s (evalCondition s call e pos) m := by
  refine .bind (evalOperand_balanced hr.passes e m) (evalOperand_sound hr he m) fun v _ _ found => ?_
  obtain ⟨b, truth⟩ := Value.exists_truth? found.2
  rw [truth]
  exact .pure _

/-! Declarations -/

theorem evalItems_sound (hr : Ready s call) (elem : CType) (pos : Position) {es : List Expr}
    (he : s.Resolves (mentionsAll es)) (m : Machine) : Sound s (evalItems s call elem pos es) m := by
  induction es generalizing m with
  | nil => exact .pure _
  | cons e rest ih =>
    obtain ⟨first, others⟩ := Setting.resolves_append.mp he
    exact .bind (evalOperand_balanced hr.passes e m) (evalOperand_sound hr first m) fun v m₁ _ _ =>
      .look (fun _ => inspects_convertTo elem v pos) (harmless_convertTo elem v pos).sound fun _ _ =>
        (ih others m₁).andThen fun _ => harmless_pure _

theorem initialValue_sound (hr : Ready s call) (type : CType) {init : Option Expr}
    (he : s.Resolves ((init.map (·.mentions)).getD [])) (pos : Position) (m : Machine) :
    Sound s (initialValue s call type init pos) m := by
  cases init with
  | none => exact (harmless_atFileScope.bind fun _ => harmless_pure _).sound
  | some e => exact (evalOperand_sound hr he m).andThen fun v => harmless_convertTo type v pos

theorem declareScalar_sound (name : String) {type : CType} (known : s.Knows type) (v : Value) :
    Sound s (declareScalar name type v) m := by
  intro hm
  show ((m.env.make ⟨name, .scalar, type, 1, v, []⟩).memory).Knows s
  rw [Environment.make, Environment.memory_declare]
  exact hm.types.make known

/-- Values are stored in vain only at a bad address. -/
theorem storeRun_kind (pos : Position) (a : Address) (vs : List Value) (m : Machine) :
    Ensures (storeRun pos a vs) m (fun _ _ => True)
      (fun h _ => ∃ f, h = .fault f ∧ f.cause.kind = .nullDereference) := by
  induction vs generalizing a m with
  | nil => trivial
  | cons v vs ih =>
    refine Ensures.bind (Ensures.assured ?_ fun f m' h => ?_)
    · have environment : environment m = .ok m.env m := rfl
      unfold Ensures storeSlot
      rw [bind_ok environment]
      cases m.env.memory.write a v with
      | ok memory => exact ih (a + 1) _
      | error fault => exact ⟨_, rfl, by cases fault <;> rfl⟩
    · obtain ⟨f', same, kind⟩ := h
      cases same
      exact ⟨_, rfl, kind⟩

/-- A new array has room for its values. -/
theorem declareArray_sound (name : String) {elem : CType} (known : s.Knows elem) {size : Nat} (fill : Value)
    {values : List Value} (room : values.length ≤ size) (pos : Position) :
    Sound s (declareArray name elem size fill values pos) m := by
  intro hm
  cases h : declareArray name elem size fill values pos m with
  | ok u m' =>
    refine (ensures_iff_of_ok h).mpr ?_
    rw [(declareArray_ensures name elem size fill values pos m).ok h, Environment.make,
      Environment.memory_declare]
    exact hm.types.make known
  | error e m' =>
    refine (ensures_iff_of_error h).mpr fun hb => ?_
    have environment : environment m = .ok m.env m := rfl
    have kind : ∃ f, e = .fault f ∧ f.cause.kind = .nullDereference := by
      have stored : Ensures (declareArray name elem size fill values pos) m (fun _ _ => True)
          (fun h _ => ∃ f, h = .fault f ∧ f.cause.kind = .nullDereference) := by
        unfold Ensures declareArray
        rw [bind_ok environment]
        exact Ensures.bind (Ensures.bind ((storeRun_kind pos _ values _).mono (fun _ _ _ => trivial)
          fun _ _ h => h))
      exact stored.error h
    obtain ⟨f, rfl, kind⟩ := kind
    exact absurd hb (safe_declareArray hm.reached name elem fill room pos f m' ⟨h, kind⟩)

theorem declare_sound (hr : Ready s call) {d : Decl} (sensible : d.Sensible) (hd : s.Resolves d.mentions)
    (m : Machine) : Sound s (declare s call d) m := by
  cases d with
  | scalar name type init pos =>
    obtain ⟨known, hinit⟩ := Setting.resolves_append.mp hd
    refine .bind (initialValue_balanced hr.passes sensible init pos m)
      (initialValue_sound hr type hinit pos m) fun v m₁ _ _ => ?_
    refine .look (fun _ => inspects_atFileScope) harmless_atFileScope.sound fun _ _ => ?_
    exact (declareScalar_sound name known.knows v).andThen fun _ => harmless_pure _
  | array name elem size init pos =>
    obtain ⟨known, hinit⟩ := Setting.resolves_append.mp hd
    have items : s.Resolves (mentionsAll (init.getD [])) := by
      cases init with
      | none => exact Setting.resolves_nil
      | some es => exact hinit
    refine .look (fun _ => inspects_atFileScope) harmless_atFileScope.sound fun isGlobal _ => ?_
    refine .bind (evalItems_balanced hr.passes elem pos _ m) (evalItems_sound hr elem pos items m)
      fun values m₁ _ found => ?_
    have room : values.length ≤ size := found.2.1 ▸ sensible.2.2
    exact (declareArray_sound name known.knows _ room pos).andThen fun _ => harmless_pure _

/-! Statements -/

theorem assign_sound (hr : Ready s call) {target value : Expr}
    (ht : s.Resolves target.mentions) (hv : s.Resolves value.mentions) (op : Option Arith)
    (pos : Position) (m : Machine) : Sound s (assign s call target op value pos) m := by
  refine .bind (evalOperand_balanced hr.passes value m) (evalOperand_sound hr hv m) fun right m₁ _ _ =>
    (evalPlace_sound hr target ht m₁).andThen fun p => ?_
  cases op with
  | none => exact p.harmless_write right pos
  | some op =>
    exact (p.harmless_read target).bind fun old =>
      (harmless_ofCause (fun _ => Arith.isInternal_eval) pos).bind fun new => p.harmless_write new pos

theorem describeEffect_sound (hr : Ready s call) {e : Expr} (he : s.Resolves e.mentions) (m : Machine) :
    Sound s (describeEffect s call e) m := by
  cases e with
  | print format args pos =>
    exact (evalArgs_sound hr args he m).andThen fun values =>
      (harmless_printFormatted format values pos).bind fun _ => harmless_pure _
  | read format targets pos =>
    exact (evalPlaces_sound hr targets he m).andThen fun places =>
      (harmless_readFormatted format targets places pos).bind fun _ => harmless_pure _
  | step op operand pos =>
    exact (evalPlace_sound hr operand he m).andThen fun p =>
      (harmless_stepPlace op p operand pos).bind fun _ => harmless_pure _
  | _ => exact (evalExpr_sound hr _ he m).andThen fun _ => harmless_pure _

theorem perform_sound (hr : Ready s call) {c : Simple} (sensible : c.Sensible) (hc : s.Resolves c.mentions)
    (m : Machine) : Sound s (perform s call c) m := by
  cases c with
  | declare d => exact declare_sound hr sensible hc m
  | assign target op value pos =>
    obtain ⟨ht, hv⟩ := Setting.resolves_append.mp hc
    exact (assign_sound hr ht hv op pos m).andThen fun _ => harmless_pure _
  | effect e pos => exact describeEffect_sound hr hc m

theorem runSimple_sound (hr : Ready s call) {c : Simple} (sensible : c.Sensible)
    (hc : s.Resolves c.mentions) (m : Machine) : Sound s (runSimple s call c) m :=
  (perform_sound hr sensible hc m).andThen fun _ => harmless_record s _ _ _

theorem runClause_sound (hr : Ready s call) {c : Simple} (sensible : c.Sensible)
    (hc : s.Resolves c.mentions) (m : Machine) : Sound s (runClause s call c) m := by
  unfold runClause
  split
  · exact runSimple_sound hr sensible hc m
  · cases c with
    | declare d => exact (declare_sound hr sensible hc m).andThen fun _ => harmless_pure _
    | assign target op value pos =>
      obtain ⟨ht, hv⟩ := Setting.resolves_append.mp hc
      exact (assign_sound hr ht hv op pos m).andThen fun _ => harmless_pure _
    | effect e pos => exact (evalExpr_sound hr e hc m).andThen fun _ => harmless_pure _

theorem runOptionalClause_sound (hr : Ready s call) {c : Option Simple} (sensible : ClauseSensible c)
    (hc : s.Resolves ((c.map (·.mentions)).getD [])) (m : Machine) :
    Sound s (runOptionalClause s call c) m := by
  cases c with
  | none => exact .pure _
  | some c => exact runClause_sound hr sensible hc m

theorem testLoop_sound (hr : Ready s call) (cond : Option Expr)
    (hc : s.Resolves ((cond.map (·.mentions)).getD [])) (pos : Position) (m : Machine) :
    Sound s (testLoop s call cond pos) m := by
  have condition : Sound s (loopCondition s call cond pos) m := by
    cases cond with
    | none => exact .pure _
    | some e => exact evalCondition_sound hr hc pos m
  exact condition.andThen fun _ => (harmless_record s _ _ _).bind fun _ => harmless_pure _

theorem loop_sound {test : Run Bool} {body : Run Flow} {update : Run Unit}
    (pt : ∀ m, Passes s test m) (pb : ∀ m, m.env.InBlock → Passes s body m)
    (pu : ∀ m, m.env.InBlock → Passes s update m) (ht : ∀ m, Sound s test m)
    (hbody : ∀ m, m.env.InBlock → Sound s body m) (hu : ∀ m, Sound s update m) (fuel : Nat)
    (hb : m.env.InBlock) : Sound s (loop test body update fuel) m := by
  induction fuel generalizing m with
  | zero => exact fun _ _ => rfl
  | succ fuel ih =>
    refine .bind (pt m) (ht m) fun holds m₁ _ same => ?_
    have hb₁ := hb.of_shape same.1
    split
    · refine .bind (pb m₁ hb₁) (hbody m₁ hb₁) fun flow m₂ _ same => ?_
      have hb₂ := hb₁.of_shape same.1
      have again : Sound s (do update; loop test body update fuel) m₂ :=
        .bind (pu m₂ hb₂) (hu m₂) fun _ m₃ _ same => ih (hb₂.of_shape same.1)
      cases flow with
      | normal => exact again
      | continueLoop => exact again
      | breakLoop => exact .pure _
      | leave v => exact .pure _
    · exact .pure _

theorem harmless_openBlock : Harmless (changeEnvironment Environment.openBlock) :=
  harmless_changeEnvironment fun env => by
    rw [Environment.openBlock, Environment.memory_onFrame]
    exact .refl _

theorem harmless_closeBlock : Harmless (changeEnvironment Environment.closeBlock) :=
  harmless_changeEnvironment fun env => by
    unfold Environment.closeBlock
    split
    · exact .refl _
    · exact Memory.sameTypes_retireAll _ _

theorem harmless_popFrame : Harmless (changeEnvironment Environment.popFrame) :=
  harmless_changeEnvironment fun env => by
    unfold Environment.popFrame
    split
    · exact .refl _
    · exact Memory.sameTypes_retireAll _ _

theorem inBlock_sound {body : Run Flow} (h : ∀ m, m.env.InBlock → Sound s body m) (hb : m.env.InBlock) :
    Sound s (inBlock body) m := by
  obtain ⟨k, rest, hb⟩ := hb
  have opened (hm : Reached s m) : Follows s [] (changeEnvironment Environment.openBlock) m fun _ m' =>
      m'.env.shape = (k + 2) :: rest :=
    ⟨(Act.change .openBlock).path, Environment.shape_openBlock hb⟩
  exact .bind opened harmless_openBlock.sound fun _ m₁ _ shape =>
    (h m₁ ⟨k + 1, rest, shape⟩).andThen fun _ => harmless_closeBlock.bind fun _ => harmless_pure _

theorem leaveWith_sound (hr : Ready s call) (returns : CType) {value : Option Expr}
    (hv : s.Resolves ((value.map (·.mentions)).getD [])) (pos : Position) (m : Machine) :
    Sound s (leaveWith s call returns value pos) m := by
  have result : Sound s (returnedValue s call returns value pos) m := by
    cases value with
    | none => exact .pure _
    | some e =>
      unfold returnedValue
      dsimp only
      split
      · exact (harmless_fail rfl pos).sound
      · exact (evalOperand_sound hr hv m).andThen fun v => harmless_convertTo returns v pos
  refine result.andThen fun v => ?_
  dsimp only
  split
  · exact (harmless_record s _ _ _).bind fun _ => harmless_pure _
  · exact (harmless_record s _ _ _).bind fun _ => harmless_pure _

mutual

theorem runStmt_sound (hr : Ready s call) (returns : CType) (stmt : Stmt) (sensible : stmt.Sensible)
    (hs : s.Resolves stmt.mentions) (m : Machine) (hb : m.env.InBlock) :
    Sound s (runStmt s call returns stmt) m := by
  cases stmt with
  | simple c => exact (runSimple_sound hr sensible hs m).andThen fun _ => harmless_pure _
  | block body pos => exact inBlock_sound (runStmts_sound hr returns body sensible hs) hb
  | branch cond yes no pos =>
    cases no with
    | none =>
      obtain ⟨hcond, hyes⟩ := Setting.resolves_append.mp hs
      refine .bind (evalCondition_passes hr.passes cond pos m) (evalCondition_sound hr hcond pos m)
        fun holds m₁ _ same => ?_
      split
      · exact .bind (Balanced.record _ _ _) (harmless_record s _ _ _).sound fun _ _ _ same' =>
          inBlock_sound (runStmts_sound hr returns yes sensible hyes)
            (hb.of_shape (same'.1.trans same.1))
      · exact .pure _
    | some no =>
      obtain ⟨hs, hno⟩ := Setting.resolves_append.mp hs
      obtain ⟨hcond, hyes⟩ := Setting.resolves_append.mp hs
      refine .bind (evalCondition_passes hr.passes cond pos m) (evalCondition_sound hr hcond pos m)
        fun holds m₁ _ same => ?_
      split
      · exact .bind (Balanced.record _ _ _) (harmless_record s _ _ _).sound fun _ _ _ same' =>
          inBlock_sound (runStmts_sound hr returns yes sensible.1 hyes)
            (hb.of_shape (same'.1.trans same.1))
      · exact .bind (Balanced.record _ _ _) (harmless_record s _ _ _).sound fun _ _ _ same' =>
          inBlock_sound (runStmts_sound hr returns no sensible.2 hno)
            (hb.of_shape (same'.1.trans same.1))
  | whileLoop cond body pos =>
    obtain ⟨hcond, hbody⟩ := Setting.resolves_append.mp hs
    exact loop_sound (testLoop_passes hr.passes (some cond) pos)
      (fun _ => inBlock_passes (runStmts_passes hr.passes returns body sensible))
      (fun _ _ => .pure trivial) (testLoop_sound hr (some cond) hcond pos)
      (fun _ => inBlock_sound (runStmts_sound hr returns body sensible hbody)) (fun _ => .pure _) s.fuel hb
  | forLoop init cond update body pos =>
    obtain ⟨hs, hbody⟩ := Setting.resolves_append.mp hs
    obtain ⟨hs, hupdate⟩ := Setting.resolves_append.mp hs
    obtain ⟨hinit, hcond⟩ := Setting.resolves_append.mp hs
    obtain ⟨si, su, sb⟩ := sensible
    refine inBlock_sound (fun m₁ hb₁ => .bind (runOptionalClause_passes hr.passes si hb₁)
      (runOptionalClause_sound hr si hinit m₁) fun _ m₂ _ same => ?_) hb
    exact loop_sound (testLoop_passes hr.passes cond pos)
      (fun _ => inBlock_passes (runStmts_passes hr.passes returns body sb))
      (fun _ => runOptionalClause_passes hr.passes su) (testLoop_sound hr cond hcond pos)
      (fun _ => inBlock_sound (runStmts_sound hr returns body sb hbody))
      (runOptionalClause_sound hr su hupdate) s.fuel (hb₁.of_shape same.1)
  | leave value pos => exact leaveWith_sound hr returns hs pos m
  | breakLoop pos => exact ((harmless_record s _ _ _).bind fun _ => harmless_pure _).sound
  | continueLoop pos => exact ((harmless_record s _ _ _).bind fun _ => harmless_pure _).sound

theorem runStmts_sound (hr : Ready s call) (returns : CType) (stmts : List Stmt)
    (sensible : AllSensible stmts) (hs : s.Resolves (mentionsOf stmts)) (m : Machine)
    (hb : m.env.InBlock) : Sound s (runStmts s call returns stmts) m := by
  cases stmts with
  | nil => exact .pure _
  | cons stmt rest =>
    obtain ⟨first, others⟩ := Setting.resolves_append.mp hs
    refine .bind (runStmt_passes hr.passes returns stmt sensible.1 m hb)
      (runStmt_sound hr returns stmt sensible.1 first m hb) fun flow m₁ _ same => ?_
    cases flow with
    | normal => exact runStmts_sound hr returns rest sensible.2 others m₁ (hb.of_shape same.1)
    | _ => exact .pure _

end

/-! Calls and programs -/

theorem bindParams_sound (pos : Position) {ps : List Member} (known : ∀ p ∈ ps, s.Knows p.type)
    (vs : List Value) (hb : m.env.InBlock) : Sound s (bindParams pos ps vs) m := by
  induction ps generalizing vs m with
  | nil => exact .pure _
  | cons p ps ih =>
    cases vs with
    | nil => exact .pure _
    | cons v vs =>
      obtain ⟨first, others⟩ := List.forall_mem_cons.mp known
      refine .look (fun _ => inspects_convertTo p.type v pos) (harmless_convertTo p.type v pos).sound
        fun w hw => ?_
      refine .bind (declareScalar_passes p.name hw hb) (declareScalar_sound p.name first w)
        fun _ m₁ _ same => ?_
      exact (ih others vs (hb.of_shape same.1)).andThen fun _ => harmless_pure _

theorem openFrame_sound (hl : s.Linked) {f : Function} (hf : f ∈ s.functions) {args : List Value}
    (count : args.length = f.params.length) (line : Nat) (pos : Position) :
    Sound s (openFrame s f args line pos) m := by
  have arity : checkArity f args pos = pure () := if_neg (not_not.mpr count)
  have entered (hm : Reached s m) : Follows s [] (changeEnvironment fun env =>
      env.pushFrame (.enter ⟨f.name, line, f.pos.line⟩)) m fun _ m' =>
        m'.env.shape = 1 :: m.env.shape :=
    ⟨(Act.change (.pushFrame _)).path, rfl⟩
  unfold openFrame
  rw [arity, pure_bind]
  refine .bind entered (harmless_changeEnvironment fun env => .refl _).sound fun _ m₁ _ shape => ?_
  exact (bindParams_sound pos (hl.params f hf) args ⟨0, _, shape⟩).andThen fun _ => harmless_record s _ _ _

theorem runBody_sound (hr : Ready s call) {f : Function} (sensible : AllSensible f.body)
    (hf : f ∈ s.functions) (hb : m.env.InBlock) : Sound s (runBody s call f) m := by
  refine (runStmts_sound hr f.returns f.body sensible (hr.linked.body f hf) m hb).andThen fun flow => ?_
  cases flow with
  | leave v => exact harmless_pure v
  | _ => exact (harmless_record s _ _ _).bind fun _ => harmless_pure _

theorem callFunction_sound (hs : s.Sensible) (hl : s.Linked) (n : Nat) {f : Function}
    (hf : f ∈ s.functions) {args : List Value} (count : args.length = f.params.length) (line : Nat)
    (pos : Position) (m : Machine) : Sound s (callFunction s n f args line pos) m := by
  induction n generalizing f args line pos m with
  | zero => exact fun _ _ => rfl
  | succ n ih =>
    have ready : Ready s (s.handlerWithin n) :=
      ⟨hl, calls_handlerWithin hs n, fun g hg args pos m count => ih hg count pos.line pos m⟩
    have depth : Inspects (checkDepth s f pos) m fun _ => True :=
      (checkDepth_ensures s m f pos).mono (fun _ _ h => ⟨h, trivial⟩) fun _ _ h => h.1
    have limited : Sound s (checkDepth s f pos) m := fun hm =>
      (checkDepth_ensures s m f pos).mono (fun _ _ h => h ▸ hm.types) fun _ _ h _ => h.2 ▸ rfl
    refine .look (fun _ => depth) limited fun _ _ => ?_
    refine .bind (openFrame_follows f args line pos) (openFrame_sound hl hf count line pos)
      fun _ m₁ _ shape => ?_
    exact (runBody_sound ready (hs f hf) hf ⟨0, _, shape⟩).andThen fun _ =>
      harmless_popFrame.bind fun _ => harmless_pure _

theorem ready_handlerWithin (hs : s.Sensible) (hl : s.Linked) (n : Nat) : Ready s (s.handlerWithin n) :=
  ⟨hl, calls_handlerWithin hs n, fun _ hf _ pos m count => callFunction_sound hs hl n hf count pos.line pos m⟩

theorem runGlobals_sound (hs : s.Sensible) (hl : s.Linked) {ds : List Decl} (sensible : ∀ d ∈ ds, d.Sensible)
    (hds : ∀ d ∈ ds, s.Resolves d.mentions) (outside : m.env.shape = []) : Sound s (runGlobals s ds) m := by
  induction ds generalizing m with
  | nil => exact .pure _
  | cons d ds ih =>
    obtain ⟨hd, hds⟩ := List.forall_mem_cons.mp hds
    obtain ⟨sd, sds⟩ := List.forall_mem_cons.mp sensible
    have ready := ready_handlerWithin hs hl s.fuel
    have first (hm : Reached s m) : Follows s [d] (runSimple s s.handler (.declare d)) m fun _ m' =>
        m'.env.shape = [] := by
      have one := runGlobals_follows hs (List.forall_mem_singleton.mpr sd) outside hm
      unfold runGlobals runGlobals at one
      simpa using one
    exact .bind first (runSimple_sound ready (c := .declare d) sd hd m) fun _ m₁ _ shape => ih sds hds shape

theorem runProgram_sound (hs : s.Sensible) (hl : s.Linked) {ds : List Decl}
    (sensible : ∀ d ∈ ds, d.Sensible) (hds : ∀ d ∈ ds, s.Resolves d.mentions) (input : String) :
    Sound s (runProgram s ds) (.start input) := by
  refine .bind (runGlobals_follows hs sensible rfl) (runGlobals_sound hs hl sensible hds rfl)
    fun _ m _ _ => ?_
  obtain ⟨f, found, none⟩ := hl.main
  rw [found]
  have count : ([] : List Value).length = f.params.length := by rw [none]; rfl
  exact (callFunction_sound hs hl s.fuel (List.mem_of_find?_eq_some found) count 0 f.pos m).andThen
    fun _ => harmless_pure _

/-- No run of an accepted program is at fault internally, whatever its input and its limits, as long as
addresses have not run out: `main` is found, every call has the arguments it needs, every struct is
defined, every name stands for a variable that exists, a new array can be filled, no directive lacks an
argument, and every condition is true or false. -/
theorem never_internal {source : String} {p : Program} (accepted : Program.parse source = .ok p)
    (limits : Limits) (cancelled : Bool) (input : String) {h : Halt} {m : Machine}
    (halted : runProgram (.ofProgram p source limits cancelled) p.globals (.start input) = .error h m)
    (bounds : m.env.memory.InBounds) : h.isInternal = false := by
  have sound := runProgram_sound (p.sensible_functions accepted limits cancelled)
    (p.linked accepted limits cancelled) (p.sensible_globals accepted)
    (p.resolves_globals accepted limits cancelled) input
  exact (sound ⟨.start input, .empty⟩).error halted bounds

/-- A run that halts in a function called with two arguments, one of them a node that was made, printed
and tested before. -/
theorem never_internal_bounds :
    let source := "struct N \x7b int v; struct N *n; \x7d; int a[2] = \x7b1, 2\x7d; " ++
      "int at(struct N *p, int i) \x7b if (p) printf(\"%d\", p->v); return a[i]; \x7d " ++
      "int main() \x7b struct N *p = malloc(sizeof(struct N)); p->v = sizeof(p->n->v); return at(p, 2); \x7d"
    ∃ p m, Program.parse source = .ok p ∧
      runProgram (.ofProgram p source ⟨100, 9, 99999⟩ false) p.globals (.start "") =
        .error (.fault ⟨.outOfBounds 2 2, ⟨1, 118⟩⟩) m ∧
      m.env.memory.InBounds ∧ Halt.isInternal (.fault ⟨.outOfBounds 2 2, ⟨1, 118⟩⟩) = false := by
  intro source
  have facts : (Program.parse source).toOption.any (fun p =>
      Ensures (runProgram (.ofProgram p source ⟨100, 9, 99999⟩ false) p.globals) (.start "")
        (fun _ _ => False) (fun h m => h = .fault ⟨.outOfBounds 2 2, ⟨1, 118⟩⟩ ∧
          m.env.memory.InBounds)) = true := by
    decide +kernel
  obtain ⟨p, accepted, facts⟩ := Program.exists_of_any facts
  obtain ⟨h, m, halted, rfl, bounds⟩ := (of_decide_eq_true facts).exists_error
  exact ⟨p, m, accepted, halted, bounds,
    never_internal accepted ⟨100, 9, 99999⟩ false "" halted bounds⟩

end Stepwise
