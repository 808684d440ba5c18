import Stepwise.Proofs.Accepted
import Stepwise.Proofs.Inspect
import Stepwise.Proofs.Ownership

/-! Whatever a program does goes along a path of acts. A piece that halts may stop between two acts, but
never after a step was recorded that the path does not have. -/

namespace Stepwise

open Run

variable {α β : Type} {s : Setting} {m m' : Machine} {ds : List Decl}

/-- States that a run can pass through, before its globals are declared or after. -/
def Reached (s : Setting) (m : Machine) : Prop := ∃ input ds, Path s (.start input) ds m

/-- One state comes after another, and nothing is declared outside of functions in between. -/
abbrev Later (s : Setting) (m m' : Machine) : Prop := Path s m [] m'

theorem Act.path {d : Option Decl} (h : Act s d m m') : Path s m d.toList m' := .step .refl h

namespace Reached

theorem start (input : String) : Reached s (.start input) := ⟨input, [], .refl⟩

theorem path (h : Reached s m) (h' : Path s m ds m') : Reached s m' := by
  obtain ⟨input, before, hp⟩ := h
  exact ⟨input, before ++ ds, hp.trans h'⟩

theorem layout (h : Reached s m) (hb : m.env.memory.InBounds) :
    Memory.Layout s.structs m.env.memory := by
  obtain ⟨input, before, hp⟩ := h
  exact (hp.storage .empty hb).1

theorem evolves (h : Reached s m) (h' : Path s m ds m') (hb : m'.env.memory.InBounds) :
    m.env.memory.Evolves m'.env.memory :=
  (h'.storage (h.layout (h'.inBounds hb)) hb).2.1

end Reached

namespace Run

/-- The piece goes along a path that declares `ds` outside of functions, and `Q` holds at its end. If it
halts, all it recorded was recorded along a part of such a path. -/
def Follows (s : Setting) (ds : List Decl) (x : Run α) (m : Machine) (Q : α → Machine → Prop) : Prop :=
  Ensures x m (fun a m' => Path s m ds m' ∧ Q a m')
    (fun _ m' => ∃ ds' m₁, ds' <+: ds ∧ Path s m ds' m₁ ∧ m₁.recorder = m'.recorder)

variable {x : Run α} {f : α → Run β} {Q Q' : α → Machine → Prop} {R : β → Machine → Prop}

theorem Follows.bind {ds' : List Decl} (hx : Follows s ds x m Q)
    (hf : ∀ a m', Path s m ds m' → Q a m' → Follows s ds' (f a) m' R) :
    Follows s (ds ++ ds') (x >>= f) m R := by
  refine Ensures.bind (Ensures.mono hx ?_ ?_)
  · rintro a m' ⟨path, hq⟩
    refine (hf a m' path hq).mono ?_ ?_
    · rintro b m'' ⟨path', hr⟩
      exact ⟨path.trans path', hr⟩
    · rintro e m'' ⟨ds₁, m₁, part, path', same⟩
      exact ⟨ds ++ ds₁, m₁, (List.prefix_append_right_inj ds).mpr part, path.trans path', same⟩
  · rintro e m' ⟨ds₁, m₁, part, path, same⟩
    exact ⟨ds₁, m₁, part.trans (List.prefix_append ds ds'), path, same⟩

/-- From a state of a run, the piece declares nothing outside of functions and leaves as many blocks open
in each frame as there were. -/
def Balanced (s : Setting) (x : Run α) (m : Machine) (Q : α → Machine → Prop) : Prop :=
  Reached s m → Follows s [] x m fun a m' => m'.env.shape = m.env.shape ∧ Q a m'

abbrev Passes (s : Setting) (x : Run α) (m : Machine) : Prop := Balanced s x m fun _ _ => True

abbrev Locates (s : Setting) (x : Run Place) (m : Machine) : Prop :=
  Balanced s x m fun p m' => p.Known m'.env.memory

namespace Balanced

theorem mono (hx : Balanced s x m Q) (h : ∀ a m', Later s m m' → Q a m' → Q' a m') :
    Balanced s x m Q' := fun hm =>
  Ensures.mono (hx hm) (fun a m' hq => ⟨hq.1, hq.2.1, h a m' hq.1 hq.2.2⟩) fun _ _ he => he

theorem bind (hx : Balanced s x m Q)
    (hf : ∀ a m', Later s m m' → m'.env.shape = m.env.shape → Q a m' → Balanced s (f a) m' R) :
    Balanced s (x >>= f) m R := by
  intro hm
  refine Follows.bind (hx hm) fun a m' later hq => ?_
  have rest := hf a m' later hq.1 hq.2 (hm.path later)
  rwa [hq.1] at rest

/-- A piece that only looks may know that the state is one of a run. -/
theorem look {P : α → Prop} (hx : Reached s m → Inspects x m P)
    (hf : ∀ a, P a → Balanced s (f a) m R) : Balanced s (x >>= f) m R := by
  intro hm
  refine Ensures.bind (Ensures.mono (hx hm) ?_ ?_)
  · rintro a m' ⟨rfl, ha⟩
    exact hf a ha hm
  · rintro e m' rfl
    exact ⟨[], m', List.prefix_refl _, .refl, rfl⟩

theorem ofInspects {P : α → Prop} (hx : Reached s m → Inspects x m P) (h : ∀ a, P a → Q a m) :
    Balanced s x m Q := by
  intro hm
  refine Ensures.mono (hx hm) ?_ ?_
  · rintro a m' ⟨rfl, ha⟩
    exact ⟨.refl, rfl, h a ha⟩
  · rintro e m' rfl
    exact ⟨[], m', List.prefix_refl _, .refl, rfl⟩

theorem pure {a : α} (h : Q a m) : Balanced s (pure a) m Q := fun _ => ⟨.refl, rfl, h⟩

theorem thenReturn {g : α → β} (hx : Balanced s x m Q) : Passes s (x >>= fun a => Pure.pure (g a)) m :=
  .bind hx fun _ _ _ _ _ => .pure trivial

theorem throw (e : Halt) : Balanced s (throw e) m Q :=
  fun _ => ⟨[], m, List.prefix_refl _, .refl, rfl⟩

theorem fail (cause : Fault.Cause) (pos : Position) : Balanced s (fail cause pos) m Q := throw _

theorem change {g : Environment → Environment} (h : Change s none m.env (g m.env))
    (same : (g m.env).shape = m.env.shape) : Passes s (changeEnvironment g) m :=
  fun _ => ⟨(Act.change h).path, same, trivial⟩

theorem print (text : String) : Passes s (print text) m :=
  fun _ => ⟨(Act.print text).path, rfl, trivial⟩

theorem setInput (rest : List Char) :
    Balanced s (modify fun m => { m with input := rest }) m fun _ m' => m'.env = m.env :=
  fun _ => ⟨(Act.input rest).path, rfl, rfl⟩

theorem record (line : Nat) (description : String) (returned : Option Value) :
    Passes s (record s line description returned) m := by
  intro _
  refine Ensures.mono (record_ensures s line description returned m) ?_ ?_
  · rintro - m' ⟨rfl, -, -⟩
    exact ⟨(Act.record line description returned).path, rfl, trivial⟩
  · rintro e m' ⟨same, -⟩
    have recorder : m.recorder = m'.recorder := by obtain rfl | rfl := same <;> rfl
    exact ⟨[], m, List.prefix_refl _, .refl, recorder⟩

end Balanced

end Run

/-! What stores, reads and makes nodes -/

theorem storeSlot_passes {a : Address} {v : Value} (pos : Position) (defined : v.isDefined)
    (fits : m.env.memory.InBounds → ∀ al, m.env.memory.liveAt a = .ok al → v.Fits (al.slotType a)) :
    Passes s (storeSlot a v pos) m := by
  refine .look (fun _ => inspects_environment) ?_
  rintro env rfl
  split
  · exact .change (.store ‹_› defined fits) rfl
  · exact .fail _ _

namespace Place

theorem Known.path {p : Place} (h : p.Known m.env.memory) (hm : Reached s m) (later : Path s m ds m') :
    p.Known m'.env.memory := h.evolves (hm.evolves later)

/-- A variable that is found under its name lives. -/
theorem inspects_variable (hm : Reached s m) (name : String) (pos : Position) :
    Inspects (ofName name pos) m fun p => p.Live m.env.memory ∧
      ∀ len, p.arrayLen = some len → Elements.Live m.env.memory ⟨p.address, p.type, len⟩ := by
  refine (inspects_ofName name pos).mono ?_
  rintro p ⟨al, hal, rfl⟩
  obtain ⟨a, scope, named, found⟩ := Environment.variable_eq_ok hal
  have lives (hb : m.env.memory.InBounds) :
      al.struct? = none ∧ m.env.memory.liveAt al.base = .ok al := by
    obtain ⟨input, ds, path⟩ := hm
    obtain ⟨layout, made, -, owned, -⟩ := path.owns hb
    exact owned.lookup_lives layout named found
  constructor
  · intro hb
    obtain ⟨kind, live⟩ := lives hb
    exact ⟨al, live, (slotType_of_struct? kind _).symm⟩
  · intro len hlen hb
    obtain ⟨kind, live⟩ := lives hb
    exact ⟨al, live, within_array kind hlen⟩

theorem write_passes {p : Place} {v : Value} (h : p.Known m.env.memory) (hv : v.isDefined)
    (pos : Position) : Passes s (p.write v pos) m := by
  unfold write
  split
  · exact .fail _ _
  · rename_i one
    intro hm
    refine Balanced.look (fun _ => inspects_convertTo p.type v pos) (fun w hw => ?_) hm
    obtain ⟨defined, fits⟩ := Value.convert_fits hv hw
    refine .thenReturn (storeSlot_passes pos defined fun hb al hal => ?_)
    obtain struct | ⟨al', found, hin, ht⟩ := h hb one
    · rw [Value.convert_struct hv struct] at hw
      exact nomatch hw
    · -- the live allocation there is the one that the place is known to lie in
      obtain ⟨found', hin', -⟩ := (hm.layout hb).of_liveAt hal
      rw [(hm.layout hb).unique found' found hin' hin] at found'
      obtain rfl := Option.some.inj (found'.symm.trans found)
      rwa [ht]

end Place

theorem storeAll_passes (pos : Position) {vs : List Value} {ps : List Place} (es : List Expr)
    (hv : ∀ v ∈ vs, v.isDefined) (hp : ∀ p ∈ ps, p.Known m.env.memory) :
    Passes s (storeAll pos vs ps es) m := by
  induction vs generalizing ps es m with
  | nil => exact .pure trivial
  | cons v vs ih =>
    cases ps with
    | nil => exact .pure trivial
    | cons p ps =>
      cases es with
      | nil => exact .pure trivial
      | cons e es =>
        obtain ⟨hv, hvs⟩ := List.forall_mem_cons.mp hv
        obtain ⟨hp, hps⟩ := List.forall_mem_cons.mp hp
        intro hm
        refine Balanced.bind (Place.write_passes hp hv pos) (fun _ m' later _ _ => ?_) hm
        exact .thenReturn (ih es hvs fun q hq => (hps q hq).path hm later)

theorem readFormatted_passes (format : String) (targets : List Expr) {places : List Place}
    (pos : Position) (hp : ∀ p ∈ places, p.Known m.env.memory) :
    Passes s (readFormatted format targets places pos) m := by
  refine .look (fun _ => inspects_get) ?_
  rintro _ rfl
  refine .bind (.setInput _) fun _ m' _ _ same => .look (fun _ => inspects_ofFormat pos _)
    fun found hfound => ?_
  have rest : Passes s (do
      checkTargets pos found.conversions places
      let bound ← storeAll pos found.values places targets
      return (⟨found.result, bound⟩ : Reading)) m' :=
    .look (fun _ => inspects_checkTargets pos _ _) fun _ _ =>
      .thenReturn (storeAll_passes pos targets (Format.scan_isDefined hfound) (same ▸ hp))
  dsimp only
  split
  · exact .bind (.fail _ _) fun _ m'' _ _ (nothing : False) => nothing.elim
  · exact rest

theorem newNode_passes (struct : String) (pos : Position) : Passes s (newNode s struct pos) m := by
  unfold newNode
  split
  · exact .fail _ _
  · refine .look (fun _ => inspects_environment) ?_
    rintro env rfl
    exact .thenReturn (.change (.newNode ‹_›) rfl)

theorem freeNode_passes (args : List Value) (pos : Position) : Passes s (freeNode args pos) m := by
  unfold freeNode
  split
  · split
    · exact .pure trivial
    · refine .look (fun _ => inspects_environment) ?_
      rintro env rfl
      split
      · exact .fail _ _
      · rename_i al hal
        obtain ⟨found, node⟩ := Option.filter_eq_some_iff.mp hal
        split
        · refine .thenReturn (.change (.freeNode found ?_ ‹_›) rfl)
          exact Option.isSome_iff_ne_none.mp node
        · exact .fail _ _
  · exact .fail _ _
  · exact .fail _ _

theorem stepPlace_passes (op : StepOp) {p : Place} (h : p.Known m.env.memory) (operand : Expr)
    (pos : Position) : Passes s (stepPlace op p operand pos) m :=
  .look (fun _ => Place.inspects_read p operand) fun _ _ =>
    .look (fun _ => inspects_ofCause pos _) fun _ hv =>
      .thenReturn (Place.write_passes h (Arith.eval_isDefined hv) pos)

/-! Expressions -/

def Calls (s : Setting) (call : CallHandler) : Prop :=
  ∀ f ∈ s.functions, ∀ args pos m, Passes s (call f args pos) m

variable {call : CallHandler}

theorem printFormatted_passes (format : String) (values : List Value) (pos : Position) :
    Passes s (printFormatted format values pos) m :=
  .look (fun _ => inspects_ofFormat pos _) fun text _ =>
    .thenReturn (.print text)

theorem callByName_passes (hc : Calls s call) (name : String) (args : List Value) (pos : Position) :
    Passes s (callByName s call name args pos) m := by
  unfold callByName
  split
  · exact freeNode_passes args pos
  · split
    · rename_i f hf
      exact hc f (List.mem_of_find?_eq_some hf) args pos m
    · exact .fail _ _

theorem elements_balanced (array : Expr) {value : Run Value} (hv : Passes s value m) (pos : Position) :
    Balanced s (Place.elements array value pos) m fun es m' => es.Live m'.env.memory := by
  have behind : Balanced s (do Place.elementsBehind (← value) pos) m fun es m' =>
      es.Live m'.env.memory :=
    .bind hv fun v m' _ _ _ => .ofInspects (fun hm =>
      Place.inspects_elementsBehind (fun hb => (hm.layout hb).toSpaced) v pos) fun _ h => h
  unfold Place.elements
  split
  · rename_i name namePos
    refine .look (fun hm => Place.inspects_variable hm name namePos) fun p hp => ?_
    split
    · exact .pure (hp.2 _ ‹_›)
    · exact behind
  · exact behind

/-- An expression that names a place is worth what is there. -/
theorem evalExpr_of_isPlace (s : Setting) (call : CallHandler) {e : Expr} (h : e.isPlace) :
    evalExpr s call e = evalPlace s call e >>= fun p => p.readScalar e := by
  cases e with
  | var name pos => rfl
  | index array index pos => simp only [evalExpr, evalPlace, bind_assoc]
  | deref operand pos => simp only [evalExpr, evalPlace, bind_assoc]
  | field object name arrow pos =>
    cases arrow with
    | true => simp only [evalExpr, evalPlace, bind_assoc]
    | false => simp only [evalExpr, evalPlace, bind_assoc]
  | _ => exact Bool.noConfusion h

theorem read_passes {e : Expr} (h : e.isPlace)
    (hp : Locates s (evalPlace s call e) m) :
    Passes s (evalExpr s call e) m := by
  rw [evalExpr_of_isPlace s call h]
  exact .bind hp fun p _ _ _ _ => .ofInspects (fun _ => p.inspects_readScalar e) fun _ h => h

/-- An operand is evaluated and must have a value. -/
theorem operand_bind {e : Expr} {f : Value → Run β} {R : β → Machine → Prop}
    (he : Passes s (evalExpr s call e) m) (hf : ∀ v m', v.isDefined → Balanced s (f v) m' R) :
    Balanced s (do let v ← requireDefined (← evalExpr s call e) e; f v) m R := by
  refine .bind he fun v m' _ _ _ => .look (fun _ => inspects_requireDefined v e) ?_
  rintro _ ⟨rfl, hv⟩
  exact hf _ m' hv

section

variable {array index operand object : Expr}

theorem ofName_locates (name : String) (pos : Position) : Locates s (Place.ofName name pos) m :=
  .ofInspects (fun hm => (Place.inspects_variable hm name pos).mono
    fun _ h => h.1.known hm.layout) fun _ h => h

theorem index_locates (ha : Passes s (evalExpr s call array) m)
    (hi : ∀ m, Passes s (evalExpr s call index) m) (pos : Position) :
    Locates s (evalPlace s call (.index array index pos)) m := by
  refine .bind (elements_balanced array ha pos) fun es m₁ _ _ hes hm₁ => ?_
  -- the elements are still known when the number is found
  refine Balanced.bind (hi m₁) (fun v m₂ later _ _ => ?_) hm₁
  refine .ofInspects (fun hm => (Place.inspects_element es v pos).mono ?_) fun _ h => h
  rintro p ⟨i, -, -, available, rfl⟩
  exact ((hes.known hm₁.layout).evolves (hm₁.evolves later)).known_nth hm.layout available

theorem deref_locates (ho : Passes s (evalExpr s call operand) m) (pos : Position) :
    Locates s (evalPlace s call (.deref operand pos)) m :=
  .bind ho fun v _ _ _ _ => .ofInspects (fun hm => (Place.inspects_behind v pos).mono
    fun _ h => h.elim (·.known hm.layout) (·.known hm.layout)) fun _ h => h

theorem field_locates (base : Address) (name : String) (pos : Position) :
    Locates s (Place.field s base name pos) m :=
  .ofInspects (fun hm => (Place.inspects_field hm.layout base name pos).mono
    fun _ h => h.known hm.layout) fun _ h => h

theorem arrow_locates (ho : Passes s (evalExpr s call object) m) (name : String) (pos : Position) :
    Locates s (evalPlace s call (.field object name true pos)) m :=
  .bind ho fun v _ _ _ _ => .look (fun _ => inspects_requirePointer v pos) fun base _ =>
    field_locates base name pos

theorem dot_locates (ho : Locates s (evalPlace s call object) m)
    (name : String) (pos : Position) :
    Locates s (evalPlace s call (.field object name false pos)) m :=
  .bind ho fun p _ _ _ _ => .look (fun _ => p.inspects_requireStruct pos) fun base _ =>
    field_locates base name pos

end

mutual

theorem evalExpr_passes (hc : Calls s call) (e : Expr) (m : Machine) :
    Passes s (evalExpr s call e) m := by
  cases e with
  | int n pos => exact .pure trivial
  | float x pos => exact .pure trivial
  | char c pos => exact .pure trivial
  | null pos => exact .pure trivial
  | sizeofType type pos => exact .pure trivial
  | var name pos =>
    exact read_passes rfl (ofName_locates name pos)
  | index array index pos =>
    exact read_passes rfl (index_locates (evalExpr_passes hc array m) (evalExpr_passes hc index) pos)
  | deref operand pos => exact read_passes rfl (deref_locates (evalExpr_passes hc operand m) pos)
  | field object name arrow pos =>
    cases arrow with
    | true => exact read_passes rfl (arrow_locates (evalExpr_passes hc object m) name pos)
    | false => exact read_passes rfl (dot_locates (evalPlace_locates hc object m) name pos)
  | binary op left right pos =>
    have result {r : Except Fault.Cause Value} {m : Machine} : Passes s (Run.ofCause pos r) m :=
      .ofInspects (fun _ => inspects_ofCause pos r) fun _ _ => trivial
    cases op with
    | connect op =>
      refine operand_bind (evalExpr_passes hc left m) fun l m₁ _ => ?_
      split
      · exact .pure trivial
      · exact operand_bind (evalExpr_passes hc right m₁) fun r _ _ => result
    | arith op =>
      exact operand_bind (evalExpr_passes hc left m) fun l m₁ _ =>
        operand_bind (evalExpr_passes hc right m₁) fun r _ _ => result
    | compare op =>
      exact operand_bind (evalExpr_passes hc left m) fun l m₁ _ =>
        operand_bind (evalExpr_passes hc right m₁) fun r _ _ => result
  | unary op operand pos =>
    exact operand_bind (evalExpr_passes hc operand m) fun v _ _ =>
      .ofInspects (fun _ => inspects_ofCause pos _) fun _ _ => trivial
  | step op operand pos =>
    exact .bind (evalPlace_locates hc operand m) fun p _ _ _ hp =>
      .thenReturn (stepPlace_passes op hp operand pos)
  | addressOf operand pos =>
    exact .thenReturn (evalPlace_locates hc operand m)
  | call name args pos =>
    exact .bind (evalArgs_passes hc args m) fun values _ _ _ _ => callByName_passes hc name values pos
  | cast type operand pos =>
    refine operand_bind (evalExpr_passes hc operand m) fun v _ _ => ?_
    split
    · exact .pure trivial
    · exact .fail _ _
  | sizeofExpr operand pos =>
    exact .look (fun _ => inspects_environment) fun _ _ => .look (fun _ => inspects_ofFault _)
      fun _ _ => .pure trivial
  | newNode struct pos => exact newNode_passes struct pos
  | print format args pos =>
    exact .bind (evalArgs_passes hc args m) fun values _ _ _ _ =>
      .thenReturn (printFormatted_passes format values pos)
  | read format targets pos =>
    exact .bind (evalPlaces_balanced hc targets m) fun _ _ _ _ hp =>
      .thenReturn (readFormatted_passes format targets pos hp)

theorem evalPlace_locates (hc : Calls s call) (e : Expr) (m : Machine) :
    Locates s (evalPlace s call e) m := by
  cases e with
  | var name pos =>
    exact ofName_locates name pos
  | index array index pos =>
    exact index_locates (evalExpr_passes hc array m) (evalExpr_passes hc index) pos
  | deref operand pos => exact deref_locates (evalExpr_passes hc operand m) pos
  | field object name arrow pos =>
    cases arrow with
    | true => exact arrow_locates (evalExpr_passes hc object m) name pos
    | false => exact dot_locates (evalPlace_locates hc object m) name pos
  | _ => exact .fail _ _

theorem evalArgs_passes (hc : Calls s call) (es : List Expr) (m : Machine) :
    Passes s (evalArgs s call es) m := by
  cases es with
  | nil => exact .pure trivial
  | cons e rest =>
    exact operand_bind (evalExpr_passes hc e m) fun _ m₁ _ =>
      .thenReturn (evalArgs_passes hc rest m₁)

theorem evalPlaces_balanced (hc : Calls s call) (es : List Expr) (m : Machine) :
    Balanced s (evalPlaces s call es) m fun ps m' => ∀ p ∈ ps, p.Known m'.env.memory := by
  cases es with
  | nil => exact .pure nofun
  | cons e rest =>
    refine .bind (evalPlace_locates hc e m) fun p m₁ _ _ hp hm₁ => ?_
    refine Balanced.bind (evalPlaces_balanced hc rest m₁) (fun ps m₂ later _ hps => ?_) hm₁
    exact .pure (List.forall_mem_cons.mpr ⟨hp.path hm₁ later, hps⟩)

end

end Stepwise
