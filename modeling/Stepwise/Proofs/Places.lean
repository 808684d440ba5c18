import Stepwise.Proofs.Bracketing
import Stepwise.Proofs.Storage

/-! Where the places lie that expressions name. To evaluate an expression may call functions, and those
make variables, end them and free nodes. But the frames are the same before and after, so the variables
that lived before are still owned and still live: what was ended is what was made on the way, or a node.
An array that was found before its index is therefore still there when the index is known, and no place
that an expression names is bad when it is read or stored to at once. -/

namespace Stepwise

open Run

variable {α β : Type} {s : Setting} {m m' m₁ : Machine} {n : Nat}

/-! What evaluating leaves alone -/

structure Onward (s : Setting) (m m' : Machine) : Prop where
  later : Later s m m'
  frames : m'.env.frames = m.env.frames

/-- What passes and is calm leads onward. -/
theorem Onward.of_ok {x : Run α} {Q : α → Machine → Prop} {a : α} (passes : Balanced s x m Q)
    (calm : Calm s x) (hm : Reached s m) (h : x m = .ok a m') : Onward s m m' ∧ Q a m' := by
  obtain ⟨later, -, hq⟩ := (passes hm).ok h
  obtain ⟨⟨frames, -⟩, -⟩ := (calm m.env.frames m.env.globals m ⟨rfl, rfl⟩).ok h
  exact ⟨⟨later, frames⟩, hq⟩

theorem evalExpr_onward (hs : s.Sensible) (hm : Reached s m) {e : Expr} {v : Value}
    (h : evalExpr s (s.handlerWithin n) e m = .ok v m') : Onward s m m' :=
  (Onward.of_ok (evalExpr_passes (calls_handlerWithin hs n) e m)
    ((Calm.compatibility s).evalExpr_rel (calmCalls_handlerWithin s n) e) hm h).1

theorem evalPlace_onward (hs : s.Sensible) (hm : Reached s m) {e : Expr} {p : Place}
    (h : evalPlace s (s.handlerWithin n) e m = .ok p m') : Onward s m m' :=
  (Onward.of_ok (evalPlace_locates (calls_handlerWithin hs n) e m)
    ((Calm.compatibility s).evalPlace_rel (calmCalls_handlerWithin s n) e) hm h).1

/-- The elements of an array lie in a variable that lives when they have been found. -/
theorem elements_live (hs : s.Sensible) (hm : Reached s m) {array : Expr} {pos : Position}
    {es : Place.Elements} (h : Place.elements array (evalExpr s (s.handlerWithin n) array) pos m =
      .ok es m') : Onward s m m' ∧ es.Live m'.env.memory :=
  Onward.of_ok (elements_balanced array (evalExpr_passes (calls_handlerWithin hs n) array m) pos)
    ((Calm.compatibility s).elements_rel array
      ((Calm.compatibility s).evalExpr_rel (calmCalls_handlerWithin s n) array) pos) hm h

namespace Reached

/-- A variable that lives goes on to live as long as the frames are the same. -/
theorem variable_onward (hm : Reached s m) (onward : Onward s m m') (hb : m'.env.memory.InBounds)
    {a : Address} {al : Allocation} (hal : m.env.memory.allocation? a = some al) (live : al.live)
    (kind : al.struct? = none) : m'.env.memory.allocation? a = some al := by
  obtain ⟨b, hal', -⟩ := (hm.evolves onward.later hb).persists hal
  obtain ⟨input, ds, path⟩ := hm
  obtain ⟨layout, made, -, owned, filled⟩ := path.owns (onward.later.inBounds hb)
  obtain ⟨new, none, owned', -⟩ := onward.later.owned owned filled layout hb
  obtain rfl := List.map_eq_nil_iff.mp none
  -- the variable is owned by the same declaration or block as before
  have lives : m'.env.memory.LivesAt a := by
    rw [owned'.live, List.append_nil, Environment.owned, onward.frames]
    exact (owned.live a).mp ⟨al, hal, live, kind⟩
  obtain ⟨al', found, live', -⟩ := lives
  obtain rfl := Option.some.inj (hal'.symm.trans found)
  rw [hal', show b = al.live from live'.trans live.symm]

theorem liveAt_onward (hm : Reached s m) (onward : Onward s m m') (hb : m'.env.memory.InBounds)
    {a : Address} {al : Allocation} (hal : m.env.memory.liveAt a = .ok al)
    (kind : al.struct? = none) : m'.env.memory.liveAt a = .ok al := by
  obtain ⟨found, hin, live⟩ := (hm.layout (onward.later.inBounds hb)).of_liveAt hal
  have found' := hm.variable_onward onward hb found live kind
  exact ((hm.path onward.later).layout hb).liveAt_eq_ok found' hin live

end Reached

/-! The places that expressions name -/

/-- How the place of an element is found: first the elements that can be reached, then the number, which
is one of theirs. All of them lie in one variable, the same before the number was found and after, and
the place lies in it too. -/
def Place.IsElement (s : Setting) (call : CallHandler) (array index : Expr) (pos : Position)
    (m : Machine) (p : Place) (m' : Machine) : Prop :=
  ∃ es m₁ v i al, Place.elements array (evalExpr s call array) pos m = .ok es m₁ ∧
    evalExpr s call index m₁ = .ok v m' ∧ v.toInt? = some i ∧
    0 ≤ i.toInt ∧ i.toInt.toNat < es.available ∧
    p.address.toNat = es.start.toNat + i.toInt.toNat ∧ p.type = al.slotType p.address ∧
    m₁.env.memory.liveAt es.start = .ok al ∧ m'.env.memory.liveAt es.start = .ok al ∧
    m'.env.memory.liveAt p.address = .ok al

section

variable (hs : s.Sensible) (hm : Reached s m) {e array index : Expr} {pos : Position} {p : Place}

include hs hm

theorem isElement_of_ok (hb : m'.env.memory.InBounds)
    (h : evalPlace s (s.handlerWithin n) (.index array index pos) m = .ok p m') :
    p.IsElement s (s.handlerWithin n) array index pos m m' := by
  obtain ⟨es, m₁, hes, h⟩ := bind_eq_ok h
  obtain ⟨v, m₂, hv, h⟩ := bind_eq_ok h
  obtain ⟨rfl, i, hi, nonneg, available, rfl⟩ := (Place.inspects_element es v pos).ok h
  obtain ⟨onward₁, live⟩ := elements_live hs hm hes
  have hm₁ := hm.path onward₁.later
  have onward₂ := evalExpr_onward hs hm₁ hv
  obtain ⟨al, hal, within⟩ := live (onward₂.later.inBounds hb)
  -- whatever the index did, the array is still there
  have hal' := hm₁.liveAt_onward onward₂ hb hal within.kind
  have layout := (hm₁.path onward₂.later).layout hb
  obtain ⟨found, -, lives⟩ := layout.of_liveAt hal'
  have ends := layout.ends hb found
  exact ⟨es, m₁, v, i, al, hes, hv, hi, nonneg, available, within.toNat_nth ends available,
    within.type_nth _, hal, hal', layout.liveAt_eq_ok found (within.contains_nth ends available) lives⟩

/-- An expression that names a place names one that lives, of the type of its slot; only what a pointer
points at can be a whole node. -/
theorem evalPlace_live (h : evalPlace s (s.handlerWithin n) e m = .ok p m') :
    p.Live m'.env.memory ∨ (∃ operand pos, e = .deref operand pos) ∧ p.LiveNode m'.env.memory := by
  have field {m₁ : Machine} {base : Address} {name : String} {pos : Position} (later : Later s m m₁)
      (h : Place.field s base name pos m₁ = .ok p m') : p.Live m'.env.memory := by
    obtain ⟨rfl, live⟩ := (Place.inspects_field (hm.path later).layout base name pos).ok h
    exact live
  cases e with
  | var name pos =>
    obtain ⟨rfl, live, -⟩ := (Place.inspects_variable hm name pos).ok h
    exact .inl live
  | index array index pos =>
    refine .inl fun hb => ?_
    obtain ⟨es, m₁, v, i, al, -, -, -, -, -, -, type, -, -, live⟩ := isElement_of_ok hs hm hb h
    exact ⟨al, live, type⟩
  | deref operand pos =>
    obtain ⟨v, m₁, -, h⟩ := bind_eq_ok h
    obtain ⟨rfl, live⟩ := (Place.inspects_behind v pos).ok h
    exact live.imp_right fun node => ⟨⟨operand, pos, rfl⟩, node⟩
  | field object name arrow pos =>
    cases arrow with
    | true =>
      obtain ⟨v, m₁, hv, h⟩ := bind_eq_ok h
      obtain ⟨base, m₂, hbase, hp⟩ := bind_eq_ok h
      obtain ⟨rfl, -⟩ := (inspects_requirePointer v pos).ok hbase
      exact .inl (field (evalExpr_onward hs hm hv).later hp)
    | false =>
      obtain ⟨q, m₁, hq, h⟩ := bind_eq_ok h
      obtain ⟨base, m₂, hbase, hp⟩ := bind_eq_ok h
      obtain ⟨rfl, -⟩ := (q.inspects_requireStruct pos).ok hbase
      exact .inl (field (evalPlace_onward hs hm hq).later hp)
  | _ => cases h

end

/-! Pieces that use addresses -/

namespace Run

variable {x : Run α} {g : α → Run β} {f : Fault}

/-- The piece, begun in one state, halts in another at an address that cannot be used. -/
def Strays (x : Run α) (m : Machine) (f : Fault) (m' : Machine) : Prop :=
  x m = .error (.fault f) m' ∧ f.cause.kind = .nullDereference

theorem Strays.of_bind (h : Strays (x >>= g) m f m') :
    Strays x m f m' ∨ ∃ a m₁, x m = .ok a m₁ ∧ Strays (g a) m₁ f m' := by
  obtain ⟨h, kind⟩ := h
  cases hx : x m with
  | ok a m₁ => exact .inr ⟨a, m₁, rfl, (bind_ok hx).symm.trans h, kind⟩
  | error e m₁ =>
    rw [bind_error hx] at h
    cases h
    exact .inl ⟨hx, kind⟩

def Safe (x : Run α) (m : Machine) : Prop := ∀ f m', Strays x m f m' → ¬ m'.env.memory.InBounds

theorem Safe.bind (hx : Safe x m) (hg : ∀ a m₁, x m = .ok a m₁ → Safe (g a) m₁) :
    Safe (x >>= g) m := by
  intro f m' h
  obtain h | ⟨a, m₁, ha, h⟩ := h.of_bind
  · exact hx f m' h
  · exact hg a m₁ ha f m' h

theorem Safe.look {P : α → Prop} (hx : Safe x m) (looks : Inspects x m P)
    (hg : ∀ a, P a → Safe (g a) m) : Safe (x >>= g) m := by
  refine hx.bind fun a m₁ ha => ?_
  obtain ⟨rfl, h⟩ := looks.ok ha
  exact hg a h

theorem Safe.assured (hx : Safe x m) : Safe (assured x) m := by
  rintro f m' ⟨h, kind⟩
  obtain ⟨f', failed, rfl⟩ := assured_eq_fault h
  exact hx f' m' ⟨failed, kind⟩

theorem safe_pure (a : α) : Safe (pure a) m := fun _ _ h => nomatch h.1

theorem safe_fail {cause : Fault.Cause} (h : cause.kind ≠ .nullDereference) (pos : Position) :
    Safe (fail cause pos : Run α) m := by
  rintro f m' ⟨heq, kind⟩
  cases heq
  exact (h kind).elim

/-- Where addresses have run out, a fault may be at any of them. -/
theorem safe_fail_of_full (h : ¬ m.env.memory.InBounds) (cause : Fault.Cause) (pos : Position) :
    Safe (fail cause pos : Run α) m := by
  rintro f m' ⟨heq, -⟩
  cases heq
  exact h

theorem safe_environment : Safe environment m := fun _ _ h => nomatch h.1

theorem safe_ofCause {r : Except Fault.Cause α} (h : ∀ c, r = .error c → c.kind ≠ .nullDereference)
    (pos : Position) : Safe (ofCause pos r) m := by
  cases r with
  | ok a => exact safe_pure a
  | error c => exact safe_fail (h c rfl) pos

end Run

/-- No operator reports a bad address. -/
theorem Arith.kind_of_eval {op : Arith} {l r : Value} {c : Fault.Cause} (h : op.eval l r = .error c) :
    c.kind ≠ .nullDereference := by
  obtain ⟨v, hv, -⟩ | ⟨c', hc, kind⟩ := op.eval_spec l r
  · exact nomatch hv.symm.trans h
  · obtain rfl := Except.error.inj (hc.symm.trans h)
    rcases kind with kind | kind
    · rw [kind]
      decide
    · rw [kind]
      decide

theorem safe_convertTo (t : CType) (v : Value) (pos : Position) : Safe (convertTo t v pos) m := by
  unfold convertTo
  split
  · exact safe_pure _
  · exact safe_fail (by simp [Fault.Cause.kind]) pos

theorem safe_storeSlot {a : Address} (h : m.env.memory.InBounds → ∃ al, m.env.memory.liveAt a = .ok al)
    (v : Value) (pos : Position) : Safe (storeSlot a v pos) m := by
  refine safe_environment.look inspects_environment ?_
  rintro env rfl
  split
  · exact fun _ _ h => nomatch h.1
  · rename_i fault written
    refine safe_fail_of_full (fun hb => ?_) _ pos
    obtain ⟨al, hal⟩ := h hb
    rw [Memory.write, hal] at written
    exact nomatch written

namespace Place

def Occupied (mem : Memory) (p : Place) : Prop := mem.InBounds → ∃ al, mem.liveAt p.address = .ok al

variable {p : Place} (h : p.Occupied m.env.memory)

include h

theorem safe_read (e : Expr) : Safe (p.read e) m := by
  unfold read
  split
  · exact safe_pure _
  · refine safe_environment.look inspects_environment ?_
    rintro env rfl
    split
    · rename_i fault found
      refine safe_fail_of_full (fun hb => ?_) _ e.pos
      obtain ⟨al, hal⟩ := h hb
      rw [Memory.read, hal] at found
      exact nomatch found
    · split
      · exact safe_pure _
      · exact safe_fail (by simp [Fault.Cause.kind]) e.pos

theorem safe_readScalar (e : Expr) : Safe (p.readScalar e) m := by
  unfold readScalar
  split
  · exact safe_fail (by simp [Fault.Cause.kind]) e.pos
  · exact safe_read h e

theorem safe_write (v : Value) (pos : Position) : Safe (p.write v pos) m := by
  unfold write
  split
  · exact safe_fail (by simp [Fault.Cause.kind]) pos
  · exact (safe_convertTo p.type v pos).look (inspects_convertTo p.type v pos) fun w _ =>
      (safe_storeSlot h w pos).bind fun _ _ _ => safe_pure w

/-- Reading, applying an operator and storing the result. -/
theorem safe_update (e : Expr) (op : Arith) (v : Value) (pos : Position) {g : Value → Value → Run β}
    (hg : ∀ old new, Safe (g old new) m) : Safe (do
      let old ← p.read e
      let new ← ofCause pos (op.eval old v)
      g old new) m :=
  (safe_read h e).look (p.inspects_read e) fun old _ =>
    (safe_ofCause (fun _ => Arith.kind_of_eval) pos).look (inspects_ofCause pos _) fun new _ => hg old new

theorem safe_stepPlace (op : StepOp) (operand : Expr) (pos : Position) :
    Safe (stepPlace op p operand pos) m :=
  safe_update h operand op.arith (.int 1) pos fun _ new =>
    (safe_write h new pos).bind fun _ _ _ => safe_pure _

end Place

/-! The values of a new array -/

theorem safe_storeRun (pos : Position) {a : Address} {vs : List Value}
    (h : m.env.memory.InBounds → ∀ i < vs.length,
      ∃ al, m.env.memory.liveAt (a + UInt64.ofNat i) = .ok al) : Safe (storeRun pos a vs) m := by
  induction vs generalizing a m with
  | nil => exact safe_pure ()
  | cons v vs ih =>
    have first : Safe (storeSlot a v pos) m := by
      refine safe_storeSlot (fun hb => ?_) v pos
      simpa using h hb 0 (Nat.zero_lt_succ _)
    refine first.assured.bind fun _ m₁ stored => ?_
    obtain rfl := storeSlot_eq_ok (assured_eq_ok.mp stored)
    refine ih fun hb i hi => ?_
    -- a stored value moves no allocation
    have next : a + 1 + UInt64.ofNat i = a + UInt64.ofNat (i + 1) := by
      rw [UInt64.add_assoc, UInt64.add_comm 1, UInt64.ofNat_add]
      rfl
    rw [next]
    exact h ⟨hb.stack, hb.heap⟩ (i + 1) (Nat.succ_lt_succ hi)

theorem safe_declareArray (hm : Reached s m) (name : String) (elem : CType) {size : Nat} (fill : Value)
    {values : List Value} (room : values.length ≤ size) (pos : Position) :
    Safe (declareArray name elem size fill values pos) m := by
  refine safe_environment.look inspects_environment ?_
  rintro env rfl
  have changed (g : Environment → Environment) {m : Machine} : Safe (changeEnvironment g) m :=
    fun _ _ h => nomatch h.1
  refine (changed _).bind fun _ m₁ hm₁ => ?_
  cases hm₁
  refine Safe.bind (safe_storeRun pos fun hb i hi => ?_) fun _ _ _ => changed _
  let al : Allocation := ⟨UInt64.ofNat m.env.memory.nextStack, size, .array, elem, true⟩
  have layout := hm.layout ⟨Nat.le_trans (Nat.le_add_right _ _) hb.stack, hb.heap⟩
  have spaced := layout.toSpaced.allocate hb
  have found : (m.env.memory.allocate .array elem size fill).2.allocation? al.base = some al :=
    (Memory.allocation?_enter _ al fill _).trans (if_pos rfl)
  have within : Place.Elements.Within ⟨al.base, elem, size⟩ al :=
    ⟨rfl, rfl, Nat.le_refl _, Nat.le_refl _⟩
  exact ⟨al, spaced.liveAt_eq_ok found
    (within.contains_nth (spaced.ends hb found) (Nat.lt_of_lt_of_le hi room)) rfl⟩

/-! What strays -/

section

variable {call : CallHandler} {f : Fault} {e target value : Expr} {pos : Position}

/-- A place that was found is occupied. -/
theorem occupied_of_ok (hs : s.Sensible) (hm : Reached s m) {p : Place}
    (h : evalPlace s (s.handlerWithin n) e m = .ok p m') : p.Occupied m'.env.memory := by
  intro hb
  obtain live | ⟨-, al, hal, -⟩ := evalPlace_live hs hm h
  · exact (live hb).imp fun _ hal => hal.1
  · exact ⟨al, hal⟩

/-- When a place is found and then used by a piece that is safe with it, only the finding can stray. -/
theorem strays_of_use (hs : s.Sensible) (hm : Reached s m) {use : Place → Run α}
    (safe : ∀ p m₁, p.Occupied m₁.env.memory → Safe (use p) m₁) (hb : m'.env.memory.InBounds)
    (h : Strays (evalPlace s (s.handlerWithin n) e >>= use) m f m') :
    Strays (evalPlace s (s.handlerWithin n) e) m f m' := by
  obtain h | ⟨p, m₁, hp, h⟩ := h.of_bind
  · exact h
  · exact (safe p m₁ (occupied_of_ok hs hm hp) f m' h hb).elim

theorem assign_strays (hs : s.Sensible) (hm : Reached s m) {op : Option Arith}
    (hb : m'.env.memory.InBounds)
    (h : Strays (assign s (s.handlerWithin n) target op value pos) m f m') :
    Strays (evalOperand s (s.handlerWithin n) value) m f m' ∨
      ∃ v m₁, evalOperand s (s.handlerWithin n) value m = .ok v m₁ ∧
        Strays (evalPlace s (s.handlerWithin n) target) m₁ f m' := by
  obtain h | ⟨v, m₁, hv, h⟩ := h.of_bind
  · exact .inl h
  · have hm₁ := hm.path ((evalOperand_balanced (calls_handlerWithin hs n) value m hm).ok hv).1
    refine .inr ⟨v, m₁, hv, strays_of_use hs hm₁ (fun p m₂ occupied => ?_) hb h⟩
    cases op with
    | none => exact Place.safe_write occupied v pos
    | some op => exact Place.safe_update occupied target op v pos fun _ new =>
        Place.safe_write occupied new pos

theorem declare_strays (hs : s.Sensible) (hm : Reached s m) {name : String} {elem : CType} {size : Nat}
    {init : Option (List Expr)} (sensible : (Decl.array name elem size init pos).Sensible)
    (hb : m'.env.memory.InBounds)
    (h : Strays (declare s (s.handlerWithin n) (.array name elem size init pos)) m f m') :
    Strays (evalItems s (s.handlerWithin n) elem pos (init.getD [])) m f m' := by
  obtain h | ⟨isGlobal, m₁, hg, rest⟩ := h.of_bind
  · exact nomatch h.1
  obtain ⟨rfl, -⟩ := inspects_atFileScope.ok hg
  obtain h | ⟨values, m₂, hv, rest⟩ := rest.of_bind
  · exact h
  have found := (evalItems_balanced (calls_handlerWithin hs n) elem pos _ _ hm).ok hv
  have room : values.length ≤ size := found.2.2.1 ▸ sensible.2.2
  obtain h | ⟨-, m₃, -, rest⟩ := rest.of_bind
  · exact (safe_declareArray (hm.path found.1) name elem _ room pos f m' h hb).elim
  · exact nomatch rest.1

end

/-- What is promised of places in a state of a run, as long as addresses have not run out. -/
structure PlacesValid (s : Setting) (call : CallHandler) (m : Machine) : Prop where
  /-- A place that was found lies in an allocation that lives and has the type of its slot, or is the
  whole of the node that a pointer points at. -/
  place : ∀ e p m', evalPlace s call e m = .ok p m' → m'.env.memory.InBounds → Reached s m' ∧
    ∃ al, m'.env.memory.liveAt p.address = .ok al ∧ (p.type = al.slotType p.address ∨
      (∃ operand pos, e = .deref operand pos) ∧ al.base = p.address ∧
        ∃ struct fields, al.kind = .node struct fields ∧ p.type = ⟨.struct struct, 0⟩)
  element : ∀ array index pos p m', evalPlace s call (.index array index pos) m = .ok p m' →
    m'.env.memory.InBounds → p.IsElement s call array index pos m m'
  /-- If the value of a place strays, the place was not found. -/
  value : ∀ e f m', e.isPlace → Strays (evalExpr s call e) m f m' → m'.env.memory.InBounds →
    Strays (evalPlace s call e) m f m'
  step : ∀ op e pos f m', Strays (evalExpr s call (.step op e pos)) m f m' →
    m'.env.memory.InBounds → Strays (evalPlace s call e) m f m'
  update : ∀ op e pos f m', Strays (describeEffect s call (.step op e pos)) m f m' →
    m'.env.memory.InBounds → Strays (evalPlace s call e) m f m'
  /-- If an assignment strays, its value or its place was not found. -/
  assign : ∀ target op value pos f m', Strays (assign s call target op value pos) m f m' →
    m'.env.memory.InBounds → Strays (evalOperand s call value) m f m' ∨
      ∃ v m₁, evalOperand s call value m = .ok v m₁ ∧ Strays (evalPlace s call target) m₁ f m'
  /-- If the declaration of an array strays, one of its values was not found. -/
  array : ∀ name elem size init pos f m', (Decl.array name elem size init pos).Sensible →
    Strays (declare s call (.array name elem size init pos)) m f m' → m'.env.memory.InBounds →
    Strays (evalItems s call elem pos (init.getD [])) m f m'

theorem Reached.placesValid (hs : s.Sensible) (hm : Reached s m) (n : Nat) :
    PlacesValid s (s.handlerWithin n) m where
  place e p m' h hb := by
    have hm' := hm.path (evalPlace_onward hs hm h).later
    refine ⟨hm', ?_⟩
    obtain live | ⟨deref, al, hal, start, type, struct, fields, hk⟩ := evalPlace_live hs hm h
    · exact (live hb).imp fun _ hal => ⟨hal.1, .inl hal.2⟩
    · obtain ⟨found, -, -⟩ := (hm'.layout hb).of_liveAt hal
      have named := (((hm'.layout hb).formed found).node hk).2.1
      exact ⟨al, hal, .inr ⟨deref, start, struct, fields, hk, type.trans named⟩⟩
  element array index pos p m' h hb := isElement_of_ok hs hm hb h
  value e f m' he h hb := by
    rw [evalExpr_of_isPlace s _ he] at h
    exact strays_of_use hs hm (fun p _ occupied => Place.safe_readScalar occupied e) hb h
  step op e pos f m' h hb :=
    strays_of_use hs hm (fun p _ occupied => (Place.safe_stepPlace occupied op e pos).bind
      fun _ _ _ => safe_pure _) hb h
  update op e pos f m' h hb :=
    strays_of_use hs hm (fun p _ occupied => (Place.safe_stepPlace occupied op e pos).bind
      fun _ _ _ => safe_pure _) hb h
  assign target op value pos f m' h hb := assign_strays hs hm hb h
  array name elem size init pos f m' sensible h hb := declare_strays hs hm sensible hb h

/-- Places are valid when they are used. In every state that a run of an accepted program can be in, those
of its steps among them: what an expression names when it is evaluated is a place that lives, whatever its
parts did, and what reads or stores there at once does not find a bad address. -/
theorem places_valid {source : String} {p : Program} (accepted : Program.parse source = .ok p)
    (limits : Limits) (cancelled : Bool) :
    let s := Setting.ofProgram p source limits cancelled
    (∀ input, ∀ x ∈ (p.run s input).1, ∃ m, m.env = x.env ∧ Reached s m) ∧
    ∀ m n, Reached s m → PlacesValid s (s.handlerWithin n) m := by
  intro s
  constructor
  · intro input x hx
    obtain ⟨ds, m, -, env, path⟩ := p.run_moment accepted hx
    exact ⟨m, env, input, ds, path⟩
  · intro m n hm
    exact hm.placesValid (p.sensible_functions accepted limits cancelled) n

/-- The index of an element frees a node. The element is found all the same; but as the second target of
a read, it takes the slot of the first away before anything is stored, and the read strays. -/
theorem places_valid_freed :
    let source := "struct N \x7b int v; \x7d; struct N *g = malloc(sizeof(struct N)); int a[2]; " ++
      "int drop(struct N *p) \x7b int k = 1; free(p); return k; \x7d int main() \x7b return 0; \x7d"
    let pos : Position := ⟨1, 1⟩
    let array : Expr := .var "a" pos
    let index : Expr := .call "drop" [.var "g" pos] pos
    let targets : List Expr := [.field (.var "g" pos) "v" true pos, .index array index pos]
    ∃ p, Program.parse source = .ok p ∧
      let s := Setting.ofProgram p source ⟨100, 9, 99999⟩ false
      let call := s.handlerWithin 3
      ∃ m, Reached s m ∧
        (∃ place m', evalPlace s call (.index array index pos) m = .ok place m' ∧
          m'.env.memory.InBounds ∧ place.IsElement s call array index pos m m') ∧
        ∃ places m₁ f m', evalPlaces s call targets m = .ok places m₁ ∧
          Strays (readFormatted "%d %d" targets places pos) m₁ f m' ∧ m'.env.memory.InBounds := by
  intro source pos array index targets
  have facts : (Program.parse source).toOption.any (fun p =>
      let s := Setting.ofProgram p source ⟨100, 9, 99999⟩ false
      let call := s.handlerWithin 3
      Ensures (runGlobals s p.globals) (.start "1 2") (fun _ m =>
        Ensures (evalPlace s call (.index array index pos)) m
          (fun _ m' => m'.env.memory.InBounds) (fun _ _ => False) ∧
        Ensures (evalPlaces s call targets) m (fun places m₁ =>
          Ensures (readFormatted "%d %d" targets places pos) m₁ (fun _ _ => False)
            fun e m' => e = .fault ⟨.dangling Memory.heapStart, pos⟩ ∧ m'.env.memory.InBounds)
          (fun _ _ => False)) (fun _ _ => False)) = true := by decide +kernel
  obtain ⟨p, accepted, facts⟩ := Program.exists_of_any facts
  obtain ⟨⟨⟩, m, globals, found, read⟩ := (of_decide_eq_true facts).exists_ok
  obtain ⟨place, m', hp, bounds⟩ := found.exists_ok
  obtain ⟨places, m₁, hps, stored⟩ := read.exists_ok
  obtain ⟨e, m₂, stray, rfl, bounds₂⟩ := stored.exists_error
  have sensible := p.sensible_functions accepted ⟨100, 9, 99999⟩ false
  have reached : Reached (Setting.ofProgram p source ⟨100, 9, 99999⟩ false) m :=
    (Reached.start "1 2").path ((runGlobals_follows sensible (p.sensible_globals accepted) rfl
      (.start "1 2")).ok globals).1
  have valid := (places_valid accepted ⟨100, 9, 99999⟩ false).2 m 3 reached
  exact ⟨p, accepted, m, reached, ⟨place, m', hp, bounds, valid.element _ _ _ _ _ hp bounds⟩,
    places, m₁, _, m₂, hps, ⟨stray, rfl⟩, bounds₂⟩

end Stepwise
