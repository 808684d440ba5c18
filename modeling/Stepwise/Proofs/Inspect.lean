import Stepwise.Proofs.Store

/-! Pieces of a run that only look at the state. Most of all they form places, and what they look at
tells where a place lies: in an allocation whose slot there has the type of the place. That stays so
whatever happens later, since allocations stay what they are. -/

namespace Stepwise

variable {α β : Type}

namespace Value

theorem convert_fits {v w : Value} {t : CType} (hv : v.isDefined) (h : v.convert t = some w) :
    w.isDefined ∧ w.Fits t := by
  obtain ⟨base, depth⟩ := t
  cases depth with
  | succ depth =>
    have pointer : CType.isPointer ⟨base, depth + 1⟩ = true := decide_eq_true (Nat.succ_pos depth)
    cases v with
    | undefined => exact nomatch hv
    | address a =>
      simp only [convert, if_pos pointer] at h
      obtain rfl := Option.some.inj h
      exact ⟨rfl, pointer⟩
    | int n =>
      simp only [convert, if_pos pointer] at h
      split at h
      · obtain rfl := Option.some.inj h
        exact ⟨rfl, pointer⟩
      · exact nomatch h
    | _ =>
      simp only [convert, if_pos pointer] at h
      exact nomatch h
  | zero =>
    cases base <;> cases v <;>
      simp [convert, CType.isPointer, toInt?, toFloat?, isDefined] at h hv <;> subst h <;>
      simp [isDefined, Fits]

theorem fits_of_convert {v w : Value} {t : CType} (h : v.convert t = some w) : w.Fits t := by
  cases v with
  | undefined =>
    cases h
    trivial
  | _ => exact (convert_fits rfl h).2

theorem convert_struct {v : Value} {t : CType} (hv : v.isDefined) (ht : t.isStruct) :
    v.convert t = none := by
  obtain ⟨base, depth⟩ := t
  cases base with
  | struct name =>
    have depth : depth = 0 := by simpa [CType.isStruct, CType.structName?, CType.isPointer] using ht
    subst depth
    cases v with
    | undefined => exact nomatch hv
    | _ => rfl
  | _ => exact nomatch ht

end Value

namespace Arith

theorem onInts_spec (op : Arith) (a b : Int32) : (∃ n, op.onInts a b = .ok n) ∨
    ∃ c, op.onInts a b = .error c ∧ c.kind = .divisionByZero := by
  cases op with
  | div | mod =>
    unfold onInts
    dsimp only
    split
    · exact .inr ⟨_, rfl, rfl⟩
    · exact .inl ⟨_, rfl⟩
  | _ => exact .inl ⟨_, rfl⟩

theorem onFloats?_spec {op : Arith} {a b : Float} {r : Except Fault.Cause Float}
    (h : op.onFloats? a b = some r) : (∃ x, r = .ok x) ∨ ∃ c, r = .error c ∧ c.kind = .divisionByZero := by
  unfold onFloats? at h
  cases op with
  | div =>
    dsimp only at h
    split at h
    · exact .inr ⟨_, (Option.some.inj h).symm, rfl⟩
    · exact .inl ⟨_, (Option.some.inj h).symm⟩
  | mod => exact nomatch h
  | _ => exact .inl ⟨_, (Option.some.inj h).symm⟩

/-- An operator gives a value, or reports a zero divisor or operands that it is not for. -/
theorem eval_spec (op : Arith) (l r : Value) : (∃ v, op.eval l r = .ok v ∧ v.isDefined) ∨
    ∃ c, op.eval l r = .error c ∧ (c.kind = .divisionByZero ∨ c.kind = .typeMismatch) := by
  unfold eval
  dsimp only
  split
  · split
    · exact .inl ⟨_, rfl, rfl⟩
    · exact .inr ⟨_, rfl, .inr rfl⟩
  · split
    · exact .inl ⟨_, rfl, rfl⟩
    · exact .inl ⟨_, rfl, rfl⟩
    · exact .inr ⟨_, rfl, .inr rfl⟩
  · split
    · exact .inl ⟨_, rfl, rfl⟩
    · exact .inr ⟨_, rfl, .inr rfl⟩
  · split
    · rename_i a b _ _
      obtain ⟨n, hn⟩ | ⟨c, hc, kind⟩ := op.onInts_spec a b
      · rw [hn]
        exact .inl ⟨_, rfl, rfl⟩
      · rw [hc]
        exact .inr ⟨_, rfl, .inl kind⟩
    · split
      · split
        · obtain ⟨x, rfl⟩ | ⟨c, rfl, kind⟩ := onFloats?_spec ‹_›
          · exact .inl ⟨_, rfl, rfl⟩
          · exact .inr ⟨_, rfl, .inl kind⟩
        · exact .inr ⟨_, rfl, .inr rfl⟩
      · exact .inr ⟨_, rfl, .inr rfl⟩

theorem eval_isDefined {op : Arith} {l r v : Value} (h : op.eval l r = .ok v) : v.isDefined := by
  obtain ⟨w, hw, defined⟩ | ⟨c, hc, -⟩ := op.eval_spec l r
  · obtain rfl := Except.ok.inj (hw.symm.trans h)
    exact defined
  · exact nomatch hc.symm.trans h

end Arith

namespace Format

theorem Conversion.read_isDefined {c : Conversion} {input rest : List Char} {v : Value}
    (h : c.read input = .ok (some (v, rest))) : v.isDefined := by
  cases c with
  | char =>
    cases input with
    | nil => exact nomatch h
    | cons x more =>
      cases h
      rfl
  | pointer => exact nomatch h
  | _ =>
    obtain ⟨x, -, hx⟩ := Option.map_eq_some_iff.mp (Except.ok.inj h)
    cases hx
    rfl

theorem readAll_isDefined (cs : List Conversion) (input : List Char) (vs : List Value)
    (h : (readAll cs input).1 = .ok vs) : ∀ v ∈ vs, v.isDefined := by
  induction cs generalizing input vs with
  | nil =>
    cases h
    nofun
  | cons c cs ih =>
    unfold readAll at h
    split at h
    · cases h
      nofun
    · split at h
      · exact nomatch h
      · cases h
        nofun
      · rename_i v rest hv
        dsimp only at h
        cases hr : (readAll cs rest).1 with
        | error e =>
          rw [hr] at h
          exact nomatch h
        | ok more =>
          rw [hr] at h
          cases h
          exact List.forall_mem_cons.mpr ⟨Conversion.read_isDefined hv, ih rest more hr⟩

theorem scan_isDefined {format : String} {input : List Char} {found : Scan}
    (h : (scan format input).1 = .ok found) : ∀ v ∈ found.values, v.isDefined := by
  unfold scan at h
  split at h
  · exact nomatch h
  · rename_i ps _
    dsimp only at h
    cases hr : (readAll ((directives ps).map (·.conversion)) input).1 with
    | error e =>
      rw [hr] at h
      exact nomatch h
    | ok vs =>
      rw [hr] at h
      cases h
      exact readAll_isDefined _ _ _ hr

end Format

namespace Run

variable {x : Run α} {f : α → Run β} {m : Machine} {Q : α → Prop} {R : β → Prop}

/-- A piece that leaves the state as it is; `Q` holds of what it finds. -/
def Inspects (x : Run α) (m : Machine) (Q : α → Prop) : Prop :=
  Ensures x m (fun a m' => m' = m ∧ Q a) (fun _ m' => m' = m)

theorem Inspects.bind (hx : Inspects x m Q) (hf : ∀ a, Q a → Inspects (f a) m R) :
    Inspects (x >>= f) m R := by
  refine Ensures.bind (Ensures.mono hx ?_ fun _ _ hm => hm)
  rintro a m' ⟨rfl, ha⟩
  exact hf a ha

theorem Inspects.mono {Q' : α → Prop} (hx : Inspects x m Q) (h : ∀ a, Q a → Q' a) :
    Inspects x m Q' :=
  Ensures.mono hx (fun a _ hq => ⟨hq.1, h a hq.2⟩) fun _ _ hm => hm

theorem inspects_pure {a : α} (h : Q a) : Inspects (pure a) m Q := ⟨rfl, h⟩

theorem inspects_fail (cause : Fault.Cause) (pos : Position) : Inspects (fail cause pos) m Q := rfl

theorem inspects_get : Inspects get m (· = m) := ⟨rfl, rfl⟩

theorem inspects_environment : Inspects environment m (· = m.env) := ⟨rfl, rfl⟩

theorem inspects_ofFault (r : Except Fault α) : Inspects (ofFault r) m (r = .ok ·) := by
  cases r with
  | ok a => exact inspects_pure rfl
  | error f => exact inspects_fail f.cause f.pos

theorem inspects_ofCause (pos : Position) (r : Except Fault.Cause α) :
    Inspects (ofCause pos r) m (r = .ok ·) := by
  cases r with
  | ok a => exact inspects_pure rfl
  | error cause => exact inspects_fail cause pos

theorem inspects_ofFormat (pos : Position) (r : Except Format.Error α) :
    Inspects (ofFormat pos r) m (r = .ok ·) := by
  cases r with
  | ok a => exact inspects_pure rfl
  | error e => exact inspects_fail _ pos

end Run

open Run

variable {m : Machine}

theorem inspects_requireDefined (v : Value) (e : Expr) :
    Inspects (requireDefined v e) m (fun w => w = v ∧ v.isDefined) := by
  unfold requireDefined
  split
  · exact inspects_pure ⟨rfl, ‹_›⟩
  · exact inspects_fail _ _

theorem inspects_convertTo (t : CType) (v : Value) (pos : Position) :
    Inspects (convertTo t v pos) m (v.convert t = some ·) := by
  unfold convertTo
  split
  · exact inspects_pure ‹_›
  · exact inspects_fail _ _

theorem inspects_requirePointer (v : Value) (pos : Position) :
    Inspects (requirePointer v pos) m (v = .address ·) := by
  unfold requirePointer
  split
  · exact inspects_pure rfl
  · exact inspects_fail _ _

theorem inspects_liveAllocation (a : Address) (pos : Position) :
    Inspects (liveAllocation a pos) m (m.env.memory.liveAt a = .ok ·) := by
  refine inspects_environment.bind ?_
  rintro env rfl
  split
  · exact inspects_pure ‹_›
  · exact inspects_fail _ _

theorem inspects_atFileScope : Inspects atFileScope m (· = m.env.frames.isEmpty) :=
  inspects_environment.bind fun _ h => inspects_pure (h ▸ rfl)

theorem Environment.variable_eq_ok {env : Environment} {name : String} {pos : Position}
    {al : Allocation} (h : env.variable name pos = .ok al) :
    ∃ a scope, env.lookup? name = some (a, scope) ∧ env.memory.allocation? a = some al := by
  unfold Environment.variable at h
  split at h
  · exact nomatch h
  · split at h
    · exact nomatch h
    · cases h
      exact ⟨_, _, ‹_›, ‹_›⟩

/-! What the pieces that form places find -/

namespace Place

/-- The type of a place is that of the slot it names, in an allocation that lives. -/
def Live (mem : Memory) (p : Place) : Prop :=
  mem.InBounds → ∃ al, mem.liveAt p.address = .ok al ∧ p.type = al.slotType p.address

def LiveNode (mem : Memory) (p : Place) : Prop :=
  ∃ al, mem.liveAt p.address = .ok al ∧ al.base = p.address ∧ p.type = al.type ∧
    ∃ struct fields, al.kind = .node struct fields

/-- All elements that can be reached lie in one variable, and have its type. -/
structure Elements.Within (es : Elements) (al : Allocation) : Prop where
  kind : al.struct? = none
  type : es.type = al.type
  below : al.base.toNat ≤ es.start.toNat
  above : es.start.toNat + es.available ≤ al.base.toNat + al.len

def Elements.Live (mem : Memory) (es : Elements) : Prop :=
  mem.InBounds → ∃ al, mem.liveAt es.start = .ok al ∧ es.Within al

def Elements.nth (es : Elements) (i : Nat) : Place := slot (es.start + UInt64.ofNat i) es.type

variable {structs : Structs} {mem mem' : Memory} {al : Allocation}

theorem struct?_of_kind (h : ∀ struct fields, al.kind ≠ .node struct fields) : al.struct? = none := by
  unfold Allocation.struct?
  split
  · exact (h _ _ ‹_›).elim
  · rfl

theorem slotType_of_struct? (h : al.struct? = none) (a : Address) : al.slotType a = al.type := by
  unfold Allocation.struct? at h
  unfold Allocation.slotType
  split
  · rename_i hk
    rw [hk] at h
    exact nomatch h
  · rfl

theorem Elements.Within.toNat_nth {es : Elements} (h : es.Within al)
    (ends : al.base.toNat + al.len ≤ UInt64.size) {i : Nat} (hi : i < es.available) :
    (es.nth i).address.toNat = es.start.toNat + i := by
  have above := h.above
  exact toNat_add_ofNat (by omega)

theorem Elements.Within.contains_nth {es : Elements} (h : es.Within al)
    (ends : al.base.toNat + al.len ≤ UInt64.size) {i : Nat} (hi : i < es.available) :
    al.contains (es.nth i).address := by
  have below := h.below
  have above := h.above
  rw [Allocation.contains_iff, h.toNat_nth ends hi]
  omega

theorem Elements.Within.type_nth {es : Elements} (h : es.Within al) (i : Nat) :
    (es.nth i).type = al.slotType (es.nth i).address :=
  h.type.trans (slotType_of_struct? h.kind _).symm

theorem inspects_ofName (name : String) (pos : Position) : Inspects (ofName name pos) m fun p =>
    ∃ al, m.env.variable name pos = .ok al ∧ p = ⟨al.base, al.type, al.arrayLen⟩ := by
  refine inspects_environment.bind ?_
  rintro env rfl
  exact (inspects_ofFault _).bind fun al hal => inspects_pure ⟨al, hal, rfl⟩

/-- A variable that is an array is its elements. -/
theorem within_array (kind : al.struct? = none) {len : Nat} (h : al.arrayLen = some len) :
    Elements.Within ⟨al.base, al.type, len⟩ al := by
  unfold Allocation.arrayLen at h
  split at h
  · cases h
    exact ⟨kind, rfl, Nat.le_refl _, Nat.le_refl _⟩
  · exact nomatch h

theorem inspects_elementsBehind (hl : m.env.memory.InBounds → m.env.memory.Spaced) (v : Value)
    (pos : Position) : Inspects (elementsBehind v pos) m (·.Live m.env.memory) := by
  refine (inspects_requirePointer v pos).bind fun start _ =>
    (inspects_liveAllocation start pos).bind fun al hal => ?_
  split
  · exact inspects_fail _ _
  · rename_i hk
    refine inspects_pure fun hb => ⟨al, hal, ?_⟩
    have node := struct?_of_kind hk
    obtain ⟨-, hin, -⟩ := (hl hb).of_liveAt hal
    have inside := Allocation.contains_iff.mp hin
    exact ⟨node, slotType_of_struct? node _, inside.1, by dsimp only; omega⟩

theorem inspects_element (es : Elements) (index : Value) (pos : Position) :
    Inspects (element es index pos) m fun p => ∃ i, index.toInt? = some i ∧ 0 ≤ i.toInt ∧
      i.toInt.toNat < es.available ∧ p = es.nth i.toInt.toNat := by
  unfold element
  split
  · exact inspects_fail _ _
  · rename_i i hi
    split
    · exact inspects_fail _ _
    · exact inspects_pure ⟨i, hi, by omega, by omega, rfl⟩

theorem inspects_behind (v : Value) (pos : Position) : Inspects (behind v pos) m fun p =>
    p.Live m.env.memory ∨ p.LiveNode m.env.memory := by
  refine (inspects_requirePointer v pos).bind fun target _ =>
    (inspects_liveAllocation target pos).bind fun al hal => inspects_pure ?_
  split
  · rename_i hk
    split
    · exact .inr ⟨al, hal, ‹_›, rfl, _, _, hk⟩
    · exact .inl fun _ => ⟨al, hal, rfl⟩
  · exact .inl fun _ => ⟨al, hal, rfl⟩

theorem inspects_requireStruct (p : Place) (pos : Position) :
    Inspects (requireStruct p pos) m fun _ => True := by
  unfold requireStruct
  split
  · exact inspects_pure trivial
  · exact inspects_fail _ _

theorem inspects_field {s : Setting}
    (hl : m.env.memory.InBounds → Memory.Layout s.structs m.env.memory) (base : Address)
    (name : String) (pos : Position) :
    Inspects (field s base name pos) m (·.Live m.env.memory) := by
  refine (inspects_liveAllocation base pos).bind fun al hal => ?_
  split
  · rename_i struct fields hk
    split
    · rename_i hbase
      split
      · exact inspects_fail _ _
      · rename_i d hd
        split
        · exact inspects_fail _ _
        · rename_i i hi
          refine inspects_pure fun hb => ?_
          obtain ⟨found, hin, live⟩ := (hl hb).of_liveAt hal
          obtain ⟨hlen, -, d', hd', hfields⟩ := ((hl hb).formed found).node hk
          obtain rfl := Option.some.inj (hd.symm.trans hd')
          have number : i < al.len := by
            rw [hlen, hfields, List.length_map]
            exact (List.findIdx?_eq_some_iff_findIdx_eq.mp hi).1
          have ends := (hl hb).ends hb found
          have address : (base + UInt64.ofNat i).toNat = al.base.toNat + i := by
            rw [toNat_add_ofNat (by rw [← hbase]; omega), hbase]
          have inside : al.contains (base + UInt64.ofNat i) := by
            rw [Allocation.contains_iff, address]
            omega
          have back : (base + UInt64.ofNat i - al.base).toNat = i := by
            rw [UInt64.toNat_sub_of_le _ _ (UInt64.le_iff_toNat_le.mpr (by omega)), address]
            omega
          refine ⟨al, (hl hb).liveAt_eq_ok found inside live, ?_⟩
          unfold Allocation.slotType
          rw [hk]
          simp only [slot, back, hfields, List.getElem?_map]
    · exact inspects_fail _ _
  · exact inspects_fail _ _

/-! Where nothing is known of the state, two of these still change nothing. -/

theorem looks_elementsBehind (v : Value) (pos : Position) (m : Machine) :
    Inspects (elementsBehind v pos) m fun _ => True := by
  refine (inspects_requirePointer v pos).bind fun start _ =>
    (inspects_liveAllocation start pos).bind fun al _ => ?_
  split
  · exact inspects_fail _ _
  · exact inspects_pure trivial

theorem looks_field {s : Setting} (base : Address) (name : String) (pos : Position) (m : Machine) :
    Inspects (field s base name pos) m fun _ => True := by
  refine (inspects_liveAllocation base pos).bind fun al _ => ?_
  split
  · split
    · split
      · exact inspects_fail _ _
      · split
        · exact inspects_fail _ _
        · exact inspects_pure trivial
    · exact inspects_fail _ _
  · exact inspects_fail _ _

/-! What stays known of places, whatever happens later -/

/-- A place of one slot is a whole struct, or its type is that of the slot it names. -/
def Known (mem : Memory) (p : Place) : Prop :=
  mem.InBounds → p.arrayLen = none → p.type.isStruct ∨
    ∃ al, mem.allocation? al.base = some al ∧ al.contains p.address ∧ al.slotType p.address = p.type

def Elements.Known (mem : Memory) (es : Elements) : Prop :=
  mem.InBounds → ∃ al, mem.allocation? al.base = some al ∧ es.Within al

theorem Known.evolves {p : Place} (h : p.Known mem)
    (he : mem'.InBounds → mem.Evolves mem') : p.Known mem' := by
  intro hb one
  obtain struct | ⟨al, hal, hin, ht⟩ := h ((he hb).inBounds hb) one
  · exact .inl struct
  · obtain ⟨live, hal', -⟩ := (he hb).persists hal
    exact .inr ⟨{ al with live }, hal', hin, ht⟩

theorem Elements.Known.evolves {es : Elements} (h : es.Known mem)
    (he : mem'.InBounds → mem.Evolves mem') : es.Known mem' := by
  intro hb
  obtain ⟨al, hal, within⟩ := h ((he hb).inBounds hb)
  obtain ⟨live, hal', -⟩ := (he hb).persists hal
  exact ⟨{ al with live }, hal', within.kind, within.type, within.below, within.above⟩

section

variable (hl : mem.InBounds → Memory.Layout structs mem)

include hl

theorem Live.known {p : Place} (h : p.Live mem) : p.Known mem := by
  intro hb _
  obtain ⟨al, hal, ht⟩ := h hb
  obtain ⟨found, hin, -⟩ := (hl hb).of_liveAt hal
  exact .inr ⟨al, found, hin, ht.symm⟩

theorem LiveNode.known {p : Place} (h : p.LiveNode mem) : p.Known mem := by
  intro hb _
  obtain ⟨al, hal, -, ht, struct, fields, hk⟩ := h
  obtain ⟨found, -, -⟩ := (hl hb).of_liveAt hal
  rw [ht, (((hl hb).formed found).node hk).2.1]
  exact .inl rfl

theorem Elements.Known.known_nth {es : Elements} (h : es.Known mem) {i : Nat} (hi : i < es.available) :
    (es.nth i).Known mem := by
  intro hb _
  obtain ⟨al, found, within⟩ := h hb
  exact .inr ⟨al, found, within.contains_nth ((hl hb).ends hb found) hi, (within.type_nth i).symm⟩

theorem Elements.Live.known {es : Elements} (h : es.Live mem) : es.Known mem := by
  intro hb
  obtain ⟨al, hal, within⟩ := h hb
  exact ⟨al, ((hl hb).of_liveAt hal).1, within⟩

end

theorem inspects_read (p : Place) (e : Expr) : Inspects (read p e) m fun _ => True := by
  unfold read
  split
  · exact inspects_pure trivial
  · refine inspects_environment.bind fun env _ => ?_
    split
    · exact inspects_fail _ _
    · split
      · exact inspects_pure trivial
      · exact inspects_fail _ _

theorem inspects_readScalar (p : Place) (e : Expr) : Inspects (readScalar p e) m fun _ => True := by
  unfold readScalar
  split
  · exact inspects_fail _ _
  · exact inspects_read p e

end Place

theorem inspects_checkTargets (pos : Position) (cs : List Format.Conversion) (ps : List Place) :
    Inspects (checkTargets pos cs ps) m fun _ => True := by
  induction cs generalizing ps with
  | nil => exact inspects_pure trivial
  | cons c cs ih =>
    cases ps with
    | nil => exact inspects_pure trivial
    | cons p ps =>
      unfold checkTargets
      split
      · exact inspects_fail _ _
      · exact ih ps

end Stepwise
