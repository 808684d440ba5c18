import Stepwise.Memory.Table
import Stepwise.Program.Structs

/-! How allocations lie in memory. Variables fill the addresses from below, heap nodes those from the
start of the heap on, each behind the one before. As long as the counters stay in their regions no two
allocations overlap, so the nearest allocation at or below an address is the only one that can hold it. -/

namespace Stepwise

open Std.DTreeMap.Internal

variable {t : Std.TreeMap Address Allocation} {a k : Address} {al : Allocation}

/-- The entry found is the last one of the ordered list that is not above the address. -/
theorem getEntryLE?_eq_find? (t : Std.TreeMap Address Allocation) (a : Address) :
    t.getEntryLE? a = t.toList.reverse.find? (fun e => (compare e.1 a).isLE) := by
  show Impl.Const.getEntryLE? a t.inner.inner = (Impl.Const.toList t.inner.inner).reverse.find? _
  rw [Impl.Const.getEntryLE?_eq_map, Impl.getEntryLE?_eq_findRev? t.inner.wf.ordered,
    List.findRev?_eq_find?_reverse, Impl.Const.toList_eq_toListModel_map, ← List.map_reverse,
    List.find?_map]
  rfl

theorem getEntryLE?_eq_some (h : t.getEntryLE? a = some (k, al)) :
    t[k]? = some al ∧ k ≤ a ∧ ∀ k' al', t[k']? = some al' → k' ≤ a → k' ≤ k := by
  rw [getEntryLE?_eq_find?, List.find?_eq_some_iff_append] at h
  obtain ⟨hle, above, below, hlist, habove⟩ := h
  have hmem : (k, al) ∈ t.toList := by
    rw [← List.mem_reverse, hlist]
    simp
  refine ⟨Std.TreeMap.mem_toList_iff_getElem?_eq_some.mp hmem, Std.isLE_compare.mp hle, ?_⟩
  intro k' al' h' hk'
  have hmem' : (k', al') ∈ above ++ (k, al) :: below := by
    rw [← hlist, List.mem_reverse]
    exact Std.TreeMap.mem_toList_iff_getElem?_eq_some.mpr h'
  rcases List.mem_append.mp hmem' with h' | h'
  · have := habove _ h'
    simp [Std.isLE_compare.mpr hk'] at this
  rcases List.mem_cons.mp h' with h' | h'
  · rw [(Prod.mk.inj h').1]
    exact UInt64.le_refl k
  · -- what stands behind in the reversed list has a smaller key
    have ordered := List.pairwise_reverse.mpr (Std.TreeMap.ordered_keys_toList (t := t))
    rw [hlist] at ordered
    have lt := List.rel_of_pairwise_cons (List.pairwise_append.mp ordered).2.1 h'
    exact UInt64.le_of_lt (Std.compare_eq_lt.mp lt)

theorem getEntryLE?_eq_none (h : t.getEntryLE? a = none) (hk : t[k]? = some al) : ¬ k ≤ a := by
  intro hle
  rw [getEntryLE?_eq_find?, List.find?_eq_none] at h
  refine h (k, al) ?_ (Std.isLE_compare.mpr hle)
  rw [List.mem_reverse]
  exact Std.TreeMap.mem_toList_iff_getElem?_eq_some.mpr hk

theorem toNat_add_ofNat {a : Address} {i : Nat} (h : a.toNat + i < UInt64.size) :
    (a + UInt64.ofNat i).toNat = a.toNat + i := by
  have hi : i < 2 ^ 64 := Nat.lt_of_le_of_lt (Nat.le_add_left i a.toNat) h
  rw [UInt64.toNat_add, UInt64.toNat_ofNat', Nat.mod_eq_of_lt hi, Nat.mod_eq_of_lt h]

namespace Allocation

/-- The addresses that an allocation keeps from others; an empty one keeps one. -/
def room (al : Allocation) : Nat := max al.len 1

/-- An allocation as it is made: a scalar has one slot, an array some, a node one for each field of its
struct. -/
def Formed (structs : Structs) (al : Allocation) : Prop :=
  match al.kind with
  | .scalar => al.len = 1
  | .array => 0 < al.len
  | .node struct fields => al.len = fields.length ∧ al.type = ⟨.struct struct, 0⟩ ∧
    ∃ d, structs.find? struct = some d ∧ fields = d.fields.map (·.type)

theorem Formed.node {structs : Structs} {al : Allocation} {struct : String} {fields : List CType}
    (h : al.Formed structs) (hk : al.kind = .node struct fields) :
    al.len = fields.length ∧ al.type = ⟨.struct struct, 0⟩ ∧
      ∃ d, structs.find? struct = some d ∧ fields = d.fields.map (·.type) := by
  unfold Formed at h
  rwa [hk] at h

/-- A variable has a slot. -/
theorem Formed.len_pos {structs : Structs} {al : Allocation} (h : al.Formed structs)
    (hk : al.struct? = none) : 0 < al.len := by
  unfold Formed at h
  unfold struct? at hk
  split at h
  · exact h ▸ Nat.one_pos
  · exact h
  · rename_i node
    rw [node] at hk
    exact nomatch hk

theorem contains_iff {al : Allocation} {a : Address} :
    al.contains a ↔ al.base.toNat ≤ a.toNat ∧ a.toNat < al.base.toNat + al.len := by
  simp [contains, UInt64.le_iff_toNat_le]

end Allocation

namespace Memory

variable {structs : Structs} {m m' : Memory}

/-- No region has run out: the counter of variables is at or below the start of the heap, that of nodes
within the addresses, which are numbers of 64 bits. -/
structure InBounds (m : Memory) : Prop where
  stack : m.nextStack ≤ heapStart.toNat
  heap : m.nextHeap ≤ UInt64.size

instance (m : Memory) : Decidable m.InBounds :=
  decidable_of_iff (m.nextStack ≤ heapStart.toNat ∧ m.nextHeap ≤ UInt64.size)
    ⟨fun h => ⟨h.1, h.2⟩, fun h => ⟨h.1, h.2⟩⟩

def Encloses (m : Memory) (al : Allocation) : Prop :=
  stackStart.toNat ≤ al.base.toNat ∧ al.base.toNat + al.room ≤ m.nextStack ∨
    heapStart.toNat ≤ al.base.toNat ∧ al.base.toNat + al.room ≤ m.nextHeap

/-- Allocations stand where they were made, and each keeps its addresses from the others. -/
structure Spaced (m : Memory) : Prop where
  stack : stackStart.toNat ≤ m.nextStack
  heap : heapStart.toNat ≤ m.nextHeap
  base : ∀ {k al}, m.allocation? k = some al → al.base = k
  encloses : ∀ {k al}, m.allocation? k = some al → m.Encloses al
  apart : ∀ {k k' al al'}, m.allocation? k = some al → m.allocation? k' = some al' →
    k.toNat < k'.toNat → k.toNat + al.room ≤ k'.toNat

structure Layout (structs : Structs) (m : Memory) : Prop extends Spaced m where
  formed : ∀ {k al}, m.allocation? k = some al → al.Formed structs

def cell (m : Memory) (a : Address) : Value := m.slots.getD a .undefined

theorem allocation?_enter (m : Memory) (al : Allocation) (v : Value) (k : Address) :
    (m.enter al v).allocation? k = if al.base = k then some al else m.allocation? k := by
  unfold enter allocation?
  simp only [Std.TreeMap.getElem?_insert, Std.LawfulEqCmp.compare_eq_iff_eq]

theorem allocation?_retire (m : Memory) (a k : Address) : (m.retire a).allocation? k =
    if a = k then (m.allocation? a).map fun al => { al with live := false } else m.allocation? k := by
  unfold retire
  split
  · rename_i al h
    unfold allocation? at *
    simp only [Std.TreeMap.getElem?_insert, Std.LawfulEqCmp.compare_eq_iff_eq, h, Option.map_some]
  · rename_i h
    split
    · rename_i hk
      rw [← hk, h]
      rfl
    · rfl

/-- Ending an allocation changes nothing of it but whether it lives. -/
theorem of_allocation?_retire {a : Address} (hk : (m.retire a).allocation? k = some al) :
    ∃ live, m.allocation? k = some { al with live } := by
  rw [allocation?_retire] at hk
  split at hk
  · rename_i heq
    obtain ⟨al', hal', rfl⟩ := Option.map_eq_some_iff.mp hk
    exact ⟨al'.live, heq ▸ hal'⟩
  · exact ⟨al.live, hk⟩

theorem allocation?_retireAll (m : Memory) (bases : List Address) (k : Address) :
    (m.retireAll bases).allocation? k =
      if k ∈ bases then (m.allocation? k).map fun al => { al with live := false }
      else m.allocation? k := by
  unfold retireAll
  induction bases generalizing m with
  | nil => rfl
  | cons a rest ih =>
    rw [List.foldl_cons, ih, allocation?_retire]
    by_cases hr : k ∈ rest <;> by_cases ha : a = k
    · subst ha
      cases m.allocation? a <;> simp [hr]
    · simp [hr, ha]
    · subst ha
      simp [hr]
    · simp [hr, ha, Ne.symm ha]

theorem counters_retire (m : Memory) (a : Address) :
    (m.retire a).nextStack = m.nextStack ∧ (m.retire a).nextHeap = m.nextHeap := by
  unfold retire
  split <;> exact ⟨rfl, rfl⟩

theorem counters_retireAll (m : Memory) (bases : List Address) :
    (m.retireAll bases).nextStack = m.nextStack ∧ (m.retireAll bases).nextHeap = m.nextHeap := by
  unfold retireAll
  induction bases generalizing m with
  | nil => exact ⟨rfl, rfl⟩
  | cons a rest ih =>
    have counters := m.counters_retire a
    exact ⟨(ih _).1.trans counters.1, (ih _).2.trans counters.2⟩

theorem write_eq_ok {a : Address} {v : Value} (h : m.write a v = .ok m') :
    (∃ al, m.liveAt a = .ok al) ∧ m' = { m with slots := m.slots.insert a v } := by
  unfold write at h
  split at h
  · rename_i al hl
    cases h
    exact ⟨⟨al, hl⟩, rfl⟩
  · exact nomatch h

namespace Spaced

theorem empty : Spaced .empty where
  stack := Nat.le_refl _
  heap := Nat.le_refl _
  base h := by simp [allocation?, Memory.empty] at h
  encloses h := by simp [allocation?, Memory.empty] at h
  apart h := by simp [allocation?, Memory.empty] at h

structure Behind (m m₁ : Memory) (al : Allocation) : Prop where
  same : m₁.allocations = m.allocations
  stack : m.nextStack ≤ m₁.nextStack
  heap : m.nextHeap ≤ m₁.nextHeap
  place : m.nextStack ≤ al.base.toNat ∧ al.base.toNat + al.room ≤ m₁.nextStack ∨
    m.nextHeap ≤ al.base.toNat ∧ al.base.toNat + al.room ≤ m₁.nextHeap

theorem Behind.allocation? {m₁ : Memory} {al : Allocation} (hm : Behind m m₁ al) (v : Value)
    (k : Address) : (m₁.enter al v).allocation? k = if al.base = k then some al else m.allocation? k := by
  rw [allocation?_enter]
  unfold Memory.allocation?
  rw [hm.same]

/-- A new allocation behind the others overlaps none of them. -/
theorem Behind.away {m₁ : Memory} {al al' : Allocation} {k : Address} (hm : Behind m m₁ al)
    (h : Spaced m) (hb : m₁.InBounds) (hk : m.allocation? k = some al') :
    k.toNat + al'.room ≤ al.base.toNat ∨ al.base.toNat + al.room ≤ k.toNat := by
  have bound := hb.stack
  have above := h.stack
  have heap := h.heap
  have grown := hm.stack
  rw [← h.base hk]
  rcases hm.place with new | new <;> rcases h.encloses hk with old | old <;> omega

/-- An allocation behind the others keeps them apart. -/
theorem enter {m₁ : Memory} {al : Allocation} {v : Value} (h : Spaced m) (hb : m₁.InBounds)
    (hm : Behind m m₁ al) : Spaced (m₁.enter al v) := by
  have found := hm.allocation? v
  refine ⟨Nat.le_trans h.stack hm.stack, Nat.le_trans h.heap hm.heap, ?_, ?_, ?_⟩
  · intro k al' hk
    rw [found] at hk
    split at hk
    · rename_i heq
      rw [← Option.some.inj hk, heq]
    · exact h.base hk
  · intro k al' hk
    rw [found] at hk
    split at hk
    · obtain rfl := Option.some.inj hk
      rcases hm.place with new | new
      · exact .inl ⟨Nat.le_trans h.stack new.1, new.2⟩
      · exact .inr ⟨Nat.le_trans h.heap new.1, new.2⟩
    · rcases h.encloses hk with old | old
      · exact .inl ⟨old.1, Nat.le_trans old.2 hm.stack⟩
      · exact .inr ⟨old.1, Nat.le_trans old.2 hm.heap⟩
  · intro k k' al₁ al₂ hk hk' hlt
    have room₁ : 1 ≤ al₁.room := Nat.le_max_right _ _
    have room₂ : 1 ≤ al₂.room := Nat.le_max_right _ _
    rw [found] at hk hk'
    split at hk <;> split at hk'
    · rename_i heq heq'
      rw [← heq, heq'] at hlt
      omega
    · rename_i heq _
      obtain rfl := Option.some.inj hk
      have := hm.away h hb hk'
      rw [heq] at this
      omega
    · rename_i _ heq
      obtain rfl := Option.some.inj hk'
      have := hm.away h hb hk
      rw [heq] at this
      omega
    · exact h.apart hk hk' hlt

/-- Ending an allocation moves nothing. -/
theorem retire (h : Spaced m) (a : Address) : Spaced (m.retire a) := by
  have counters := m.counters_retire a
  refine ⟨counters.1 ▸ h.stack, counters.2 ▸ h.heap, ?_, ?_, ?_⟩
  · intro k al hk
    obtain ⟨live, hal⟩ := of_allocation?_retire hk
    have base := h.base hal
    exact base
  · intro k al hk
    obtain ⟨live, hal⟩ := of_allocation?_retire hk
    have encloses := h.encloses hal
    unfold Encloses
    rw [counters.1, counters.2]
    exact encloses
  · intro k k' al al' hk hk' hlt
    obtain ⟨live, hal⟩ := of_allocation?_retire hk
    obtain ⟨live', hal'⟩ := of_allocation?_retire hk'
    have apart := h.apart hal hal' hlt
    exact apart

theorem setSlots (h : Spaced m) (slots : Std.TreeMap Address Value) : Spaced { m with slots } :=
  ⟨h.stack, h.heap, h.base, h.encloses, h.apart⟩

/-- No address lies in two allocations. -/
theorem unique (h : Spaced m) {k k' a : Address} {al al' : Allocation}
    (hk : m.allocation? k = some al) (hk' : m.allocation? k' = some al') (ha : al.contains a)
    (ha' : al'.contains a) : k = k' := by
  rw [Allocation.contains_iff, h.base hk] at ha
  rw [Allocation.contains_iff, h.base hk'] at ha'
  have room : al.len ≤ al.room ∧ al'.len ≤ al'.room := ⟨Nat.le_max_left _ _, Nat.le_max_left _ _⟩
  rcases Nat.lt_trichotomy k.toNat k'.toNat with hlt | heq | hlt
  · have := h.apart hk hk' hlt
    omega
  · exact UInt64.toNat_inj.mp heq
  · have := h.apart hk' hk hlt
    omega

/-- The nearest allocation below an address is the one that holds it, if any does. -/
theorem containing?_eq_some_iff (h : Spaced m) {a : Address} {al : Allocation} :
    m.containing? a = some al ↔ m.allocation? al.base = some al ∧ al.contains a := by
  unfold containing?
  cases hn : m.allocations.getEntryLE? a with
  | none =>
    refine ⟨nofun, fun ⟨hal, ha⟩ => absurd ?_ (getEntryLE?_eq_none hn hal)⟩
    exact UInt64.le_iff_toNat_le.mpr (Allocation.contains_iff.mp ha).1
  | some e =>
    obtain ⟨k, al'⟩ := e
    obtain ⟨hk, hle, nearest⟩ := getEntryLE?_eq_some hn
    dsimp only
    constructor
    · intro hal
      split at hal
      · rename_i ha
        obtain rfl := Option.some.inj hal
        exact ⟨(h.base hk).symm ▸ hk, ha⟩
      · exact nomatch hal
    · rintro ⟨hal, ha⟩
      have inside := Allocation.contains_iff.mp ha
      -- an allocation nearer than the one that holds the address would overlap it
      have same : al.base = k := by
        have below := UInt64.le_iff_toNat_le.mp (nearest _ _ hal (UInt64.le_iff_toNat_le.mpr inside.1))
        have le := UInt64.le_iff_toNat_le.mp hle
        rcases Nat.lt_or_ge al.base.toNat k.toNat with hlt | hge
        · have apart := h.apart hal hk hlt
          have room : al.len ≤ al.room := Nat.le_max_left _ _
          omega
        · exact UInt64.toNat_inj.mp (Nat.le_antisymm below hge)
      rw [same] at hal
      obtain rfl := Option.some.inj (hal.symm.trans hk)
      rw [if_pos ha]

theorem of_liveAt (h : Spaced m) {a : Address} {al : Allocation} (hl : m.liveAt a = .ok al) :
    m.allocation? al.base = some al ∧ al.contains a ∧ al.live := by
  unfold liveAt at hl
  split at hl
  · exact nomatch hl
  · split at hl
    · rename_i al' hc
      split at hl
      · rename_i live
        cases hl
        have := h.containing?_eq_some_iff.mp hc
        exact ⟨this.1, this.2, live⟩
      · exact nomatch hl
    · exact nomatch hl

/-- No allocation runs over the end of the addresses. -/
theorem ends (h : Spaced m) (hb : m.InBounds) {k : Address} {al : Allocation}
    (hk : m.allocation? k = some al) : al.base.toNat + al.len ≤ UInt64.size := by
  have top : heapStart.toNat ≤ UInt64.size := by decide
  have room : al.len ≤ al.room := Nat.le_max_left _ _
  have stack := hb.stack
  have heap := hb.heap
  rcases h.encloses hk with old | old <;> omega

/-- No allocation holds the address 0. -/
theorem not_contains_zero (h : Spaced m) {k : Address} {al : Allocation}
    (hk : m.allocation? k = some al) : ¬ al.contains 0 := by
  have start : 0 < stackStart.toNat ∧ 0 < heapStart.toNat := by decide
  have zero : (0 : Address).toNat = 0 := rfl
  rw [Allocation.contains_iff, zero]
  rcases h.encloses hk with old | old <;> omega

theorem liveAt_eq_ok (h : Spaced m) {a : Address} {al : Allocation}
    (hk : m.allocation? al.base = some al) (ha : al.contains a) (live : al.live) :
    m.liveAt a = .ok al := by
  have notNull : a ≠ 0 := by
    rintro rfl
    exact h.not_contains_zero hk ha
  unfold liveAt
  rw [if_neg notNull, h.containing?_eq_some_iff.mpr ⟨hk, ha⟩]
  exact if_pos live

/-- Below the heap the counter of variables is the next address. -/
theorem toNat_nextStack {n : Nat} (hn : n < heapStart.toNat) : (UInt64.ofNat n).toNat = n :=
  UInt64.toNat_ofNat_of_lt (Nat.lt_trans hn (by decide))

variable {kind : Allocation.Kind} {type : CType} {len : Nat} {v : Value} {struct : String}
  {fields : List CType}

theorem behind_allocate (hb : (m.allocate kind type len v).2.InBounds) :
    Behind m { m with nextStack := m.nextStack + max len 1 }
      ⟨UInt64.ofNat m.nextStack, len, kind, type, true⟩ := by
  have bound : m.nextStack + max len 1 ≤ heapStart.toNat := hb.stack
  have start : (UInt64.ofNat m.nextStack).toNat = m.nextStack := toNat_nextStack (by omega)
  refine ⟨rfl, Nat.le_add_right _ _, Nat.le_refl _, .inl ⟨Nat.le_of_eq start.symm, ?_⟩⟩
  exact Nat.le_of_eq (congrArg (· + max len 1) start)

theorem behind_allocateNode (hb : (m.allocateNode struct fields).2.InBounds) :
    Behind m { m with nextHeap := m.nextHeap + max fields.length 1 }
      ⟨UInt64.ofNat m.nextHeap, fields.length, .node struct fields, ⟨.struct struct, 0⟩, true⟩ := by
  have bound : m.nextHeap + max fields.length 1 ≤ UInt64.size := hb.heap
  have start : (UInt64.ofNat m.nextHeap).toNat = m.nextHeap :=
    UInt64.toNat_ofNat_of_lt (by show m.nextHeap < UInt64.size; omega)
  refine ⟨rfl, Nat.le_refl _, Nat.le_add_right _ _, .inr ⟨Nat.le_of_eq start.symm, ?_⟩⟩
  exact Nat.le_of_eq (congrArg (· + max fields.length 1) start)

theorem allocate (h : Spaced m) (hb : (m.allocate kind type len v).2.InBounds) :
    Spaced (m.allocate kind type len v).2 :=
  h.enter ⟨hb.stack, hb.heap⟩ (behind_allocate hb)

theorem allocateNode (h : Spaced m) (hb : (m.allocateNode struct fields).2.InBounds) :
    Spaced (m.allocateNode struct fields).2 :=
  h.enter ⟨hb.stack, hb.heap⟩ (behind_allocateNode hb)

/-- No allocation starts where the next variable will. -/
theorem fresh_stack (h : Spaced m) (hn : m.nextStack < heapStart.toNat) :
    m.allocation? (UInt64.ofNat m.nextStack) = none := by
  rw [Option.eq_none_iff_forall_ne_some]
  intro al hal
  have start := toNat_nextStack hn
  have room : 1 ≤ al.room := Nat.le_max_right _ _
  rw [← h.base hal] at start
  rcases h.encloses hal with old | old <;> omega

/-- No allocation starts where the next node will. -/
theorem fresh_heap (h : Spaced m) (hb : m.InBounds) (hn : m.nextHeap < UInt64.size) :
    m.allocation? (UInt64.ofNat m.nextHeap) = none := by
  rw [Option.eq_none_iff_forall_ne_some]
  intro al hal
  have start : (UInt64.ofNat m.nextHeap).toNat = m.nextHeap := UInt64.toNat_ofNat_of_lt hn
  have room : 1 ≤ al.room := Nat.le_max_right _ _
  rw [← h.base hal] at start
  have above := h.heap
  have below := hb.stack
  rcases h.encloses hal with old | old <;> omega

end Spaced

namespace Layout

theorem empty : Layout structs .empty where
  toSpaced := .empty
  formed h := by simp [allocation?, Memory.empty] at h

theorem retire (h : Layout structs m) (a : Address) : Layout structs (m.retire a) where
  toSpaced := h.toSpaced.retire a
  formed hk := by
    obtain ⟨live, hal⟩ := of_allocation?_retire hk
    have formed := h.formed hal
    exact formed

theorem retireAll (h : Layout structs m) (bases : List Address) :
    Layout structs (m.retireAll bases) := by
  unfold Memory.retireAll
  induction bases generalizing m with
  | nil => exact h
  | cons a rest ih => exact ih (h.retire a)

theorem setSlots (h : Layout structs m) (slots : Std.TreeMap Address Value) :
    Layout structs { m with slots } :=
  ⟨h.toSpaced.setSlots slots, h.formed⟩

/-- A new allocation of the right form behind the others leaves the layout as it is. -/
theorem enter {m₁ : Memory} {al : Allocation} {v : Value} (h : Layout structs m) (hb : m₁.InBounds)
    (hm : Spaced.Behind m m₁ al) (hf : al.Formed structs) : Layout structs (m₁.enter al v) where
  toSpaced := h.toSpaced.enter hb hm
  formed hk := by
    rw [hm.allocation?] at hk
    split at hk
    · exact Option.some.inj hk ▸ hf
    · exact h.formed hk

variable {kind : Allocation.Kind} {type : CType} {len : Nat} {v : Value} {struct : String}
  {fields : List CType}

theorem allocate (h : Layout structs m) (hb : (m.allocate kind type len v).2.InBounds)
    (hf : (Allocation.mk (UInt64.ofNat m.nextStack) len kind type true).Formed structs) :
    Layout structs (m.allocate kind type len v).2 :=
  h.enter ⟨hb.stack, hb.heap⟩ (Spaced.behind_allocate hb) hf

theorem allocateNode (h : Layout structs m) (hb : (m.allocateNode struct fields).2.InBounds)
    {d : StructDef} (hd : structs.find? struct = some d) (hf : fields = d.fields.map (·.type)) :
    Layout structs (m.allocateNode struct fields).2 :=
  h.enter ⟨hb.stack, hb.heap⟩ (Spaced.behind_allocateNode hb) ⟨rfl, rfl, d, hd, hf⟩

end Layout

/-! Slots -/

/-- An operation that puts a value at one address, done at each address of a run. -/
theorem getD_fold {op : Std.TreeMap Address Value → Address → Std.TreeMap Address Value} {v : Value}
    (hop : ∀ slots k b, (op slots k).getD b .undefined =
      if k = b then v else slots.getD b .undefined)
    (slots : Std.TreeMap Address Value) (base b : Address) {len : Nat}
    (h : base.toNat + len ≤ UInt64.size) :
    (len.fold (fun i _ slots => op slots (base + UInt64.ofNat i)) slots).getD b .undefined =
      if base.toNat ≤ b.toNat ∧ b.toNat < base.toNat + len then v else slots.getD b .undefined := by
  induction len with
  | zero =>
    rw [Nat.fold_zero, if_neg]
    omega
  | succ len ih =>
    have last := toNat_add_ofNat (a := base) (i := len) (by omega)
    rw [Nat.fold_succ, hop, ih (by omega)]
    by_cases hb : base + UInt64.ofNat len = b
    · rw [if_pos hb, if_pos (by rw [← hb, last]; omega)]
    · have hne : base.toNat + len ≠ b.toNat := fun heq => hb (UInt64.toNat_inj.mp (last.trans heq))
      rw [if_neg hb]
      by_cases hin : base.toNat ≤ b.toNat ∧ b.toNat < base.toNat + len
      · rw [if_pos hin, if_pos (by omega)]
      · rw [if_neg hin, if_neg (by omega)]

theorem cell_enter (m : Memory) (al : Allocation) (v : Value) (b : Address)
    (h : al.base.toNat + al.len ≤ UInt64.size) :
    (m.enter al v).cell b = if al.contains b then v else m.cell b := by
  have hop (slots : Std.TreeMap Address Value) (k b : Address) :
      (slots.insert k v).getD b .undefined = if k = b then v else slots.getD b .undefined := by
    simp only [Std.TreeMap.getD_insert, Std.LawfulEqCmp.compare_eq_iff_eq]
  simp only [Allocation.contains_iff]
  exact getD_fold hop m.slots al.base b h

theorem cell_retire (m : Memory) {a : Address} {al : Allocation} (b : Address)
    (ha : m.allocation? a = some al) (hbase : al.base = a)
    (h : al.base.toNat + al.len ≤ UInt64.size) :
    (m.retire a).cell b = if al.contains b then .undefined else m.cell b := by
  have hop (slots : Std.TreeMap Address Value) (k b : Address) :
      (slots.erase k).getD b .undefined = if k = b then .undefined else slots.getD b .undefined := by
    simp only [Std.TreeMap.getD_erase, Std.LawfulEqCmp.compare_eq_iff_eq]
  unfold retire
  rw [ha, ← hbase]
  simp only [Allocation.contains_iff]
  exact getD_fold hop m.slots al.base b h

def storeValues (slots : Std.TreeMap Address Value) : Address → List Value →
    Std.TreeMap Address Value
  | _, [] => slots
  | a, v :: vs => storeValues (slots.insert a v) (a + 1) vs

theorem getD_storeValues (slots : Std.TreeMap Address Value) (a b : Address) (vs : List Value)
    (h : a.toNat + vs.length ≤ UInt64.size) :
    if a.toNat ≤ b.toNat ∧ b.toNat < a.toNat + vs.length
    then (storeValues slots a vs).getD b .undefined ∈ vs
    else (storeValues slots a vs).getD b .undefined = slots.getD b .undefined := by
  induction vs generalizing slots a with
  | nil =>
    rw [if_neg (by simp)]
    rfl
  | cons v vs ih =>
    have self : (slots.insert a v).getD a .undefined = v := Std.TreeMap.getD_insert_self
    have other (hne : a ≠ b) : (slots.insert a v).getD b .undefined = slots.getD b .undefined := by
      simp [Std.TreeMap.getD_insert, hne]
    rw [List.length_cons] at h
    -- the address behind the last one may be no address, but then nothing is stored there
    have rest : if a.toNat + 1 ≤ b.toNat ∧ b.toNat < a.toNat + 1 + vs.length
        then (storeValues (slots.insert a v) (a + 1) vs).getD b .undefined ∈ vs
        else (storeValues (slots.insert a v) (a + 1) vs).getD b .undefined =
          (slots.insert a v).getD b .undefined := by
      by_cases hlast : a.toNat + 1 < UInt64.size
      · have next : (a + 1).toNat = a.toNat + 1 := toNat_add_ofNat hlast
        have := ih (slots.insert a v) (a + 1) (by omega)
        rwa [next] at this
      · obtain rfl : vs = [] := List.eq_nil_of_length_eq_zero (by omega)
        rw [if_neg (by simp only [List.length_nil]; omega)]
        rfl
    unfold storeValues
    rw [List.length_cons]
    by_cases hb : a = b
    · subst hb
      rw [if_neg (by omega), self] at rest
      rw [if_pos (by omega), rest]
      exact List.mem_cons_self
    · have hne : a.toNat ≠ b.toNat := fun heq => hb (UInt64.toNat_inj.mp heq)
      by_cases hin : a.toNat + 1 ≤ b.toNat ∧ b.toNat < a.toNat + 1 + vs.length
      · rw [if_pos hin] at rest
        rw [if_pos (by omega)]
        exact List.mem_cons_of_mem _ rest
      · rw [if_neg hin, other hb] at rest
        rw [if_neg (by omega)]
        exact rest

end Memory

end Stepwise
