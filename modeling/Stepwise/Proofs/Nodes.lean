import Stepwise.Proofs.Store

/-! The heap nodes of memory. As long as the counters stay in their regions, nodes are just the
allocations from the start of the heap on, so going through these in order meets every live node. -/

namespace Stepwise

open Std.DTreeMap.Internal

section

variable {t : Std.TreeMap Address Allocation}

theorem getEntryGE?_eq_find? (t : Std.TreeMap Address Allocation) (a : Address) :
    t.getEntryGE? a = t.toList.find? (fun e => (compare e.1 a).isGE) := by
  show Impl.Const.getEntryGE? a t.inner.inner = (Impl.Const.toList t.inner.inner).find? _
  rw [Impl.Const.getEntryGE?_eq_map, Impl.getEntryGE?_eq_find? t.inner.wf.ordered,
    Impl.Const.toList_eq_toListModel_map, List.find?_map]
  rfl

theorem getEntryGT?_eq_find? (t : Std.TreeMap Address Allocation) (a : Address) :
    t.getEntryGT? a = t.toList.find? (fun e => (compare e.1 a).isGT) := by
  show Impl.Const.getEntryGT? a t.inner.inner = (Impl.Const.toList t.inner.inner).find? _
  rw [Impl.Const.getEntryGT?_eq_map, Impl.getEntryGT?_eq_find? t.inner.wf.ordered,
    Impl.Const.toList_eq_toListModel_map, List.find?_map]
  rfl

/-- Behind an entry comes the next one of the ordered list. -/
theorem getEntryGT?_of_toList {front back : List (Address × Allocation)} {e : Address × Allocation}
    (h : t.toList = front ++ e :: back) : t.getEntryGT? e.1 = back.head? := by
  have ordered := Std.TreeMap.ordered_keys_toList (t := t)
  rw [h] at ordered
  obtain ⟨-, behind, before⟩ := List.pairwise_append.mp ordered
  have passed : ∀ x ∈ front ++ [e], ¬ (compare x.1 e.1).isGT := by
    intro x hx
    rcases List.mem_append.mp hx with hx | hx
    · simp [before x hx e List.mem_cons_self]
    · rw [List.mem_singleton.mp hx]
      simp [Std.compare_self]
  rw [getEntryGT?_eq_find?, h, List.append_cons, List.find?_append,
    List.find?_eq_none.mpr passed, Option.none_or]
  cases back with
  | nil => rfl
  | cons next rest =>
    have above : compare e.1 next.1 = .lt := List.rel_of_pairwise_cons behind List.mem_cons_self
    simp [Std.OrientedCmp.gt_of_lt above]

end

namespace Memory

variable {structs : Structs} {m m' : Memory}

theorem allocationsFrom_none (m : Memory) (count : Nat) : m.allocationsFrom none count = [] := by
  cases count <;> rfl

/-- Going on from an entry gives it and all that stand behind it. -/
theorem allocationsFrom_of_toList {front back : List (Address × Allocation)} {count : Nat}
    (h : m.allocations.toList = front ++ back) (enough : back.length ≤ count) :
    m.allocationsFrom back.head? count = back.map (·.2) := by
  induction count generalizing front back with
  | zero =>
    obtain rfl := List.eq_nil_of_length_eq_zero (Nat.le_zero.mp enough)
    rfl
  | succ count ih =>
    cases back with
    | nil => rfl
    | cons e rest =>
      show e.2 :: m.allocationsFrom (m.allocations.getEntryGT? e.1) count = e.2 :: rest.map (·.2)
      rw [getEntryGT?_of_toList h, ih (h.trans (List.append_cons front e rest))]
      exact Nat.le_of_succ_le_succ enough

/-- The live nodes are the live allocations from the start of the heap on. -/
theorem mem_liveNodes {al : Allocation} : al ∈ m.liveNodes ↔
    al.live ∧ ∃ k, m.allocation? k = some al ∧ heapStart ≤ k := by
  have found {k : Address} {al : Allocation} :
      m.allocation? k = some al ↔ (k, al) ∈ m.allocations.toList :=
    Std.TreeMap.mem_toList_iff_getElem?_eq_some.symm
  have reached {k : Address} : (compare k heapStart).isGE ↔ heapStart ≤ k := Std.isGE_compare
  unfold liveNodes
  rw [List.mem_filter, and_comm, and_congr_right_iff]
  intro live
  cases hfirst : m.allocations.getEntryGE? heapStart with
  | none =>
    rw [getEntryGE?_eq_find?, List.find?_eq_none] at hfirst
    constructor
    · intro h
      rw [allocationsFrom_none] at h
      exact nomatch h
    · rintro ⟨k, hk, above⟩
      exact absurd (reached.mpr above) (hfirst _ (found.mp hk))
  | some first =>
    rw [getEntryGE?_eq_find?, List.find?_eq_some_iff_append] at hfirst
    obtain ⟨above, front, back, split, below⟩ := hfirst
    have ordered := Std.TreeMap.ordered_keys_toList (t := m.allocations)
    rw [split] at ordered
    have behind := (List.pairwise_append.mp ordered).2.1
    have enough : (first :: back).length ≤ m.allocations.size := by
      rw [← Std.TreeMap.length_toList, split, List.length_append]
      exact Nat.le_add_left _ _
    rw [show some first = (first :: back).head? from rfl, allocationsFrom_of_toList split enough]
    simp only [found, List.mem_map, split]
    constructor
    · rintro ⟨⟨k, al'⟩, hin, rfl⟩
      refine ⟨k, List.mem_append_right _ hin, ?_⟩
      rcases List.mem_cons.mp hin with rfl | hin
      · exact reached.mp above
      · have lt := Std.compare_eq_lt.mp (List.rel_of_pairwise_cons behind hin)
        exact UInt64.le_of_lt (UInt64.lt_of_le_of_lt (reached.mp above) lt)
    · rintro ⟨k, hin, start⟩
      refine ⟨(k, al), (List.mem_append.mp hin).resolve_left fun hin => ?_, rfl⟩
      have := below _ hin
      simp [reached.mpr start] at this

def Zoned (m : Memory) : Prop :=
  ∀ k al, m.allocation? k = some al → (al.struct? ≠ none ↔ heapStart ≤ k)

theorem Zoned.empty : Zoned .empty := by
  intro k al hk
  simp [allocation?, Memory.empty] at hk

theorem Change.zoned (h : Change structs m m') (hl : Layout structs m) (hb : m'.InBounds)
    (hz : m.Zoned) : m'.Zoned := by
  intro k al hk
  cases h with
  | keep => exact hz k al hk
  | store written defined fits =>
    obtain ⟨-, rfl⟩ := write_eq_ok written
    exact hz k al hk
  | newNode known =>
    rename_i struct d
    rw [allocation?_newNode] at hk
    split at hk
    · rename_i start
      obtain rfl := Option.some.inj hk
      have bound : m.nextHeap + max (d.fields.map (·.type)).length 1 ≤ UInt64.size := hb.heap
      have base : (UInt64.ofNat m.nextHeap).toNat = m.nextHeap :=
        UInt64.toNat_ofNat_of_lt (by show m.nextHeap < UInt64.size; omega)
      refine ⟨fun _ => ?_, fun _ => nofun⟩
      rw [← start, UInt64.le_iff_toNat_le, base]
      exact hl.heap
    · exact hz k al hk
  | make proper =>
    rename_i x
    rw [allocation?_make] at hk
    split at hk
    · rename_i start
      obtain rfl := Option.some.inj hk
      have bound : m.nextStack + max x.len 1 ≤ heapStart.toNat := hb.stack
      have base : (UInt64.ofNat m.nextStack).toNat = m.nextStack :=
        Spaced.toNat_nextStack (by omega)
      have plain : (x.allocation (UInt64.ofNat m.nextStack)).struct? = none := by
        unfold Allocation.struct? Variable.allocation
        rcases proper.kind with ⟨kind, -⟩ | ⟨kind, -⟩ <;> simp only [kind]
      refine ⟨fun node => absurd plain node, fun above => ?_⟩
      rw [← start, UInt64.le_iff_toNat_le, base] at above
      omega
    · exact hz k al hk
  | retire bases =>
    rw [allocation?_retireAll] at hk
    split at hk
    · obtain ⟨al', found, rfl⟩ := Option.map_eq_some_iff.mp hk
      have zone := hz k al' found
      exact zone
    · exact hz k al hk

/-- Where the heap is kept to nodes, going through it finds the live nodes and nothing else. -/
theorem Zoned.mem_liveNodes (hz : m.Zoned) (hl : Spaced m) {al : Allocation} :
    al ∈ m.liveNodes ↔ m.allocation? al.base = some al ∧ al.live ∧ al.struct? ≠ none := by
  rw [Memory.mem_liveNodes]
  constructor
  · rintro ⟨live, k, hk, above⟩
    exact ⟨hl.base hk ▸ hk, live, (hz _ _ hk).mpr above⟩
  · rintro ⟨hk, live, node⟩
    exact ⟨live, al.base, hk, (hz _ _ hk).mp node⟩

end Memory

theorem Path.zoned {s : Setting} {m m' : Machine} {ds : List Decl} (h : Path s m ds m')
    (hl : Memory.Layout s.structs m.env.memory) (hz : m.env.memory.Zoned)
    (hb : m'.env.memory.InBounds) : m'.env.memory.Zoned := by
  induction h with
  | refl => exact hz
  | step before act ih =>
    have before' := act.memory.inBounds hb
    exact act.memory.zoned (before.storage hl before').1 hb (ih before')

end Stepwise
