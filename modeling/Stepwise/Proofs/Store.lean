import Stepwise.Proofs.Path

/-! What happens to memory in the long run. Allocations stay where they are and what they are; they only
end. As long as one lives its slots hold values of their type, and a slot that has a value keeps having
one. -/

namespace Stepwise

namespace Memory

variable {structs : Structs} {m m' m'' : Memory} {x : Variable}

structure Evolves (m m' : Memory) : Prop where
  stack : m.nextStack ≤ m'.nextStack
  heap : m.nextHeap ≤ m'.nextHeap
  /-- Allocations stay, but for their end. -/
  persists : ∀ {k al}, m.allocation? k = some al →
    ∃ live, m'.allocation? k = some { al with live } ∧ (live = true → al.live = true)
  /-- No slot of an allocation that lives on becomes undefined again. -/
  defined : ∀ {k al b}, m.allocation? k = some al → m'.allocation? k = some al → al.live →
    al.contains b → (m.cell b).isDefined → (m'.cell b).isDefined

namespace Evolves

theorem refl (m : Memory) : m.Evolves m where
  stack := Nat.le_refl _
  heap := Nat.le_refl _
  persists h := ⟨_, h, id⟩
  defined _ _ _ _ h := h

theorem trans (h : m.Evolves m') (h' : m'.Evolves m'') : m.Evolves m'' where
  stack := Nat.le_trans h.stack h'.stack
  heap := Nat.le_trans h.heap h'.heap
  persists hk := by
    obtain ⟨live, hk', hlive⟩ := h.persists hk
    obtain ⟨live', hk'', hlive'⟩ := h'.persists hk'
    exact ⟨live', hk'', fun hl => hlive (hlive' hl)⟩
  defined {k al b} hk hk'' hal hb hd := by
    obtain ⟨live, hk', -⟩ := h.persists hk
    obtain ⟨live', again, hlive'⟩ := h'.persists hk'
    -- what lives at the end has lived in between
    obtain rfl : live' = al.live := congrArg Allocation.live (Option.some.inj (again.symm.trans hk''))
    obtain rfl : live = true := hlive' hal
    have between : m'.allocation? k = some al := by rw [hk', ← hal]
    exact h'.defined between hk'' hal hb (h.defined hk between hal hb hd)

theorem inBounds (h : m.Evolves m') (hb : m'.InBounds) : m.InBounds :=
  ⟨Nat.le_trans h.stack hb.stack, Nat.le_trans h.heap hb.heap⟩

end Evolves

/-! The four ways to change memory -/

theorem allocation?_make (m : Memory) (x : Variable) (k : Address) : (m.make x).allocation? k =
    if UInt64.ofNat m.nextStack = k then some (x.allocation (UInt64.ofNat m.nextStack))
    else m.allocation? k :=
  allocation?_enter _ (x.allocation (UInt64.ofNat m.nextStack)) x.fill k

def nodeAt (base : Address) (struct : String) (fields : List CType) : Allocation :=
  ⟨base, fields.length, .node struct fields, ⟨.struct struct, 0⟩, true⟩

theorem allocation?_newNode (m : Memory) (struct : String) (fields : List CType) (k : Address) :
    (m.allocateNode struct fields).2.allocation? k =
      if UInt64.ofNat m.nextHeap = k then some (nodeAt (UInt64.ofNat m.nextHeap) struct fields)
      else m.allocation? k :=
  allocation?_enter _ (nodeAt (UInt64.ofNat m.nextHeap) struct fields) .undefined k

/-- The slots of a new node are undefined, and no other slot changes. -/
theorem cell_newNode {struct : String} {fields : List CType}
    (hb : (m.allocateNode struct fields).2.InBounds) (b : Address) :
    (m.allocateNode struct fields).2.cell b =
      if (nodeAt (UInt64.ofNat m.nextHeap) struct fields).contains b then .undefined
      else m.cell b := by
  have bound : m.nextHeap + max fields.length 1 ≤ UInt64.size := hb.heap
  have start : (UInt64.ofNat m.nextHeap).toNat = m.nextHeap :=
    UInt64.toNat_ofNat_of_lt (by show m.nextHeap < UInt64.size; omega)
  exact cell_enter _ (nodeAt (UInt64.ofNat m.nextHeap) struct fields) .undefined b
    (by simp only [nodeAt]; omega)

theorem Layout.make (h : Layout structs m) (hx : x.Proper) (hb : (m.make x).InBounds) :
    Layout structs (m.make x) := by
  have formed : (x.allocation (UInt64.ofNat m.nextStack)).Formed structs := by
    unfold Allocation.Formed Variable.allocation
    rcases hx.kind with ⟨hk, hl⟩ | ⟨hk, hl⟩ <;> simp only [hk]
    · exact hl
    · exact hl
  exact (h.allocate (v := x.fill) ⟨hb.stack, hb.heap⟩ formed).setSlots _

/-- The slots of a new variable hold its values or what it is filled with, and no other slot changes. -/
theorem cell_make (hx : x.Proper) (hb : (m.make x).InBounds) (b : Address) :
    if (x.allocation (UInt64.ofNat m.nextStack)).contains b
    then (m.make x).cell b ∈ x.values ∨ (m.make x).cell b = x.fill
    else (m.make x).cell b = m.cell b := by
  have bound : m.nextStack + max x.len 1 ≤ heapStart.toNat := hb.stack
  have start : (UInt64.ofNat m.nextStack).toNat = m.nextStack := Spaced.toNat_nextStack (by omega)
  have top : heapStart.toNat ≤ UInt64.size := by decide
  have room := hx.room
  have stored : if (UInt64.ofNat m.nextStack).toNat ≤ b.toNat ∧
        b.toNat < (UInt64.ofNat m.nextStack).toNat + x.values.length
      then (m.make x).cell b ∈ x.values
      else (m.make x).cell b = (m.allocate x.kind x.type x.len x.fill).2.cell b :=
    getD_storeValues _ (UInt64.ofNat m.nextStack) b x.values (by omega)
  have filled : (m.allocate x.kind x.type x.len x.fill).2.cell b =
      if (x.allocation (UInt64.ofNat m.nextStack)).contains b then x.fill else m.cell b :=
    cell_enter _ (x.allocation (UInt64.ofNat m.nextStack)) x.fill b
      (by simp only [Variable.allocation]; omega)
  have inside : (x.allocation (UInt64.ofNat m.nextStack)).contains b ↔
      m.nextStack ≤ b.toNat ∧ b.toNat < m.nextStack + x.len := by
    rw [Allocation.contains_iff]
    simp only [Variable.allocation, start]
  rw [start] at stored
  by_cases hin : (x.allocation (UInt64.ofNat m.nextStack)).contains b
  · rw [if_pos hin] at filled ⊢
    by_cases hv : m.nextStack ≤ b.toNat ∧ b.toNat < m.nextStack + x.values.length
    · rw [if_pos hv] at stored
      exact .inl stored
    · rw [if_neg hv] at stored
      exact .inr (stored.trans filled)
  · rw [if_neg hin] at filled ⊢
    rw [if_neg fun hv => hin (inside.mpr (by omega))] at stored
    exact stored.trans filled

/-- Ending an allocation leaves the slots of those that live on. -/
theorem cell_retire_of_live (h : Layout structs m) (hb : m.InBounds) {a k b : Address} {al : Allocation}
    (hk : m.allocation? k = some al) (hk' : (m.retire a).allocation? k = some al) (hal : al.live)
    (hin : al.contains b) : (m.retire a).cell b = m.cell b := by
  cases ha : m.allocation? a with
  | none =>
    have same : m.retire a = m := by
      unfold retire
      rw [ha]
    rw [same]
  | some al' =>
    have apart : ¬ al'.contains b := by
      intro hin'
      obtain rfl := h.unique ha hk hin' hin
      rw [allocation?_retire, if_pos rfl, hk] at hk'
      have : false = al.live := congrArg Allocation.live (Option.some.inj hk')
      exact absurd (this.trans hal) nofun
    rw [cell_retire m b ha (h.base ha) (h.ends hb ha), if_neg apart]

theorem retire_evolves (h : Layout structs m) (hb : m.InBounds) (a : Address) :
    m.Evolves (m.retire a) := by
  have counters := m.counters_retire a
  refine ⟨Nat.le_of_eq counters.1.symm, Nat.le_of_eq counters.2.symm, ?_, ?_⟩
  · intro k al hk
    rw [allocation?_retire]
    by_cases hak : a = k
    · rw [if_pos hak, hak, hk]
      exact ⟨false, rfl, nofun⟩
    · rw [if_neg hak]
      exact ⟨al.live, hk, id⟩
  · intro k al b hk hk' hal hin hd
    rwa [cell_retire_of_live h hb hk hk' hal hin]

theorem retireAll_evolves (h : Layout structs m) (hb : m.InBounds) (bases : List Address) :
    m.Evolves (m.retireAll bases) := by
  unfold retireAll
  induction bases generalizing m with
  | nil => exact .refl m
  | cons a rest ih =>
    have counters := m.counters_retire a
    have still : (m.retire a).InBounds := ⟨counters.1 ▸ hb.stack, counters.2 ▸ hb.heap⟩
    exact (retire_evolves h hb a).trans (ih (h.retire a) still)

/-- A new allocation changes no old one, and no slot of one. -/
theorem evolves_of_fresh {base : Address} {al : Allocation} (h' : Layout structs m')
    (stack : m.nextStack ≤ m'.nextStack) (heap : m.nextHeap ≤ m'.nextHeap)
    (fresh : m.allocation? base = none)
    (entered : ∀ k, m'.allocation? k = if base = k then some al else m.allocation? k)
    (outside : ∀ b, ¬ al.contains b → m'.cell b = m.cell b) : m.Evolves m' := by
  have differ {k : Address} {al' : Allocation} (hk : m.allocation? k = some al') : base ≠ k := by
    rintro rfl
    exact nomatch fresh.symm.trans hk
  refine ⟨stack, heap, ?_, ?_⟩
  · intro k al' hk
    rw [entered, if_neg (differ hk)]
    exact ⟨al'.live, hk, id⟩
  · intro k al' b hk hk' hal hin hd
    have new : m'.allocation? base = some al := by rw [entered, if_pos rfl]
    have apart : ¬ al.contains b := fun hin' => differ hk (h'.unique new hk' hin' hin)
    rwa [outside b apart]

theorem cell_write {a : Address} {v : Value} (h : m.write a v = .ok m') (b : Address) :
    m'.cell b = if a = b then v else m.cell b := by
  obtain ⟨-, rfl⟩ := write_eq_ok h
  unfold cell
  simp only [Std.TreeMap.getD_insert, Std.LawfulEqCmp.compare_eq_iff_eq]

namespace Change

theorem counters (h : Change structs m m') :
    m.nextStack ≤ m'.nextStack ∧ m.nextHeap ≤ m'.nextHeap := by
  cases h with
  | keep => exact ⟨Nat.le_refl _, Nat.le_refl _⟩
  | store written defined fits =>
    obtain ⟨-, rfl⟩ := write_eq_ok written
    exact ⟨Nat.le_refl _, Nat.le_refl _⟩
  | newNode known => exact ⟨Nat.le_refl _, Nat.le_add_right _ _⟩
  | make proper => exact ⟨Nat.le_add_right _ _, Nat.le_refl _⟩
  | retire bases =>
    have counters := m.counters_retireAll bases
    exact ⟨Nat.le_of_eq counters.1.symm, Nat.le_of_eq counters.2.symm⟩

theorem inBounds (h : Change structs m m') (hb : m'.InBounds) : m.InBounds :=
  ⟨Nat.le_trans h.counters.1 hb.stack, Nat.le_trans h.counters.2 hb.heap⟩

theorem layout (h : Change structs m m') (hl : Layout structs m) (hb : m'.InBounds) :
    Layout structs m' := by
  cases h with
  | keep => exact hl
  | store written defined fits =>
    obtain ⟨-, rfl⟩ := write_eq_ok written
    exact hl.setSlots _
  | newNode known => exact hl.allocateNode hb known rfl
  | make proper => exact hl.make proper hb
  | retire bases => exact hl.retireAll bases

theorem evolves (h : Change structs m m') (hl : Layout structs m) (hb : m'.InBounds) :
    m.Evolves m' := by
  have hl' := h.layout hl hb
  have before := h.inBounds hb
  have counters := h.counters
  cases h with
  | keep => exact .refl m
  | store written defined fits =>
    refine ⟨counters.1, counters.2, ?_, ?_⟩
    · intro k al hk
      obtain ⟨-, rfl⟩ := write_eq_ok written
      exact ⟨al.live, hk, id⟩
    · intro k al b hk hk' hal hin hd
      rw [cell_write written]
      split
      · exact defined
      · exact hd
  | newNode known =>
    rename_i struct d
    have bound : m.nextHeap + max (d.fields.map (·.type)).length 1 ≤ UInt64.size := hb.heap
    exact evolves_of_fresh hl' counters.1 counters.2 (hl.fresh_heap before (by omega))
      (allocation?_newNode m struct _) fun b hout => (cell_newNode hb b).trans (if_neg hout)
  | make proper =>
    rename_i x
    have bound : m.nextStack + max x.len 1 ≤ heapStart.toNat := hb.stack
    refine evolves_of_fresh hl' counters.1 counters.2 (hl.fresh_stack (by omega))
      (allocation?_make m x) fun b hout => ?_
    have same := cell_make proper hb b
    rwa [if_neg hout] at same
  | retire bases => exact retireAll_evolves hl before bases

end Change

/-- Every slot of a live allocation holds a value of its type, or none yet. -/
def Typed (m : Memory) : Prop :=
  ∀ k al b, m.allocation? k = some al → al.live → al.contains b → (m.cell b).Fits (al.slotType b)

theorem Typed.empty : Typed .empty := by
  intro k al b hk
  simp [allocation?, Memory.empty] at hk

/-- Slots keep their types when those that change get values of their own. -/
theorem Typed.of_evolves (h : m.Typed) (he : m.Evolves m')
    (old : ∀ {k al b}, m.allocation? k = some al → m'.allocation? k = some al → al.live →
      al.contains b → m'.cell b = m.cell b ∨ (m'.cell b).Fits (al.slotType b))
    (new : ∀ {k al b}, m.allocation? k = none → m'.allocation? k = some al → al.contains b →
      (m'.cell b).Fits (al.slotType b)) : m'.Typed := by
  intro k al b hk' hal hin
  cases hk : m.allocation? k with
  | none => exact new hk hk' hin
  | some al₀ =>
    obtain ⟨live, again, hlive⟩ := he.persists hk
    obtain rfl : { al₀ with live } = al := Option.some.inj (again.symm.trans hk')
    have same : al₀ = { al₀ with live } := by
      rw [show live = al₀.live from hal.trans (hlive hal).symm]
    rcases old hk (same ▸ hk') (hlive hal) hin with h' | h'
    · rw [h']
      have typed := h k al₀ b hk (hlive hal) hin
      exact typed
    · exact h'

/-- A new allocation whose slots hold values of their types. -/
theorem Typed.of_fresh {base : Address} {al : Allocation} (h : m.Typed) (hl' : Layout structs m')
    (he : m.Evolves m')
    (entered : ∀ k, m'.allocation? k = if base = k then some al else m.allocation? k)
    (outside : ∀ b, ¬ al.contains b → m'.cell b = m.cell b)
    (inside : ∀ b, al.contains b → (m'.cell b).Fits (al.slotType b)) : m'.Typed := by
  have new : m'.allocation? base = some al := by rw [entered, if_pos rfl]
  refine h.of_evolves he (fun {k al' b} hk hk' hal hin => ?_) fun {k al' b} hk hk' hin => ?_
  · by_cases hin' : al.contains b
    · obtain rfl := hl'.unique new hk' hin' hin
      obtain rfl := Option.some.inj (new.symm.trans hk')
      exact .inr (inside b hin)
    · exact .inl (outside b hin')
  · rw [entered] at hk'
    split at hk'
    · obtain rfl := Option.some.inj hk'
      exact inside b hin
    · exact nomatch hk.symm.trans hk'

/-- A variable has one type for all its slots. -/
theorem slotType_allocation (hx : x.Proper) (base b : Address) :
    (x.allocation base).slotType b = x.type := by
  unfold Allocation.slotType Variable.allocation
  rcases hx.kind with ⟨hk, -⟩ | ⟨hk, -⟩ <;> simp only [hk]

theorem Typed.retire (h : m.Typed) (hl : Layout structs m) (hb : m.InBounds) (a : Address) :
    (m.retire a).Typed := by
  refine h.of_evolves (retire_evolves hl hb a) (fun {k al b} hk hk' hal hin => ?_) fun hk hk' => ?_
  · exact .inl (cell_retire_of_live hl hb hk hk' hal hin)
  · rw [allocation?_retire] at hk'
    split at hk'
    · rename_i hak
      rw [hak, hk] at hk'
      exact nomatch hk'
    · exact nomatch hk.symm.trans hk'

theorem Typed.retireAll (h : m.Typed) (hl : Layout structs m) (hb : m.InBounds)
    (bases : List Address) : (m.retireAll bases).Typed := by
  unfold Memory.retireAll
  induction bases generalizing m with
  | nil => exact h
  | cons a rest ih =>
    have counters := m.counters_retire a
    exact ih (h.retire hl hb a) (hl.retire a) ⟨counters.1 ▸ hb.stack, counters.2 ▸ hb.heap⟩

theorem Change.typed (h : Change structs m m') (hl : Layout structs m) (hb : m'.InBounds)
    (ht : m.Typed) : m'.Typed := by
  have hl' := h.layout hl hb
  have before := h.inBounds hb
  have he := h.evolves hl hb
  cases h with
  | keep => exact ht
  | store written defined fits =>
    obtain ⟨⟨al₀, live⟩, hm'⟩ := write_eq_ok written
    refine ht.of_evolves he (fun {k al b} hk hk' hal hin => ?_) fun hk hk' => ?_
    · rw [cell_write written]
      split
      · rename_i hab
        subst hab
        -- only one allocation holds the slot
        obtain ⟨found, inside, -⟩ := hl.of_liveAt live
        obtain rfl := hl.unique hk found hin inside
        obtain rfl := Option.some.inj (found.symm.trans hk)
        exact .inr (fits before _ live)
      · exact .inl rfl
    · subst hm'
      exact nomatch hk.symm.trans hk'
  | newNode known =>
    rename_i struct d
    refine ht.of_fresh hl' he (allocation?_newNode m struct _)
      (fun b hout => (cell_newNode hb b).trans (if_neg hout)) fun b hin => ?_
    rw [cell_newNode hb b, if_pos hin]
    trivial
  | make proper =>
    rename_i x
    refine ht.of_fresh hl' he (allocation?_make m x) (fun b hout => ?_) fun b hin => ?_
    · have same := cell_make proper hb b
      rwa [if_neg hout] at same
    · have new := cell_make proper hb b
      rw [if_pos hin] at new
      rw [slotType_allocation proper]
      rcases new with stored | filled
      · exact (proper.values _ stored).2
      · exact filled ▸ proper.fill
  | retire bases => exact ht.retireAll hl before bases

/-- As long as the allocation that starts at an address lives, none of its slots is undefined. -/
def FilledAt (m : Memory) (k : Address) : Prop :=
  ∀ al b, m.allocation? k = some al → al.live → al.contains b → (m.cell b).isDefined

theorem Evolves.filledAt (h : m.Evolves m') {k : Address} {al : Allocation}
    (hk : m.allocation? k = some al) (hf : m.FilledAt k) : m'.FilledAt k := by
  intro al' b hk' hal' hin
  obtain ⟨live, again, hlive⟩ := h.persists hk
  obtain rfl : { al with live } = al' := Option.some.inj (again.symm.trans hk')
  have same : al = { al with live } := by
    rw [show live = al.live from hal'.trans (hlive hal').symm]
  exact h.defined hk (same ▸ hk') (hlive hal') hin (hf al b hk (hlive hal') hin)

theorem filledAt_make (hx : x.Proper) (hf : x.Filled) (hb : (m.make x).InBounds) :
    (m.make x).FilledAt (UInt64.ofNat m.nextStack) := by
  intro al b hk hal hin
  rw [allocation?_make, if_pos rfl] at hk
  obtain rfl := Option.some.inj hk
  have new := cell_make hx hb b
  rw [if_pos hin] at new
  rcases new with stored | filled
  · exact (hx.values _ stored).1
  · exact filled ▸ hf

end Memory

variable {s : Setting} {m m' : Machine} {ds : List Decl} {d : Option Decl}

/-- Printing, reading and recording change nothing but the record of the run. -/
theorem Act.memory (h : Act s d m m') :
    Memory.Change s.structs m.env.memory m'.env.memory := by
  cases h with
  | change h => exact h.memory
  | print text => exact .keep
  | input rest => exact .keep
  | record line description returned => exact .keep

namespace Path

theorem trans {ds' : List Decl} {m'' : Machine} (h : Path s m ds m') (h' : Path s m' ds' m'') :
    Path s m (ds ++ ds') m'' := by
  induction h' with
  | refl =>
    rw [List.append_nil]
    exact h
  | step before act ih =>
    rw [← List.append_assoc]
    exact .step ih act

theorem inBounds (h : Path s m ds m') (hb : m'.env.memory.InBounds) : m.env.memory.InBounds := by
  induction h with
  | refl => exact hb
  | step before act ih => exact ih (act.memory.inBounds hb)

/-- What acts make of memory that is laid out in order. -/
theorem storage (h : Path s m ds m') (hl : Memory.Layout s.structs m.env.memory)
    (hb : m'.env.memory.InBounds) :
    Memory.Layout s.structs m'.env.memory ∧ m.env.memory.Evolves m'.env.memory ∧
      (m.env.memory.Typed → m'.env.memory.Typed) := by
  induction h with
  | refl => exact ⟨hl, .refl _, id⟩
  | step before act ih =>
    obtain ⟨layout, evolves, typed⟩ := ih (act.memory.inBounds hb)
    exact ⟨act.memory.layout layout hb, evolves.trans (act.memory.evolves layout hb),
      fun ht => act.memory.typed layout hb (typed ht)⟩

end Path

end Stepwise
