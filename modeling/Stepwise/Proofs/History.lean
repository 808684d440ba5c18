import Stepwise.Proofs.Layout
import Stepwise.Run.Place

/-! Histories of memory. Whatever is done to a fresh memory, one operation after another, the table
remembers every allocation that was ever made, where it was made, and whether it was ended since. -/

namespace Stepwise

namespace Memory

inductive Op where
  | allocate (kind : Allocation.Kind) (type : CType) (len : Nat) (v : Value)
  | allocateNode (struct : String) (fields : List CType)
  | write (a : Address) (v : Value)
  | retire (base : Address)

/-- Memory after an operation; a write that is refused leaves it as it is. -/
def perform (m : Memory) : Op → Memory
  | .allocate kind type len v => (m.allocate kind type len v).2
  | .allocateNode struct fields => (m.allocateNode struct fields).2
  | .write a v =>
    match m.write a v with
    | .ok m' => m'
    | .error _ => m
  | .retire base => m.retire base

def performAll (m : Memory) (ops : List Op) : Memory := ops.foldl perform m

namespace Op

/-- The allocation that an operation makes, at the address that it gives back. -/
def made? (m : Memory) : Op → Option Allocation
  | allocate kind type len v => some ⟨(m.allocate kind type len v).1, len, kind, type, true⟩
  | allocateNode struct fields =>
    some ⟨(m.allocateNode struct fields).1, fields.length, .node struct fields, ⟨.struct struct, 0⟩,
      true⟩
  | _ => none

def retires (base : Address) : Op → Bool
  | retire a => a = base
  | _ => false

end Op

/-- An allocation after further operations: it lives on unless one of them ends it. -/
def since (al : Allocation) (ops : List Op) : Allocation :=
  { al with live := al.live && !ops.any (·.retires al.base) }

def made (m : Memory) : List Op → List Allocation
  | [] => []
  | op :: rest => ((op.made? m).map (since · rest)).toList ++ made (m.perform op) rest

variable {m : Memory} {op : Op} {ops : List Op} {k : Address} {al : Allocation}

/-! One operation -/

theorem perform_write (m : Memory) (a : Address) (v : Value) :
    ∃ slots, m.perform (.write a v) = { m with slots } := by
  simp only [perform]
  cases h : m.write a v with
  | ok m' => exact ⟨_, (write_eq_ok h).2⟩
  | error e => exact ⟨m.slots, rfl⟩

theorem perform_counters (m : Memory) (op : Op) :
    m.nextStack ≤ (m.perform op).nextStack ∧ m.nextHeap ≤ (m.perform op).nextHeap := by
  cases op with
  | allocate => exact ⟨Nat.le_add_right _ _, Nat.le_refl _⟩
  | allocateNode => exact ⟨Nat.le_refl _, Nat.le_add_right _ _⟩
  | write a v =>
    obtain ⟨slots, same⟩ := perform_write m a v
    rw [same]
    exact ⟨Nat.le_refl _, Nat.le_refl _⟩
  | retire base =>
    have counters := m.counters_retire base
    exact ⟨Nat.le_of_eq counters.1.symm, Nat.le_of_eq counters.2.symm⟩

theorem perform_inBounds (hb : (m.perform op).InBounds) : m.InBounds :=
  ⟨Nat.le_trans (perform_counters m op).1 hb.stack, Nat.le_trans (perform_counters m op).2 hb.heap⟩

theorem Spaced.perform (h : Spaced m) (hb : (m.perform op).InBounds) : Spaced (m.perform op) := by
  cases op with
  | allocate => exact h.allocate hb
  | allocateNode => exact h.allocateNode hb
  | write a v =>
    obtain ⟨slots, same⟩ := perform_write m a v
    rw [same]
    exact h.setSlots slots
  | retire base => exact h.retire base

/-- A new allocation starts where none has started before. -/
theorem Spaced.fresh_made (h : Spaced m) (hb : (m.perform op).InBounds) (hal : op.made? m = some al) :
    m.allocation? al.base = none := by
  cases op with
  | allocate kind type len v =>
    obtain rfl := Option.some.inj hal
    have bound : m.nextStack + max len 1 ≤ heapStart.toNat := hb.stack
    exact h.fresh_stack (by omega)
  | allocateNode struct fields =>
    obtain rfl := Option.some.inj hal
    have bound : m.nextHeap + max fields.length 1 ≤ UInt64.size := hb.heap
    exact h.fresh_heap (perform_inBounds hb) (by omega)
  | write => exact nomatch hal
  | retire => exact nomatch hal

theorem since_nil (al : Allocation) : since al [] = al := by
  simp [since]

theorem since_cons (al : Allocation) (op : Op) (ops : List Op) :
    since al (op :: ops) = since (since al [op]) ops := by
  simp [since, Bool.and_assoc]

/-- An operation that makes something ends nothing. -/
theorem since_of_made {new : Allocation} (hop : op.made? m = some new) (al : Allocation) :
    since al [op] = al := by
  cases op with
  | retire => exact nomatch hop
  | _ => simp [since, Op.retires]

/-- What the table holds after an operation. -/
theorem Spaced.allocation?_perform (h : Spaced m) (op : Op) (k : Address) :
    (m.perform op).allocation? k = match op.made? m with
      | some al => if al.base = k then some al else m.allocation? k
      | none => (m.allocation? k).map (since · [op]) := by
  cases op with
  | allocate => exact allocation?_enter _ _ _ k
  | allocateNode => exact allocation?_enter _ _ _ k
  | write a v =>
    obtain ⟨slots, same⟩ := perform_write m a v
    have kept (al : Allocation) : since al [.write a v] = al := by
      simp [since, Op.retires]
    simp only [same, Op.made?, kept, Option.map_id']
    rfl
  | retire base =>
    refine (allocation?_retire m base k).trans ?_
    by_cases heq : base = k
    · subst heq
      cases hk : m.allocation? base with
      | none => simp [Op.made?]
      | some al => simp [Op.made?, since, Op.retires, h.base hk]
    · cases hk : m.allocation? k with
      | none => simp [heq, Op.made?]
      | some al =>
        obtain rfl := h.base hk
        simp [heq, Op.made?, since, Op.retires]

/-- What was made before stays where it was. -/
theorem Spaced.perform_old (h : Spaced m) (hb : (m.perform op).InBounds)
    (hk : m.allocation? k = some al) : (m.perform op).allocation? k = some (since al [op]) := by
  rw [h.allocation?_perform]
  cases hop : op.made? m with
  | none => rw [hk, Option.map_some]
  | some new =>
    have apart : new.base ≠ k := fun heq => by
      have fresh := h.fresh_made hb hop
      rw [heq, hk] at fresh
      exact nomatch fresh
    rw [since_of_made hop]
    exact (if_neg apart).trans hk

theorem Spaced.perform_made (h : Spaced m) (hop : op.made? m = some al) :
    (m.perform op).allocation? al.base = some al := by
  rw [h.allocation?_perform, hop]
  exact if_pos rfl

theorem Spaced.of_perform (h : Spaced m) (hk : (m.perform op).allocation? k = some al) :
    op.made? m = some al ∨ (m.allocation? k).isSome := by
  rw [h.allocation?_perform] at hk
  cases hop : op.made? m with
  | none =>
    rw [hop] at hk
    obtain ⟨old, hold, -⟩ := Option.map_eq_some_iff.mp hk
    exact .inr (hold ▸ rfl)
  | some new =>
    rw [hop] at hk
    dsimp only at hk
    split at hk
    · exact .inl hk
    · exact .inr (hk ▸ rfl)

/-! Operations one after another -/

theorem performAll_inBounds (hb : (m.performAll ops).InBounds) : m.InBounds := by
  induction ops generalizing m with
  | nil => exact hb
  | cons op rest ih => exact perform_inBounds (ih hb)

theorem Spaced.performAll (h : Spaced m) (hb : (m.performAll ops).InBounds) :
    Spaced (m.performAll ops) := by
  induction ops generalizing m with
  | nil => exact h
  | cons op rest ih => exact ih (h.perform (performAll_inBounds hb)) hb

theorem Spaced.performAll_old (h : Spaced m) (hb : (m.performAll ops).InBounds)
    (hk : m.allocation? k = some al) : (m.performAll ops).allocation? k = some (since al ops) := by
  induction ops generalizing m al with
  | nil => rwa [since_nil]
  | cons op rest ih =>
    have first := performAll_inBounds (m := m.perform op) hb
    rw [since_cons]
    exact ih (h.perform first) hb (h.perform_old first hk)

theorem mem_made_cons {x : Allocation} : x ∈ made m (op :: ops) ↔
    (∃ al, op.made? m = some al ∧ since al ops = x) ∨ x ∈ made (m.perform op) ops := by
  rw [made, List.mem_append, Option.mem_toList, Option.map_eq_some_iff]

/-- What operations make was not there before them, and is there after them. -/
theorem Spaced.of_made (h : Spaced m) (hb : (m.performAll ops).InBounds) (hal : al ∈ made m ops) :
    m.allocation? al.base = none ∧ (m.performAll ops).allocation? al.base = some al := by
  induction ops generalizing m with
  | nil => exact nomatch hal
  | cons op rest ih =>
    have first := performAll_inBounds (m := m.perform op) hb
    rcases mem_made_cons.mp hal with ⟨new, hop, rfl⟩ | later
    · have fresh := h.fresh_made first hop
      exact ⟨fresh, (h.perform first).performAll_old hb (h.perform_made hop)⟩
    · obtain ⟨fresh, last⟩ := ih (h.perform first) hb later
      refine ⟨?_, last⟩
      rw [Option.eq_none_iff_forall_ne_some]
      intro old hold
      rw [h.perform_old first hold] at fresh
      exact nomatch fresh

/-- What the table holds in the end was there in the beginning or has been made since. -/
theorem Spaced.made_of (h : Spaced m) (hb : (m.performAll ops).InBounds)
    (hk : (m.performAll ops).allocation? k = some al) (hnone : m.allocation? k = none) :
    al ∈ made m ops := by
  induction ops generalizing m with
  | nil => exact nomatch hnone.symm.trans hk
  | cons op rest ih =>
    have first := performAll_inBounds (m := m.perform op) hb
    rw [mem_made_cons]
    cases hnew : (m.perform op).allocation? k with
    | none => exact .inr (ih (h.perform first) hb hk hnew)
    | some new =>
      have last := (h.perform first).performAll_old hb hnew
      rcases h.of_perform hnew with hop | hold
      · exact .inl ⟨new, hop, Option.some.inj (last.symm.trans hk)⟩
      · rw [hnone] at hold
        exact nomatch hold

theorem Spaced.made_bases (h : Spaced m) (hb : (m.performAll ops).InBounds) :
    (made m ops).Pairwise (·.base ≠ ·.base) := by
  induction ops generalizing m with
  | nil => exact .nil
  | cons op rest ih =>
    have first := performAll_inBounds (m := m.perform op) hb
    have later := ih (h.perform first) hb
    unfold made
    cases hop : op.made? m with
    | none => exact later
    | some new =>
      refine List.pairwise_cons.mpr ⟨fun x hx heq => ?_, later⟩
      have fresh := ((h.perform first).of_made hb hx).1
      have known := h.perform_made hop
      rw [show new.base = x.base from heq, fresh] at known
      exact nomatch known

section

variable (hb : (performAll .empty ops).InBounds)
include hb

/-- After a history the table holds just what was made in it. -/
theorem allocation?_performAll :
    (performAll .empty ops).allocation? k = some al ↔ al ∈ made .empty ops ∧ al.base = k := by
  constructor
  · intro hk
    exact ⟨Spaced.empty.made_of hb hk (by simp [allocation?, Memory.empty]),
      (Spaced.empty.performAll hb).base hk⟩
  · rintro ⟨hal, rfl⟩
    exact (Spaced.empty.of_made hb hal).2

theorem containing?_performAll {a : Address} :
    (performAll .empty ops).containing? a = some al ↔ al ∈ made .empty ops ∧ al.contains a := by
  rw [(Spaced.empty.performAll hb).containing?_eq_some_iff, allocation?_performAll hb]
  simp

/-- No address was given away twice. -/
theorem made_apart : (made .empty ops).Pairwise fun x y => ∀ a, ¬ (x.contains a ∧ y.contains a) := by
  refine (Spaced.empty.made_bases hb).imp_of_mem ?_
  rintro x y hx hy hne a ⟨inX, inY⟩
  have foundX := (allocation?_performAll hb).mpr ⟨hx, rfl⟩
  have foundY := (allocation?_performAll hb).mpr ⟨hy, rfl⟩
  exact hne ((Spaced.empty.performAll hb).unique foundX foundY inX inY)

end

theorem liveAt_of_dead {a : Address} (h : m.containing? a = some al) (ha : a ≠ 0)
    (dead : al.live = false) : m.liveAt a = .error .dangling := by
  unfold liveAt
  rw [if_neg ha, h]
  simp [dead]

theorem read_of_write {m' : Memory} {a : Address} {v : Value} (h : m.write a v = .ok m') (b : Address) :
    m'.read b = if a = b then .ok v else m.read b := by
  obtain ⟨⟨al, live⟩, rfl⟩ := write_eq_ok h
  have same : ({ m with slots := m.slots.insert a v } : Memory).liveAt b = m.liveAt b := rfl
  unfold read
  rw [same]
  by_cases hab : a = b
  · subst hab
    simp [live]
  · simp [hab, Std.TreeMap.getD_insert]

/-- An allocation stays known when operations follow, and what is ended stays ended. -/
theorem retired_in_history {before after : List Op} {x : Allocation}
    (hb : (performAll .empty (before ++ .retire x.base :: after)).InBounds)
    (hx : x ∈ made .empty before) :
    { x with live := false } ∈ made .empty (before ++ .retire x.base :: after) := by
  have split : performAll .empty (before ++ .retire x.base :: after) =
      (performAll .empty before).performAll (.retire x.base :: after) := List.foldl_append
  have hb' := hb
  rw [split] at hb'
  have first := performAll_inBounds hb'
  have found := (allocation?_performAll first).mpr ⟨hx, rfl⟩
  have last := (Spaced.empty.performAll first).performAll_old hb' found
  rw [← split, allocation?_performAll hb] at last
  simpa [since, Op.retires] using last.1

/-- The table keeps account of all that is ever made in it, however operations follow each other, as
long as no region runs out. Allocations, also those that have ended, share no address and never hold
address 0; of an address the table finds just the one that holds it. What was ended dangles from then
on. A write changes what is read at its address only, and nothing when it is refused; ending what does
not exist changes nothing. -/
theorem address_discipline (ops : List Op) (hb : (performAll .empty ops).InBounds) :
    let m := performAll .empty ops
    ((made .empty ops).Pairwise (fun x y => ∀ a, ¬ (x.contains a ∧ y.contains a)) ∧
      ∀ x ∈ made .empty ops, ¬ x.contains 0) ∧
    (∀ base al, m.allocation? base = some al ↔ al ∈ made .empty ops ∧ al.base = base) ∧
    (∀ a, (∀ al, m.containing? a = some al ↔ al ∈ made .empty ops ∧ al.contains a) ∧
      (m.containing? a = none ↔ ∀ al ∈ made .empty ops, ¬ al.contains a)) ∧
    (∀ before after x, ops = before ++ .retire x.base :: after → x ∈ made .empty before →
      ∀ a, x.contains a → m.read a = .error .dangling ∧ ∀ v, m.write a v = .error .dangling) ∧
    (∀ a v m', m.write a v = .ok m' → ∀ b, m'.read b = if a = b then .ok v else m.read b) ∧
    (∀ a v e, m.write a v = .error e → m.perform (.write a v) = m ∧
      ∀ (machine : Machine) (pos : Position), machine.env.memory = m →
        storeSlot a v pos machine = .error (.fault ⟨e.cause a, pos⟩) machine) ∧
    ∀ base, (∀ x ∈ made .empty ops, x.base ≠ base) → m.retire base = m := by
  intro m
  have spaced : Spaced m := Spaced.empty.performAll hb
  refine ⟨⟨made_apart hb, ?_⟩, ?_, ?_, ?_, ?_, ?_, ?_⟩
  · intro x hx
    exact spaced.not_contains_zero ((allocation?_performAll hb).mpr ⟨hx, rfl⟩)
  · exact fun base al => allocation?_performAll hb
  · intro a
    refine ⟨fun al => containing?_performAll hb, ?_⟩
    rw [Option.eq_none_iff_forall_ne_some]
    exact ⟨fun h al hal hin => h al ((containing?_performAll hb).mpr ⟨hal, hin⟩),
      fun h al hal => h al ((containing?_performAll hb).mp hal).1 ((containing?_performAll hb).mp hal).2⟩
  · rintro before after x rfl hx a hin
    have dead := retired_in_history hb hx
    have found : m.containing? a = some { x with live := false } :=
      (containing?_performAll hb).mpr ⟨dead, hin⟩
    have notNull : a ≠ 0 := by
      rintro rfl
      exact spaced.not_contains_zero ((allocation?_performAll hb).mpr ⟨dead, rfl⟩) hin
    have dangles := liveAt_of_dead found notNull rfl
    exact ⟨by simp only [read, dangles], fun v => by simp only [write, dangles]⟩
  · exact fun a v m' h b => read_of_write h b
  · intro a v e h
    refine ⟨by simp only [perform, h], ?_⟩
    intro machine pos same
    show (match machine.env.memory.write a v with
      | .ok memory => Run.changeEnvironment fun env => { env with memory }
      | .error fault => Run.fail (fault.cause a) pos : Run Unit) machine = _
    rw [same, h]
    rfl
  · intro base unknown
    have none : m.allocation? base = none := by
      rw [Option.eq_none_iff_forall_ne_some]
      intro al hal
      obtain ⟨known, at_base⟩ := (allocation?_performAll hb).mp hal
      exact unknown al known at_base
    unfold retire
    rw [none]

/-- A node that is ended between a variable and an empty array dangles, although another node and a
write follow. -/
theorem address_discipline_ended :
    let before : List Op := [.allocate .scalar ⟨.int, 0⟩ 1 (.int 7),
      .allocateNode "node" [⟨.int, 0⟩, ⟨.char, 0⟩]]
    let after : List Op := [.allocate .array ⟨.int, 0⟩ 0 .undefined, .allocateNode "node" [⟨.int, 0⟩],
      .write stackStart (.int 9)]
    let m := performAll .empty (before ++ .retire heapStart :: after)
    m.InBounds ∧ m.read heapStart = .error .dangling ∧
      m.write (heapStart + 1) (.int 1) = .error .dangling := by
  intro before after m
  have hb : m.InBounds := by decide
  have discipline := address_discipline (before ++ .retire heapStart :: after) hb
  have ended := discipline.2.2.2.1 before after
    ⟨heapStart, 2, .node "node" [⟨.int, 0⟩, ⟨.char, 0⟩], ⟨.struct "node", 0⟩, true⟩ rfl (by decide)
  exact ⟨hb, (ended heapStart (by decide)).1, (ended (heapStart + 1) (by decide)).2 (.int 1)⟩

end Memory

end Stepwise
