import Mathlib.Data.List.MinMax
import Stepwise.Proofs.Payment
import Stepwise.Proofs.References

/-! The two regions of addresses. Variables are placed from below the start of the heap upwards and nodes
from there on, and nothing stops the counter of variables when it comes to the heap. It never does in a
program whose declarations leave enough room: a variable is paid for by the first step that shows it, the
limit on memory bounds what all steps pay for, and the limit on depth how many calls may have a variable
that no step has shown yet. -/

namespace Stepwise

open Run

namespace Memory

variable {m : Memory}

/-- No counter has left its region, variables end below the heap and nodes start there, so that an address
tells by its region whether it belongs to the one or the other. -/
structure Divided (m : Memory) : Prop extends InBounds m where
  below : ∀ k al, m.allocation? k = some al → al.struct? = none →
    al.base.toNat + al.len ≤ heapStart.toNat
  above : ∀ k al, m.allocation? k = some al → al.struct? ≠ none →
    heapStart.toNat ≤ al.base.toNat ∧ al.base.toNat + al.len ≤ UInt64.size
  apart : ∀ k k' al al', m.allocation? k = some al → m.allocation? k' = some al' →
    al.struct? = none → al'.struct? ≠ none → ∀ a, ¬ (al.contains a ∧ al'.contains a)
  region : ∀ a al, m.containing? a = some al → (al.struct? = none ↔ a < heapStart)
  liveNodes : ∀ al, al ∈ m.liveNodes ↔
    m.allocation? al.base = some al ∧ al.live ∧ al.struct? ≠ none

theorem Tidy.divided (h : m.Tidy) (hb : m.InBounds) : m.Divided := by
  have below (k : Address) (al : Allocation) (hk : m.allocation? k = some al)
      (plain : al.struct? = none) : al.base.toNat + al.len ≤ heapStart.toNat := by
    have outside : ¬ heapStart ≤ al.base := by
      rw [h.spaced.base hk, ← h.zoned k al hk, plain]
      exact fun node => node rfl
    rw [UInt64.le_iff_toNat_le] at outside
    have room : al.len ≤ al.room := Nat.le_max_left _ _
    have top := hb.stack
    rcases h.spaced.encloses hk with inside | inside <;> omega
  have above (k : Address) (al : Allocation) (hk : m.allocation? k = some al)
      (node : al.struct? ≠ none) : heapStart.toNat ≤ al.base.toNat := by
    rw [← UInt64.le_iff_toNat_le, h.spaced.base hk]
    exact (h.zoned k al hk).mp node
  refine ⟨hb, below, fun k al hk node => ⟨above k al hk node, h.spaced.ends hb hk⟩, ?_, ?_, ?_⟩
  · rintro k k' al al' hk hk' plain node a ⟨ha, ha'⟩
    have ends := below k al hk plain
    have starts := above k' al' hk' node
    rw [Allocation.contains_iff] at ha ha'
    omega
  · intro a al ha
    obtain ⟨hk, inside⟩ := h.spaced.containing?_eq_some_iff.mp ha
    rw [Allocation.contains_iff] at inside
    rw [UInt64.lt_iff_toNat_lt]
    constructor
    · intro plain
      have ends := below _ al hk plain
      omega
    · intro low
      by_contra node
      have starts := above _ al hk node
      omega
  · exact fun al => h.zoned.mem_liveNodes h.spaced

end Memory

namespace Program

variable {p : Program} {limits : Limits}

/-- The slots of the largest variable in the head of a loop, or of the parameters of one function. -/
def headRoom (p : Program) : Nat := (p.functions.map (·.stackRoom false)).foldr max 0

/-- The slots of the largest variable, or of the parameters of one function. -/
def stackRoom (p : Program) : Nat :=
  (p.functions.map (·.stackRoom true) ++ p.globals.map (·.stackRoom)).foldr max 0

/-- The slots of heap that one pass over a function asks for at most, or one global declaration. -/
def heapRoom (p : Program) : Nat :=
  let structs := Structs.ofDefs p.structs
  (p.functions.map (stmtsHeapRoom structs ·.body) ++ p.globals.map (·.heapRoom structs)).foldr max 0

/-- A program whose declarations leave enough room under the given limits: for what steps can pay for, and
besides for a variable in the head of a loop or the parameters of each call under way and for one variable
that was just declared. -/
structure Fits (p : Program) (limits : Limits) : Prop where
  stack : 32 * (Memory.stackStart.toNat + (p.headRoom * limits.depth + p.stackRoom)) + limits.memory ≤
    32 * Memory.heapStart.toNat
  heap : Memory.heapStart.toNat + p.heapRoom * (limits.steps + 1) ≤ UInt64.size

/-- Under the standard limits there is room for arrays of many millions of elements, but in the heads of
loops only for some ten thousand. -/
theorem fits_standard_iff : p.Fits .standard ↔
    5000 * p.headRoom + p.stackRoom ≤ 234881020 ∧ p.heapRoom ≤ 92233259200909 := by
  have starts : Memory.stackStart.toNat = 4 ∧ Memory.heapStart.toNat = 268435456 ∧
      UInt64.size = 18446744073709551616 := by decide
  have stack : 32 * (Memory.stackStart.toNat + (p.headRoom * 5000 + p.stackRoom)) + 1073741824 ≤
      32 * Memory.heapStart.toNat ↔ 5000 * p.headRoom + p.stackRoom ≤ 234881020 := by omega
  have heap : Memory.heapStart.toNat + p.heapRoom * (200000 + 1) ≤ UInt64.size ↔
      p.heapRoom ≤ 92233259200909 := by omega
  exact ⟨fun h => ⟨stack.mp h.stack, heap.mp h.heap⟩, fun h => ⟨stack.mpr h.1, heap.mpr h.2⟩⟩

/-- What the text of a program asks for is what its runs are held to. -/
theorem Fits.bounded (fits : p.Fits limits) {source : String} (accepted : Program.parse source = .ok p)
    (cancelled : Bool) :
    (Setting.ofProgram p source limits cancelled).Bounded p.headRoom p.stackRoom p.heapRoom where
  heap := fits.heap
  heads_le := by
    refine List.max_le_of_forall_le _ _ fun n hn => ?_
    obtain ⟨f, hf, rfl⟩ := List.mem_map.mp hn
    exact List.le_max_of_le (List.mem_append_left _ (List.mem_map_of_mem hf)) f.stackRoom_heads
  heads _ hf := List.le_max_of_le (List.mem_map_of_mem hf) (Nat.le_refl _)
  stackRoom _ hf := List.le_max_of_le (List.mem_append_left _ (List.mem_map_of_mem hf)) (Nat.le_refl _)
  heapRoom _ hf := List.le_max_of_le (List.mem_append_left _ (List.mem_map_of_mem hf)) (Nat.le_refl _)
  params _ hf := Program.distinct accepted _ (mem_functions.mp hf)

end Program

/-- In an accepted program that fits the limits, the regions never meet: not at a recorded step, and not
where the run ends or halts, when memory still knows every allocation that was made and its counters stand
higher than ever before. -/
theorem regions_apart {source : String} {p : Program} (accepted : Program.parse source = .ok p)
    {limits : Limits} (fits : p.Fits limits) (cancelled : Bool) (input : String) :
    let s := Setting.ofProgram p source limits cancelled
    (∀ x ∈ (p.run s input).1, x.env.memory.Divided) ∧
      Leaves (runProgram s p.globals) (.start input) fun m => m.env.memory.Divided := by
  intro s
  have declared (d : Decl) (hd : d ∈ p.globals) : d.stackRoom ≤ p.stackRoom :=
    List.le_max_of_le (List.mem_append_right _ (List.mem_map_of_mem hd)) (Nat.le_refl _)
  have asked (d : Decl) (hd : d ∈ p.globals) : d.heapRoom s.structs ≤ p.heapRoom :=
    List.le_max_of_le (List.mem_append_right _ (List.mem_map_of_mem hd)) (Nat.le_refl _)
  have settled : Leaves (runProgram s p.globals) (.start input) Machine.Settled :=
    runProgram_settled (fits.bounded accepted cancelled) declared asked fits.stack input
  refine ⟨fun x hx => ?_, settled.mono (fun _ _ h => h.tidy.divided h.inBounds)
    fun _ _ h => h.tidy.divided h.inBounds⟩
  have recorded {m : Machine} (h : m.Settled) (hx : x ∈ m.recorder.toList) : x.env.memory.Divided := by
    obtain ⟨inBounds, tidy⟩ := h.moments x (List.mem_reverse.mp hx)
    exact tidy.divided inBounds
  unfold Program.run at hx
  cases h : runProgram s p.globals (.start input) with
  | ok u m =>
    rw [h] at hx
    exact recorded (settled.ok h) hx
  | error e m =>
    rw [h] at hx
    exact recorded (settled.error h) hx

/-- Calls nest in the test of a loop while its array is not shown yet, and each makes a node. -/
theorem regions_apart_nested :
    let source := "struct N \x7b int v; struct N *next; \x7d; int g[2]; int f(int n) \x7b " ++
      "struct N *p = malloc(sizeof(struct N)); for (int a[3]; n && f(n - 1) < 0; ) \x7b \x7d return n; \x7d " ++
      "int main() \x7b int b[40]; return f(2); \x7d"
    ∃ p, Program.parse source = .ok p ∧ p.Fits .standard ∧
      let s := Setting.ofProgram p source .standard false
      (p.run s "").1.length = 16 ∧ (∀ x ∈ (p.run s "").1, x.env.memory.Divided) ∧
        Leaves (runProgram s p.globals) (.start "") fun m => m.env.memory.Divided := by
  intro source
  have facts : (Program.parse source).toOption.any (fun p =>
      (5000 * p.headRoom + p.stackRoom ≤ 234881020 ∧ p.heapRoom ≤ 92233259200909) ∧
      (p.run (.ofProgram p source .standard false) "").1.length = 16) = true := by decide +kernel
  obtain ⟨p, accepted, facts⟩ := Program.exists_of_any facts
  obtain ⟨fits, steps⟩ := of_decide_eq_true facts
  have fits := Program.fits_standard_iff.mpr fits
  exact ⟨p, accepted, fits, steps, regions_apart accepted fits false ""⟩

/-- Without enough room they meet. The array in the head of the loop takes all addresses that are left
below the heap and no step has shown it yet, so the parameter of the function that the test calls gets the
address of the node, and stands in its place among the live nodes. -/
theorem regions_overlap :
    let source := "struct N \x7b int v; \x7d; int f(int x) \x7b return 1 / 0; \x7d int main() \x7b " ++
      "struct N *p = malloc(sizeof(struct N)); for (int a[268435451]; f(1); ) \x7b \x7d return 0; \x7d"
    ∃ p, Program.parse source = .ok p ∧
      let moments := (p.run (.ofProgram p source .standard false) "").1
      (∃ x ∈ moments, ∃ al ∈ x.env.memory.liveNodes,
        al.base = Memory.heapStart ∧ al.struct? = some "N") ∧
      ∃ x ∈ moments, x.env.lookup? "x" = some (Memory.heapStart, .local) ∧
        ∃ al ∈ x.env.memory.liveNodes, al.base = Memory.heapStart ∧ al.kind = .scalar := by
  intro source
  have facts : (Program.parse source).toOption.any (fun p =>
      let moments := (p.run (.ofProgram p source .standard false) "").1
      (∃ x ∈ moments, ∃ al ∈ x.env.memory.liveNodes,
        al.base = Memory.heapStart ∧ al.struct? = some "N") ∧
      ∃ x ∈ moments, x.env.lookup? "x" = some (Memory.heapStart, .local) ∧
        ∃ al ∈ x.env.memory.liveNodes, al.base = Memory.heapStart ∧ al.kind = .scalar) = true := by
    decide +kernel
  obtain ⟨p, accepted, facts⟩ := Program.exists_of_any facts
  exact ⟨p, accepted, of_decide_eq_true facts⟩

end Stepwise
