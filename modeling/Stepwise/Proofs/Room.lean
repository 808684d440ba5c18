import Mathlib.Order.MinMax
import Stepwise.Proofs.Follow
import Stepwise.Proofs.Nodes

/-! How much room a program takes. Its text says how many slots one declaration asks for at most, and how
many slots of heap one pass over a function does. Beyond that, memory is taken on credit: what a purse of
free slots pays for now is paid back when a step is recorded, which the limits of a run allow only so
often. This module states the accounts and shows what evaluating does to them: it takes heap for the nodes
that it makes, and variables only through the calls it makes. -/

namespace Stepwise

open Run

variable {α β : Type}

/-! What the text asks for -/

def Structs.nodeRoom (structs : Structs) (struct : String) : Nat :=
  ((structs.find? struct).map fun d => max d.fields.length 1).getD 0

mutual

/-- The slots of heap that evaluating an expression once asks for, what it calls apart. -/
def Expr.heapRoom (structs : Structs) : Expr → Nat
  | .int .. | .float .. | .char .. | .null _ | .var .. | .sizeofType .. | .sizeofExpr .. => 0
  | .unary _ e _ | .step _ e _ | .addressOf e _ | .deref e _ | .field e .. | .cast _ e _ =>
    e.heapRoom structs
  | .binary _ e e' _ | .index e e' _ => e.heapRoom structs + e'.heapRoom structs
  | .call _ es _ | .print _ es _ | .read _ es _ => exprsHeapRoom structs es
  | .newNode struct _ => structs.nodeRoom struct

def exprsHeapRoom (structs : Structs) : List Expr → Nat
  | [] => 0
  | e :: rest => e.heapRoom structs + exprsHeapRoom structs rest

end

def Decl.heapRoom (structs : Structs) : Decl → Nat
  | .scalar _ _ init _ => (init.map (·.heapRoom structs)).getD 0
  | .array _ _ _ init _ => exprsHeapRoom structs (init.getD [])

def Simple.heapRoom (structs : Structs) : Simple → Nat
  | .declare d => d.heapRoom structs
  | .assign target _ value _ => value.heapRoom structs + target.heapRoom structs
  | .effect e _ => e.heapRoom structs

def clauseHeapRoom (structs : Structs) (c : Option Simple) : Nat :=
  (c.map (·.heapRoom structs)).getD 0

def conditionHeapRoom (structs : Structs) (e : Option Expr) : Nat :=
  (e.map (·.heapRoom structs)).getD 0

mutual

def Stmt.heapRoom (structs : Structs) : Stmt → Nat
  | .simple c => c.heapRoom structs
  | .block body _ => stmtsHeapRoom structs body
  | .branch cond yes none _ => cond.heapRoom structs + stmtsHeapRoom structs yes
  | .branch cond yes (some no) _ =>
    cond.heapRoom structs + (stmtsHeapRoom structs yes + stmtsHeapRoom structs no)
  | .whileLoop cond body _ => cond.heapRoom structs + stmtsHeapRoom structs body
  | .forLoop init cond update body _ => clauseHeapRoom structs init +
      (conditionHeapRoom structs cond + (stmtsHeapRoom structs body + clauseHeapRoom structs update))
  | .leave value _ => conditionHeapRoom structs value
  | .breakLoop _ | .continueLoop _ => 0

def stmtsHeapRoom (structs : Structs) : List Stmt → Nat
  | [] => 0
  | stmt :: rest => stmt.heapRoom structs + stmtsHeapRoom structs rest

end

def Decl.stackRoom : Decl → Nat
  | .scalar .. => 1
  | .array _ _ size _ _ => max size 1

def Simple.stackRoom : Simple → Nat
  | .declare d => d.stackRoom
  | _ => 0

def clauseStackRoom (c : Option Simple) : Nat := (c.map Simple.stackRoom).getD 0

mutual

/-- The slots of the largest variable that a statement declares. Those that are declared outside of the
heads of loops count where `alone` says so. -/
def Stmt.stackRoom (alone : Bool) : Stmt → Nat
  | .simple c => bif alone then c.stackRoom else 0
  | .block body _ => stmtsStackRoom alone body
  | .branch _ yes none _ => stmtsStackRoom alone yes
  | .branch _ yes (some no) _ => max (stmtsStackRoom alone yes) (stmtsStackRoom alone no)
  | .whileLoop _ body _ => stmtsStackRoom alone body
  | .forLoop init _ update body _ =>
    max (clauseStackRoom init) (max (clauseStackRoom update) (stmtsStackRoom alone body))
  | .leave .. | .breakLoop _ | .continueLoop _ => 0

def stmtsStackRoom (alone : Bool) : List Stmt → Nat
  | [] => 0
  | stmt :: rest => max (stmt.stackRoom alone) (stmtsStackRoom alone rest)

end

def Function.stackRoom (alone : Bool) (f : Function) : Nat :=
  max f.params.length (stmtsStackRoom alone f.body)

mutual

theorem Stmt.stackRoom_heads (stmt : Stmt) : stmt.stackRoom false ≤ stmt.stackRoom true := by
  cases stmt with
  | simple c => exact Nat.zero_le _
  | block body pos => exact stmtsStackRoom_heads body
  | branch cond yes no pos =>
    cases no with
    | none => exact stmtsStackRoom_heads yes
    | some no => exact max_le_max (stmtsStackRoom_heads yes) (stmtsStackRoom_heads no)
  | whileLoop cond body pos => exact stmtsStackRoom_heads body
  | forLoop init cond update body pos =>
    exact max_le_max (Nat.le_refl _) (max_le_max (Nat.le_refl _) (stmtsStackRoom_heads body))
  | leave => exact Nat.le_refl _
  | breakLoop => exact Nat.le_refl _
  | continueLoop => exact Nat.le_refl _

theorem stmtsStackRoom_heads (stmts : List Stmt) :
    stmtsStackRoom false stmts ≤ stmtsStackRoom true stmts := by
  cases stmts with
  | nil => exact Nat.le_refl _
  | cons stmt rest => exact max_le_max stmt.stackRoom_heads (stmtsStackRoom_heads rest)

end

theorem Function.stackRoom_heads (f : Function) : f.stackRoom false ≤ f.stackRoom true :=
  max_le_max (Nat.le_refl _) (stmtsStackRoom_heads f.body)

/-! Memory that is in order -/

namespace Memory

variable {m m' m₁ m₂ : Memory} {al : Allocation} {v : Value}

def Persists (m m' : Memory) : Prop :=
  ∀ k al, m.allocation? k = some al → ∃ live, m'.allocation? k = some { al with live }

theorem Persists.refl (m : Memory) : m.Persists m := fun _ al hk => ⟨al.live, hk⟩

theorem Persists.trans (h : m.Persists m₁) (h' : m₁.Persists m₂) : m.Persists m₂ := by
  intro k al hk
  obtain ⟨live, hk⟩ := h k al hk
  obtain ⟨live', hk⟩ := h' k _ hk
  exact ⟨live', hk⟩

structure Tidy (m : Memory) : Prop where
  spaced : m.Spaced
  zoned : m.Zoned

namespace Tidy

theorem empty : Tidy .empty := ⟨.empty, .empty⟩

theorem setSlots (h : m.Tidy) (slots : Std.TreeMap Address Value) : Tidy { m with slots } :=
  ⟨h.spaced.setSlots slots, h.zoned⟩

theorem retire (h : m.Tidy) (a : Address) : (m.retire a).Tidy := by
  refine ⟨h.spaced.retire a, fun k al hk => ?_⟩
  obtain ⟨live, hal⟩ := of_allocation?_retire hk
  have zone := h.zoned k _ hal
  exact zone

/-- A new allocation behind the others, in the region that it belongs to. -/
theorem enter (h : m.Tidy) (hb : m₁.InBounds) (hm : Spaced.Behind m m₁ al)
    (zone : al.struct? ≠ none ↔ heapStart ≤ al.base) : (m₁.enter al v).Tidy := by
  refine ⟨h.spaced.enter hb hm, fun k al' hk => ?_⟩
  rw [hm.allocation? v k] at hk
  split at hk
  · rename_i start
    obtain rfl := Option.some.inj hk
    rwa [← start]
  · exact h.zoned k al' hk

end Tidy

theorem persists_enter (h : m.Spaced) (hb : m₁.InBounds) (hm : Spaced.Behind m m₁ al) :
    m.Persists (m₁.enter al v) := by
  intro k al' hk
  have room : 1 ≤ al.room ∧ 1 ≤ al'.room := ⟨Nat.le_max_right _ _, Nat.le_max_right _ _⟩
  have elsewhere : al.base ≠ k := by
    rintro rfl
    have := hm.away h hb hk
    omega
  exact ⟨al'.live, by rw [hm.allocation? v k, if_neg elsewhere, hk]⟩

theorem persists_retire (m : Memory) (a : Address) : m.Persists (m.retire a) := by
  intro k al hk
  rw [allocation?_retire]
  split
  · rename_i same
    exact ⟨false, by rw [same, hk]; rfl⟩
  · exact ⟨al.live, hk⟩

/-- Many allocations end as one does. -/
theorem retireAll_induction {motive : Memory → Prop} (h : motive m)
    (step : ∀ m' a, motive m' → motive (m'.retire a)) (bases : List Address) :
    motive (m.retireAll bases) := by
  unfold retireAll
  induction bases generalizing m with
  | nil => exact h
  | cons a rest ih => exact ih (step m a h)

variable {kind : Allocation.Kind} {type : CType} {len : Nat} {struct : String} {fields : List CType}

theorem allocate_tidy (h : m.Tidy) (hk : kind = .scalar ∨ kind = .array)
    (hb : (m.allocate kind type len v).2.InBounds) :
    (m.allocate kind type len v).2.Tidy ∧ m.Persists (m.allocate kind type len v).2 := by
  have behind := Spaced.behind_allocate hb
  have hb' : Memory.InBounds { m with nextStack := m.nextStack + max len 1 } := ⟨hb.stack, hb.heap⟩
  refine ⟨h.enter hb' behind ?_, persists_enter h.spaced hb' behind⟩
  have bound : m.nextStack + max len 1 ≤ heapStart.toNat := hb.stack
  have start : (UInt64.ofNat m.nextStack).toNat = m.nextStack := Spaced.toNat_nextStack (by omega)
  have plain : (Allocation.mk (UInt64.ofNat m.nextStack) len kind type true).struct? = none := by
    rcases hk with rfl | rfl <;> rfl
  refine ⟨fun node => absurd plain node, fun above => ?_⟩
  rw [UInt64.le_iff_toNat_le, start] at above
  omega

theorem allocateNode_tidy (h : m.Tidy) (hb : (m.allocateNode struct fields).2.InBounds) :
    (m.allocateNode struct fields).2.Tidy ∧ m.Persists (m.allocateNode struct fields).2 := by
  have behind := Spaced.behind_allocateNode hb
  have hb' : Memory.InBounds { m with nextHeap := m.nextHeap + max fields.length 1 } :=
    ⟨hb.stack, hb.heap⟩
  refine ⟨h.enter hb' behind ⟨fun _ => ?_, fun _ => nofun⟩, persists_enter h.spaced hb' behind⟩
  have bound : m.nextHeap + max fields.length 1 ≤ UInt64.size := hb.heap
  have start : (UInt64.ofNat m.nextHeap).toNat = m.nextHeap :=
    UInt64.toNat_ofNat_of_lt (by show m.nextHeap < UInt64.size; omega)
  show heapStart ≤ UInt64.ofNat m.nextHeap
  rw [UInt64.le_iff_toNat_le, start]
  exact h.spaced.heap

end Memory

/-! The accounts -/

/-- However a run ends, the regions of its memory are kept apart, and were at every step recorded. -/
structure Machine.Settled (m : Machine) : Prop where
  inBounds : m.env.memory.InBounds
  tidy : m.env.memory.Tidy
  moments : ∀ x ∈ m.recorder.items, x.env.memory.InBounds ∧ x.env.memory.Tidy

/-- A state with credit: `q` slots for variables may be taken besides what the recorded steps have paid
for at 32 bytes a slot, and `h` slots of heap besides `P` for each step. -/
structure Solvent (s : Setting) (P q h : Nat) (m : Machine) : Prop where
  stack : 32 * (m.env.memory.nextStack + q) + s.limits.memory ≤
    m.recorder.used + 32 * Memory.heapStart.toNat
  heap : m.env.memory.nextHeap + h ≤ Memory.heapStart.toNat + P * (m.recorder.count + 1)
  used : m.recorder.used ≤ s.limits.memory
  count : m.recorder.count ≤ s.limits.steps
  tidy : m.env.memory.Tidy
  moments : ∀ x ∈ m.recorder.items, x.env.memory.InBounds ∧ x.env.memory.Tidy

def Setting.HeapSuffices (s : Setting) (P : Nat) : Prop :=
  Memory.heapStart.toNat + P * (s.limits.steps + 1) ≤ UInt64.size

variable {s : Setting} {W V P q h k : Nat} {m m' : Machine}

namespace Solvent

theorem weaken (hm : Solvent s P q h m) {q' h' : Nat} (hq : q' ≤ q) (hh : h' ≤ h) :
    Solvent s P q' h' m := by
  have stack := hm.stack
  have heap := hm.heap
  exact ⟨by omega, by omega, hm.used, hm.count, hm.tidy, hm.moments⟩

theorem stackBound (hm : Solvent s P q h m) :
    m.env.memory.nextStack + q ≤ Memory.heapStart.toNat := by
  have stack := hm.stack
  have used := hm.used
  omega

theorem heapBound (hs : s.HeapSuffices P) (hm : Solvent s P q h m) :
    m.env.memory.nextHeap + h ≤ UInt64.size := by
  have count : P * (m.recorder.count + 1) ≤ P * (s.limits.steps + 1) :=
    Nat.mul_le_mul_left P (Nat.succ_le_succ hm.count)
  exact Nat.le_trans hm.heap (Nat.le_trans (Nat.add_le_add_left count _) hs)

theorem inBounds (hs : s.HeapSuffices P) (hm : Solvent s P q h m) : m.env.memory.InBounds :=
  ⟨Nat.le_of_add_right_le hm.stackBound, Nat.le_of_add_right_le (hm.heapBound hs)⟩

theorem settled (hs : s.HeapSuffices P) (hm : Solvent s P q h m) : m.Settled :=
  ⟨hm.inBounds hs, hm.tidy, hm.moments⟩

end Solvent

structure Environment.Retains (env env' : Environment) : Prop where
  frames : env'.frames = env.frames
  globals : env'.globals = env.globals
  persists : env.memory.Persists env'.memory

namespace Environment.Retains

variable {env env₁ env₂ : Environment}

theorem refl (env : Environment) : env.Retains env := ⟨rfl, rfl, .refl _⟩

theorem trans (h : env.Retains env₁) (h' : env₁.Retains env₂) : env.Retains env₂ :=
  ⟨h'.frames.trans h.frames, h'.globals.trans h.globals, h.persists.trans h'.persists⟩

theorem depth (h : env.Retains env₁) : env₁.depth = env.depth := congrArg List.length h.frames

end Environment.Retains

/-- The piece asks for at most `k` slots of heap outside of the calls it makes. These need credit for the
variables of all calls that may still come to be under way, `W` slots for each that waits for another and
`V` in the last; when the piece ends, all of that is paid. -/
def Affords (s : Setting) (W V P k : Nat) (x : Run α) (m : Machine) : Prop :=
  ∀ q r, W * (s.limits.depth - m.env.depth) + V ≤ q + W → Solvent s P q (k + r) m →
    Ensures x m (fun _ m' => Solvent s P q r m' ∧ m.env.Retains m'.env) (fun _ m' => m'.Settled)

def CallsAfford (s : Setting) (W V P : Nat) (call : CallHandler) : Prop :=
  ∀ f ∈ s.functions, ∀ args pos m, Affords s W V P 0 (call f args pos) m

section

variable {x : Run α} {f : α → Run β} {j : Nat} (hs : s.HeapSuffices P)
include hs

namespace Affords

omit hs in
theorem pure (a : α) : Affords s W V P 0 (pure a) m := by
  intro q r _ hm
  rw [Nat.zero_add] at hm
  exact ⟨hm, .refl _⟩

theorem throw (e : Halt) : Affords s W V P k (throw e : Run α) m := fun _ _ _ hm => hm.settled hs

theorem fail (cause : Fault.Cause) (pos : Position) : Affords s W V P k (fail cause pos : Run α) m :=
  throw hs _

omit hs in
theorem mono (hx : Affords s W V P k x m) (hk : k ≤ j) : Affords s W V P j x m := fun q r room hm =>
  hx q r room (hm.weaken (Nat.le_refl q) (Nat.add_le_add_right hk r))

omit hs in
theorem bind (hx : Affords s W V P k x m) (hf : ∀ a m', Affords s W V P j (f a) m') :
    Affords s W V P (k + j) (x >>= f) m := by
  intro q r room hm
  rw [Nat.add_assoc] at hm
  refine (hx q (j + r) room hm).andThen ?_
  rintro a m₁ ⟨hm₁, kept⟩
  refine (hf a m₁ q r (kept.depth ▸ room) hm₁).imp ?_
  rintro b m₂ ⟨hm₂, kept₂⟩
  exact ⟨hm₂, kept.trans kept₂⟩

omit hs in
theorem thenReturn {g : α → β} (hx : Affords s W V P k x m) :
    Affords s W V P k (x >>= fun a => Pure.pure (g a)) m :=
  .bind (j := 0) hx fun a _ => .pure (g a)

/-- A piece that only looks asks for nothing. -/
theorem look {Q : α → Prop} (hx : Inspects x m Q) (hf : ∀ a, Q a → Affords s W V P k (f a) m) :
    Affords s W V P k (x >>= f) m := by
  intro q r room hm
  refine Ensures.bind (Ensures.mono hx ?_ ?_)
  · rintro a m' ⟨rfl, ha⟩
    exact hf a ha q r room hm
  · rintro e m' rfl
    exact hm.settled hs

theorem ofInspects {Q : α → Prop} (hx : Inspects x m Q) : Affords s W V P 0 x m := by
  intro q r room hm
  rw [Nat.zero_add] at hm
  refine Ensures.mono hx ?_ ?_
  · rintro a m' ⟨rfl, -⟩
    exact ⟨hm, .refl _⟩
  · rintro e m' rfl
    exact hm.settled hs

omit hs in
/-- What is read or printed is no part of the accounts. -/
theorem aside {g : Machine → Machine} (env : (g m).env = m.env) (recorder : (g m).recorder = m.recorder) :
    Affords s W V P 0 (modify g : Run Unit) m := by
  intro q r _ hm
  rw [Nat.zero_add] at hm
  show Solvent s P q r (g m) ∧ m.env.Retains (g m).env
  refine ⟨⟨?_, ?_, ?_, ?_, ?_, ?_⟩, env ▸ .refl _⟩
  · exact env ▸ recorder ▸ hm.stack
  · exact env ▸ recorder ▸ hm.heap
  · exact recorder ▸ hm.used
  · exact recorder ▸ hm.count
  · exact env ▸ hm.tidy
  · exact recorder ▸ hm.moments

/-- A change of memory that takes no room for variables. -/
theorem changeMemory {g : Environment → Environment} {memory : Memory}
    (changed : g m.env = { m.env with memory }) (stack : memory.nextStack = m.env.memory.nextStack)
    (heap : memory.nextHeap ≤ m.env.memory.nextHeap + k)
    (tidy : m.env.memory.Tidy → memory.InBounds → memory.Tidy ∧ m.env.memory.Persists memory) :
    Affords s W V P k (changeEnvironment g) m := by
  intro q r _ hm
  have top := hm.heapBound hs
  have inBounds : memory.InBounds := ⟨stack ▸ (hm.inBounds hs).stack, by omega⟩
  obtain ⟨tidy, persists⟩ := tidy hm.tidy inBounds
  show Solvent s P q r { m with env := g m.env } ∧ m.env.Retains (g m.env)
  rw [changed]
  have account := hm.heap
  exact ⟨⟨stack ▸ hm.stack, by dsimp only; omega, hm.used, hm.count, tidy, hm.moments⟩,
    rfl, rfl, persists⟩

end Affords

/-! What stores, reads and makes nodes -/

theorem storeSlot_affords (a : Address) (v : Value) (pos : Position) (m : Machine) :
    Affords s W V P 0 (storeSlot a v pos) m := by
  refine .look hs inspects_environment ?_
  rintro env rfl
  split
  · rename_i memory written
    obtain ⟨-, rfl⟩ := Memory.write_eq_ok written
    exact .changeMemory hs rfl rfl (Nat.le_refl _) fun tidy _ =>
      ⟨tidy.setSlots _, fun k al hk => ⟨al.live, hk⟩⟩
  · exact .fail hs _ _

theorem Place.write_affords (p : Place) (v : Value) (pos : Position) (m : Machine) :
    Affords s W V P 0 (p.write v pos) m := by
  unfold write
  split
  · exact .fail hs _ _
  · exact .look hs (inspects_convertTo p.type v pos) fun w _ =>
      .thenReturn (storeSlot_affords hs p.address w pos m)

theorem storeAll_affords (pos : Position) (vs : List Value) (ps : List Place) (es : List Expr)
    (m : Machine) : Affords s W V P 0 (storeAll pos vs ps es) m := by
  induction vs generalizing ps es m with
  | nil => exact .pure _
  | cons v vs ih =>
    cases ps with
    | nil => exact .pure _
    | cons p ps =>
      cases es with
      | nil => exact .pure _
      | cons e es =>
        exact .bind (p.write_affords hs v pos m) fun _ m₁ =>
          .thenReturn (ih ps es m₁)

theorem readFormatted_affords (format : String) (targets : List Expr) (places : List Place)
    (pos : Position) (m : Machine) :
    Affords s W V P 0 (readFormatted format targets places pos) m := by
  refine .look hs inspects_get ?_
  rintro _ rfl
  refine .bind (k := 0) (j := 0) (.aside rfl rfl) fun _ m₁ =>
    .look hs (inspects_ofFormat pos _) fun found _ => ?_
  have stored : Affords s W V P 0 (do
      checkTargets pos found.conversions places
      let bound ← storeAll pos found.values places targets
      return (⟨found.result, bound⟩ : Reading)) m₁ :=
    .look hs (inspects_checkTargets pos _ _) fun _ _ =>
      .thenReturn (storeAll_affords hs pos _ _ _ m₁)
  dsimp only
  split
  · exact .look hs (inspects_fail (Q := fun _ => False) _ _) nofun
  · exact stored

theorem printFormatted_affords (format : String) (values : List Value) (pos : Position) (m : Machine) :
    Affords s W V P 0 (printFormatted format values pos) m :=
  .look hs (inspects_ofFormat pos _) fun _ _ =>
    .thenReturn (.aside rfl rfl)

/-- A new node takes the room of its struct. -/
theorem newNode_affords (struct : String) (pos : Position) (m : Machine) :
    Affords s W V P (s.structs.nodeRoom struct) (newNode s struct pos) m := by
  unfold newNode Structs.nodeRoom
  cases s.structs.find? struct with
  | none => exact .fail hs _ _
  | some d =>
    refine .look hs inspects_environment ?_
    rintro env rfl
    refine .thenReturn (.changeMemory hs rfl rfl ?_ fun tidy inBounds =>
      Memory.allocateNode_tidy tidy inBounds)
    show _ + max (d.fields.map (·.type)).length 1 ≤ _
    rw [List.length_map]
    exact Nat.le_refl _

theorem freeNode_affords (args : List Value) (pos : Position) (m : Machine) :
    Affords s W V P 0 (freeNode args pos) m := by
  unfold freeNode
  split
  · split
    · exact .pure _
    · rename_i a _
      refine .look hs inspects_environment ?_
      rintro env rfl
      split
      · exact .fail hs _ _
      · split
        · have counters := m.env.memory.counters_retire a
          exact .thenReturn (.changeMemory hs rfl counters.1 (Nat.le_of_eq counters.2)
            fun tidy _ => ⟨tidy.retire a, m.env.memory.persists_retire a⟩)
        · exact .fail hs _ _
  · exact .fail hs _ _
  · exact .fail hs _ _

theorem stepPlace_affords (op : StepOp) (p : Place) (operand : Expr) (pos : Position) (m : Machine) :
    Affords s W V P 0 (stepPlace op p operand pos) m :=
  .look hs (p.inspects_read operand) fun _ _ => .look hs (inspects_ofCause pos _) fun v _ =>
    .thenReturn (p.write_affords hs v pos m)

/-! Expressions -/

variable {call : CallHandler}

theorem callByName_affords (hc : CallsAfford s W V P call) (name : String) (args : List Value)
    (pos : Position) (m : Machine) : Affords s W V P 0 (callByName s call name args pos) m := by
  unfold callByName
  split
  · exact freeNode_affords hs args pos m
  · split
    · rename_i f hf
      exact hc f (List.mem_of_find?_eq_some hf) args pos m
    · exact .fail hs _ _

theorem elements_affords (array : Expr) {value : Run Value} (hv : Affords s W V P k value m)
    (pos : Position) : Affords s W V P k (Place.elements array value pos) m := by
  have behind : Affords s W V P k (do Place.elementsBehind (← value) pos) m :=
    .bind (j := 0) hv fun v m₁ => .ofInspects hs (Place.looks_elementsBehind v pos m₁)
  unfold Place.elements
  split
  · rename_i name namePos
    refine .look hs (Place.inspects_ofName name namePos) fun p _ => ?_
    split
    · exact (Affords.pure _).mono (Nat.zero_le k)
    · exact behind
  · exact behind

/-- An operand is evaluated and must have a value. -/
theorem operand_affords {e : Expr} {g : Value → Run β} (he : Affords s W V P k (evalExpr s call e) m)
    (hg : ∀ v m', Affords s W V P j (g v) m') :
    Affords s W V P (k + j) (do let v ← requireDefined (← evalExpr s call e) e; g v) m :=
  .bind he fun v m₁ => .look hs (inspects_requireDefined v e) fun w _ => hg w m₁

/-- Reading what an expression names asks for no more than finding its place. -/
theorem read_affords {e : Expr} (h : e.isPlace) (hp : Affords s W V P k (evalPlace s call e) m) :
    Affords s W V P k (evalExpr s call e) m := by
  rw [evalExpr_of_isPlace s call h]
  exact .bind (j := 0) hp fun p _ => .ofInspects hs (p.inspects_readScalar e)

section

variable {array index operand object : Expr} (pos : Position)

theorem index_affords (ha : Affords s W V P k (evalExpr s call array) m)
    (hi : ∀ m, Affords s W V P j (evalExpr s call index) m) :
    Affords s W V P (k + j) (evalPlace s call (.index array index pos)) m :=
  .bind (elements_affords hs array ha pos) fun es m₁ =>
    .bind (j := 0) (hi m₁) fun v _ => .ofInspects hs (Place.inspects_element es v pos)

theorem deref_affords (ho : Affords s W V P k (evalExpr s call operand) m) :
    Affords s W V P k (evalPlace s call (.deref operand pos)) m :=
  .bind (j := 0) ho fun v _ => .ofInspects hs (Place.inspects_behind v pos)

theorem arrow_affords (ho : Affords s W V P k (evalExpr s call object) m) (name : String) :
    Affords s W V P k (evalPlace s call (.field object name true pos)) m :=
  .bind (j := 0) ho fun v m₁ => .look hs (inspects_requirePointer v pos) fun base _ =>
    .ofInspects hs (Place.looks_field base name pos m₁)

theorem dot_affords (ho : Affords s W V P k (evalPlace s call object) m) (name : String) :
    Affords s W V P k (evalPlace s call (.field object name false pos)) m :=
  .bind (j := 0) ho fun p m₁ => .look hs (p.inspects_requireStruct pos) fun base _ =>
    .ofInspects hs (Place.looks_field base name pos m₁)

end

end

variable {call : CallHandler}

mutual

theorem evalExpr_affords (hs : s.HeapSuffices P) (hc : CallsAfford s W V P call) (e : Expr)
    (m : Machine) :
    Affords s W V P (e.heapRoom s.structs) (evalExpr s call e) m := by
  cases e with
  | int n pos => exact .pure _
  | float x pos => exact .pure _
  | char c pos => exact .pure _
  | null pos => exact .pure _
  | sizeofType type pos => exact .pure _
  | var name pos => exact read_affords hs rfl (.ofInspects hs (Place.inspects_ofName name pos))
  | index array index pos =>
    exact read_affords hs rfl
      (index_affords hs pos (evalExpr_affords hs hc array m) (evalExpr_affords hs hc index))
  | deref operand pos => exact read_affords hs rfl (deref_affords hs pos (evalExpr_affords hs hc operand m))
  | field object name arrow pos =>
    cases arrow with
    | true => exact read_affords hs rfl (arrow_affords hs pos (evalExpr_affords hs hc object m) name)
    | false => exact read_affords hs rfl (dot_affords hs pos (evalPlace_affords hs hc object m) name)
  | binary op left right pos =>
    have result {r : Except Fault.Cause Value} (m : Machine) : Affords s W V P 0 (Run.ofCause pos r) m :=
      .ofInspects hs (inspects_ofCause pos r)
    cases op with
    | connect op =>
      refine operand_affords hs (evalExpr_affords hs hc left m) fun l m₁ => ?_
      split
      · exact (Affords.pure _).mono (Nat.zero_le _)
      · exact operand_affords hs (j := 0) (evalExpr_affords hs hc right m₁) fun r => result
    | arith op =>
      exact operand_affords hs (evalExpr_affords hs hc left m) fun l m₁ =>
        operand_affords hs (j := 0) (evalExpr_affords hs hc right m₁) fun r => result
    | compare op =>
      exact operand_affords hs (evalExpr_affords hs hc left m) fun l m₁ =>
        operand_affords hs (j := 0) (evalExpr_affords hs hc right m₁) fun r => result
  | unary op operand pos =>
    exact operand_affords hs (j := 0) (evalExpr_affords hs hc operand m) fun v _ =>
      .ofInspects hs (inspects_ofCause pos _)
  | step op operand pos =>
    exact .bind (j := 0) (evalPlace_affords hs hc operand m) fun p m₁ =>
      .thenReturn (stepPlace_affords hs op p operand pos m₁)
  | addressOf operand pos =>
    exact .thenReturn (evalPlace_affords hs hc operand m)
  | call name args pos =>
    exact .bind (j := 0) (evalArgs_affords hs hc args m) fun values =>
      callByName_affords hs hc name values pos
  | cast type operand pos =>
    refine operand_affords hs (j := 0) (evalExpr_affords hs hc operand m) fun v _ => ?_
    split
    · exact .pure _
    · exact .fail hs _ _
  | sizeofExpr operand pos =>
    exact .look hs inspects_environment fun _ _ => .look hs (inspects_ofFault _) fun _ _ => .pure _
  | newNode struct pos => exact newNode_affords hs struct pos m
  | print format args pos =>
    exact .bind (j := 0) (evalArgs_affords hs hc args m) fun values m₁ =>
      .thenReturn (printFormatted_affords hs format values pos m₁)
  | read format targets pos =>
    exact .bind (j := 0) (evalPlaces_affords hs hc targets m) fun places m₁ =>
      .thenReturn (readFormatted_affords hs format targets places pos m₁)

theorem evalPlace_affords (hs : s.HeapSuffices P) (hc : CallsAfford s W V P call) (e : Expr)
    (m : Machine) :
    Affords s W V P (e.heapRoom s.structs) (evalPlace s call e) m := by
  cases e with
  | var name pos => exact .ofInspects hs (Place.inspects_ofName name pos)
  | index array index pos =>
    exact index_affords hs pos (evalExpr_affords hs hc array m) (evalExpr_affords hs hc index)
  | deref operand pos => exact deref_affords hs pos (evalExpr_affords hs hc operand m)
  | field object name arrow pos =>
    cases arrow with
    | true => exact arrow_affords hs pos (evalExpr_affords hs hc object m) name
    | false => exact dot_affords hs pos (evalPlace_affords hs hc object m) name
  | _ => exact .fail hs _ _

theorem evalArgs_affords (hs : s.HeapSuffices P) (hc : CallsAfford s W V P call) (es : List Expr)
    (m : Machine) :
    Affords s W V P (exprsHeapRoom s.structs es) (evalArgs s call es) m := by
  cases es with
  | nil => exact .pure _
  | cons e rest =>
    exact operand_affords hs (evalExpr_affords hs hc e m) fun _ m₁ =>
      .thenReturn (evalArgs_affords hs hc rest m₁)

theorem evalPlaces_affords (hs : s.HeapSuffices P) (hc : CallsAfford s W V P call) (es : List Expr)
    (m : Machine) :
    Affords s W V P (exprsHeapRoom s.structs es) (evalPlaces s call es) m := by
  cases es with
  | nil => exact .pure _
  | cons e rest =>
    exact .bind (evalPlace_affords hs hc e m) fun _ m₁ =>
      .thenReturn (evalPlaces_affords hs hc rest m₁)

end

end Stepwise
