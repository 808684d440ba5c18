import Mathlib.Algebra.BigOperators.Ring.List
import Mathlib.Algebra.Order.BigOperators.Group.List
import Mathlib.Algebra.Order.Ring.Nat
import Stepwise.Proofs.Bracketing
import Stepwise.Proofs.Course
import Stepwise.Proofs.Pictures
import Stepwise.Proofs.Room

/-! What recorded steps pay for. A step shows every variable that can be seen and is charged at least 32
bytes for each of its slots, so a variable is paid for by the first step that shows it. Most declarations
record that step themselves. One in the head of a loop is shown by the test that follows, and parameters by
the step that enters the function; until then their slots are taken on credit, and calls that are made in
between take credit of their own. -/

namespace Stepwise

open Run

variable {α β : Type} {s : Setting} {W V P q h k j n r w : Nat} {m m' : Machine}

/-! What a step shows -/

def Memory.slotsAt (m : Memory) (a : Address) : Nat :=
  match m.allocation? a with
  | some al =>
    match al.kind with
    | .scalar => 1
    | .array => al.room
    | .node .. => 0
  | none => 0

theorem Memory.slotsAt_mono {m m' : Memory} (h : m.Persists m') (a : Address) :
    m.slotsAt a ≤ m'.slotsAt a := by
  unfold slotsAt
  cases hal : m.allocation? a with
  | none => exact Nat.zero_le _
  | some al =>
    obtain ⟨live, hal'⟩ := h a al hal
    rw [hal']
    exact Nat.le_refl _

theorem Memory.slotsAt_allocate (m : Memory) (kind : Allocation.Kind) (len : Nat)
    (hk : kind = .scalar ∧ len = 1 ∨ kind = .array) (type : CType) (v : Value) :
    max len 1 ≤ (m.allocate kind type len v).2.slotsAt (m.allocate kind type len v).1 := by
  have found : (m.allocate kind type len v).2.allocation? (m.allocate kind type len v).1 =
      some ⟨UInt64.ofNat m.nextStack, len, kind, type, true⟩ :=
    (allocation?_enter _ _ v _).trans (if_pos rfl)
  unfold slotsAt
  rw [found]
  rcases hk with ⟨rfl, rfl⟩ | rfl <;> exact Nat.le_refl _

namespace Environment

variable {env env' : Environment}

def shownRoom (env : Environment) : Nat :=
  (env.visible.entries.map fun e => env.memory.slotsAt e.2.1).sum

theorem Retains.shownRoom (h : env.Retains env') : env.shownRoom ≤ env'.shownRoom := by
  have visible : env'.visible = env.visible := by
    unfold Environment.visible locals
    rw [h.frames, h.globals]
  unfold Environment.shownRoom
  rw [visible]
  exact List.sum_le_sum fun e _ => Memory.slotsAt_mono h.persists e.2.1

/-- Some of the variables that can be seen have no more slots than all. -/
theorem sum_le_shownRoom {es : List (String × Address × Scope)} (distinct : es.Nodup)
    (shown : es ⊆ env.visible.entries) :
    (es.map fun e => env.memory.slotsAt e.2.1).sum ≤ env.shownRoom := by
  obtain ⟨es', same, part⟩ := List.subperm_of_subset distinct shown
  rw [← (same.map _).sum_eq]
  exact (part.map _).sum_le_sum fun _ _ => Nat.zero_le _

theorem slotsAt_le_shownRoom {name : String} {a : Address} {scope : Scope}
    (h : env.lookup? name = some (a, scope)) : env.memory.slotsAt a ≤ env.shownRoom := by
  rw [← find?_visible, KeyMap.find?_eq_some_iff] at h
  have one := sum_le_shownRoom (List.nodup_singleton (name, a, scope))
    (List.cons_subset.mpr ⟨h, List.nil_subset _⟩)
  simpa using one

/-- Where the two parts of a map cover each of its entries, they cover the whole. -/
theorem sum_le_total {κ γ : Type} [Ord κ] {map : KeyMap κ α} {f : κ → α → Option β}
    {g : κ → α → Option γ} {weight : κ × α → Nat} {size : κ × β → Nat} {size' : κ × γ → Nat}
    (each : ∀ e, weight e ≤
      ((f e.1 e.2).elim 0 fun v => size (e.1, v)) + (g e.1 e.2).elim 0 fun v => size' (e.1, v)) :
    (map.entries.map weight).sum ≤
      Step.total size (map.filterMap f).entries + Step.total size' (map.filterMap g).entries := by
  unfold KeyMap.filterMap
  dsimp only
  induction map.entries with
  | nil => exact Nat.zero_le _
  | cons e rest ih =>
    have first := each e
    rw [List.map_cons, List.sum_cons, List.filterMap_cons, List.filterMap_cons]
    cases hf : f e.1 e.2 <;> cases hg : g e.1 e.2 <;>
      simp only [hf, hg, Option.elim, Option.map, Step.total, List.foldr_cons] at first ih ⊢ <;>
      omega

/-- A step is charged for what it shows. -/
theorem shownRoom_le_size (env : Environment) (structs : Structs) (ordinal line : Nat)
    (code description console : String) (returned : Option Value) :
    32 * env.shownRoom ≤ (env.capture structs ordinal line code description console returned).size := by
  have shown : (env.visible.entries.map fun e => 32 * env.memory.slotsAt e.2.1).sum ≤
      Step.total Step.variableSize env.scalars.entries + Step.total Step.arraySize env.arrays.entries := by
    refine sum_le_total fun e => ?_
    obtain ⟨name, a, scope⟩ := e
    dsimp only
    unfold Memory.slotsAt
    cases hal : env.memory.allocation? a with
    | none => exact Nat.zero_le _
    | some al =>
      dsimp only
      cases hk : al.kind with
      | scalar =>
        simp only [Option.elim, if_true, Step.variableSize]
        omega
      | array =>
        simp only [Option.elim, if_true, Step.arraySize, arrayView, List.length_map, List.length_range,
          Allocation.room, reduceCtorEq, if_false]
        omega
      | node struct fields => exact Nat.zero_le _
  rw [List.sum_map_mul_left] at shown
  unfold Step.size
  show 32 * env.shownRoom ≤ 216 + _ + _ + Step.total Step.variableSize env.scalars.entries +
    Step.total Step.arraySize env.arrays.entries + _ + _ + _
  unfold shownRoom
  omega

/-- The state with room for a variable that no name is bound to yet. -/
def withRoom (env : Environment) (kind : Allocation.Kind) (type : CType) (len : Nat) (v : Value) :
    Environment :=
  { env with memory := (env.memory.allocate kind type len v).2 }

/-- A declaration has a block to bind its name in, or binds it globally. -/
def Open (env : Environment) : Prop := ∀ rest, env.shape ≠ 0 :: rest

theorem Open.of_shape (h : env.Open) (same : env'.shape = env.shape) : env'.Open :=
  fun rest => same ▸ h rest

theorem InBlock.isOpen (h : env.InBlock) : env.Open := by
  obtain ⟨k, rest, shape⟩ := h
  intro rest' none
  rw [shape] at none
  exact nomatch (List.cons.inj none).1

/-- A name that was just declared is found. -/
theorem lookup?_declare (h : env.Open) (name : String) (a : Address) :
    ∃ scope, (env.declare name a).lookup? name = some (a, scope) := by
  have bound (names : Bindings) : (names.insert name a).find? name = some a := by
    rw [find?_insert_name]
    exact if_pos rfl
  unfold declare lookup? locals
  cases hf : env.frames with
  | nil =>
    refine ⟨.global, ?_⟩
    dsimp only
    rw [bound]
    rfl
  | cons top frames =>
    refine ⟨.local, ?_⟩
    dsimp only
    unfold Frame.declare
    cases hb : top.blocks with
    | nil => exact absurd (show env.shape = 0 :: _ by rw [shape, hf, List.map_cons, hb]; rfl) (h _)
    | cons b blocks =>
      dsimp only
      rw [bound]

/-- A variable whose name was just bound is shown. -/
theorem le_shownRoom_declare (h : env.Open) {a : Address} (room : n ≤ env.memory.slotsAt a)
    (name : String) : n ≤ (env.declare name a).shownRoom := by
  obtain ⟨scope, found⟩ := lookup?_declare h name a
  refine Nat.le_trans ?_ (slotsAt_le_shownRoom found)
  rwa [memory_declare]

theorem length_shape (env : Environment) : env.shape.length = env.depth := List.length_map _

theorem memory_closeBlock (env : Environment) :
    ∃ bases, env.closeBlock.memory = env.memory.retireAll bases := by
  unfold closeBlock
  split
  · exact ⟨[], rfl⟩
  · exact ⟨_, rfl⟩

theorem memory_popFrame (env : Environment) :
    ∃ bases, env.popFrame.memory = env.memory.retireAll bases := by
  unfold popFrame
  split
  · exact ⟨[], rfl⟩
  · exact ⟨_, rfl⟩

structure Continues (env env' : Environment) : Prop where
  shape : env'.shape = env.shape
  persists : env.memory.Persists env'.memory

namespace Continues

theorem refl (env : Environment) : env.Continues env := ⟨rfl, .refl _⟩

theorem trans {env₁ : Environment} (h : env.Continues env₁) (h' : env₁.Continues env') :
    env.Continues env' :=
  ⟨h'.shape.trans h.shape, h.persists.trans h'.persists⟩

theorem depth (h : env.Continues env') : env'.depth = env.depth := by
  rw [← length_shape, ← length_shape, h.shape]

end Continues

theorem Continues.declare (env : Environment) (name : String) (a : Address) :
    env.Continues (env.declare name a) :=
  ⟨shape_declare env name a, by rw [memory_declare]; exact .refl _⟩

theorem Retains.continues (h : env.Retains env') : env.Continues env' :=
  ⟨congrArg (List.map fun f : Frame => f.blocks.length) h.frames, h.persists⟩

theorem Retains.isOpen (h : env.Retains env') (isOpen : env.Open) : env'.Open :=
  isOpen.of_shape h.continues.shape

end Environment

/-! Recording and declaring -/

/-- A piece that may leave one variable of at most `w` slots unpaid, which can then be seen. -/
def Incurs (s : Setting) (W V P w k : Nat) (x : Run α) (m : Machine) : Prop :=
  ∀ q r, W * (s.limits.depth - m.env.depth) + V ≤ q → Solvent s P q (k + r) m →
    Ensures x m
      (fun _ m' => (∃ n, n ≤ m'.env.shownRoom ∧ n ≤ w ∧ Solvent s P (q - n) r m') ∧
        m.env.Continues m'.env)
      (fun _ m' => m'.Settled)

/-- A piece that has paid for its variables when it ends. -/
def Settles (s : Setting) (W V P k : Nat) (x : Run α) (m : Machine) : Prop :=
  ∀ q r, W * (s.limits.depth - m.env.depth) + V ≤ q → Solvent s P q (k + r) m →
    Ensures x m (fun _ m' => Solvent s P q r m' ∧ m.env.Continues m'.env) (fun _ m' => m'.Settled)

section

variable {x : Run α} {f : α → Run β} (hs : s.HeapSuffices P)
include hs

/-- A recorded step pays for the variables it shows, and gives credit for heap. -/
theorem record_pays (hm : Solvent s P q h m) (shown : n ≤ m.env.shownRoom) (line : Nat)
    (description : String) (returned : Option Value) :
    Ensures (Run.record s line description returned) m
      (fun _ m' => Solvent s P (q + n) (h + P) m' ∧ m'.env = m.env) (fun _ m' => m'.Settled) := by
  refine (record_ensures s line description returned m).mono ?_ ?_
  · rintro - m' ⟨rfl, free, enough⟩
    refine ⟨⟨?_, ?_, enough, free, hm.tidy, ?_⟩, rfl⟩
    · have charge : 32 * m.env.shownRoom ≤ m.charge s (m.moment line description returned) :=
        Nat.le_trans (m.env.shownRoom_le_size ..) (Nat.le_add_right _ _)
      have stack := hm.stack
      show 32 * (m.env.memory.nextStack + (q + n)) + _ ≤ m.recorder.used + m.charge s _ + _
      omega
    · have heap := hm.heap
      show m.env.memory.nextHeap + (h + P) ≤ _ + P * (m.recorder.count + 1 + 1)
      rw [Nat.mul_succ]
      omega
    · exact List.forall_mem_cons.mpr ⟨⟨hm.inBounds hs, hm.tidy⟩, hm.moments⟩
  · have settled := hm.settled hs
    rintro e m' ⟨rfl | rfl, -⟩
    · exact settled
    · exact ⟨settled.inBounds, settled.tidy, settled.moments⟩

/-- Room for a variable is taken on credit. -/
theorem Solvent.withRoom (hm : Solvent s P q h m) (kind : Allocation.Kind) (len : Nat)
    (hk : kind = .scalar ∨ kind = .array) (hq : max len 1 ≤ q) (type : CType) (v : Value) :
    Solvent s P (q - max len 1) h { m with env := m.env.withRoom kind type len v } ∧
      m.env.Retains (m.env.withRoom kind type len v) := by
  have bound := hm.stackBound
  have inBounds : (m.env.memory.allocate kind type len v).2.InBounds := by
    refine ⟨?_, (hm.inBounds hs).heap⟩
    show m.env.memory.nextStack + max len 1 ≤ _
    omega
  obtain ⟨tidy, persists⟩ := Memory.allocate_tidy hm.tidy hk inBounds
  refine ⟨⟨?_, hm.heap, hm.used, hm.count, tidy, hm.moments⟩, rfl, rfl, persists⟩
  have account := hm.stack
  show 32 * (m.env.memory.nextStack + max len 1 + (q - max len 1)) + _ ≤ m.recorder.used + _
  omega

omit hs in
/-- Names and frames are no part of the accounts. -/
theorem Solvent.ofMemory (hm : Solvent s P q h m) {env : Environment}
    (same : env.memory = m.env.memory) : Solvent s P q h { m with env } :=
  ⟨same ▸ hm.stack, same ▸ hm.heap, hm.used, hm.count, same ▸ hm.tidy, hm.moments⟩

omit hs in
/-- The end of variables gives nothing back. -/
theorem Solvent.retire (hm : Solvent s P q h m) {env : Environment} {bases : List Address}
    (ended : env.memory = m.env.memory.retireAll bases) :
    Solvent s P q h { m with env } ∧ m.env.memory.Persists env.memory := by
  have counters := m.env.memory.counters_retireAll bases
  have tidy : (m.env.memory.retireAll bases).Tidy :=
    Memory.retireAll_induction hm.tidy (fun _ a h => h.retire a) bases
  have persists : m.env.memory.Persists (m.env.memory.retireAll bases) :=
    Memory.retireAll_induction (.refl _) (fun _ a h => h.trans (Memory.persists_retire _ a)) bases
  rw [← ended] at counters tidy persists
  exact ⟨⟨counters.1 ▸ hm.stack, counters.2 ▸ hm.heap, hm.used, hm.count, tidy, hm.moments⟩, persists⟩

namespace Incurs

theorem look {Q : α → Prop} (hx : Inspects x m Q) (hf : ∀ a, Q a → Incurs s W V P w k (f a) m) :
    Incurs s W V P w k (x >>= f) m := by
  intro q r room hm
  refine Ensures.bind (Ensures.mono hx ?_ ?_)
  · rintro a m' ⟨rfl, ha⟩
    exact hf a ha q r room hm
  · rintro e m' rfl
    exact hm.settled hs

omit hs in
theorem after (hx : Affords s W V P k x m)
    (hf : ∀ a m', m.env.Continues m'.env → Incurs s W V P w j (f a) m') :
    Incurs s W V P w (k + j) (x >>= f) m := by
  intro q r room hm
  rw [Nat.add_assoc] at hm
  refine (hx q (j + r) (Nat.le_add_right_of_le room) hm).andThen ?_
  rintro a m₁ ⟨hm₁, kept⟩
  refine (hf a m₁ kept.continues q r (kept.depth ▸ room) hm₁).imp ?_
  rintro b m₂ ⟨unpaid, on⟩
  exact ⟨unpaid, kept.continues.trans on⟩

omit hs in
theorem ofAffords (hx : Affords s W V P k x m) : Incurs s W V P w k x m := by
  intro q r room hm
  refine (hx q r (Nat.le_add_right_of_le room) hm).imp ?_
  rintro a m₁ ⟨hm₁, kept⟩
  exact ⟨⟨0, Nat.zero_le _, Nat.zero_le _, hm₁⟩, kept.continues⟩

omit hs in
theorem thenReturn {g : α → β} (hx : Incurs s W V P w k x m) :
    Incurs s W V P w k (x >>= fun a => pure (g a)) m :=
  fun q r room hm => (hx q r room hm).andThen fun _ _ => id

end Incurs

variable {call : CallHandler}

omit hs in
theorem Affords.assured (hx : Affords s W V P k x m) : Affords s W V P k (Run.assured x) m :=
  fun q r room hm => (hx q r room hm).assured fun _ _ => id

theorem storeRun_affords (pos : Position) (a : Address) (vs : List Value) (m : Machine) :
    Affords s W V P 0 (storeRun pos a vs) m := by
  induction vs generalizing a m with
  | nil => exact .pure _
  | cons v vs ih => exact .bind (storeSlot_affords hs a v pos m).assured fun _ m₁ => ih (a + 1) m₁

theorem evalOperand_affords (hc : CallsAfford s W V P call) (e : Expr) (m : Machine) :
    Affords s W V P (e.heapRoom s.structs) (evalOperand s call e) m :=
  .bind (j := 0) (evalExpr_affords hs hc e m) fun v _ => .ofInspects hs (inspects_requireDefined v e)

theorem converted_affords (hc : CallsAfford s W V P call) (t : CType) (e : Expr) (pos : Position)
    (m : Machine) :
    Affords s W V P (e.heapRoom s.structs) (do convertTo t (← evalOperand s call e) pos) m :=
  .bind (j := 0) (evalOperand_affords hs hc e m) fun v _ => .ofInspects hs (inspects_convertTo t v pos)

theorem evalItems_affords (hc : CallsAfford s W V P call) (elem : CType) (pos : Position)
    (es : List Expr) (m : Machine) :
    Affords s W V P (exprsHeapRoom s.structs es) (evalItems s call elem pos es) m := by
  induction es generalizing m with
  | nil => exact .pure _
  | cons e rest ih =>
    exact .bind (evalOperand_affords hs hc e m) fun v m₁ =>
      .look hs (inspects_convertTo elem v pos) fun _ _ => .bind (j := 0) (ih m₁) fun _ _ => .pure _

theorem initialValue_affords (hc : CallsAfford s W V P call) (type : CType) (init : Option Expr)
    (pos : Position) (m : Machine) :
    Affords s W V P ((init.map (·.heapRoom s.structs)).getD 0) (initialValue s call type init pos) m := by
  cases init with
  | some e => exact converted_affords hs hc type e pos m
  | none => exact .look hs inspects_atFileScope fun _ _ => .pure _

theorem declareScalar_incurs (isOpen : m.env.Open) (hw : 1 ≤ w) (hv : w ≤ V) (name : String)
    (type : CType) (v : Value) : Incurs s W V P w 0 (declareScalar name type v) m := by
  intro q r room hm
  rw [Nat.zero_add] at hm
  obtain ⟨hm₁, kept⟩ := hm.withRoom hs .scalar 1 (.inl rfl) (by omega) type v
  have made := m.env.memory.slotsAt_allocate .scalar 1 (.inl ⟨rfl, rfl⟩) type v
  exact ⟨⟨1, Environment.le_shownRoom_declare (kept.isOpen isOpen) made name, hw,
    hm₁.ofMemory (Environment.memory_declare _ _ _)⟩, kept.continues.trans (.declare _ _ _)⟩

theorem declareArray_incurs (isOpen : m.env.Open) (name : String) (elem : CType) {size : Nat}
    (hw : max size 1 ≤ w) (hv : w ≤ V) (fill : Value) (values : List Value) (pos : Position) :
    Incurs s W V P w 0 (declareArray name elem size fill values pos) m := by
  refine .look hs inspects_environment ?_
  rintro env rfl
  intro q r room hm
  rw [Nat.zero_add] at hm
  obtain ⟨hm₁, kept⟩ := hm.withRoom hs .array size (.inr rfl) (Nat.le_trans hw (by omega)) elem fill
  have made := m.env.memory.slotsAt_allocate .array size (.inr rfl) elem fill
  -- the room is there, but no name is bound to it yet; storing calls nothing, so it needs no credit
  have stored := storeRun_affords (W := 0) (V := 0) hs pos
    (m.env.memory.allocate .array elem size fill).1 values
    { m with env := m.env.withRoom .array elem size fill }
  refine Ensures.bind ((stored _ r ?_ (Nat.zero_add r ▸ hm₁)).andThen ?_)
  · rw [Nat.zero_mul]
    exact Nat.zero_le _
  · rintro - m₂ ⟨hm₂, kept₂⟩
    have kept := kept.trans kept₂
    have room₂ := Nat.le_trans made (Memory.slotsAt_mono kept₂.persists _)
    exact ⟨⟨max size 1, Environment.le_shownRoom_declare (kept.isOpen isOpen) room₂ name, hw,
      hm₂.ofMemory (Environment.memory_declare _ _ _)⟩, kept.continues.trans (.declare _ _ _)⟩

theorem declare_incurs (hc : CallsAfford s W V P call) (isOpen : m.env.Open) (d : Decl)
    (hw : d.stackRoom ≤ w) (hv : w ≤ V) : Incurs s W V P w (d.heapRoom s.structs) (declare s call d) m := by
  cases d with
  | scalar name type init pos =>
    exact .after (j := 0) (initialValue_affords hs hc type init pos m) fun v m₁ on =>
      .look hs inspects_atFileScope fun _ _ =>
        .thenReturn (declareScalar_incurs hs (isOpen.of_shape on.shape) hw hv name type v)
  | array name elem size init pos =>
    exact .look hs inspects_atFileScope fun _ _ =>
      .after (j := 0) (evalItems_affords hs hc elem pos _ m) fun values m₁ on =>
        .thenReturn (declareArray_incurs hs (isOpen.of_shape on.shape) name elem hw hv _ values pos)

theorem assign_affords (hc : CallsAfford s W V P call) (target : Expr) (op : Option Arith) (value : Expr)
    (pos : Position) (m : Machine) :
    Affords s W V P (value.heapRoom s.structs + target.heapRoom s.structs)
      (assign s call target op value pos) m := by
  refine .bind (evalOperand_affords hs hc value m) fun right m₁ =>
    .bind (j := 0) (evalPlace_affords hs hc target m₁) fun p m₂ => ?_
  cases op with
  | none => exact p.write_affords hs right pos m₂
  | some op =>
    exact .look hs (p.inspects_read target) fun old _ => .look hs (inspects_ofCause pos _)
      fun new _ => p.write_affords hs new pos m₂

theorem describeEffect_affords (hc : CallsAfford s W V P call) (e : Expr) (m : Machine) :
    Affords s W V P (e.heapRoom s.structs) (describeEffect s call e) m := by
  have whole := evalExpr_affords hs hc e m
  cases e with
  | print format args pos =>
    exact .bind (j := 0) (evalArgs_affords hs hc args m) fun values m₁ =>
      .thenReturn (printFormatted_affords hs format values pos m₁)
  | read format targets pos =>
    exact .bind (j := 0) (evalPlaces_affords hs hc targets m) fun places m₁ =>
      .thenReturn (readFormatted_affords hs format targets places pos m₁)
  | step op operand pos =>
    exact .bind (j := 0) (evalPlace_affords hs hc operand m) fun p m₁ =>
      .thenReturn (stepPlace_affords hs op p operand pos m₁)
  | _ => exact .thenReturn whole

theorem perform_incurs (hc : CallsAfford s W V P call) (isOpen : m.env.Open) (c : Simple)
    (hw : c.stackRoom ≤ w) (hv : w ≤ V) : Incurs s W V P w (c.heapRoom s.structs) (perform s call c) m := by
  cases c with
  | declare d => exact declare_incurs hs hc isOpen d hw hv
  | assign target op value pos =>
    exact .thenReturn (.ofAffords (assign_affords hs hc target op value pos m))
  | effect e pos => exact .ofAffords (describeEffect_affords hs hc e m)

/-- A statement that records its own step pays for its variable, and has credit for more heap. -/
theorem runSimple_pays (hc : CallsAfford s W V P call) (isOpen : m.env.Open) (c : Simple)
    (hw : c.stackRoom ≤ V) (room : W * (s.limits.depth - m.env.depth) + V ≤ q)
    (hm : Solvent s P q (c.heapRoom s.structs + r) m) :
    Ensures (runSimple s call c) m
      (fun _ m' => Solvent s P q (r + P) m' ∧ m.env.Continues m'.env) (fun _ m' => m'.Settled) := by
  refine (perform_incurs hs hc isOpen c hw (Nat.le_refl V) q r room hm).andThen ?_
  rintro description m₁ ⟨⟨n, shown, small, hm₁⟩, on⟩
  refine (record_pays hs hm₁ shown c.pos.line description none).imp ?_
  rintro - m₂ ⟨hm₂, same⟩
  rw [Nat.sub_add_cancel (by omega)] at hm₂
  exact ⟨hm₂, same ▸ on⟩

theorem runClause_incurs (hc : CallsAfford s W V P call) (isOpen : m.env.Open) (c : Simple)
    (hw : c.stackRoom ≤ w) (hv : w ≤ V) : Incurs s W V P w (c.heapRoom s.structs) (runClause s call c) m := by
  unfold runClause
  split
  · intro q r room hm
    refine (runSimple_pays hs hc isOpen c (Nat.le_trans hw hv) room hm).imp ?_
    rintro - m₁ ⟨hm₁, on⟩
    exact ⟨⟨0, Nat.zero_le _, Nat.zero_le _, hm₁.weaken (Nat.le_refl q) (Nat.le_add_right r P)⟩, on⟩
  · cases c with
    | declare d => exact .thenReturn (declare_incurs hs hc isOpen d hw hv)
    | assign target op value pos =>
      exact .thenReturn (.ofAffords (assign_affords hs hc target op value pos m))
    | effect e pos => exact .thenReturn (.ofAffords (evalExpr_affords hs hc e m))

theorem runOptionalClause_incurs (hc : CallsAfford s W V P call) (isOpen : m.env.Open)
    (c : Option Simple) (hw : clauseStackRoom c ≤ w) (hv : w ≤ V) :
    Incurs s W V P w (clauseHeapRoom s.structs c) (runOptionalClause s call c) m := by
  cases c with
  | none => exact .ofAffords (.pure _)
  | some c => exact runClause_incurs hs hc isOpen c hw hv

theorem evalCondition_affords (hc : CallsAfford s W V P call) (e : Expr) (pos : Position) (m : Machine) :
    Affords s W V P (e.heapRoom s.structs) (evalCondition s call e pos) m := by
  refine .bind (j := 0) (evalOperand_affords hs hc e m) fun v _ => ?_
  split
  · exact .pure _
  · exact .fail hs _ _

/-! Loops and blocks -/

omit hs in
/-- A piece that pays for a variable that was declared just before it. -/
def Pays (s : Setting) (W V P k : Nat) (x : Run α) (m : Machine) : Prop :=
  ∀ n q r, n ≤ m.env.shownRoom → W * (s.limits.depth - m.env.depth) + V ≤ q + W →
    Solvent s P q (k + r) m →
    Ensures x m (fun _ m' => Solvent s P (q + n) (r + P) m' ∧ m.env.Continues m'.env)
      (fun _ m' => m'.Settled)

/-- The test of a loop shows what its head has declared, whatever the condition does. -/
theorem testLoop_pays (hc : CallsAfford s W V P call) (cond : Option Expr) (pos : Position)
    (m : Machine) :
    Pays s W V P (conditionHeapRoom s.structs cond) (testLoop s call cond pos) m := by
  intro n q r shown room hm
  have condition : Affords s W V P (conditionHeapRoom s.structs cond) (loopCondition s call cond pos) m := by
    cases cond with
    | none => exact .pure _
    | some e => exact evalCondition_affords hs hc e pos m
  refine (condition q r room hm).andThen ?_
  rintro holds m₁ ⟨hm₁, kept⟩
  refine (record_pays hs hm₁ (Nat.le_trans shown kept.shownRoom) _ _ _).andThen ?_
  rintro - m₂ ⟨hm₂, same⟩
  exact ⟨hm₂, same ▸ kept.continues⟩

/-- Each turn of a loop is paid for by the step of its test. -/
theorem loop_settles {test : Run Bool} {body : Run Flow} {update : Run Unit} {c b u : Nat}
    (hv : W ≤ V) (fits : c + (b + u) ≤ P) (ht : ∀ m, Pays s W V P c test m)
    (hb : ∀ m, m.env.InBlock → Settles s W V P b body m)
    (hu : ∀ m, m.env.InBlock → Incurs s W V P W u update m) (fuel : Nat) (inBlock : m.env.InBlock)
    (shown : n ≤ m.env.shownRoom) (small : n ≤ W)
    (room : W * (s.limits.depth - m.env.depth) + V ≤ q + n) (hm : Solvent s P q (c + r) m) :
    Ensures (loop test body update fuel) m
      (fun _ m' => Solvent s P (q + n) r m' ∧ m.env.Continues m'.env) (fun _ m' => m'.Settled) := by
  induction fuel generalizing m n q with
  | zero => exact hm.settled hs
  | succ fuel ih =>
    refine (ht m n q r shown (by omega) hm).andThen ?_
    rintro holds m₁ ⟨hm₁, on₁⟩
    have ended : Solvent s P (q + n) r m₁ := hm₁.weaken (Nat.le_refl _) (Nat.le_add_right _ _)
    split
    · have inBlock₁ := inBlock.of_shape on₁.shape
      have turn : Solvent s P (q + n) (b + (u + (c + r))) m₁ :=
        hm₁.weaken (Nat.le_refl _) (by omega)
      refine (hb m₁ inBlock₁ _ _ (on₁.depth ▸ room) turn).andThen ?_
      rintro flow m₂ ⟨hm₂, on₂⟩
      have on₂ := on₁.trans on₂
      have left : Solvent s P (q + n) r m₂ := hm₂.weaken (Nat.le_refl _) (by omega)
      have again : Ensures (do update; loop test body update fuel) m₂
          (fun _ m' => Solvent s P (q + n) r m' ∧ m.env.Continues m'.env) (fun _ m' => m'.Settled) := by
        have inBlock₂ := inBlock.of_shape on₂.shape
        refine (hu m₂ inBlock₂ _ _ (on₂.depth ▸ room) hm₂).andThen ?_
        rintro - m₃ ⟨⟨n', shown', small', hm₃⟩, on₃⟩
        have on₃ := on₂.trans on₃
        have owed : q + n - n' + n' = q + n := Nat.sub_add_cancel (by omega)
        refine (ih (inBlock.of_shape on₃.shape) shown' small' ?_ hm₃).imp ?_
        · rw [owed, on₃.depth]
          exact room
        · rintro flow m₄ ⟨hm₄, on₄⟩
          exact ⟨owed ▸ hm₄, on₃.trans on₄⟩
      cases flow with
      | normal => exact again
      | continueLoop => exact again
      | breakLoop => exact ⟨left, on₂⟩
      | leave v => exact ⟨left, on₂⟩
    · exact ⟨ended, on₁⟩

namespace Settles

omit hs in
theorem ofAffords (hx : Affords s W V P k x m) : Settles s W V P k x m := by
  intro q r room hm
  refine (hx q r (Nat.le_add_right_of_le room) hm).imp ?_
  rintro a m₁ ⟨hm₁, kept⟩
  exact ⟨hm₁, kept.continues⟩

omit hs in
theorem mono (hx : Settles s W V P k x m) (hk : k ≤ j) : Settles s W V P j x m := fun q r room hm =>
  hx q r room (hm.weaken (Nat.le_refl q) (Nat.add_le_add_right hk r))

omit hs in
theorem bind (hx : Settles s W V P k x m)
    (hf : ∀ a m', m.env.Continues m'.env → Settles s W V P j (f a) m') :
    Settles s W V P (k + j) (x >>= f) m := by
  intro q r room hm
  rw [Nat.add_assoc] at hm
  refine (hx q (j + r) room hm).andThen ?_
  rintro a m₁ ⟨hm₁, on⟩
  refine (hf a m₁ on q r (on.depth ▸ room) hm₁).imp ?_
  rintro b m₂ ⟨hm₂, on₂⟩
  exact ⟨hm₂, on.trans on₂⟩

omit hs in
theorem thenReturn {g : α → β} (hx : Settles s W V P k x m) :
    Settles s W V P k (x >>= fun a => pure (g a)) m :=
  .bind (j := 0) hx fun a _ _ => .ofAffords (.pure (g a))

omit hs in
theorem andThen (hx : Settles s W V P 0 x m)
    (hf : ∀ a m', m.env.Continues m'.env → Settles s W V P j (f a) m') : Settles s W V P j (x >>= f) m :=
  Nat.zero_add j ▸ .bind hx hf

theorem record (line : Nat) (description : String) (returned : Option Value) :
    Settles s W V P 0 (Run.record s line description returned) m := by
  intro q r _ hm
  rw [Nat.zero_add] at hm
  refine (record_pays hs hm (Nat.zero_le _) line description returned).imp ?_
  rintro - m₁ ⟨hm₁, same⟩
  exact ⟨hm₁.weaken (Nat.le_refl q) (Nat.le_add_right r P), same ▸ .refl _⟩

end Settles

omit hs in
theorem inBlock_settles {body : Run Flow} (hb : ∀ m, m.env.InBlock → Settles s W V P k body m)
    (inBlock : m.env.InBlock) : Settles s W V P k (Stepwise.inBlock body) m := by
  intro q r room hm
  obtain ⟨blocks, rest, shape⟩ := inBlock
  have opened := Environment.shape_openBlock shape
  have memory : m.env.openBlock.memory = m.env.memory := Environment.memory_onFrame _ _
  have depth : m.env.openBlock.depth = m.env.depth := by
    rw [← Environment.length_shape, ← Environment.length_shape, opened, shape]
    rfl
  refine Ensures.bind ((hb { m with env := m.env.openBlock } ⟨_, _, opened⟩ q r
    (depth ▸ room) (hm.ofMemory memory)).andThen ?_)
  rintro flow m₂ ⟨hm₂, on⟩
  obtain ⟨bases, ended⟩ := m₂.env.memory_closeBlock
  obtain ⟨hm₃, persists⟩ := hm₂.retire ended
  refine ⟨hm₃, (Environment.shape_closeBlock (on.shape.trans opened)).trans shape.symm, ?_⟩
  exact (memory ▸ on.persists).trans persists

/-- A loop with a head: what the head declares is unpaid until the first test. -/
theorem headedLoop_settles (hc : CallsAfford s W V P call) (hv : W ≤ V) {init update : Option Simple}
    {cond : Option Expr} {body : Run Flow} {b : Nat} (hwi : clauseStackRoom init ≤ W)
    (hwu : clauseStackRoom update ≤ W)
    (turn : conditionHeapRoom s.structs cond + (b + clauseHeapRoom s.structs update) ≤ P)
    (hb : ∀ m, m.env.InBlock → Settles s W V P b body m) (pos : Position) (inBlock : m.env.InBlock) :
    Settles s W V P (clauseHeapRoom s.structs init +
        (conditionHeapRoom s.structs cond + (b + clauseHeapRoom s.structs update))) (do
      runOptionalClause s call init
      loop (testLoop s call cond pos) body (runOptionalClause s call update) s.fuel) m := by
  intro q r room hm
  rw [Nat.add_assoc] at hm
  refine (runOptionalClause_incurs hs hc inBlock.isOpen init hwi hv q _ room hm).andThen ?_
  rintro - m₁ ⟨⟨n, shown, small, hm₁⟩, on⟩
  have owed : q - n + n = q := Nat.sub_add_cancel (by omega)
  have first : Solvent s P (q - n) (conditionHeapRoom s.structs cond + r) m₁ :=
    hm₁.weaken (Nat.le_refl _) (Nat.add_le_add_right (Nat.le_add_right _ _) r)
  refine (loop_settles hs hv turn (testLoop_pays hs hc cond pos) hb
    (fun m inBlock => runOptionalClause_incurs hs hc inBlock.isOpen update hwu hv) s.fuel
    (inBlock.of_shape on.shape) shown small ?_ first).imp ?_
  · rw [owed, on.depth]
    exact room
  · rintro flow m₂ ⟨hm₂, on₂⟩
    exact ⟨owed ▸ hm₂, on.trans on₂⟩

theorem leaveWith_settles (hc : CallsAfford s W V P call) (returns : CType) (value : Option Expr)
    (pos : Position) (m : Machine) :
    Settles s W V P (conditionHeapRoom s.structs value) (leaveWith s call returns value pos) m := by
  have result : Affords s W V P (conditionHeapRoom s.structs value)
      (returnedValue s call returns value pos) m := by
    unfold returnedValue
    split
    · exact .pure _
    · split
      · exact .fail hs _ _
      · exact converted_affords hs hc returns _ pos m
  refine .bind (j := 0) (.ofAffords result) fun v _ _ => ?_
  dsimp only
  split
  · exact .thenReturn (.record hs _ _ _)
  · exact .thenReturn (.record hs _ _ _)

end

variable {call : CallHandler}

mutual

theorem runStmt_settles (hs : s.HeapSuffices P) (hc : CallsAfford s W V P call) (returns : CType)
    (hv : W ≤ V) (stmt : Stmt) (hh : stmt.stackRoom false ≤ W) (hw : stmt.stackRoom true ≤ V)
    (hp : stmt.heapRoom s.structs ≤ P) (m : Machine) (inBlock : m.env.InBlock) :
    Settles s W V P (stmt.heapRoom s.structs) (runStmt s call returns stmt) m := by
  cases stmt with
  | simple c =>
    refine .thenReturn fun q r room hm => ?_
    refine (runSimple_pays hs hc inBlock.isOpen c hw room hm).imp ?_
    rintro - m₁ ⟨hm₁, on⟩
    exact ⟨hm₁.weaken (Nat.le_refl q) (Nat.le_add_right r P), on⟩
  | block body pos => exact inBlock_settles (runStmts_settles hs hc returns hv body hh hw hp) inBlock
  | branch cond yes no pos =>
    have entered {body : List Stmt} {m₁ : Machine} (on : m.env.Continues m₁.env) (text : String)
        (hb : ∀ m, m.env.InBlock →
          Settles s W V P (stmtsHeapRoom s.structs body) (runStmts s call returns body) m) :
        Settles s W V P (stmtsHeapRoom s.structs body) (do
          Run.record s pos.line text none
          Stepwise.inBlock (runStmts s call returns body)) m₁ :=
      .andThen (.record hs _ _ _) fun _ _ on' =>
        inBlock_settles hb (inBlock.of_shape (on.trans on').shape)
    have condition := evalCondition_affords hs hc cond pos m
    cases no with
    | none =>
      have hpy := Nat.le_of_add_left_le hp
      refine .bind (.ofAffords condition) fun holds m₁ on => ?_
      split
      · exact entered on _ (runStmts_settles hs hc returns hv yes hh hw hpy)
      · exact .mono (.ofAffords (.pure _)) (Nat.zero_le _)
    | some no =>
      obtain ⟨hhy, hhn⟩ := Nat.max_le.mp hh
      obtain ⟨hwy, hwn⟩ := Nat.max_le.mp hw
      have both := Nat.le_of_add_left_le hp
      have hpy := Nat.le_of_add_right_le both
      have hpn := Nat.le_of_add_left_le both
      refine .bind (.ofAffords condition) fun holds m₁ on => ?_
      split
      · exact (entered on _ (runStmts_settles hs hc returns hv yes hhy hwy hpy)).mono
          (Nat.le_add_right _ _)
      · exact (entered on _ (runStmts_settles hs hc returns hv no hhn hwn hpn)).mono
          (Nat.le_add_left _ _)
  | whileLoop cond body pos =>
    intro q r room hm
    have hb := fun m inBlock => inBlock_settles (m := m)
      (runStmts_settles hs hc returns hv body hh hw (Nat.le_of_add_left_le hp)) inBlock
    exact loop_settles hs (n := 0) (u := 0) hv hp (testLoop_pays hs hc (some cond) pos) hb
      (fun _ _ => .ofAffords (.pure _)) s.fuel inBlock (Nat.zero_le _) (Nat.zero_le _) room
      (hm.weaken (Nat.le_refl q) (Nat.add_le_add_right (Nat.le_add_right _ _) r))
  | forLoop init cond update body pos =>
    obtain ⟨hwi, hhr⟩ := Nat.max_le.mp hh
    obtain ⟨hwu, hhb⟩ := Nat.max_le.mp hhr
    have hwb : stmtsStackRoom true body ≤ V := (Nat.max_le.mp (Nat.max_le.mp hw).2).2
    have turn : conditionHeapRoom s.structs cond +
        (stmtsHeapRoom s.structs body + clauseHeapRoom s.structs update) ≤ P :=
      Nat.le_of_add_left_le hp
    have hpb : stmtsHeapRoom s.structs body ≤ P :=
      Nat.le_of_add_right_le (Nat.le_of_add_left_le turn)
    have hb := fun m inBlock =>
      inBlock_settles (m := m) (runStmts_settles hs hc returns hv body hhb hwb hpb) inBlock
    exact inBlock_settles (fun m₁ => headedLoop_settles hs hc hv hwi hwu turn hb pos) inBlock
  | leave value pos => exact leaveWith_settles hs hc returns value pos m
  | breakLoop pos => exact .thenReturn (.record hs _ _ _)
  | continueLoop pos => exact .thenReturn (.record hs _ _ _)

theorem runStmts_settles (hs : s.HeapSuffices P) (hc : CallsAfford s W V P call) (returns : CType)
    (hv : W ≤ V) (stmts : List Stmt) (hh : stmtsStackRoom false stmts ≤ W)
    (hw : stmtsStackRoom true stmts ≤ V) (hp : stmtsHeapRoom s.structs stmts ≤ P) (m : Machine)
    (inBlock : m.env.InBlock) :
    Settles s W V P (stmtsHeapRoom s.structs stmts) (runStmts s call returns stmts) m := by
  cases stmts with
  | nil => exact .ofAffords (.pure _)
  | cons stmt rest =>
    obtain ⟨hh, hhs⟩ := Nat.max_le.mp hh
    obtain ⟨hw, hws⟩ := Nat.max_le.mp hw
    have first := runStmt_settles hs hc returns hv stmt hh hw (Nat.le_of_add_right_le hp) m inBlock
    refine .bind first fun flow m₁ on => ?_
    have others := runStmts_settles hs hc returns hv rest hhs hws (Nat.le_of_add_left_le hp) m₁
      (inBlock.of_shape on.shape)
    have ended (flow : Flow) : Settles s W V P (stmtsHeapRoom s.structs rest) (pure flow) m₁ :=
      .mono (.ofAffords (.pure flow)) (Nat.zero_le _)
    cases flow with
    | normal => exact others
    | breakLoop => exact ended _
    | continueLoop => exact ended _
    | leave v => exact ended _

end

/-! Calls and whole runs -/

def Environment.Binds (env : Environment) (names : List String) : Prop :=
  ∀ n ∈ names, ∃ a, env.locals.find? n = some a ∧ 1 ≤ env.memory.slotsAt a

theorem Environment.Binds.length_le {env : Environment} {names : List String} (h : env.Binds names)
    (distinct : names.Nodup) : names.length ≤ env.shownRoom := by
  let entry (n : String) : String × Address × Scope := (n, (env.locals.find? n).getD 0, .local)
  have shown : names.map entry ⊆ env.visible.entries := by
    intro e he
    obtain ⟨n, hn, rfl⟩ := List.mem_map.mp he
    obtain ⟨a, found, -⟩ := h n hn
    rw [← KeyMap.find?_eq_some_iff, find?_visible, lookup?, found]
    rfl
  have different : (names.map entry).Nodup :=
    distinct.map_on fun n _ n' _ same => congrArg Prod.fst same
  have each (n : String) (hn : n ∈ names) : 1 ≤ env.memory.slotsAt (entry n).2.1 := by
    obtain ⟨a, found, room⟩ := h n hn
    simpa [entry, found] using room
  calc names.length = (names.map fun _ => 1).sum := by simp
    _ ≤ (names.map fun n => env.memory.slotsAt (entry n).2.1).sum := List.sum_le_sum each
    _ = ((names.map entry).map fun e => env.memory.slotsAt e.2.1).sum := by rw [List.map_map]; rfl
    _ ≤ env.shownRoom := sum_le_shownRoom different shown

theorem Environment.locals_declare {env : Environment} (h : env.InBlock) (name : String) (a : Address) :
    (env.declare name a).locals = env.locals.insert name a := by
  obtain ⟨k, rest, shape⟩ := h
  obtain ⟨top, frames, hf, hk, -⟩ := List.map_eq_cons_iff.mp shape
  obtain ⟨b, blocks, hb⟩ := List.exists_cons_of_length_eq_add_one hk
  unfold declare locals Frame.declare
  simp only [hf, hb]

/-- One more name is bound to a variable. -/
theorem Environment.Binds.declare {env env' : Environment} {names : List String} (h : env.Binds names)
    (kept : env.Retains env') (inBlock : env'.InBlock) {a : Address} (room : 1 ≤ env'.memory.slotsAt a)
    (name : String) : (env'.declare name a).Binds (names ++ [name]) := by
  intro n hn
  rw [locals_declare inBlock, memory_declare, find?_insert_name, Names.bind]
  split
  · exact ⟨a, rfl, room⟩
  · rename_i other
    have old : n ∈ names := by simpa [Ne.symm other] using hn
    obtain ⟨a', found, room'⟩ := h n old
    refine ⟨a', ?_, Nat.le_trans room' (Memory.slotsAt_mono kept.persists a')⟩
    rw [locals, kept.frames]
    exact found

/-- Parameters are bound one after another; all of them can be seen in the end. -/
theorem bindParams_incurs (hs : s.HeapSuffices P) (pos : Position) {ps : List Member}
    (vs : List Value) (names : List String) (distinct : (names ++ ps.map (·.name)).Nodup)
    (inBlock : m.env.InBlock) (bound : m.env.Binds names) (enough : names.length + ps.length ≤ q)
    (hm : Solvent s P (q - names.length) h m) :
    Ensures (bindParams pos ps vs) m
      (fun _ m' => (∃ n, n ≤ m'.env.shownRoom ∧ n ≤ q ∧ Solvent s P (q - n) h m') ∧
        m.env.Continues m'.env)
      (fun _ m' => m'.Settled) := by
  induction ps generalizing vs names m with
  | nil => exact ⟨⟨_, bound.length_le (List.nodup_append.mp distinct).1, by omega, hm⟩, .refl _⟩
  | cons p ps ih =>
    rw [List.length_cons] at enough
    cases vs with
    | nil => exact ⟨⟨_, bound.length_le (List.nodup_append.mp distinct).1, by omega, hm⟩, .refl _⟩
    | cons v vs =>
      refine Ensures.bind (Ensures.mono (inspects_convertTo p.type v pos) ?_ ?_)
      · rintro w m₁ ⟨rfl, -⟩
        obtain ⟨hm₁, kept⟩ := hm.withRoom hs .scalar 1 (.inl rfl) (by omega) p.type w
        have made := m₁.env.memory.slotsAt_allocate .scalar 1 (.inl ⟨rfl, rfl⟩) p.type w
        have inBlock' := inBlock.of_shape kept.continues.shape
        have on := kept.continues.trans (.declare _ p.name (m₁.env.memory.allocate .scalar p.type 1 w).1)
        rw [Nat.sub_sub] at hm₁
        rw [List.map_cons, List.append_cons] at distinct
        have bound' : Environment.Binds ((m₁.env.withRoom .scalar p.type 1 w).declare p.name
            (m₁.env.memory.allocate .scalar p.type 1 w).1) (names ++ [p.name]) :=
          bound.declare kept inBlock' made p.name
        refine Ensures.bind ((ih vs _ distinct (inBlock.of_shape on.shape) bound' ?_ ?_).andThen ?_)
        · rw [List.length_append]
          exact Nat.le_trans (by simp; omega) enough
        · rw [List.length_append]
          exact hm₁.ofMemory (Environment.memory_declare _ _ _)
        · rintro more m₂ ⟨unpaid, on₂⟩
          exact ⟨unpaid, on.trans on₂⟩
      · rintro e m₁ rfl
        exact hm.settled hs

theorem inspects_checkArity (f : Function) (args : List Value) (pos : Position) (m : Machine) :
    Inspects (checkArity f args pos) m fun _ => True := by
  unfold checkArity
  dsimp only
  split
  · exact inspects_fail _ _
  · exact inspects_pure trivial

/-- A setting whose functions ask for no more than `W` slots as parameters and in the heads of loops, `V` in
any one declaration, and `P` slots of heap in one pass. -/
structure Setting.Bounded (s : Setting) (W V P : Nat) : Prop where
  heap : s.HeapSuffices P
  heads_le : W ≤ V
  heads : ∀ f ∈ s.functions, f.stackRoom false ≤ W
  stackRoom : ∀ f ∈ s.functions, f.stackRoom true ≤ V
  heapRoom : ∀ f ∈ s.functions, stmtsHeapRoom s.structs f.body ≤ P
  params : ∀ f ∈ s.functions, Distinct f.params

section

variable (hs : s.Bounded W V P)
include hs

/-- The step that enters a function pays for its parameters. -/
theorem openFrame_pays {f : Function} (hf : f ∈ s.functions) (args : List Value) (line : Nat)
    (pos : Position) (room : W ≤ q) (hm : Solvent s P q h m) :
    Ensures (openFrame s f args line pos) m
      (fun _ m' => Solvent s P q (h + P) m' ∧ m'.env.shape = 1 :: m.env.shape ∧
        m.env.memory.Persists m'.env.memory)
      (fun _ m' => m'.Settled) := by
  refine Ensures.bind (Ensures.mono (inspects_checkArity f args pos m) ?_ ?_)
  · rintro - m' ⟨rfl, -⟩
    let pushed : Machine := { m' with env := m'.env.pushFrame (.enter ⟨f.name, line, f.pos.line⟩) }
    have params : f.params.length ≤ W := (Nat.max_le.mp (hs.heads f hf)).1
    have bound := bindParams_incurs hs.heap pos args [] (m := pushed) (hs.params f hf) ⟨0, _, rfl⟩
      nofun (q := q) (by simpa using Nat.le_trans params room) (hm.ofMemory rfl)
    refine Ensures.bind (bound.andThen ?_)
    rintro texts m₁ ⟨⟨n, shown, small, hm₁⟩, on⟩
    refine (record_pays hs.heap hm₁ shown _ _ _).imp ?_
    rintro - m₂ ⟨hm₂, same⟩
    rw [Nat.sub_add_cancel small] at hm₂
    exact ⟨hm₂, same ▸ on.shape, same ▸ on.persists⟩
  · rintro e m' rfl
    exact hm.settled hs.heap

variable {call : CallHandler}

theorem runBody_settles (hc : CallsAfford s W V P call) {f : Function} (hf : f ∈ s.functions)
    (inBlock : m.env.InBlock) : Settles s W V P P (runBody s call f) m := by
  have body := runStmts_settles hs.heap hc f.returns hs.heads_le f.body
    (Nat.max_le.mp (hs.heads f hf)).2 (Nat.max_le.mp (hs.stackRoom f hf)).2 (hs.heapRoom f hf) m inBlock
  refine .bind (j := 0) (body.mono (hs.heapRoom f hf)) fun flow m₁ _ => ?_
  have exit : Settles s W V P 0 (do
      Run.record s f.endPos.line ("exit " ++ f.name) none
      return f.fallback) m₁ := .thenReturn (.record hs.heap _ _ _)
  cases flow with
  | leave v => exact .ofAffords (.pure v)
  | normal => exact exit
  | breakLoop => exact exit
  | continueLoop => exact exit

theorem runInFrame_pays (hc : CallsAfford s W V P call) {f : Function} (hf : f ∈ s.functions)
    (args : List Value) (line : Nat) (pos : Position) (free : m.env.depth < s.limits.depth)
    (room : W * (s.limits.depth - m.env.depth) + V ≤ q + W) (hm : Solvent s P q r m) :
    Ensures (runInFrame s call f args line pos) m
      (fun _ m' => Solvent s P q r m' ∧ m.env.memory.Persists m'.env.memory)
      (fun _ m' => m'.Settled) := by
  -- one of the calls that may still come to be under way now is
  obtain ⟨d, hd⟩ := Nat.exists_eq_add_of_lt free
  have calls : s.limits.depth - m.env.depth = d + 1 := by omega
  rw [calls, Nat.mul_succ] at room
  have waiting : W * d + V ≤ q := by omega
  have params : W ≤ q := Nat.le_trans hs.heads_le (Nat.le_of_add_left_le waiting)
  refine (openFrame_pays hs hf args line pos params hm).andThen ?_
  rintro - m₁ ⟨hm₁, shape, persists⟩
  have depth : m₁.env.depth = m.env.depth + 1 := by
    rw [← Environment.length_shape, shape, List.length_cons, Environment.length_shape]
  rw [Nat.add_comm] at hm₁
  refine (runBody_settles hs hc hf ⟨0, _, shape⟩ q r ?_ hm₁).andThen ?_
  · rwa [depth, show s.limits.depth - (m.env.depth + 1) = d by omega]
  · rintro v m₂ ⟨hm₂, on⟩
    obtain ⟨bases, ended⟩ := m₂.env.memory_popFrame
    obtain ⟨hm₃, persists'⟩ := hm₂.retire ended
    exact ⟨hm₃, (persists.trans on.persists).trans persists'⟩

/-- A call pays for all that is taken in it. -/
theorem callFunction_affords (n : Nat) {f : Function} (hf : f ∈ s.functions) (args : List Value)
    (line : Nat) (pos : Position) (m : Machine) :
    Affords s W V P 0 (callFunction s n f args line pos) m := by
  induction n generalizing f args line pos m with
  | zero => exact .throw hs.heap _
  | succ n ih =>
    have calls : CallsAfford s W V P (s.handlerWithin n) :=
      fun g hg values place m => ih hg values place.line place m
    intro q r room hm
    rw [Nat.zero_add] at hm
    have framed : Ensures (callFunction s (n + 1) f args line pos) m
        (fun _ m' => Solvent s P q r m' ∧ m.env.memory.Persists m'.env.memory)
        (fun _ m' => m'.Settled) := by
      refine Ensures.bind ?_
      unfold Ensures
      rw [checkDepth_eq]
      by_cases deep : s.limits.depth ≤ m.env.depth
      · rw [if_pos deep]
        exact hm.settled hs.heap
      · rw [if_neg deep]
        exact runInFrame_pays hs calls hf args line pos (Nat.not_le.mp deep) room hm
    refine (framed.and (callFunction_brackets s (n + 1) f args line pos m)).mono ?_ fun _ _ => And.left
    rintro v m' ⟨⟨hm', persists⟩, ⟨frames, globals⟩, -⟩
    exact ⟨hm', frames, globals, persists⟩

theorem callsAfford_handlerWithin (n : Nat) : CallsAfford s W V P (s.handlerWithin n) :=
  fun _ hf args pos m => callFunction_affords hs n hf args pos.line pos m

theorem runGlobals_pays {ds : List Decl} (hw : ∀ d ∈ ds, d.stackRoom ≤ V)
    (hp : ∀ d ∈ ds, d.heapRoom s.structs ≤ P) (outside : m.env.shape = [])
    (room : W * s.limits.depth + V ≤ q) (hm : Solvent s P q P m) :
    Ensures (runGlobals s ds) m (fun _ m' => Solvent s P q P m' ∧ m'.env.shape = [])
      (fun _ m' => m'.Settled) := by
  induction ds generalizing m with
  | nil => exact ⟨hm, outside⟩
  | cons d ds ih =>
    obtain ⟨hw, hws⟩ := List.forall_mem_cons.mp hw
    obtain ⟨hp, hps⟩ := List.forall_mem_cons.mp hp
    have depth : m.env.depth = 0 := by rw [← Environment.length_shape, outside]; rfl
    have isOpen : m.env.Open := by
      intro rest
      rw [outside]
      nofun
    have first := runSimple_pays hs.heap (callsAfford_handlerWithin hs s.fuel) isOpen (.declare d) hw
      (q := q) (r := 0) (by rwa [depth]) (hm.weaken (Nat.le_refl q) hp)
    refine first.andThen ?_
    rintro - m₁ ⟨hm₁, on⟩
    exact ih hws hps (on.shape.trans outside) (hm₁.weaken (Nat.le_refl q) (Nat.le_add_left _ _))

omit hs in
theorem Solvent.start (enough : 32 * (Memory.stackStart.toNat + q) + s.limits.memory ≤
    32 * Memory.heapStart.toNat) (input : String) : Solvent s P q P (.start input) where
  stack := Nat.le_trans enough (Nat.le_add_left _ _)
  heap := Nat.le_of_eq (by show _ = _ + P * 1; rw [Nat.mul_one]; rfl)
  used := Nat.zero_le _
  count := Nat.zero_le _
  tidy := .empty
  moments := nofun

/-- A run never takes more room than there is. -/
theorem runProgram_settled {globals : List Decl} (hw : ∀ d ∈ globals, d.stackRoom ≤ V)
    (hp : ∀ d ∈ globals, d.heapRoom s.structs ≤ P)
    (start : 32 * (Memory.stackStart.toNat + (W * s.limits.depth + V)) + s.limits.memory ≤
      32 * Memory.heapStart.toNat) (input : String) :
    Leaves (runProgram s globals) (.start input) Machine.Settled := by
  refine (runGlobals_pays hs hw hp rfl (Nat.le_refl _) (.start start input)).andThen ?_
  rintro - m ⟨hm, outside⟩
  cases hf : s.function? "main" with
  | none => exact hm.settled hs.heap
  | some f =>
    have depth : m.env.depth = 0 := by rw [← Environment.length_shape, outside]; rfl
    have main := callFunction_affords hs s.fuel (List.mem_of_find?_eq_some hf) [] 0 f.pos m
      (W * s.limits.depth + V) 0 (by rw [depth]; exact Nat.le_add_right _ _)
      (hm.weaken (Nat.le_refl _) (Nat.zero_le _))
    exact main.andThen fun _ _ h => h.1.settled hs.heap

end

end Stepwise
