import Mathlib.Data.List.Nodup
import Stepwise.Proofs.Store

/-! Who owns a variable. Each live variable belongs to one declaration outside of functions or to one open
block of one frame, which has it on its list; names only ever stand for variables that are owned where the
name is bound. So a block that closes, or a frame that is left, ends just what nothing else refers to by
name. -/

namespace Stepwise

/-- The addresses declared in the open blocks of all frames. -/
def Environment.owned (env : Environment) : List Address :=
  env.frames.flatMap fun f => allocationsOf f.blocks

/-- What names stand for at the top of the file, or in the frame of a number. -/
def Environment.bound (env : Environment) : Option Nat → Names
  | none => env.globals.find?
  | some i => fun n => env.frames[i]?.bind (·.bindings.find? n)

theorem Environment.bound_of_lookup? {env : Environment} {n : String} {a : Address} {scope : Scope}
    (h : env.lookup? n = some (a, scope)) : ∃ site, env.bound site n = some a := by
  unfold lookup? at h
  split at h
  · rename_i found
    cases h
    refine ⟨some 0, ?_⟩
    unfold locals at found
    split at found
    · exact nomatch found
    · rename_i top rest frames
      simpa [bound, frames] using found
  · obtain ⟨b, hb, heq⟩ := Option.map_eq_some_iff.mp h
    cases heq
    exact ⟨none, hb⟩

def Memory.LivesAt (m : Memory) (a : Address) : Prop :=
  ∃ al, m.allocation? a = some al ∧ al.live ∧ al.struct? = none

def Memory.Declared (m : Memory) (d : Decl) (a : Address) : Prop :=
  ∃ x : Variable, x.Of d ∧ m.allocation? a = some (x.allocation a)

/-- The discipline of names and variables, when `made` are the declarations outside of functions that
were carried out, each with the address of its variable. -/
structure Owned (made : List (Decl × Address)) (env : Environment) : Prop where
  declared : ∀ e ∈ made, env.memory.Declared e.1 e.2
  nodup : (made.map (·.2) ++ env.owned).Nodup
  live : ∀ a, env.memory.LivesAt a ↔ a ∈ made.map (·.2) ++ env.owned
  /-- Of the declarations of one name the last counts. -/
  globals : ∀ n, env.globals.find? n = (made.reverse.find? (·.1.name == n)).map (·.2)
  frames : ∀ f ∈ env.frames, Scoped f.bindings.find? f.blocks

namespace Owned

variable {made : List (Decl × Address)} {env env' : Environment} {structs : Structs}

theorem empty : Owned [] .empty where
  declared _ h := nomatch h
  nodup := List.nodup_nil
  live a := by simp [Memory.LivesAt, Memory.allocation?, Environment.empty, Memory.empty, Environment.owned]
  globals _ := rfl
  frames _ h := nomatch h

/-- What is owned has an allocation. -/
theorem allocated (h : Owned made env) {a : Address} (ha : a ∈ made.map (·.2) ++ env.owned) :
    env.memory.allocation? a ≠ none := by
  obtain ⟨al, hal, -, -⟩ := (h.live a).mpr ha
  rw [hal]
  nofun

/-- Nodes may come and go, and slots may change. -/
theorem of_memory (h : Owned made env) {memory : Memory}
    (same : ∀ a al, al.struct? = none →
      (memory.allocation? a = some al ↔ env.memory.allocation? a = some al)) :
    Owned made { env with memory } where
  declared e he := by
    obtain ⟨x, hx, hal⟩ := h.declared e he
    have lives := (h.live e.2).mpr (List.mem_append_left _ (List.mem_map_of_mem he))
    obtain ⟨al, hal', -, node⟩ := lives
    obtain rfl := Option.some.inj (hal.symm.trans hal')
    exact ⟨x, hx, (same _ _ node).mpr hal⟩
  nodup := h.nodup
  live a := by
    rw [show Environment.owned { env with memory } = env.owned from rfl, ← h.live a]
    constructor
    · rintro ⟨al, hal, live, node⟩
      exact ⟨al, (same a al node).mp hal, live, node⟩
    · rintro ⟨al, hal, live, node⟩
      exact ⟨al, (same a al node).mpr hal, live, node⟩
  globals := h.globals
  frames := h.frames

/-- Addresses may be taken from those who owned them, if what is there ends. -/
theorem retire (h : Owned made env) {bases : List Address}
    (memory : env'.memory = env.memory.retireAll bases) (globals : env'.globals = env.globals)
    (taken : (made.map (·.2) ++ env.owned).Perm (bases ++ (made.map (·.2) ++ env'.owned)))
    (frames : ∀ f ∈ env'.frames, Scoped f.bindings.find? f.blocks) : Owned made env' := by
  have split := List.nodup_append.mp (taken.nodup_iff.mp h.nodup)
  have kept {a : Address} (ha : a ∈ made.map (·.2) ++ env'.owned) : a ∉ bases :=
    fun hb => split.2.2 a hb a ha rfl
  have same {a : Address} (ha : a ∉ bases) :
      env'.memory.allocation? a = env.memory.allocation? a := by
    rw [memory, Memory.allocation?_retireAll, if_neg ha]
  refine ⟨fun e he => ?_, split.2.1, fun a => ?_, ?_, frames⟩
  · obtain ⟨x, hx, hal⟩ := h.declared e he
    exact ⟨x, hx, (same (kept (List.mem_append_left _ (List.mem_map_of_mem he)))).trans hal⟩
  · constructor
    · rintro ⟨al, hal, live, node⟩
      have ha : a ∉ bases := by
        intro ha
        rw [memory, Memory.allocation?_retireAll, if_pos ha] at hal
        obtain ⟨al', -, rfl⟩ := Option.map_eq_some_iff.mp hal
        exact nomatch live
      have before := (h.live a).mp ⟨al, (same ha).symm.trans hal, live, node⟩
      exact (List.mem_append.mp (taken.mem_iff.mp before)).resolve_left ha
    · intro ha
      obtain ⟨al, hal, live, node⟩ := (h.live a).mpr (taken.mem_iff.mpr (List.mem_append_right _ ha))
      exact ⟨al, (same (kept ha)).trans hal, live, node⟩
  · rw [globals]
    exact h.globals

/-- A variable is made where nothing is owned. -/
theorem fresh (h : Owned made env) (hl : Memory.Layout structs env.memory) {x : Variable}
    (hb : (env.memory.make x).InBounds) :
    UInt64.ofNat env.memory.nextStack ∉ made.map (·.2) ++ env.owned := by
  intro ha
  have bound : env.memory.nextStack + max x.len 1 ≤ Memory.heapStart.toNat := hb.stack
  exact h.allocated ha (hl.fresh_stack (by omega))

theorem struct?_allocation {x : Variable} (hx : x.Proper) (base : Address) :
    (x.allocation base).struct? = none := by
  unfold Allocation.struct? Variable.allocation
  rcases hx.kind with ⟨hk, -⟩ | ⟨hk, -⟩ <;> simp only [hk]

/-- With one more variable just its address is one more that is owned. -/
theorem make (h : Owned made env) (hl : Memory.Layout structs env.memory) {x : Variable}
    (hx : x.Proper) (hb : (env.memory.make x).InBounds) {made' : List (Decl × Address)}
    (memory : env'.memory = env.memory.make x)
    (given : (made'.map (·.2) ++ env'.owned).Perm
      (UInt64.ofNat env.memory.nextStack :: (made.map (·.2) ++ env.owned)))
    (declared : ∀ e ∈ made', e ∈ made ∨ env'.memory.Declared e.1 e.2)
    (globals : ∀ n, env'.globals.find? n = (made'.reverse.find? (·.1.name == n)).map (·.2))
    (frames : ∀ f ∈ env'.frames, Scoped f.bindings.find? f.blocks) : Owned made' env' := by
  have fresh := h.fresh hl hb
  have old {a : Address} (ha : UInt64.ofNat env.memory.nextStack ≠ a) :
      env'.memory.allocation? a = env.memory.allocation? a := by
    rw [memory, Memory.allocation?_make, if_neg ha]
  have new : env'.memory.allocation? (UInt64.ofNat env.memory.nextStack) =
      some (x.allocation (UInt64.ofNat env.memory.nextStack)) := by
    rw [memory, Memory.allocation?_make, if_pos rfl]
  refine ⟨fun e he => ?_, ?_, fun a => ?_, globals, frames⟩
  · rcases declared e he with he | he
    · obtain ⟨y, hy, hal⟩ := h.declared e he
      have owned := List.mem_append_left env.owned (List.mem_map_of_mem (f := (·.2)) he)
      exact ⟨y, hy, (old fun heq => fresh (heq ▸ owned)).trans hal⟩
    · exact he
  · exact given.nodup_iff.mpr (List.nodup_cons.mpr ⟨fresh, h.nodup⟩)
  · rw [given.mem_iff, List.mem_cons, ← h.live a]
    by_cases ha : UInt64.ofNat env.memory.nextStack = a
    · subst ha
      exact ⟨fun _ => .inl rfl, fun _ => ⟨_, new, rfl, struct?_allocation hx _⟩⟩
    · unfold Memory.LivesAt
      rw [old ha]
      exact ⟨.inr, fun ha' => ha'.resolve_left (Ne.symm ha)⟩

theorem declareGlobal (h : Owned made env) (hl : Memory.Layout structs env.memory) {x : Variable}
    {d : Decl} (hx : x.Proper) (hd : x.Of d) (outside : env.shape = [])
    (hb : (env.memory.make x).InBounds) :
    Owned (made ++ [(d, UInt64.ofNat env.memory.nextStack)]) (env.make x) := by
  have none : env.frames = [] := List.map_eq_nil_iff.mp outside
  have made' : env.make x = { env with
      memory := env.memory.make x
      globals := env.globals.insert x.name (UInt64.ofNat env.memory.nextStack) } := by
    unfold Environment.make Environment.declare
    simp only [none]
  have bases : (made ++ [(d, UInt64.ofNat env.memory.nextStack)]).map (·.2) =
      made.map (·.2) ++ [UInt64.ofNat env.memory.nextStack] := List.map_append
  rw [made']
  refine h.make hl hx hb rfl ?_ ?_ ?_ h.frames
  · rw [bases, List.append_assoc]
    exact List.perm_middle
  · intro e he
    rcases List.mem_append.mp he with he | he
    · exact .inl he
    · obtain rfl := List.mem_singleton.mp he
      exact .inr ⟨x, hd, by rw [Memory.allocation?_make, if_pos rfl]⟩
  · intro n
    rw [List.reverse_append, List.reverse_singleton, List.singleton_append, List.find?_cons]
    simp only [find?_insert_name, Names.bind, hd.name]
    by_cases hn : d.name = n
    · simp [hn]
    · simp [beq_false_of_ne hn, hn, h.globals n]

theorem declare (h : Owned made env) (hl : Memory.Layout structs env.memory) {x : Variable}
    {k : Nat} {rest : List Nat} (hx : x.Proper) (inBlock : env.shape = (k + 1) :: rest)
    (hb : (env.memory.make x).InBounds) : Owned made (env.make x) := by
  obtain ⟨top, frames, hframes, hblocks, -⟩ := List.map_eq_cons_iff.mp inBlock
  obtain ⟨b, blocks, hb'⟩ := List.exists_cons_of_length_eq_add_one hblocks
  have made' : env.make x = { env with
      memory := env.memory.make x
      frames := top.declare x.name (UInt64.ofNat env.memory.nextStack) :: frames } := by
    unfold Environment.make Environment.declare
    simp only [hframes]
  have top' : top.declare x.name (UInt64.ofNat env.memory.nextStack) = { top with
      bindings := top.bindings.insert x.name (UInt64.ofNat env.memory.nextStack)
      blocks := Frame.declareIn b x.name (UInt64.ofNat env.memory.nextStack)
        (top.bindings.find? x.name) :: blocks } := by
    unfold Frame.declare
    simp only [hb', Frame.find?]
  have fresh := h.fresh hl hb
  rw [made', top']
  refine h.make hl hx hb rfl ?_ (fun e he => .inl he) h.globals ?_
  · unfold Environment.owned allocationsOf
    simp only [hframes, List.flatMap_cons, hb', Scoped.allocations_declareIn, List.append_assoc]
    rw [← List.append_assoc, ← List.append_assoc (made.map _)]
    exact List.perm_middle
  · intro f hf
    rcases List.mem_cons.mp hf with rfl | hf
    · have scoped' := h.frames top (hframes ▸ List.mem_cons_self)
      dsimp only
      rw [find?_insert_name]
      rw [hb'] at scoped'
      refine scoped'.declare x.name fun ha => fresh (List.mem_append_right _ ?_)
      unfold Environment.owned
      rw [hframes, List.flatMap_cons, hb']
      exact List.mem_append_left _ ha
    · exact h.frames f (hframes ▸ List.mem_cons_of_mem _ hf)

theorem openBlock (h : Owned made env) : Owned made env.openBlock := by
  unfold Environment.openBlock Environment.onFrame
  split
  · exact h
  · rename_i top rest hframes
    have owned : Environment.owned { env with frames := top.openBlock :: rest } = env.owned := by
      unfold Environment.owned
      rw [hframes]
      rfl
    refine ⟨h.declared, ?_, ?_, h.globals, ?_⟩
    · rw [owned]
      exact h.nodup
    · rw [owned]
      exact h.live
    · intro f hf
      rcases List.mem_cons.mp hf with rfl | hf
      · exact (h.frames top (hframes ▸ List.mem_cons_self)).openBlock
      · exact h.frames f (hframes ▸ List.mem_cons_of_mem _ hf)

theorem closeBlock (h : Owned made env) : Owned made env.closeBlock := by
  unfold Environment.closeBlock
  split
  · exact h
  · rename_i top rest hframes
    cases hblocks : top.blocks with
    | nil =>
      have closed : top.closeBlock = ([], top) := by
        unfold Frame.closeBlock
        rw [hblocks]
      simp only [closed, ← hframes]
      exact h
    | cons b blocks =>
      have closed : top.closeBlock = (b.allocations,
          { top with bindings := Frame.restore b top.bindings, blocks }) := by
        unfold Frame.closeBlock
        rw [hblocks]
      simp only [closed]
      refine h.retire rfl rfl ?_ ?_
      · unfold Environment.owned allocationsOf
        simp only [hframes, hblocks, List.flatMap_cons, List.append_assoc]
        exact List.perm_append_comm_assoc _ _ _
      · intro f hf
        rcases List.mem_cons.mp hf with rfl | hf
        · have inner := h.frames top (hframes ▸ List.mem_cons_self)
          rw [hblocks] at inner
          simp only [find?_restore]
          exact inner.closeBlock
        · exact h.frames f (hframes ▸ List.mem_cons_of_mem _ hf)

theorem pushFrame (h : Owned made env) (call : Call) : Owned made (env.pushFrame (.enter call)) := by
  refine ⟨h.declared, h.nodup, h.live, h.globals, ?_⟩
  intro f hf
  rcases List.mem_cons.mp hf with rfl | hf
  · exact Scoped.outside.openBlock
  · exact h.frames f hf

/-- Leaving a frame ends what all its blocks declared. -/
theorem closeBlocks_eq (bindings : Bindings) (blocks : List Block) :
    (Frame.closeBlocks bindings blocks).1 = allocationsOf blocks := by
  induction blocks generalizing bindings with
  | nil => rfl
  | cons b rest ih => exact congrArg (b.allocations ++ ·) (ih _)

theorem popFrame (h : Owned made env) : Owned made env.popFrame := by
  unfold Environment.popFrame
  split
  · exact h
  · rename_i top rest hframes
    refine h.retire rfl rfl ?_ fun f hf => h.frames f (hframes ▸ List.mem_cons_of_mem _ hf)
    rw [show top.unwind.1 = allocationsOf top.blocks from closeBlocks_eq _ _]
    unfold Environment.owned
    simp only [hframes, List.flatMap_cons]
    exact List.perm_append_comm_assoc _ _ _

theorem bound_global (h : Owned made env) {n : String} {a : Address}
    (hn : env.globals.find? n = some a) : ∃ e ∈ made, e.1.name = n ∧ e.2 = a := by
  rw [h.globals n] at hn
  obtain ⟨e, he, rfl⟩ := Option.map_eq_some_iff.mp hn
  exact ⟨e, List.mem_reverse.mp (List.mem_of_find?_eq_some he),
    eq_of_beq (List.find?_some he :), rfl⟩

theorem bound_frame (h : Owned made env) {i : Nat} {n : String} {a : Address}
    (hn : env.bound (some i) n = some a) :
    ∃ f, env.frames[i]? = some f ∧ f.bindings.find? n = some a ∧ a ∈ allocationsOf f.blocks := by
  obtain ⟨f, hf, hn⟩ := Option.bind_eq_some_iff.mp hn
  exact ⟨f, hf, hn, (h.frames f (List.mem_of_getElem? hf)).owned_of hn⟩

/-- Whatever a name stands for is a live variable. -/
theorem bound_lives (h : Owned made env) {site : Option Nat} {n : String} {a : Address}
    (hn : env.bound site n = some a) : env.memory.LivesAt a := by
  refine (h.live a).mpr (List.mem_append.mpr ?_)
  cases site with
  | none =>
    obtain ⟨e, he, -, rfl⟩ := h.bound_global hn
    exact .inl (List.mem_map_of_mem he)
  | some i =>
    obtain ⟨f, hf, -, ha⟩ := h.bound_frame hn
    exact .inr (List.mem_flatMap.mpr ⟨f, List.mem_of_getElem? hf, ha⟩)

/-- A variable that is found under a name lives, and has a first slot. -/
theorem lookup_lives (h : Owned made env) (hl : Memory.Layout structs env.memory) {n : String}
    {a : Address} {scope : Scope} {al : Allocation} (hn : env.lookup? n = some (a, scope))
    (hal : env.memory.allocation? a = some al) :
    al.struct? = none ∧ env.memory.liveAt al.base = .ok al := by
  obtain ⟨site, bound⟩ := Environment.bound_of_lookup? hn
  obtain ⟨al', hal', live, kind⟩ := h.bound_lives bound
  obtain rfl := Option.some.inj (hal.symm.trans hal')
  have len := (hl.formed hal).len_pos kind
  have first : al.contains al.base := Allocation.contains_iff.mpr ⟨Nat.le_refl _, by omega⟩
  exact ⟨kind, hl.liveAt_eq_ok (hl.base hal ▸ hal) first live⟩

/-- No two names stand for the same variable. -/
theorem bound_inj (h : Owned made env) {site site' : Option Nat} {n n' : String} {a : Address}
    (hn : env.bound site n = some a) (hn' : env.bound site' n' = some a) : site = site' ∧ n = n' := by
  obtain ⟨outer, inner, apart⟩ := List.nodup_append.mp h.nodup
  have crossed {n n' : String} {i : Nat} (hn : env.bound none n = some a)
      (hn' : env.bound (some i) n' = some a) : False := by
    obtain ⟨e, he, -, rfl⟩ := h.bound_global hn
    obtain ⟨f, hf, -, ha⟩ := h.bound_frame hn'
    exact apart e.2 (List.mem_map_of_mem he) e.2
      (List.mem_flatMap.mpr ⟨f, List.mem_of_getElem? hf, ha⟩) rfl
  match site, site' with
  | none, none =>
    obtain ⟨e, he, rfl, hea⟩ := h.bound_global hn
    obtain ⟨e', he', rfl, hea'⟩ := h.bound_global hn'
    rw [List.inj_on_of_nodup_map outer he he' (hea.trans hea'.symm)]
    exact ⟨rfl, rfl⟩
  | none, some i => exact (crossed hn hn').elim
  | some i, none => exact (crossed hn' hn).elim
  | some i, some j =>
    obtain ⟨f, hf, hfn, ha⟩ := h.bound_frame hn
    obtain ⟨f', hf', hfn', ha'⟩ := h.bound_frame hn'
    by_cases hij : i = j
    · subst hij
      obtain rfl := Option.some.inj (hf.symm.trans hf')
      exact ⟨rfl, (h.frames f (List.mem_of_getElem? hf)).eq_of hfn hfn'⟩
    · have disjoint := List.pairwise_iff_getElem.mp (List.nodup_flatMap.mp inner).2
      obtain ⟨hi, rfl⟩ := List.getElem?_eq_some_iff.mp hf
      obtain ⟨hj, rfl⟩ := List.getElem?_eq_some_iff.mp hf'
      rcases Nat.lt_or_gt_of_ne hij with hij | hij
      · exact (disjoint i j hi hj hij ha ha').elim
      · exact (disjoint j i hj hi hij ha' ha).elim

end Owned

namespace Change

variable {s : Setting} {made : List (Decl × Address)} {env env' : Environment}

/-- What nothing declares stays owned by who owned it. -/
theorem owned (h : Change s none env env') (ho : Owned made env)
    (hl : Memory.Layout s.structs env.memory) (hb : env'.memory.InBounds) : Owned made env' := by
  have before := h.memory.inBounds hb
  cases h with
  | store written defined fits =>
    obtain ⟨-, rfl⟩ := Memory.write_eq_ok written
    exact ho.of_memory fun _ _ _ => Iff.rfl
  | newNode known =>
    rename_i struct d
    have bound : env.memory.nextHeap + max (d.fields.map (·.type)).length 1 ≤ UInt64.size := hb.heap
    have fresh := hl.fresh_heap before (by omega)
    refine ho.of_memory fun a al node => ?_
    rw [Memory.allocation?_newNode]
    split
    · rename_i ha
      subst ha
      rw [fresh]
      refine ⟨fun heq => ?_, nofun⟩
      rw [← Option.some.inj heq] at node
      exact nomatch node
    · exact Iff.rfl
  | freeNode found node live =>
    rename_i a al
    refine ho.of_memory fun k al' node' => ?_
    rw [Memory.allocation?_retire]
    split
    · rename_i hk
      subst hk
      rw [found]
      constructor
      · intro heq
        rw [← Option.some.inj heq] at node'
        exact absurd node' node
      · intro heq
        rw [← Option.some.inj heq] at node'
        exact absurd node' node
    · exact Iff.rfl
  | declare proper inBlock =>
    rw [Environment.make, Environment.memory_declare] at hb
    exact ho.declare hl proper inBlock hb
  | openBlock => exact ho.openBlock
  | closeBlock inner => exact ho.closeBlock
  | pushFrame call => exact ho.pushFrame call
  | popFrame => exact ho.popFrame

/-- A declaration outside of functions owns what it makes. -/
theorem owned_global {d : Decl} (h : Change s (some d) env env') (ho : Owned made env)
    (hl : Memory.Layout s.structs env.memory) (hb : env'.memory.InBounds) :
    Owned (made ++ [(d, UInt64.ofNat env.memory.nextStack)]) env' ∧
      env'.memory.FilledAt (UInt64.ofNat env.memory.nextStack) := by
  cases h with
  | declareGlobal proper filled made outside =>
    rw [Environment.make, Environment.memory_declare] at hb
    refine ⟨ho.declareGlobal hl proper made outside hb, ?_⟩
    rw [Environment.make, Environment.memory_declare]
    exact Memory.filledAt_make proper filled hb

end Change

section

variable {s : Setting} {made : List (Decl × Address)} {m m' : Machine}

/-- What one act adds to the variables of the file, which are filled as they are made. -/
theorem Act.owned {d : Option Decl} (h : Act s d m m') (ho : Owned made m.env)
    (hl : Memory.Layout s.structs m.env.memory) (hb : m'.env.memory.InBounds) :
    ∃ new, new.map (·.1) = d.toList ∧ Owned (made ++ new) m'.env ∧
      ∀ e ∈ new, m'.env.memory.FilledAt e.2 := by
  have quiet {env : Environment} (ho : Owned made env) : ∃ new, new.map (·.1) = [] ∧
      Owned (made ++ new) env ∧ ∀ e ∈ new, env.memory.FilledAt e.2 :=
    ⟨[], rfl, by rwa [List.append_nil], nofun⟩
  cases h with
  | change h =>
    cases d with
    | none => exact quiet (h.owned ho hl hb)
    | some d =>
      obtain ⟨owned, filled⟩ := h.owned_global ho hl hb
      refine ⟨_, rfl, owned, fun e he => ?_⟩
      obtain rfl := List.mem_singleton.mp he
      exact filled
  | print text => exact quiet ho
  | input rest => exact quiet ho
  | record line description returned => exact quiet ho

/-- Along a path, the declarations outside of functions own the variables they made, in order. -/
theorem Path.owned {ds : List Decl} (h : Path s m ds m') (ho : Owned made m.env)
    (hf : ∀ e ∈ made, m.env.memory.FilledAt e.2) (hl : Memory.Layout s.structs m.env.memory)
    (hb : m'.env.memory.InBounds) :
    ∃ new, new.map (·.1) = ds ∧ Owned (made ++ new) m'.env ∧
      ∀ e ∈ made ++ new, m'.env.memory.FilledAt e.2 := by
  induction h with
  | refl => exact ⟨[], rfl, by rwa [List.append_nil], by rwa [List.append_nil]⟩
  | step before act ih =>
    have before' := act.memory.inBounds hb
    obtain ⟨new, hnew, owned, filled⟩ := ih before'
    have layout := (before.storage hl before').1
    obtain ⟨more, hmore, owned', filled'⟩ := act.owned owned layout hb
    refine ⟨new ++ more, by rw [List.map_append, hnew, hmore], by rwa [← List.append_assoc], ?_⟩
    rw [← List.append_assoc]
    intro e he
    rcases List.mem_append.mp he with he | he
    · obtain ⟨x, -, hx⟩ := owned.declared e he
      exact (act.memory.evolves layout hb).filledAt hx (filled e he)
    · exact filled' e he

/-- What the state of a run comes to, given what was declared on the way. -/
theorem Path.owns {input : String} {ds : List Decl} (h : Path s (.start input) ds m)
    (hb : m.env.memory.InBounds) :
    Memory.Layout s.structs m.env.memory ∧ ∃ made, made.map (·.1) = ds ∧ Owned made m.env ∧
      ∀ e ∈ made, m.env.memory.FilledAt e.2 := by
  refine ⟨(h.storage .empty hb).1, ?_⟩
  exact h.owned .empty nofun .empty hb

end

end Stepwise
