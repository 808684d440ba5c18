import Stepwise.Proofs.Nodes
import Stepwise.Proofs.References
import Stepwise.Proofs.Storage

/-! What a step shows of the state it was taken in. Capturing looks things up in many places and has
something to put where nothing is found; in the states of a run everything is found. So the picture has
all that can be seen and only that, and every value in it is one that can be read. -/

namespace Stepwise

/-! Entries of maps -/

namespace KeyMap

variable {κ α β : Type} [Ord κ] [Std.TransOrd κ] [Std.LawfulEqOrd κ] {k : κ} {v : α}

theorem findEntry?_eq_some_iff {es : List (κ × α)} (h : Ascending es) :
    findEntry? k es = some v ↔ (k, v) ∈ es := by
  induction es with
  | nil => exact iff_of_false nofun nofun
  | cons e rest ih =>
    obtain ⟨first, others⟩ := List.pairwise_cons.mp h
    unfold findEntry?
    rw [List.mem_cons]
    have later (hle : compare k e.1 ≠ .gt) : (k, v) ∉ rest := by
      intro hin
      exact hle (Std.OrientedCmp.gt_of_lt (first _ hin))
    cases hk : compare k e.1 with
    | lt =>
      have differ : (k, v) ≠ e := by
        rintro rfl
        rw [Std.compare_self] at hk
        cases hk
      simp [differ, later (by simp [hk])]
    | eq =>
      obtain rfl := Std.LawfulEqCmp.eq_of_compare hk
      simp [Prod.ext_iff, later (by simp), eq_comm]
    | gt =>
      have differ : (k, v) ≠ e := by
        rintro rfl
        rw [Std.compare_self] at hk
        cases hk
      simp [differ, ih others]

theorem find?_eq_some_iff {m : KeyMap κ α} : m.find? k = some v ↔ (k, v) ∈ m.entries :=
  findEntry?_eq_some_iff m.ascending

theorem find?_filterMap (m : KeyMap κ α) (f : κ → α → Option β) (k : κ) :
    (m.filterMap f).find? k = (m.find? k).bind (f k) := by
  apply Option.ext
  intro b
  rw [find?_eq_some_iff, Option.bind_eq_some_iff]
  simp only [filterMap, List.mem_filterMap, Option.map_eq_some_iff, find?_eq_some_iff]
  constructor
  · rintro ⟨⟨k', v⟩, hin, _, hb, heq⟩
    cases heq
    exact ⟨v, hin, hb⟩
  · rintro ⟨v, hin, hb⟩
    exact ⟨(k, v), hin, b, hb, rfl⟩

omit [Std.TransOrd κ] in
theorem nodup_keys (m : KeyMap κ α) : (m.entries.map (·.1)).Nodup := by
  rw [List.Nodup, List.pairwise_map]
  refine m.ascending.imp fun {a b} lt heq => ?_
  rw [heq, Std.compare_self] at lt
  exact nomatch lt

/-- What is found after entries with different keys were put in: one of them, or else what was there. -/
theorem find?_insertAll {es : List (κ × α)} (distinct : (es.map (·.1)).Nodup) (m : KeyMap κ α) :
    (es.foldl (fun m e => m.insert e.1 e.2) m).find? k = some v ↔
      (k, v) ∈ es ∨ k ∉ es.map (·.1) ∧ m.find? k = some v := by
  induction es generalizing m with
  | nil => simp
  | cons e rest ih =>
    obtain ⟨new, distinct⟩ := List.nodup_cons.mp distinct
    rw [List.foldl_cons, ih distinct, find?_insert, List.mem_cons, List.map_cons, List.mem_cons]
    by_cases he : e.1 = k
    · subst he
      have absent : (e.1, v) ∉ rest := fun hin => new (List.mem_map_of_mem (f := (·.1)) hin)
      simp [Std.compare_self, new, absent, Prod.ext_iff, eq_comm]
    · have differ : (k, v) ≠ e := fun heq => he (congrArg Prod.fst heq).symm
      simp [mt Std.LawfulEqCmp.eq_of_compare he, differ, Ne.symm he]

theorem find?_ofList {es : List (κ × α)} (distinct : (es.map (·.1)).Nodup) :
    (ofList es).find? k = some v ↔ (k, v) ∈ es := by
  unfold ofList
  rw [find?_insertAll distinct]
  exact or_iff_left fun h => nomatch h.2

theorem find?_union (lower upper : KeyMap κ α) (k : κ) :
    (lower.union upper).find? k = (upper.find? k).or (lower.find? k) := by
  apply Option.ext
  intro v
  unfold union
  rw [find?_insertAll upper.nodup_keys, ← find?_eq_some_iff, Option.or_eq_some_iff]
  have absent : k ∉ upper.entries.map (·.1) ↔ upper.find? k = none := by
    rw [Option.eq_none_iff_forall_ne_some]
    simp [find?_eq_some_iff]
  rw [absent]

/-- What is found in a map of things, each under a key of its own. -/
theorem find?_keyed {γ : Type} {key : γ → κ} {value : γ → α} {items : List γ}
    (distinct : ∀ x ∈ items, ∀ y ∈ items, key x = key y → x = y) :
    (items.foldr (fun x m => m.insert (key x) (value x)) empty).find? k = some v ↔
      ∃ x ∈ items, key x = k ∧ value x = v := by
  induction items with
  | nil => exact ⟨nofun, nofun⟩
  | cons x rest ih =>
    have others := ih fun y hy z hz =>
      distinct y (List.mem_cons_of_mem _ hy) z (List.mem_cons_of_mem _ hz)
    rw [List.foldr_cons, find?_insert, List.exists_mem_cons_iff]
    by_cases hk : key x = k
    · rw [if_pos (hk ▸ Std.compare_self), Option.some.injEq, and_iff_right hk]
      refine ⟨.inl, fun h => h.elim id ?_⟩
      rintro ⟨y, hy, hy', rfl⟩
      rw [distinct x List.mem_cons_self y (List.mem_cons_of_mem _ hy) (hk.trans hy'.symm)]
    · rw [if_neg (mt Std.LawfulEqCmp.eq_of_compare hk), others, or_iff_right fun h => hk h.1]

end KeyMap

/-! What a picture is to show -/

structure Memory.Lives (m : Memory) (al : Allocation) : Prop where
  found : m.allocation? al.base = some al
  live : al.live

structure VariableView.Shows (v : VariableView) (m : Memory) (al : Allocation) : Prop where
  kind : al.kind = .scalar
  address : v.address = al.base
  type : v.type = al.type.text
  value : m.read al.base = .ok v.value

structure ArrayView.Shows (v : ArrayView) (m : Memory) (al : Allocation) : Prop where
  kind : al.kind = .array
  address : v.address = al.base
  type : v.elemType = al.type.text
  length : v.elements.length = al.len
  elements : ∀ i e, v.elements[i]? = some e →
    e.index = i ∧ e.address.toNat = al.base.toNat + i ∧ m.read e.address = .ok e.value

/-- The text of what lies at an address of an allocation: all fields at the start of a node, and else one
value. -/
inductive Previews (m : Memory) (structs : Structs) (al : Allocation) (target : Address) :
    String → Prop where
  | node {struct : String} {d : StructDef} {values : List Value} (start : target = al.base)
      (named : al.struct? = some struct) (defined : structs.find? struct = some d)
      (all : values.length = d.fields.length)
      (read : ∀ i v, values[i]? = some v → m.read (al.base + UInt64.ofNat i) = .ok v) :
      Previews m structs al target ("struct " ++ struct ++ " \x7b " ++
        commaSeparated (List.zipWith (fun f v => f.name ++ ": " ++ v.text) d.fields values) ++ " \x7d")
  | slot {v : Value} (inside : al.struct? = none ∨ target ≠ al.base) (read : m.read target = .ok v) :
      Previews m structs al target v.text

/-- The view shows where the pointer leads that another view shows as a variable. -/
structure PointerView.Shows (v : PointerView) (m : Memory) (structs : Structs) (w : VariableView) :
    Prop where
  type : v.type = w.type
  address : v.address = w.address
  target : w.value = .address v.target ∨ w.value = .undefined ∧ v.target = 0
  preview : v.preview.isSome ↔ ∃ al, m.Lives al ∧ al.contains v.target
  text : ∀ text, v.preview = some text →
    ∃ al, m.Lives al ∧ al.contains v.target ∧ Previews m structs al v.target text

structure NodeView.Shows (v : NodeView) (m : Memory) (structs : Structs) (al : Allocation) (d : StructDef) :
    Prop where
  struct : al.struct? = some v.struct
  defined : structs.find? v.struct = some d
  fields : v.fields.map (fun f => (f.name, f.type)) = d.fields.map fun f => (f.name, f.type.text)
  values : ∀ i f, v.fields[i]? = some f → m.read (al.base + UInt64.ofNat i) = .ok f.value
  links : ∀ name target, v.links.find? name = some target ↔
    ∃ (i : Nat) (field : Member) (f : FieldView), d.fields[i]? = some field ∧ v.fields[i]? = some f ∧
      field.name = name ∧ field.type.isPointer ∧ f.value = .address target ∧ target ≠ 0

/-- The step shows all that can be seen of a state, each thing once, and nothing else. -/
structure Step.Shows (x : Step) (env : Environment) (structs : Structs) : Prop where
  /-- A name that can be seen is shown as a scalar or as an array, as it is in memory. -/
  visible : ∀ n a scope, env.lookup? n = some (a, scope) → ∃ al, env.memory.Lives al ∧ al.base = a ∧
    ((∃ v, x.scalars.find? n = some v ∧ v.scope = scope ∧ v.Shows env.memory al ∧
        x.arrays.find? n = none) ∨
      ∃ v, x.arrays.find? n = some v ∧ v.scope = scope ∧ v.Shows env.memory al ∧
        x.scalars.find? n = none)
  hidden : ∀ n, env.lookup? n = none → x.scalars.find? n = none ∧ x.arrays.find? n = none
  /-- The pointers are the scalars of pointer type. -/
  pointers : ∀ n, (∃ v, x.pointers.find? n = some v) ↔ ∃ w al, x.scalars.find? n = some w ∧
    env.memory.Lives al ∧ al.base = w.address ∧ al.type.isPointer
  pointer : ∀ n v, x.pointers.find? n = some v →
    ∃ w, x.scalars.find? n = some w ∧ v.Shows env.memory structs w
  nodes : ∀ a, (∃ v, x.heapNodes.find? a = some v) ↔
    ∃ al, env.memory.Lives al ∧ al.base = a ∧ al.struct? ≠ none
  node : ∀ a v, x.heapNodes.find? a = some v →
    ∃ al d, env.memory.Lives al ∧ al.base = a ∧ v.Shows env.memory structs al d

/-! Looking things up in a state of a run -/

namespace Environment

theorem find?_visible (env : Environment) (n : String) : env.visible.find? n = env.lookup? n := by
  unfold visible lookup?
  rw [KeyMap.find?_union, KeyMap.find?_filterMap, KeyMap.find?_filterMap]
  cases env.locals.find? n with
  | some a => rfl
  | none => cases env.globals.find? n <;> rfl

theorem link?_eq_some_iff {f : Member × Value} {name : String} {target : Address} :
    link? f = some (name, target) ↔
      f.1.name = name ∧ f.1.type.isPointer ∧ f.2 = .address target ∧ target ≠ 0 := by
  unfold link?
  split
  · rename_i there value
    rw [value, Option.ite_none_right_eq_some, Option.some.injEq, Prod.mk.injEq, Value.address.injEq]
    constructor
    · rintro ⟨⟨pointer, there⟩, rfl, rfl⟩
      exact ⟨rfl, pointer, rfl, there⟩
    · rintro ⟨name, pointer, rfl, there⟩
      exact ⟨⟨pointer, there⟩, name, rfl⟩
  · rename_i other
    exact ⟨nofun, fun h => absurd h.2.2.1 (other _)⟩

/-- A state in which nothing is looked for in vain. -/
structure Sightly (env : Environment) (structs : Structs) : Prop where
  bounds : env.memory.InBounds
  layout : Memory.Layout structs env.memory
  zoned : env.memory.Zoned
  typed : env.memory.Typed
  bound : ∀ n a scope, env.lookup? n = some (a, scope) →
    ∃ al, env.memory.Lives al ∧ al.base = a ∧ al.struct? = none
  distinct : ∀ name d, structs.find? name = some d → Distinct d.fields

namespace Sightly

variable {env : Environment} {structs : Structs} {al : Allocation} {b : Address}
  (h : env.Sightly structs)

include h

/-- In a live allocation there is a value to read. -/
theorem read_cell (hal : env.memory.Lives al) (hin : al.contains b) :
    env.memory.read b = .ok (env.memory.cell b) := by
  unfold Memory.read
  rw [h.layout.liveAt_eq_ok hal.found hin hal.live]
  rfl

theorem valueAt_eq (hal : env.memory.Lives al) (hin : al.contains b) :
    env.valueAt b = env.memory.cell b := by
  unfold valueAt
  rw [h.read_cell hal hin]

theorem read_eq (hal : env.memory.Lives al) (hin : al.contains b) :
    env.memory.read b = .ok (env.valueAt b) := by
  rw [h.valueAt_eq hal hin, h.read_cell hal hin]

theorem toNat_slot (hal : env.memory.Lives al) {i : Nat} (hi : i < al.len) :
    (al.base + UInt64.ofNat i).toNat = al.base.toNat + i := by
  have ends := h.layout.ends h.bounds hal.found
  exact toNat_add_ofNat (by omega)

theorem read_slot (hal : env.memory.Lives al) {i : Nat} (hi : i < al.len) :
    env.memory.read (al.base + UInt64.ofNat i) = .ok (env.valueAt (al.base + UInt64.ofNat i)) := by
  refine h.read_eq hal ?_
  rw [Allocation.contains_iff, h.toNat_slot hal hi]
  omega

theorem contains_base (hal : env.memory.Lives al) (plain : al.struct? = none) :
    al.contains al.base := by
  have len := (h.layout.formed hal.found).len_pos plain
  exact Allocation.contains_iff.mpr ⟨Nat.le_refl _, by omega⟩

/-! Variables -/

theorem arrayView_shows (hal : env.memory.Lives al) (kind : al.kind = .array) (scope : Scope) :
    (env.arrayView al scope).Shows env.memory al where
  kind := kind
  address := rfl
  type := rfl
  length := by simp [arrayView]
  elements i e he := by
    simp only [arrayView, List.getElem?_map, Option.map_eq_some_iff] at he
    obtain ⟨j, hj, rfl⟩ := he
    obtain ⟨hi, rfl⟩ := List.getElem?_eq_some_iff.mp hj
    rw [List.length_range] at hi
    rw [List.getElem_range]
    exact ⟨rfl, h.toNat_slot hal hi, h.read_slot hal hi⟩

theorem scalar_shows (hal : env.memory.Lives al) (kind : al.kind = .scalar) (scope : Scope) :
    (⟨al.type.text, env.valueAt al.base, al.base, scope⟩ : VariableView).Shows env.memory al where
  kind := kind
  address := rfl
  type := rfl
  value := h.read_eq hal (h.contains_base hal (by simp only [Allocation.struct?, kind]))

/-- The address that a pointer holds is its target, and one that holds nothing yet has none. -/
theorem target_eq (hal : env.memory.Lives al) (kind : al.kind = .scalar) (pointer : al.type.isPointer) :
    env.valueAt al.base = .address ((env.valueAt al.base).toAddress?.getD 0) ∨
      env.valueAt al.base = .undefined ∧ (env.valueAt al.base).toAddress?.getD 0 = 0 := by
  have inside := h.contains_base hal (by simp only [Allocation.struct?, kind])
  have fits := h.typed al.base al al.base hal.found hal.live inside
  have type : al.slotType al.base = al.type := by simp only [Allocation.slotType, kind]
  rw [← h.valueAt_eq hal inside, type] at fits
  cases hv : env.valueAt al.base with
  | address a => exact .inl rfl
  | undefined => exact .inr ⟨rfl, rfl⟩
  | int n =>
    rw [hv] at fits
    rw [show al.type = ⟨.int, 0⟩ from fits] at pointer
    exact nomatch pointer
  | char n =>
    rw [hv] at fits
    rw [show al.type = ⟨.char, 0⟩ from fits] at pointer
    exact nomatch pointer
  | float x =>
    rw [hv] at fits
    rcases fits with fits | fits
    · rw [fits] at pointer
      exact nomatch pointer
    · rw [fits] at pointer
      exact nomatch pointer

/-! Nodes -/

/-- The fields of a node are those of its struct, each with the value in its slot. -/
theorem getElem?_nodeFields (hal : env.memory.Lives al) {struct : String}
    (named : al.struct? = some struct) : ∃ d, structs.find? struct = some d ∧
      al.len = d.fields.length ∧ ∀ i, (env.nodeFields structs al)[i]? =
        d.fields[i]?.map fun f => (f, env.valueAt (al.base + UInt64.ofNat i)) := by
  obtain ⟨types, kind⟩ : ∃ types, al.kind = .node struct types := by
    unfold Allocation.struct? at named
    split at named
    · rename_i types kind
      exact ⟨types, Option.some.inj named ▸ kind⟩
    · exact nomatch named
  obtain ⟨len, -, d, found, rfl⟩ := (h.layout.formed hal.found).node kind
  rw [List.length_map] at len
  refine ⟨d, found, len, fun i => ?_⟩
  unfold nodeFields
  rw [named, Option.bind_some, found]
  dsimp only
  rw [List.take_of_length_le (Nat.le_of_eq (by rw [List.length_map, len]))]
  simp only [List.getElem?_mapIdx, List.getElem?_map, Option.map_map]
  cases hf : d.fields[i]? with
  | none => rfl
  | some f =>
    have hi : i < al.len := len ▸ (List.getElem?_eq_some_iff.mp hf).1
    have above := h.toNat_slot hal hi
    have offset : (al.base + UInt64.ofNat i - al.base).toNat = i := by
      rw [UInt64.toNat_sub_of_le _ _ (UInt64.le_iff_toNat_le.mpr (by omega)), above]
      omega
    have type : al.slotType (al.base + UInt64.ofNat i) = f.type := by
      simp only [Allocation.slotType, kind, offset, List.getElem?_map, hf, Option.map_some,
        Option.getD_some]
    simp [type]

theorem nodeView_shows (hal : env.memory.Lives al) (node : al.struct? ≠ none) :
    ∃ d, (env.nodeView structs al).Shows env.memory structs al d := by
  obtain ⟨struct, named⟩ := Option.ne_none_iff_exists'.mp node
  obtain ⟨d, found, len, each⟩ := h.getElem?_nodeFields hal named
  have name : (env.nodeView structs al).struct = struct := by simp [nodeView, named]
  have shown (i : Nat) : (env.nodeView structs al).fields[i]? = d.fields[i]?.map fun f =>
      ⟨f.name, f.type.text, env.valueAt (al.base + UInt64.ofNat i)⟩ := by
    simp only [nodeView, List.getElem?_map, each, Option.map_map]
    rfl
  have names : (env.nodeFields structs al).map (·.1.name) = d.fields.map (·.name) := by
    apply List.ext_getElem?
    intro i
    simp only [List.getElem?_map, each, Option.map_map]
    rfl
  refine ⟨d, by rw [name, named], by rw [name, found], ?_, ?_, ?_⟩
  · apply List.ext_getElem?
    intro i
    simp only [List.getElem?_map, shown, Option.map_map]
    rfl
  · intro i f hf
    obtain ⟨field, hfield, rfl⟩ := Option.map_eq_some_iff.mp (shown i ▸ hf)
    exact h.read_slot hal (len ▸ (List.getElem?_eq_some_iff.mp hfield).1)
  · intro key target
    have distinct := h.distinct struct d found
    unfold Distinct at distinct
    rw [← names, List.Nodup, List.pairwise_map] at distinct
    show (KeyMap.ofList _).find? key = some target ↔ _
    rw [KeyMap.find?_ofList, List.mem_filterMap]
    · simp only [link?_eq_some_iff, List.mem_iff_getElem?, each, Option.map_eq_some_iff]
      constructor
      · rintro ⟨_, ⟨i, field, hfield, rfl⟩, rfl, pointer, value, there⟩
        exact ⟨i, field, _, hfield, by rw [shown, hfield]; rfl, rfl, pointer, value, there⟩
      · rintro ⟨i, field, f, hfield, hf, rfl, pointer, value, there⟩
        rw [shown, hfield] at hf
        obtain rfl := Option.some.inj hf
        exact ⟨_, ⟨i, field, hfield, rfl⟩, rfl, pointer, value, there⟩
    · rw [List.Nodup, List.pairwise_map]
      refine distinct.filterMap _ fun x y differ a ha b hb => ?_
      rw [← (link?_eq_some_iff.mp ha).1, ← (link?_eq_some_iff.mp hb).1]
      exact differ

theorem exists_preview {target : Address} (hl : env.memory.liveAt target = .ok al) :
    ∃ text, env.preview structs target = some text ∧
      Previews env.memory structs al target text := by
  unfold preview
  rw [hl]
  obtain ⟨found, inside, live⟩ := h.layout.of_liveAt hl
  have hal : env.memory.Lives al := ⟨found, live⟩
  have slot (hs : al.struct? = none ∨ target ≠ al.base) :
      Previews env.memory structs al target (env.valueAt target).text :=
    .slot hs (h.read_eq hal inside)
  dsimp only
  split
  · rename_i struct types kind
    have named : al.struct? = some struct := by simp only [Allocation.struct?, kind]
    split
    · rename_i start
      obtain ⟨len, -, d, defined, rfl⟩ := (h.layout.formed found).node kind
      rw [List.length_map] at len
      rw [defined]
      refine ⟨_, rfl, ?_⟩
      have texts : (d.fields.mapIdx fun i f =>
          f.name ++ ": " ++ (env.valueAt (al.base + UInt64.ofNat i)).text) =
          List.zipWith (fun f v => f.name ++ ": " ++ v.text) d.fields
            ((List.range al.len).map fun i => env.valueAt (al.base + UInt64.ofNat i)) := by
        apply List.ext_getElem?
        intro i
        simp only [List.getElem?_mapIdx, List.getElem?_zipWith, List.getElem?_map]
        cases hf : d.fields[i]? with
        | none => rfl
        | some f =>
          have hi : i < al.len := len ▸ (List.getElem?_eq_some_iff.mp hf).1
          rw [List.getElem?_range hi]
          rfl
      dsimp only
      rw [texts]
      refine .node start named defined (by simp [len]) fun i v hv => ?_
      obtain ⟨j, hj, rfl⟩ := Option.map_eq_some_iff.mp (List.getElem?_map ▸ hv)
      obtain ⟨hi, rfl⟩ := List.getElem?_eq_some_iff.mp hj
      rw [List.length_range] at hi
      rw [List.getElem_range]
      exact h.read_slot hal hi
    · rename_i inner
      exact ⟨_, rfl, slot (.inr inner)⟩
  · rename_i plain
    exact ⟨_, rfl, slot (.inl (Place.struct?_of_kind plain))⟩

/-- What lies at an address is shown just when it can be read. -/
theorem preview_spec (target : Address) :
    ((env.preview structs target).isSome ↔ ∃ al, env.memory.Lives al ∧ al.contains target) ∧
      ∀ text, env.preview structs target = some text → ∃ al, env.memory.Lives al ∧ al.contains target ∧
        Previews env.memory structs al target text := by
  cases hl : env.memory.liveAt target with
  | error e =>
    have spec : env.preview structs target = none := by
      unfold preview
      rw [hl]
    rw [spec]
    refine ⟨⟨fun shown => ?_, fun lives => ?_⟩, fun text shown => ?_⟩
    · cases shown
    · obtain ⟨al, hal, hin⟩ := lives
      rw [h.layout.liveAt_eq_ok hal.found hin hal.live] at hl
      cases hl
    · cases shown
  | ok al =>
    obtain ⟨text, shown, previews⟩ := h.exists_preview hl
    obtain ⟨found, inside, live⟩ := h.layout.of_liveAt hl
    rw [shown]
    refine ⟨⟨fun _ => ⟨al, ⟨found, live⟩, inside⟩, fun _ => rfl⟩, fun text' ht => ?_⟩
    exact ⟨al, ⟨found, live⟩, inside, Option.some.inj ht ▸ previews⟩

/-! The whole picture -/

omit h in
theorem kind_of_struct? (plain : al.struct? = none) : al.kind = .scalar ∨ al.kind = .array := by
  unfold Allocation.struct? at plain
  cases kind : al.kind with
  | scalar => exact .inl rfl
  | array => exact .inr rfl
  | node struct types =>
    rw [kind] at plain
    exact nomatch plain

/-- What is shown of the visible names whose variables are of some kind. -/
theorem find?_shown {β : Type} {f : String → Address × Scope → Option β} {ok : Allocation → Prop}
    [DecidablePred ok] {view : Allocation → Scope → β}
    (each : ∀ n al scope, env.memory.allocation? al.base = some al →
      f n (al.base, scope) = if ok al then some (view al scope) else none) {n : String} {v : β} :
    (env.visible.filterMap f).find? n = some v ↔ ∃ al scope, env.lookup? n = some (al.base, scope) ∧
      env.memory.Lives al ∧ ok al ∧ view al scope = v := by
  rw [KeyMap.find?_filterMap, find?_visible, Option.bind_eq_some_iff]
  constructor
  · rintro ⟨⟨a, scope⟩, found, shown⟩
    obtain ⟨al, hal, rfl, -⟩ := h.bound n a scope found
    rw [each n al scope hal.found, Option.ite_none_right_eq_some] at shown
    exact ⟨al, scope, found, hal, shown.1, Option.some.inj shown.2⟩
  · rintro ⟨al, scope, found, hal, hok, rfl⟩
    exact ⟨_, found, by rw [each n al scope hal.found, if_pos hok]⟩

theorem find?_scalars {n : String} {v : VariableView} : env.scalars.find? n = some v ↔
    ∃ al scope, env.lookup? n = some (al.base, scope) ∧ env.memory.Lives al ∧ al.kind = .scalar ∧
      ⟨al.type.text, env.valueAt al.base, al.base, scope⟩ = v :=
  h.find?_shown fun n al scope found => by simp only [found]

theorem find?_arrays {n : String} {v : ArrayView} : env.arrays.find? n = some v ↔
    ∃ al scope, env.lookup? n = some (al.base, scope) ∧ env.memory.Lives al ∧ al.kind = .array ∧
      env.arrayView al scope = v :=
  h.find?_shown fun n al scope found => by simp only [found]

theorem find?_pointers {n : String} {v : PointerView} : (env.pointers structs).find? n = some v ↔
    ∃ al scope, env.lookup? n = some (al.base, scope) ∧ env.memory.Lives al ∧
      (al.kind = .scalar ∧ al.type.isPointer) ∧
      ⟨al.type.text, al.base, (env.valueAt al.base).toAddress?.getD 0,
        env.preview structs ((env.valueAt al.base).toAddress?.getD 0)⟩ = v :=
  h.find?_shown fun n al scope found => by simp only [found]

theorem find?_heapNodes {a : Address} {v : NodeView} : (env.heapNodes structs).find? a = some v ↔
    ∃ al, (env.memory.Lives al ∧ al.struct? ≠ none) ∧ al.base = a ∧ env.nodeView structs al = v := by
  have nodes {al : Allocation} : al ∈ env.memory.liveNodes ↔
      env.memory.Lives al ∧ al.struct? ≠ none := by
    rw [h.zoned.mem_liveNodes h.layout.toSpaced, ← and_assoc]
    exact and_congr_left fun _ => ⟨fun hal => ⟨hal.1, hal.2⟩, fun hal => ⟨hal.found, hal.live⟩⟩
  unfold heapNodes
  rw [KeyMap.find?_keyed]
  · simp only [nodes]
  · intro x hx y hy same
    have found := (nodes.mp hx).1.found
    rw [same, (nodes.mp hy).1.found] at found
    exact (Option.some.inj found).symm

/-- A picture of such a state shows it. -/
theorem capture_shows (ordinal line : Nat) (code description console : String)
    (returned : Option Value) :
    (env.capture structs ordinal line code description console returned).Shows env structs where
  visible n a scope found := by
    obtain ⟨al, hal, rfl, plain⟩ := h.bound n a scope found
    refine ⟨al, hal, rfl, ?_⟩
    -- a name has one variable, of one kind
    have only {al' : Allocation} {scope' : Scope} (found' : env.lookup? n = some (al'.base, scope'))
        (hal' : env.memory.Lives al') : al' = al := by
      obtain ⟨base, -⟩ := Prod.mk.inj (Option.some.inj (found'.symm.trans found))
      exact Option.some.inj (hal'.found.symm.trans (base ▸ hal.found))
    rcases kind_of_struct? plain with kind | kind
    · refine .inl ⟨_, h.find?_scalars.mpr ⟨al, scope, found, hal, kind, rfl⟩, rfl,
        h.scalar_shows hal kind scope, ?_⟩
      rw [Option.eq_none_iff_forall_ne_some]
      intro v hv
      obtain ⟨al', scope', found', hal', kind', -⟩ := h.find?_arrays.mp hv
      rw [only found' hal', kind] at kind'
      exact nomatch kind'
    · refine .inr ⟨_, h.find?_arrays.mpr ⟨al, scope, found, hal, kind, rfl⟩, rfl,
        h.arrayView_shows hal kind scope, ?_⟩
      rw [Option.eq_none_iff_forall_ne_some]
      intro v hv
      obtain ⟨al', scope', found', hal', kind', -⟩ := h.find?_scalars.mp hv
      rw [only found' hal', kind] at kind'
      exact nomatch kind'
  hidden n none := by
    constructor
    · rw [Option.eq_none_iff_forall_ne_some]
      intro v hv
      obtain ⟨al, scope, found, -⟩ := h.find?_scalars.mp hv
      exact nomatch none.symm.trans found
    · rw [Option.eq_none_iff_forall_ne_some]
      intro v hv
      obtain ⟨al, scope, found, -⟩ := h.find?_arrays.mp hv
      exact nomatch none.symm.trans found
  pointers n := by
    constructor
    · rintro ⟨v, hv⟩
      obtain ⟨al, scope, found, hal, ⟨kind, pointer⟩, -⟩ := h.find?_pointers.mp hv
      exact ⟨_, al, h.find?_scalars.mpr ⟨al, scope, found, hal, kind, rfl⟩, hal, rfl, pointer⟩
    · rintro ⟨w, al, hw, hal, base, pointer⟩
      obtain ⟨al', scope, found, hal', kind, rfl⟩ := h.find?_scalars.mp hw
      have same : al.base = al'.base := base
      obtain rfl : al' = al := Option.some.inj (hal'.found.symm.trans (same ▸ hal.found))
      exact ⟨_, h.find?_pointers.mpr ⟨al', scope, found, hal', ⟨kind, pointer⟩, rfl⟩⟩
  pointer n v hv := by
    obtain ⟨al, scope, found, hal, ⟨kind, pointer⟩, rfl⟩ := h.find?_pointers.mp hv
    refine ⟨_, h.find?_scalars.mpr ⟨al, scope, found, hal, kind, rfl⟩, ?_⟩
    exact ⟨rfl, rfl, h.target_eq hal kind pointer, (h.preview_spec _).1, (h.preview_spec _).2⟩
  nodes a := by
    constructor
    · rintro ⟨v, hv⟩
      obtain ⟨al, ⟨hal, node⟩, base, -⟩ := h.find?_heapNodes.mp hv
      exact ⟨al, hal, base, node⟩
    · rintro ⟨al, hal, base, node⟩
      exact ⟨_, h.find?_heapNodes.mpr ⟨al, ⟨hal, node⟩, base, rfl⟩⟩
  node a v hv := by
    obtain ⟨al, ⟨hal, node⟩, base, rfl⟩ := h.find?_heapNodes.mp hv
    obtain ⟨d, shows⟩ := h.nodeView_shows hal node
    exact ⟨al, d, hal, base, shows⟩

end Sightly

end Environment

/-! Runs -/

/-- Nothing is looked for in vain in a state of a run. -/
theorem Program.sightly {source : String} {p : Program} (accepted : Program.parse source = .ok p)
    {limits : Limits} {cancelled : Bool} {input : String} {x : Moment}
    (hx : x ∈ (p.run (.ofProgram p source limits cancelled) input).1)
    (hb : x.env.memory.InBounds) :
    x.env.Sightly (Setting.ofProgram p source limits cancelled).structs := by
  obtain ⟨ds, m, -, env, path⟩ := p.run_moment accepted hx
  rw [← env] at hb ⊢
  obtain ⟨layout, made, -, owned, -⟩ := path.owns hb
  refine ⟨hb, layout, path.zoned .empty .empty hb, (path.storage .empty hb).2.2 .empty, ?_, ?_⟩
  · intro n a scope found
    obtain ⟨site, bound⟩ := Environment.bound_of_lookup? found
    obtain ⟨al, hal, live, plain⟩ := owned.bound_lives bound
    have base := layout.base hal
    exact ⟨al, ⟨base.symm ▸ hal, live⟩, base, plain⟩
  · intro name d found
    have defined := Structs.mem_of_find?_ofDefs found
    exact Program.distinct accepted (.struct d) (mem_structs.mp defined)

/-- Every step of a run shows the state it was taken in, as long as addresses have not run out. The visible
names are split into scalars and arrays, each with the values that memory holds; the pointers are the
scalars of pointer type and lead where their values say, with a text just if something lives there; and the
nodes are the live ones, with the fields that their structs declare and the links that these hold. All
values were read, and none was made up for one that could not be. -/
theorem steps_show_states {source : String} {p : Program} (accepted : Program.parse source = .ok p)
    (limits : Limits) (cancelled : Bool) (input : String) :
    let s := Setting.ofProgram p source limits cancelled
    (p.trace s input).steps.length = (p.run s input).1.length ∧
    ∀ (i : Nat) (x : Moment), (p.run s input).1[i]? = some x → x.env.memory.InBounds →
      ∃ step : Step, (p.trace s input).steps[i]? = some step ∧ step.Shows x.env s.structs := by
  intro s
  have steps : (p.trace s input).steps = (p.run s input).1.map (·.step s) := rfl
  rw [steps]
  refine ⟨List.length_map _, fun i x hx hb => ?_⟩
  refine ⟨x.step s, by rw [List.getElem?_map, hx]; rfl, ?_⟩
  exact (p.sightly accepted (List.mem_of_getElem? hx) hb).capture_shows ..

/-- A node that points to itself, a field of it without a value, a variable of the file that is hidden by
one of a block, and a pointer that is left behind. -/
theorem steps_show_states_freed :
    let source := "struct N \x7b int v; struct N *next; \x7d; int g = 3; int main() \x7b " ++
      "struct N *p = malloc(sizeof(struct N)); p->next = p; \x7b int g[2]; g[1] = 4; \x7d " ++
      "free(p); return g; \x7d"
    ∃ p, Program.parse source = .ok p ∧
      let s := Setting.ofProgram p source ⟨100, 9, 99999⟩ false
      (p.run s "").1.length = 8 ∧ ∀ (i : Nat) (x : Moment), (p.run s "").1[i]? = some x →
        x.env.memory.InBounds ∧
        ∃ step : Step, (p.trace s "").steps[i]? = some step ∧ step.Shows x.env s.structs := by
  intro source
  have facts : (Program.parse source).toOption.any (fun p =>
      let moments := (p.run (.ofProgram p source ⟨100, 9, 99999⟩ false) "").1
      moments.length = 8 ∧ ∀ x ∈ moments, x.env.memory.InBounds) = true := by decide +kernel
  obtain ⟨p, accepted, facts⟩ := Program.exists_of_any facts
  obtain ⟨steps, bounds⟩ := of_decide_eq_true facts
  have shows := (steps_show_states accepted ⟨100, 9, 99999⟩ false "").2
  refine ⟨p, accepted, steps, fun i x hx => ?_⟩
  have inBounds := bounds x (List.mem_of_getElem? hx)
  exact ⟨inBounds, shows i x hx inBounds⟩

end Stepwise
