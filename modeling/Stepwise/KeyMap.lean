/-! Finite maps kept as lists sorted by key. The keys ascend strictly, so a map has one
representation, and its entries are always in the order in which a trace shows them. -/

namespace Stepwise

def Ascending {κ : Type} {α : Type} [Ord κ] (entries : List (κ × α)) : Prop :=
  entries.Pairwise fun a b => compare a.1 b.1 = .lt

/-- A finite map from `κ` to `α`, its entries in the order of the keys. -/
structure KeyMap (κ : Type) (α : Type) [Ord κ] where
  entries : List (κ × α)
  ascending : Ascending entries

namespace KeyMap

variable {κ α β : Type} [Ord κ]

def empty : KeyMap κ α := ⟨[], List.Pairwise.nil⟩

instance : Inhabited (KeyMap κ α) := ⟨empty⟩

instance [BEq κ] [BEq α] : BEq (KeyMap κ α) := ⟨fun a b => a.entries == b.entries⟩

@[ext] theorem ext {a b : KeyMap κ α} (h : a.entries = b.entries) : a = b := by
  cases a; cases b; cases h; rfl

/-- Puts an entry into a sorted list, in place of one with the same key. -/
def insertEntry (k : κ) (v : α) : List (κ × α) → List (κ × α)
  | [] => [(k, v)]
  | e :: rest => match compare k e.1 with
    | .lt => (k, v) :: e :: rest
    | .eq => (k, v) :: rest
    | .gt => e :: insertEntry k v rest

def findEntry? (k : κ) : List (κ × α) → Option α
  | [] => none
  | e :: rest => match compare k e.1 with
    | .lt => none
    | .eq => some e.2
    | .gt => findEntry? k rest

def eraseEntry (k : κ) : List (κ × α) → List (κ × α)
  | [] => []
  | e :: rest => match compare k e.1 with
    | .lt => e :: rest
    | .eq => rest
    | .gt => e :: eraseEntry k rest

theorem mem_insertEntry {k : κ} {v : α} {es : List (κ × α)} {x : κ × α}
    (h : x ∈ insertEntry k v es) : x = (k, v) ∨ x ∈ es := by
  induction es with
  | nil => simp [insertEntry] at h; simp [h]
  | cons e rest ih =>
    unfold insertEntry at h
    split at h
    · simpa using h
    · rcases List.mem_cons.mp h with h | h
      · exact .inl h
      · exact .inr (List.mem_cons_of_mem _ h)
    · rcases List.mem_cons.mp h with h | h
      · exact .inr (h ▸ List.mem_cons_self)
      · rcases ih h with h | h
        · exact .inl h
        · exact .inr (List.mem_cons_of_mem _ h)

theorem ascending_insertEntry [Std.TransOrd κ] [Std.LawfulEqOrd κ] (k : κ) (v : α)
    {es : List (κ × α)} (h : Ascending es) : Ascending (insertEntry k v es) := by
  induction es with
  | nil => simp [insertEntry, Ascending]
  | cons e rest ih =>
    have ⟨head, tail⟩ := List.pairwise_cons.mp h
    unfold insertEntry
    split
    · rename_i lt
      refine List.pairwise_cons.mpr ⟨fun x hx => ?_, h⟩
      rcases List.mem_cons.mp hx with rfl | hx
      · exact lt
      · exact Std.TransCmp.lt_trans lt (head x hx)
    · rename_i eq
      refine List.pairwise_cons.mpr ⟨fun x hx => ?_, tail⟩
      rw [Std.LawfulEqCmp.eq_of_compare eq]
      exact head x hx
    · rename_i gt
      refine List.pairwise_cons.mpr ⟨fun x hx => ?_, ih tail⟩
      rcases mem_insertEntry hx with rfl | hx
      · exact Std.OrientedCmp.lt_of_gt gt
      · exact head x hx

theorem eraseEntry_sublist (k : κ) (es : List (κ × α)) : (eraseEntry k es).Sublist es := by
  induction es with
  | nil => exact .slnil
  | cons e rest ih =>
    unfold eraseEntry
    split
    · exact List.Sublist.refl _
    · exact List.sublist_cons_self _ _
    · exact ih.cons_cons _

def insert [Std.TransOrd κ] [Std.LawfulEqOrd κ] (m : KeyMap κ α) (k : κ) (v : α) : KeyMap κ α :=
  ⟨insertEntry k v m.entries, ascending_insertEntry k v m.ascending⟩

def find? (m : KeyMap κ α) (k : κ) : Option α := findEntry? k m.entries

def erase (m : KeyMap κ α) (k : κ) : KeyMap κ α :=
  ⟨eraseEntry k m.entries, m.ascending.sublist (eraseEntry_sublist k m.entries)⟩

/-- The map with the given entries; of two with one key the later stays. -/
def ofList [Std.TransOrd κ] [Std.LawfulEqOrd κ] (es : List (κ × α)) : KeyMap κ α :=
  es.foldl (fun m e => m.insert e.1 e.2) empty

def values (m : KeyMap κ α) : List α := m.entries.map (·.2)

def filterMap (m : KeyMap κ α) (f : κ → α → Option β) : KeyMap κ β :=
  ⟨m.entries.filterMap fun e => (f e.1 e.2).map fun v => (e.1, v), by
    refine m.ascending.filterMap _ fun a b lt x hx y hy => ?_
    obtain ⟨_, _, rfl⟩ := Option.map_eq_some_iff.mp hx
    obtain ⟨_, _, rfl⟩ := Option.map_eq_some_iff.mp hy
    exact lt⟩

/-- The entries of both maps; where both have a key, that of `upper` counts. -/
def union [Std.TransOrd κ] [Std.LawfulEqOrd κ] (lower upper : KeyMap κ α) : KeyMap κ α :=
  upper.entries.foldl (fun m e => m.insert e.1 e.2) lower

end KeyMap

end Stepwise
