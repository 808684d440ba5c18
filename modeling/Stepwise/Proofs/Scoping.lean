import Stepwise.Memory.Frame

/-! Names and blocks. A frame keeps one map for all its open blocks, and each block what it has to put
back. Looked at as functions from names to addresses, closing a block gives just what was visible before
it was opened, whatever was declared in it, twice or over an outer name. -/

namespace Stepwise

namespace KeyMap

variable {κ α : Type} [Ord κ] [Std.TransOrd κ] [Std.LawfulEqOrd κ]

theorem find?_insert (m : KeyMap κ α) (k k' : κ) (v : α) :
    (m.insert k v).find? k' = if compare k k' = .eq then some v else m.find? k' := by
  show findEntry? k' (insertEntry k v m.entries) = if _ then _ else findEntry? k' m.entries
  have flip : compare k' k = (compare k k').swap := Std.OrientedCmp.eq_swap
  induction m.entries with
  | nil =>
    simp only [insertEntry, findEntry?, flip]
    cases compare k k' <;> rfl
  | cons e rest ih =>
    simp only [insertEntry]
    cases he : compare k e.1 with
    | lt =>
      simp only [flip, findEntry?]
      cases hk : compare k k' with
      | lt => rfl
      | eq => rfl
      | gt =>
        have : compare k' e.1 = .lt := Std.TransCmp.lt_trans (Std.OrientedCmp.lt_of_gt hk) he
        simp [this]
    | eq =>
      obtain rfl := Std.LawfulEqCmp.eq_of_compare he
      simp only [flip, findEntry?]
      cases compare e.1 k' <;> rfl
    | gt =>
      have differ (hne : compare k' e.1 ≠ .gt) : compare k k' ≠ .eq := by
        intro heq
        rw [← Std.LawfulEqCmp.eq_of_compare heq] at hne
        exact hne he
      unfold findEntry?
      cases hk : compare k' e.1 with
      | lt => exact (if_neg (differ (by simp [hk]))).symm
      | eq => exact (if_neg (differ (by simp [hk]))).symm
      | gt => exact ih

omit [Std.TransOrd κ] [Std.LawfulEqOrd κ] in
/-- Nothing is found below the first key. -/
theorem findEntry?_eq_none {k : κ} {es : List (κ × α)} (h : ∀ e ∈ es, compare k e.1 = .lt) :
    findEntry? k es = none := by
  cases es with
  | nil => rfl
  | cons e rest => simp only [h e List.mem_cons_self, findEntry?]

theorem find?_erase (m : KeyMap κ α) (k k' : κ) :
    (m.erase k).find? k' = if compare k k' = .eq then none else m.find? k' := by
  show findEntry? k' (eraseEntry k m.entries) = if _ then _ else findEntry? k' m.entries
  obtain ⟨entries, ascending⟩ := m
  dsimp only
  induction entries with
  | nil => exact (ite_self _).symm
  | cons e rest ih =>
    obtain ⟨first, others⟩ := List.pairwise_cons.mp ascending
    simp only [eraseEntry]
    cases he : compare k e.1 with
    | lt =>
      by_cases heq : compare k k' = .eq
      · rw [if_pos heq, ← Std.LawfulEqCmp.eq_of_compare heq]
        simp only [he, findEntry?]
      · exact (if_neg heq).symm
    | eq =>
      obtain rfl := Std.LawfulEqCmp.eq_of_compare he
      by_cases heq : compare e.1 k' = .eq
      · rw [if_pos heq, ← Std.LawfulEqCmp.eq_of_compare heq]
        exact findEntry?_eq_none first
      · simp only [if_neg heq, findEntry?]
        cases hk : compare k' e.1 with
        | lt => exact findEntry?_eq_none fun x hx => Std.TransCmp.lt_trans hk (first x hx)
        | eq => exact absurd (Std.OrientedCmp.eq_comm.mp hk) heq
        | gt => rfl
    | gt =>
      have differ (hne : compare k' e.1 ≠ .gt) : compare k k' ≠ .eq := by
        intro heq
        rw [← Std.LawfulEqCmp.eq_of_compare heq] at hne
        exact hne he
      unfold findEntry?
      cases hk : compare k' e.1 with
      | lt => exact (if_neg (differ (by simp [hk]))).symm
      | eq => exact (if_neg (differ (by simp [hk]))).symm
      | gt => exact ih others

end KeyMap

abbrev Names := String → Option Address

def Names.bind (look : Names) (name : String) (a : Option Address) : Names :=
  fun n => if name = n then a else look n

def Names.eraseAll (names : List String) (look : Names) : Names :=
  names.foldl (fun look name => look.bind name none) look

def Names.bindAll (es : List (String × Address)) (look : Names) : Names :=
  es.foldl (fun look e => look.bind e.1 (some e.2)) look

def Block.undo (b : Block) (look : Names) : Names := .bindAll b.shadowed (.eraseAll b.declared look)

theorem find?_insert_name (m : Bindings) (name : String) (a : Address) :
    (m.insert name a).find? = Names.bind m.find? name (some a) := by
  funext n
  rw [KeyMap.find?_insert]
  simp only [Names.bind, Std.LawfulEqCmp.compare_eq_iff_eq]

theorem find?_erase_name (m : Bindings) (name : String) :
    (m.erase name).find? = Names.bind m.find? name none := by
  funext n
  rw [KeyMap.find?_erase]
  simp only [Names.bind, Std.LawfulEqCmp.compare_eq_iff_eq]

/-- Closing a block puts back what was visible before it. -/
theorem find?_restore (b : Block) (m : Bindings) : (Frame.restore b m).find? = b.undo m.find? := by
  have erased (names : List String) (m : Bindings) :
      (names.foldl KeyMap.erase m).find? = Names.eraseAll names m.find? := by
    unfold Names.eraseAll
    induction names generalizing m with
    | nil => rfl
    | cons name rest ih => rw [List.foldl_cons, List.foldl_cons, ih, find?_erase_name]
  have inserted (es : List (String × Address)) (m : Bindings) :
      (es.foldl (fun m e => m.insert e.1 e.2) m).find? = Names.bindAll es m.find? := by
    unfold Names.bindAll
    induction es generalizing m with
    | nil => rfl
    | cons e rest ih => rw [List.foldl_cons, List.foldl_cons, ih, find?_insert_name]
  unfold Frame.restore Block.undo
  rw [inserted, erased]

theorem Names.eraseAll_apply (names : List String) (look : Names) (n : String) :
    eraseAll names look n = if n ∈ names then none else look n := by
  unfold eraseAll
  induction names generalizing look with
  | nil => rfl
  | cons name rest ih =>
    rw [List.foldl_cons, ih]
    by_cases hn : n ∈ rest
    · simp [hn]
    · by_cases hne : name = n
      · simp [bind, hne]
      · simp [bind, hn, hne, Ne.symm hne]

/-- A name that is bound anew may have stood for anything. -/
theorem Names.bindAll_congr {es : List (String × Address)} {look look' : Names} {n : String}
    (h : look n = look' n ∨ ∃ e ∈ es, e.1 = n) : bindAll es look n = bindAll es look' n := by
  unfold bindAll
  induction es generalizing look look' with
  | nil =>
    rcases h with h | ⟨e, he, -⟩
    · exact h
    · exact nomatch he
  | cons e rest ih =>
    refine ih ?_
    by_cases he : e.1 = n
    · simp [bind, he]
    · rcases h with h | ⟨e', he', hn⟩
      · simp [bind, he, h]
      · rcases List.mem_cons.mp he' with rfl | he'
        · exact absurd hn he
        · exact .inr ⟨e', he', hn⟩

theorem Names.bindAll_concat (es : List (String × Address)) (e : String × Address) (look : Names) :
    bindAll (es ++ [e]) look = (bindAll es look).bind e.1 (some e.2) := List.foldl_append

theorem Names.bindAll_of_forall_ne {es : List (String × Address)} {n : String} (h : ∀ e ∈ es, e.1 ≠ n)
    (look : Names) : bindAll es look n = look n := by
  unfold bindAll
  induction es generalizing look with
  | nil => rfl
  | cons e rest ih =>
    rw [List.foldl_cons, ih fun e he => h e (List.mem_cons_of_mem _ he)]
    exact if_neg (h e List.mem_cons_self)

/-- What a block puts back does not depend on what is declared in it. -/
theorem Block.undo_declareIn (b : Block) (look : Names) (name : String) (a : Address) :
    (Frame.declareIn b name a (look name)).undo (look.bind name (some a)) = b.undo look := by
  funext n
  unfold Frame.declareIn undo
  cases ho : look name with
  | none =>
    refine Names.bindAll_congr (.inl ?_)
    simp only [Names.eraseAll_apply, Names.bind, List.mem_append, List.mem_singleton]
    by_cases hn : name = n
    · simp [← hn, ho]
    · simp [hn, Ne.symm hn]
  | some o =>
    dsimp only
    split
    · rename_i hnames
      refine Names.bindAll_congr ?_
      simp only [Names.eraseAll_apply, Names.bind]
      by_cases hn : name = n
      · rcases Bool.or_eq_true_iff.mp hnames with h | h
        · left
          simp [← hn, List.contains_iff_mem.mp h]
        · right
          obtain ⟨e, he, hname⟩ := List.any_eq_true.mp h
          exact ⟨e, he, (beq_iff_eq.mp hname).trans hn⟩
      · exact .inl (by simp [hn])
    · rename_i hnames
      have undeclared : name ∉ b.declared := fun h =>
        hnames (Bool.or_eq_true_iff.mpr (.inl (List.contains_iff_mem.mpr h)))
      -- the new entry comes last, so no other one may put the name back
      have unshadowed : ∀ e ∈ b.shadowed, e.1 ≠ name := fun e he same =>
        hnames (Bool.or_eq_true_iff.mpr (.inr (List.any_eq_true.mpr ⟨e, he, beq_iff_eq.mpr same⟩)))
      dsimp only
      rw [Names.bindAll_concat]
      by_cases hn : name = n
      · rw [← hn, Names.bindAll_of_forall_ne unshadowed, Names.eraseAll_apply, if_neg undeclared, ho]
        exact if_pos rfl
      · refine (if_neg hn).trans (Names.bindAll_congr (.inl ?_))
        simp [Names.eraseAll_apply, Names.bind, hn]

def allocationsOf (blocks : List Block) : List Address := blocks.flatMap (·.allocations)

/-- What is visible in open blocks: every name stands for something declared in one of them, no two for
the same, and closing the innermost block leaves names of which that holds in turn. -/
inductive Scoped : Names → List Block → Prop where
  | outside : Scoped (fun _ => none) []
  | block {look : Names} {b : Block} {rest : List Block} (outer : Scoped (b.undo look) rest)
      (owned : ∀ n a, look n = some a → a ∈ allocationsOf (b :: rest))
      (distinct : ∀ n n' a, look n = some a → look n' = some a → n = n') : Scoped look (b :: rest)

namespace Scoped

variable {look : Names} {b : Block} {blocks rest : List Block}

theorem owned_of {n : String} {a : Address} (h : Scoped look blocks) (ha : look n = some a) :
    a ∈ allocationsOf blocks := by
  cases h with
  | outside => exact nomatch ha
  | block outer owned distinct => exact owned n a ha

theorem eq_of {n n' : String} {a : Address} (h : Scoped look blocks) (ha : look n = some a)
    (ha' : look n' = some a) : n = n' := by
  cases h with
  | outside => exact nomatch ha
  | block outer owned distinct => exact distinct n n' a ha ha'

theorem openBlock (h : Scoped look blocks) : Scoped look (.empty :: blocks) :=
  .block h (fun _ _ ha => h.owned_of ha) fun _ _ _ ha ha' => h.eq_of ha ha'

theorem closeBlock (h : Scoped look (b :: rest)) : Scoped (b.undo look) rest := by
  cases h with
  | block outer owned distinct => exact outer

theorem allocations_declareIn (b : Block) (name : String) (a : Address) (outer : Option Address) :
    (Frame.declareIn b name a outer).allocations = b.allocations ++ [a] := by
  unfold Frame.declareIn
  split
  · rfl
  · dsimp only
    split <;> rfl

/-- A name may be declared at an address that nothing else has. -/
theorem declare (h : Scoped look (b :: rest)) (name : String) {a : Address}
    (fresh : a ∉ allocationsOf (b :: rest)) :
    Scoped (look.bind name (some a)) (Frame.declareIn b name a (look name) :: rest) := by
  have elsewhere {n : String} (hn : name ≠ n) : look.bind name (some a) n = look n := if_neg hn
  have here : look.bind name (some a) name = some a := if_pos rfl
  refine .block (b.undo_declareIn look name a ▸ h.closeBlock) ?_ ?_
  · intro n x hx
    unfold allocationsOf at *
    rw [List.flatMap_cons, allocations_declareIn]
    by_cases hn : name = n
    · rw [← hn, here] at hx
      simp [Option.some.inj hx]
    · have := h.owned_of (elsewhere hn ▸ hx)
      simp only [allocationsOf, List.flatMap_cons, List.mem_append] at this
      rcases this with hx | hx
      · exact List.mem_append_left _ (List.mem_append_left _ hx)
      · exact List.mem_append_right _ hx
  · intro n n' x hx hx'
    by_cases hn : name = n <;> by_cases hn' : name = n'
    · exact hn.symm.trans hn'
    · rw [← hn, here] at hx
      exact absurd (h.owned_of (elsewhere hn' ▸ hx')) (Option.some.inj hx ▸ fresh)
    · rw [← hn', here] at hx'
      exact absurd (h.owned_of (elsewhere hn ▸ hx)) (Option.some.inj hx' ▸ fresh)
    · exact h.eq_of (elsewhere hn ▸ hx) (elsewhere hn' ▸ hx')

end Scoped

end Stepwise
