import Stepwise.Proofs.Accepted
import Stepwise.Proofs.Scoping
import Stepwise.Run.Machine

/-! What the check of references makes sure of in every program it accepts: whatever the program mentions
is defined, every call has as many arguments as its function has parameters, and there is a `main` that
takes none. -/

namespace Stepwise

variable {s : Setting} {ms ms' : List Mention}

namespace Setting

def Knows (s : Setting) (t : CType) : Prop :=
  ∀ name, t.structName? = some name → ∃ d, s.structs.find? name = some d

def Answers (s : Setting) : Mention → Prop
  | .struct name _ => ∃ d, s.structs.find? name = some d
  | .call name given _ =>
    if name = "free" then given = 1 else ∃ f, s.function? name = some f ∧ f.params.length = given

def Resolves (s : Setting) (ms : List Mention) : Prop := ∀ x ∈ ms, s.Answers x

@[simp] theorem resolves_nil : s.Resolves [] := nofun

@[simp] theorem resolves_cons {x : Mention} :
    s.Resolves (x :: ms) ↔ s.Answers x ∧ s.Resolves ms := List.forall_mem_cons

@[simp] theorem resolves_append : s.Resolves (ms ++ ms') ↔ s.Resolves ms ∧ s.Resolves ms' :=
  List.forall_mem_append

theorem Resolves.knows {t : CType} {pos : Position} (h : s.Resolves (t.mentions pos)) : s.Knows t := by
  intro name named
  unfold CType.mentions at h
  rw [named] at h
  exact h _ List.mem_cons_self

structure Linked (s : Setting) : Prop where
  fields : ∀ {name d}, s.structs.find? name = some d → ∀ f ∈ d.fields, s.Knows f.type
  returns : ∀ f ∈ s.functions, s.Knows f.returns
  params : ∀ f ∈ s.functions, ∀ p ∈ f.params, s.Knows p.type
  body : ∀ f ∈ s.functions, s.Resolves (mentionsOf f.body)
  main : ∃ f, s.function? "main" = some f ∧ f.params = []

end Setting

/-! The table of structs -/

namespace Structs

/-- What is found in the table of some definitions is one of them, or was there before. -/
theorem find?_fold {defs : List StructDef} {table : Structs} {name : String} {d : StructDef}
    (h : ((defs.map fun d => (d.name, d)).foldl (fun m e => m.insert e.1 e.2) table).find? name = some d) :
    d ∈ defs ∨ table.find? name = some d := by
  induction defs generalizing table with
  | nil => exact .inr h
  | cons first rest ih =>
    rcases ih h with later | before
    · exact .inl (List.mem_cons_of_mem _ later)
    · rw [KeyMap.find?_insert] at before
      split at before
      · obtain rfl := Option.some.inj before
        exact .inl List.mem_cons_self
      · exact .inr before

theorem exists_find?_fold {defs : List StructDef} {table : Structs} {name : String}
    (h : (∃ d ∈ defs, d.name = name) ∨ ∃ d, table.find? name = some d) :
    ∃ d, ((defs.map fun d => (d.name, d)).foldl (fun m e => m.insert e.1 e.2) table).find? name =
      some d := by
  induction defs generalizing table with
  | nil => simpa using h
  | cons first rest ih =>
    apply ih
    by_cases same : first.name = name
    · right
      refine ⟨first, ?_⟩
      rw [KeyMap.find?_insert, if_pos (Std.LawfulEqCmp.compare_eq_iff_eq.mpr same)]
    · rcases h with ⟨d, hd, named⟩ | ⟨d, found⟩
      · rcases List.mem_cons.mp hd with rfl | hd
        · exact absurd named same
        · exact .inl ⟨d, hd, named⟩
      · right
        refine ⟨d, ?_⟩
        rw [KeyMap.find?_insert, if_neg (mt Std.LawfulEqCmp.compare_eq_iff_eq.mp same), found]

theorem mem_of_find?_ofDefs {defs : List StructDef} {name : String} {d : StructDef}
    (h : (ofDefs defs).find? name = some d) : d ∈ defs := by
  rcases find?_fold h with found | nothing
  · exact found
  · cases nothing

theorem exists_find?_ofDefs {defs : List StructDef} {name : String} (h : ∃ d ∈ defs, d.name = name) :
    ∃ d, (ofDefs defs).find? name = some d := exists_find?_fold (.inl h)

end Structs

/-! Programs whose references were checked -/

namespace Program

theorem mem_of_forM {α ε : Type} {f : α → Except ε Unit} {xs : List α} {u : Unit}
    (h : xs.forM f = .ok u) : ∀ x ∈ xs, f x = .ok () := by
  induction xs with
  | nil => nofun
  | cons x xs ih =>
    obtain ⟨_, first, rest⟩ := exists_ok_of_bind (show f x >>= (fun _ => xs.forM f) = .ok u from h)
    intro y hy
    rcases List.mem_cons.mp hy with rfl | hy
    · exact first
    · exact ih rest y hy

variable {p : Program} {source : String}

theorem mem_functions {f : Function} : f ∈ p.functions ↔ .function f ∈ p := by
  simp only [functions, List.mem_filterMap]
  refine ⟨fun ⟨i, hi, heq⟩ => ?_, fun hf => ⟨_, hf, rfl⟩⟩
  cases i <;> cases heq
  exact hi

theorem mem_structs {d : StructDef} : d ∈ p.structs ↔ .struct d ∈ p := by
  simp only [structs, List.mem_filterMap]
  refine ⟨fun ⟨i, hi, heq⟩ => ?_, fun hd => ⟨_, hd, rfl⟩⟩
  cases i <;> cases heq
  exact hi

theorem mem_globals {d : Decl} : d ∈ p.globals ↔ .global d ∈ p := by
  simp only [globals, List.mem_filterMap]
  refine ⟨fun ⟨i, hi, heq⟩ => ?_, fun hd => ⟨_, hd, rfl⟩⟩
  cases i <;> cases heq
  exact hi

theorem answers_of_checkMention {limits : Limits} {cancelled : Bool} {x : Mention}
    (h : p.checkMention x = .ok ()) : (Setting.ofProgram p source limits cancelled).Answers x := by
  cases x with
  | struct name pos =>
    simp only [checkMention] at h
    split at h
    · rename_i found
      obtain ⟨d, hd, named⟩ := List.any_eq_true.mp found
      exact Structs.exists_find?_ofDefs ⟨d, hd, eq_of_beq named⟩
    · cases h
  | call name given pos =>
    simp only [checkMention] at h
    split at h
    · cases h
    · rename_i wanted arity
      split at h
      · rename_i same
        unfold arity? at arity
        simp only [Setting.Answers]
        split
        · rename_i free
          rw [if_pos free] at arity
          exact same.symm.trans (Option.some.inj arity).symm
        · rename_i free
          rw [if_neg free] at arity
          obtain ⟨f, found, count⟩ := Option.map_eq_some_iff.mp arity
          exact ⟨f, found, count.trans same⟩
      · cases h

variable (accepted : Program.parse source = .ok p) (limits : Limits) (cancelled : Bool)

include accepted

theorem checked : p.checkReferences = .ok () := by
  obtain ⟨p', -, h⟩ := exists_ok_of_bind accepted
  obtain ⟨⟨⟩, checked, h⟩ := exists_ok_of_bind h
  obtain rfl := Except.ok.inj h
  exact checked

theorem resolves_item : ∀ i ∈ p, (Setting.ofProgram p source limits cancelled).Resolves i.mentions := by
  intro i hi x hx
  obtain ⟨_, -, h⟩ := exists_ok_of_bind (checked accepted)
  obtain ⟨_, -, h⟩ := exists_ok_of_bind h
  exact answers_of_checkMention (mem_of_forM h x (List.mem_flatMap.mpr ⟨i, hi, hx⟩))

theorem exists_main : ∃ f, p.function? "main" = some f ∧ f.params = [] := by
  obtain ⟨_, -, h⟩ := exists_ok_of_bind (checked accepted)
  obtain ⟨_, main, -⟩ := exists_ok_of_bind h
  unfold checkMain at main
  split at main
  · cases main
  · rename_i f found
    split at main
    · rename_i none
      exact ⟨f, found, List.isEmpty_iff.mp none⟩
    · cases main

theorem resolves_globals :
    ∀ d ∈ p.globals, (Setting.ofProgram p source limits cancelled).Resolves d.mentions :=
  fun _ hd => resolves_item accepted limits cancelled _ (mem_globals.mp hd)

/-- The parts of an accepted program fit together. -/
theorem linked : (Setting.ofProgram p source limits cancelled).Linked where
  fields {name d} found f hf := by
    have resolved := resolves_item accepted limits cancelled _
      (mem_structs.mp (Structs.mem_of_find?_ofDefs found))
    exact Setting.Resolves.knows fun x hx => resolved x (List.mem_flatMap.mpr ⟨f, hf, hx⟩)
  returns f hf := by
    have resolved := resolves_item accepted limits cancelled _ (mem_functions.mp hf)
    simp only [Item.mentions, Setting.resolves_append] at resolved
    exact resolved.1.1.knows
  params f hf q hq := by
    have resolved := resolves_item accepted limits cancelled _ (mem_functions.mp hf)
    simp only [Item.mentions, Setting.resolves_append] at resolved
    exact Setting.Resolves.knows fun x hx => resolved.1.2 x (List.mem_flatMap.mpr ⟨q, hq, hx⟩)
  body f hf := by
    have resolved := resolves_item accepted limits cancelled _ (mem_functions.mp hf)
    simp only [Item.mentions, Setting.resolves_append] at resolved
    exact resolved.2
  main := exists_main accepted

end Program

end Stepwise
