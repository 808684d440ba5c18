import Stepwise.Proofs.Displacement

/-! Names that a run looks up and does not find. In an accepted program every call has its function, so
that only a variable can be missing, with one exception: `free` is a name without a function. Calling it is
no lookup, but `sizeof` asks for the type of a call, and that of `free` is looked up in vain. -/

namespace Stepwise

open Run

/-! Parts and mentions -/

/-- With an expression the list has all expressions inside it, and their calls are mentioned. -/
structure Surveyed (es : List Expr) (ms : List Mention) : Prop where
  closed : ∀ e ∈ es, ∀ x ∈ e.parts, x ∈ es
  calls : ∀ {name args p}, .call name args p ∈ es → .call name args.length p ∈ ms

namespace Surveyed

variable {es es' : List Expr} {ms ms' : List Mention}

theorem nil : Surveyed [] ms := ⟨nofun, nofun⟩

theorem append (h : Surveyed es ms) (h' : Surveyed es' ms') : Surveyed (es ++ es') (ms ++ ms') where
  closed e he x hx := by
    rcases List.mem_append.mp he with he | he
    · exact List.mem_append_left _ (h.closed e he x hx)
    · exact List.mem_append_right _ (h'.closed e he x hx)
  calls he := by
    rcases List.mem_append.mp he with he | he
    · exact List.mem_append_left _ (h.calls he)
    · exact List.mem_append_right _ (h'.calls he)

/-- More may be mentioned. -/
theorem more (h : Surveyed es ms) : Surveyed es (ms' ++ ms) :=
  ⟨h.closed, fun he => List.mem_append_right _ (h.calls he)⟩

/-- An expression that is no call, around others. -/
theorem around {e : Expr} (h : Surveyed es ms) (parts : e.parts = e :: es)
    (other : ∀ name args p, e ≠ .call name args p) : Surveyed e.parts ms where
  closed x hx y hy := by
    rw [parts] at hx ⊢
    rcases List.mem_cons.mp hx with rfl | hx
    · rwa [parts] at hy
    · exact List.mem_cons_of_mem _ (h.closed x hx y hy)
  calls {name args p} hx := by
    rw [parts] at hx
    rcases List.mem_cons.mp hx with same | hx
    · exact absurd same.symm (other name args p)
    · exact h.calls hx

theorem call {name : String} {args : List Expr} {p : Position} (h : Surveyed (partsAll args) ms) :
    Surveyed (Expr.call name args p).parts (.call name args.length p :: ms) where
  closed x hx y hy := by
    rcases List.mem_cons.mp hx with rfl | hx
    · exact hy
    · exact List.mem_cons_of_mem _ (h.closed x hx y hy)
  calls hx := by
    rcases List.mem_cons.mp hx with same | hx
    · injection same with names arguments positions
      rw [names, arguments, positions]
      exact List.mem_cons_self
    · exact List.mem_cons_of_mem _ (h.calls hx)

end Surveyed

mutual

theorem Expr.surveyed (e : Expr) : Surveyed e.parts e.mentions := by
  cases e with
  | int n p | float x p | char c p | null p | var name p | sizeofType type p | newNode struct p =>
    exact Surveyed.nil.around rfl nofun
  | binary op left right p => exact (left.surveyed.append right.surveyed).around rfl nofun
  | index array index p => exact (array.surveyed.append index.surveyed).around rfl nofun
  | unary op e p | step op e p | addressOf e p | deref e p | field e name arrow p | sizeofExpr e p =>
    exact e.surveyed.around rfl nofun
  | call name args p => exact .call (surveyedAll args)
  | cast type e p => exact e.surveyed.more.around rfl nofun
  | print format args p => exact (surveyedAll args).around rfl nofun
  | read format targets p => exact (surveyedAll targets).around rfl nofun

theorem surveyedAll (es : List Expr) : Surveyed (partsAll es) (mentionsAll es) := by
  cases es with
  | nil => exact .nil
  | cons e rest => exact e.surveyed.append (surveyedAll rest)

end

/-- An expression, or whatever has expressions, may be left out. -/
theorem Surveyed.optional {α : Type} {parts : α → List Expr} {mentions : α → List Mention}
    (h : ∀ a, Surveyed (parts a) (mentions a)) (a : Option α) :
    Surveyed ((a.map parts).getD []) ((a.map mentions).getD []) := by
  cases a with
  | none => exact .nil
  | some a => exact h a

theorem Decl.surveyed (d : Decl) : Surveyed d.parts d.mentions := by
  cases d with
  | scalar name type init p => exact (Surveyed.optional Expr.surveyed init).more
  | array name elem size init p => exact (Surveyed.optional surveyedAll init).more

theorem Simple.surveyed (c : Simple) : Surveyed c.parts c.mentions := by
  cases c with
  | declare d => exact d.surveyed
  | assign target op value p => exact target.surveyed.append value.surveyed
  | effect e p => exact e.surveyed

mutual

theorem Stmt.surveyed (stmt : Stmt) : Surveyed stmt.parts stmt.mentions := by
  cases stmt with
  | simple c => exact c.surveyed
  | block body p => exact surveyedOf body
  | branch cond yes no p =>
    cases no with
    | none => exact cond.surveyed.append (surveyedOf yes)
    | some no => exact (cond.surveyed.append (surveyedOf yes)).append (surveyedOf no)
  | whileLoop cond body p => exact cond.surveyed.append (surveyedOf body)
  | forLoop init cond update body p =>
    exact (((Surveyed.optional Simple.surveyed init).append (.optional Expr.surveyed cond)).append
      (.optional Simple.surveyed update)).append (surveyedOf body)
  | leave value p => exact .optional Expr.surveyed value
  | breakLoop p | continueLoop p => exact .nil

theorem surveyedOf (stmts : List Stmt) : Surveyed (partsOf stmts) (mentionsOf stmts) := by
  cases stmts with
  | nil => exact .nil
  | cons stmt rest => exact stmt.surveyed.append (surveyedOf rest)

end

theorem Item.surveyed (i : Item) : Surveyed i.parts i.mentions := by
  cases i with
  | function f => exact (surveyedOf f.body).more
  | struct d => exact .nil
  | global d => exact d.surveyed

theorem Program.surveyed (p : Program) : Surveyed p.parts (p.flatMap Item.mentions) := by
  induction p with
  | nil => exact .nil
  | cons i p ih => exact i.surveyed.append ih

/-! Functions that are there -/

namespace Program

theorem not_builtin_of_checkDefinitions {structs functions : List String} {p : Program} {u : Unit}
    (h : checkDefinitions structs functions p = .ok u) : ∀ f ∈ p.functions, f.name ∉ builtins := by
  induction p generalizing structs functions with
  | nil => nofun
  | cons i p ih =>
    cases i with
    | global d => exact ih h
    | struct d =>
      simp only [checkDefinitions] at h
      split at h
      · cases h
      · exact ih h
    | function f =>
      simp only [checkDefinitions] at h
      split at h
      · cases h
      · rename_i other
        split at h
        · cases h
        · exact List.forall_mem_cons.mpr ⟨other, ih h⟩

variable {p : Program} {source : String} (accepted : Program.parse source = .ok p) (limits : Limits)
  (cancelled : Bool)

include accepted

/-- Every call has its function, but for those of `free`. -/
theorem function?_of_call {name : String} {args : List Expr} {q : Position}
    (h : .call name args q ∈ p.parts) (free : name ≠ "free") :
    ∃ f, (Setting.ofProgram p source limits cancelled).function? name = some f ∧
      f.params.length = args.length := by
  obtain ⟨i, hi, mentioned⟩ := List.mem_flatMap.mp (p.surveyed.calls h)
  have answer := resolves_item accepted limits cancelled i hi _ mentioned
  rwa [Setting.Answers, if_neg free] at answer

/-- No function has the name of one that every program has. -/
theorem function?_of_builtin {name : String} (h : name ∈ builtins) :
    (Setting.ofProgram p source limits cancelled).function? name = none := by
  obtain ⟨_, defined, -⟩ := exists_ok_of_bind (checked accepted)
  refine List.find?_eq_none.mpr fun f hf same => ?_
  apply not_builtin_of_checkDefinitions defined f hf
  rwa [eq_of_beq same]

end Program

/-! Lookups in vain -/

/-- If the fault is that something is missing, then a variable among the expressions or the function of a
call among them, and the fault tells which. -/
def Fault.NamesOne (f : Fault) (s : Setting) (es : List Expr) : Prop :=
  ∀ name, f.cause.missing? = some name → f.cause = .undefinedVariable name ∧
    (.var name f.pos ∈ es ∨ s.function? name = none ∧ ∃ args, .call name args f.pos ∈ es)

section Typing

variable {α β : Type} {s : Setting} {es es' : List Expr}

def Traced (s : Setting) (es : List Expr) (x : Except Fault α) : Prop :=
  ∀ f, x = .error f → f.NamesOne s es

namespace Traced

variable {x : Except Fault α} {g : α → Except Fault β}

theorem ok {a : α} : Traced s es (.ok a : Except Fault α) := nofun

theorem error {cause : Fault.Cause} {p : Position} (h : cause.missing? = none) :
    Traced s es (.error ⟨cause, p⟩ : Except Fault α) := by
  rintro _ ⟨⟩ name missing
  rw [h] at missing
  cases missing

theorem bind (hx : Traced s es x) (hg : ∀ a, Traced s es (g a)) : Traced s es (x >>= g) := by
  intro f h
  cases hr : x with
  | ok a =>
    rw [hr] at h
    exact hg a f h
  | error e =>
    rw [hr] at h
    obtain rfl : e = f := Except.error.inj h
    exact hx e hr

/-- More expressions do no harm. -/
theorem mono (hx : Traced s es x) (sub : es ⊆ es') : Traced s es' x := by
  intro f h name missing
  obtain ⟨cause, var | ⟨none, args, call⟩⟩ := hx f h name missing
  · exact ⟨cause, .inl (sub var)⟩
  · exact ⟨cause, .inr ⟨none, args, sub call⟩⟩

end Traced

theorem Environment.variable_traced (env : Environment) {name : String} {p : Position}
    (h : .var name p ∈ es) : Traced s es (env.variable name p) := by
  unfold Environment.variable
  split
  · rintro _ ⟨⟩ _ ⟨⟩
    exact ⟨rfl, .inl h⟩
  · split
    · exact .error rfl
    · exact .ok

theorem Structs.fieldType_traced (structs : Structs) (t : CType) (field : String) (p : Position) :
    Traced s es (structs.fieldType t field p) := by
  unfold Structs.fieldType
  split
  · exact .error rfl
  · split
    · exact .error rfl
    · split
      · exact .error rfl
      · exact .ok

theorem staticType_traced (s : Setting) (env : Environment) (e : Expr) :
    Traced s e.parts (staticType s env e) := by
  cases e with
  | var name p => exact (env.variable_traced List.mem_cons_self).bind fun _ => .ok
  | index array index p =>
    refine ((staticType_traced s env array).mono ?_).bind fun t => ?_
    · exact fun x hx => List.mem_cons_of_mem _ (List.mem_append_left _ hx)
    · split
      · exact .ok
      · exact .error rfl
  | deref operand p =>
    refine ((staticType_traced s env operand).mono (List.subset_cons_self ..)).bind fun t => ?_
    split
    · exact .ok
    · exact .error rfl
  | field object name arrow p =>
    exact ((staticType_traced s env object).mono (List.subset_cons_self ..)).bind fun t =>
      (s.structs.fieldType_traced t.type name p).bind fun _ => .ok
  | addressOf operand p | step op operand p =>
    exact ((staticType_traced s env operand).mono (List.subset_cons_self ..)).bind fun _ => .ok
  | unary op operand p =>
    cases op with
    | neg => exact ((staticType_traced s env operand).mono (List.subset_cons_self ..)).bind fun _ => .ok
    | not => exact .ok
  | binary op left right p =>
    cases op with
    | arith op =>
      refine ((staticType_traced s env left).mono ?_).bind fun _ =>
        ((staticType_traced s env right).mono ?_).bind fun _ => .ok
      · exact fun x hx => List.mem_cons_of_mem _ (List.mem_append_left _ hx)
      · exact fun x hx => List.mem_cons_of_mem _ (List.mem_append_right _ hx)
    | compare op | connect op => exact .ok
  | call name args p =>
    simp only [staticType]
    split
    · exact .ok
    · rename_i none
      rintro _ ⟨⟩ _ ⟨⟩
      exact ⟨rfl, .inr ⟨none, args, List.mem_cons_self⟩⟩
  | _ => exact .ok

end Typing

/-! Whole runs -/

/-- If the fault is that something is missing, then a variable, or the type of a call of `free` in an
operand of `sizeof`; and the fault tells which. -/
def Fault.Explained (f : Fault) (p : Program) : Prop :=
  ∀ name, f.cause.missing? = some name → f.cause = .undefinedVariable name ∧
    (.var name f.pos ∈ p.parts ∨ name = "free" ∧ ∃ operand q args,
      .sizeofExpr operand q ∈ p.parts ∧ .call name args f.pos ∈ operand.parts)

namespace Run

variable {α β : Type} {P : Fault → Prop} {x x' : Run α} {f : α → Run β}

def Blames (P : Fault → Prop) (x : Run α) : Prop :=
  ∀ m, Ensures x m (fun _ _ => True) fun h _ => ∀ f, h = .fault f → P f

theorem Blames.bind (hx : Blames P x) (hf : ∀ a, Blames P (f a)) : Blames P (x >>= f) :=
  fun m => Ensures.bind ((hx m).mono (fun a m' _ => hf a m') fun _ _ h => h)

theorem Plain.blames (hx : Plain x x') (h : ∀ f : Fault, f.cause.missing? = none → P f) :
    Blames P x := by
  intro m
  have same := hx m m (.refl m)
  unfold Ensures
  generalize x m = r at same
  generalize x' m = r' at same
  cases same with
  | ok => exact trivial
  | fault cause _ _ =>
    rintro _ ⟨⟩
    exact h _ cause

theorem Blames.ofFault {g : Environment → Except Fault α} (hg : ∀ env f, g env = .error f → P f)
    {k : α → Run β} (hk : ∀ a, Blames P (k a)) :
    Blames P (do k (← Run.ofFault (g (← environment)))) := by
  have found : Blames P (do Run.ofFault (g (← environment))) := by
    intro m
    show Ensures (Run.ofFault (g m.env)) m _ _
    cases h : g m.env with
    | ok a => exact trivial
    | error fault =>
      rintro _ ⟨⟩
      exact hg m.env fault h
  have := found.bind hk
  simpa only [bind_assoc] using this

end Run

namespace Program

variable {p : Program} {source : String} (accepted : Program.parse source = .ok p) (limits : Limits)
  (cancelled : Bool)

include accepted

/-- Whatever is missing in an operand of `sizeof` explains the fault. -/
theorem explained_of_sizeof {operand : Expr} {q : Position} (part : .sizeofExpr operand q ∈ p.parts)
    {f : Fault} (h : f.NamesOne (Setting.ofProgram p source limits cancelled) operand.parts) :
    f.Explained p := by
  intro name missing
  have inside {x : Expr} (hx : x ∈ operand.parts) : x ∈ p.parts :=
    p.surveyed.closed _ part x (List.mem_cons_of_mem _ hx)
  obtain ⟨cause, var | ⟨none, args, call⟩⟩ := h name missing
  · exact ⟨cause, .inl (inside var)⟩
  · refine ⟨cause, .inr ⟨?_, operand, q, args, part, call⟩⟩
    refine Decidable.byContradiction fun free => ?_
    obtain ⟨g, found, -⟩ := function?_of_call accepted limits cancelled (inside call) free
    rw [none] at found
    cases found

omit accepted in
theorem explained_of_var {s : Setting} {name : String} {q : Position} (part : .var name q ∈ p.parts)
    {f : Fault} (h : f.NamesOne s [.var name q]) : f.Explained p := by
  intro missed missing
  obtain ⟨cause, var | ⟨-, args, call⟩⟩ := h missed missing
  · rw [List.mem_singleton] at var
    exact ⟨cause, .inl (var ▸ part)⟩
  · cases List.mem_singleton.mp call

omit accepted in
theorem explained_of_none {f : Fault} (h : f.cause.missing? = none) : f.Explained p := by
  intro name missing
  rw [h] at missing
  cases missing

def explains : Displacement (Setting.ofProgram p source limits cancelled) where
  Rel x _ := Blames (·.Explained p) x
  Part e := e ∈ p.parts
  Site _ := True
  plain hx := hx.blames fun _ => explained_of_none
  bind := Blames.bind
  name {name q} part := by
    refine .ofFault (fun env f h => ?_) fun _ => (Plain.pure _).blames fun _ => explained_of_none
    exact explained_of_var (s := .ofProgram p source limits cancelled) part
      (env.variable_traced List.mem_cons_self f h)
  size {operand q} _ _ part := by
    refine .ofFault (fun env f h => ?_) fun _ => (Plain.pure _).blames fun _ => explained_of_none
    exact explained_of_sizeof accepted limits cancelled part
      ((staticType_traced _ env operand).bind (fun _ => .ok) f h)
  missing {name args q} part free none := by
    obtain ⟨f, found, -⟩ := function?_of_call accepted limits cancelled part free
    rw [none] at found
    cases found
  missingMain none := by
    obtain ⟨f, found, -⟩ := exists_main accepted
    rw [show p.function? "main" = Option.none from none] at found
    cases found
  record {q} description returned _ m := by
    refine (record_ensures _ _ _ _ m).mono (fun _ _ _ => trivial) ?_
    rintro _ _ ⟨-, ⟨rfl, -⟩ | ⟨excess, rfl⟩⟩ f ⟨⟩
  depth g q m := by
    refine (checkDepth_ensures _ m g q).mono (fun _ _ _ => trivial) ?_
    rintro _ _ ⟨-, rfl⟩ f ⟨⟩
  stop m := nofun

/-- Whatever is missing at the end of a run is explained. -/
theorem run_explained (input : String) {f : Fault}
    (h : (p.run (.ofProgram p source limits cancelled) input).2 = .error (.fault f)) : f.Explained p := by
  have run := (explains accepted limits cancelled).program_rel (fun _ he => he) (fun _ _ => trivial)
    (.start input)
  unfold Program.run at h
  split at h
  · cases h
  · rename_i ended
    exact run.error ended f (Except.error.inj h)

end Program

/-- In an accepted program every call has its function, with as many parameters as there are arguments,
wherever the call stands; only `free` is called without one, and has no type. So a run that ends because
something is missing has looked up a variable, or the type of a call of `free` in an operand of `sizeof`,
and the fault tells which. -/
theorem functions_found {source : String} {p : Program} (accepted : Program.parse source = .ok p)
    (limits : Limits) (cancelled : Bool) :
    (∀ name args q, .call name args q ∈ p.parts → name ≠ "free" →
      ∃ f, (Setting.ofProgram p source limits cancelled).function? name = some f ∧
        f.params.length = args.length) ∧
    (∀ env args q, staticType (.ofProgram p source limits cancelled) env (.call "free" args q) =
      .error ⟨.undefinedVariable "free", q⟩) ∧
    ∀ input f, (p.run (.ofProgram p source limits cancelled) input).2 = .error (.fault f) →
      ∀ name, f.cause.missing? = some name → f.cause = .undefinedVariable name ∧
        (.var name f.pos ∈ p.parts ∨ name = "free" ∧ ∃ operand q args,
          .sizeofExpr operand q ∈ p.parts ∧ .call name args f.pos ∈ operand.parts) := by
  refine ⟨fun name args q h free => ?_, fun env args q => ?_, fun input f h => ?_⟩
  · exact Program.function?_of_call accepted limits cancelled h free
  · have none := Program.function?_of_builtin accepted limits cancelled (by decide : "free" ∈ Program.builtins)
    simp only [staticType, none]
  · exact Program.run_explained accepted limits cancelled input h

def Expr.calls (name : String) : Expr → Bool
  | .call other _ _ => other == name
  | _ => false

/-- A program that calls a function only to ask for the size of what it returns, and misses a variable. -/
def sizedText : String :=
  "int g(int a) \x7b return a; \x7d\nint main() \x7b\n int n = sizeof(g(1));\n return n + y;\n\x7d\n"

theorem functions_found_sized :
    ∃ p args q, Program.parse sizedText = .ok p ∧ .call "g" args q ∈ p.parts ∧ "g" ≠ "free" ∧
      (p.run (.ofProgram p sizedText ⟨100, 9, 99999⟩ false) "").2 =
        .error (.fault ⟨.undefinedVariable "y", ⟨4, 13⟩⟩) ∧
      (∃ f, (Setting.ofProgram p sizedText ⟨100, 9, 99999⟩ false).function? "g" = some f ∧
        f.params.length = args.length) ∧ .var "y" ⟨4, 13⟩ ∈ p.parts := by
  have facts : (Program.parse sizedText).toOption.any (fun p =>
      p.parts.any (Expr.calls "g") ∧
      Ensures (runProgram (.ofProgram p sizedText ⟨100, 9, 99999⟩ false) p.globals) (.start "")
        (fun _ _ => False) (fun h _ => h = .fault ⟨.undefinedVariable "y", ⟨4, 13⟩⟩)) = true := by
    decide +kernel
  obtain ⟨p, accepted, facts⟩ := Program.exists_of_any facts
  obtain ⟨called, ended⟩ := of_decide_eq_true facts
  obtain ⟨e, he, called⟩ := List.any_eq_true.mp called
  obtain ⟨_, m, ended, rfl⟩ := ended.exists_error
  have halt : (p.run (.ofProgram p sizedText ⟨100, 9, 99999⟩ false) "").2 =
      .error (.fault ⟨.undefinedVariable "y", ⟨4, 13⟩⟩) := by
    simp only [Program.run, ended]
  have found := functions_found accepted ⟨100, 9, 99999⟩ false
  have explained := (found.2.2 "" _ halt "y" rfl).2
  cases e with
  | call name args q =>
    obtain rfl := eq_of_beq called
    refine ⟨p, args, q, accepted, he, by decide, halt, found.1 _ args q he (by decide), ?_⟩
    exact explained.resolve_right fun free => absurd free.1 (by decide)
  | _ => cases called

def sizedFreeText : String :=
  "struct N \x7b\n int v;\n\x7d;\nint main() \x7b\n struct N *p = malloc(sizeof(struct N));\n" ++
    " return sizeof(free(p));\n\x7d\n"

/-- The program is accepted, and its run ends as the function of one of its calls is missing. -/
theorem sized_free_missing :
    (∃ p, Program.parse sizedFreeText = .ok p ∧ p.parts.any (Expr.calls "free") = true) ∧
      (traceSource sizedFreeText "" ⟨100, 9, 99999⟩ false).status =
        .runtimeError .undefinedVariable "undefined variable 'free' at line 6, column 16" 2 (some 6)
          (some 16) :=
  ⟨Program.exists_of_any (by decide +kernel), by decide +kernel⟩

end Stepwise
