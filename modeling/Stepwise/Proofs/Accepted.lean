import Stepwise.Grammar

/-! What the grammar makes sure of in every program it accepts: a variable has a type that slots can
store, an array has room for its initial values, and the fields of a struct and the parameters of a
function have different names. -/

namespace Stepwise

/-- A type that slots can store: one with values of its own, or a pointer. -/
def CType.Storable (t : CType) : Prop :=
  t.isPointer = true ∨ match t.base with
    | .void | .struct _ => False
    | _ => True

def Decl.Sensible : Decl → Prop
  | .scalar _ type _ _ => type.Storable
  | .array _ elem size init _ => elem.Storable ∧ 0 < size ∧ (init.getD []).length ≤ size

def Simple.Sensible : Simple → Prop
  | .declare d => d.Sensible
  | _ => True

def ClauseSensible : Option Simple → Prop
  | some c => c.Sensible
  | none => True

mutual

def Stmt.Sensible : Stmt → Prop
  | .simple c => c.Sensible
  | .block body _ => AllSensible body
  | .branch _ yes none _ => AllSensible yes
  | .branch _ yes (some no) _ => AllSensible yes ∧ AllSensible no
  | .whileLoop _ body _ => AllSensible body
  | .forLoop init _ update body _ =>
    ClauseSensible init ∧ ClauseSensible update ∧ AllSensible body
  | .leave .. | .breakLoop _ | .continueLoop _ => True

def AllSensible : List Stmt → Prop
  | [] => True
  | stmt :: rest => stmt.Sensible ∧ AllSensible rest

end

theorem AllSensible.append {xs ys : List Stmt} (hx : AllSensible xs) (hy : AllSensible ys) :
    AllSensible (xs ++ ys) := by
  induction xs with
  | nil => exact hy
  | cons x xs ih => exact ⟨hx.1, ih hx.2⟩

theorem AllSensible.ofDecls {ds : List Decl} (h : ∀ d ∈ ds, d.Sensible) :
    AllSensible (ds.map fun d => .simple (.declare d)) := by
  induction ds with
  | nil => exact trivial
  | cons d ds ih => exact ⟨h d List.mem_cons_self, ih fun d hd => h d (List.mem_cons_of_mem _ hd)⟩

def Item.Sensible : Item → Prop
  | .function f => AllSensible f.body
  | .global d => d.Sensible
  | .struct _ => True

def Distinct (members : List Member) : Prop := (members.map (·.name)).Nodup

def Item.Distinct : Item → Prop
  | .struct d => Stepwise.Distinct d.fields
  | .function f => Stepwise.Distinct f.params
  | .global _ => True

theorem Distinct.concat {seen : List Member} {name : String} {t : CType} (h : Distinct seen)
    (new : ¬ seen.any (·.name == name)) : Distinct (seen ++ [⟨name, t⟩]) := by
  unfold Distinct
  rw [List.map_append, List.nodup_append]
  refine ⟨h, by simp, ?_⟩
  intro a ha b hb same
  obtain ⟨f, hf, rfl⟩ := List.mem_map.mp ha
  rw [List.mem_singleton.mp hb] at same
  exact new (List.any_eq_true.mpr ⟨f, hf, beq_iff_eq.mpr same⟩)

theorem exists_ok_of_bind {ε α β : Type} {x : Except ε α} {f : α → Except ε β} {b : β}
    (h : x >>= f = .ok b) : ∃ a, x = .ok a ∧ f a = .ok b := by
  cases x with
  | error e => exact nomatch h
  | ok a => exact ⟨a, rfl, h⟩

namespace Parser

variable {α β σ : Type} {p : Parser α} {f : α → Parser β} {P : α → Prop} {Q : β → Prop}

/-- Whatever the parser returns, `P` holds of it. -/
def Yields (p : Parser α) (P : α → Prop) : Prop := ∀ ts a rest, p ts = .ok (a, rest) → P a

theorem Yields.bind (hp : Yields p P) (hf : ∀ a, P a → Yields (f a) Q) : Yields (p >>= f) Q := by
  intro ts b rest h
  have step : (p >>= f) ts = p ts >>= fun r => f r.1 r.2 := rfl
  obtain ⟨r, hr, h⟩ := exists_ok_of_bind (step.symm.trans h)
  exact hf r.1 (hp ts r.1 r.2 hr) r.2 b rest h

theorem yields_any : Yields p fun _ => True := fun _ _ _ _ => trivial

/-- The first part says nothing about the value of the whole. -/
theorem Yields.after (hf : ∀ a, Yields (f a) Q) : Yields (p >>= f) Q :=
  yields_any.bind fun a _ => hf a

theorem yields_pure {a : α} (h : P a) : Yields (pure a) P := by
  intro ts b rest heq
  obtain ⟨rfl, -⟩ := Prod.mk.inj (Except.ok.inj heq)
  exact h

theorem Yields.ite {c : Prop} [Decidable c] {q : Parser α} (hp : Yields p P) (hq : Yields q P) :
    Yields (if c then p else q) P := by
  split
  · exact hp
  · exact hq

theorem yields_throw (e : ParseError) : Yields (throw e : Parser α) P := nofun

theorem Yields.map {g : α → β} (hp : Yields p P) (hg : ∀ a, P a → Q (g a)) : Yields (g <$> p) Q :=
  hp.bind fun a ha => yields_pure (hg a ha)

theorem yields_stuck : Yields (stuck : Parser α) P := Yields.after fun _ => yields_throw _

theorem yields_failUnsupported (c : Construct) (pos : Position) :
    Yields (failUnsupported c pos : Parser α) P := yields_throw _

/-- A rule that keeps to `P`, which may look at where it starts, as long as what it uses of itself
does. -/
theorem yields_fix_from {P : σ → α → Prop} {rule : (σ → Parser α) → σ → Parser α}
    (h : ∀ again, (∀ s, Yields (again s) (P s)) → ∀ s, Yields (rule again s) (P s)) (s : σ) :
    Yields (fix rule s) (P s) := by
  have unrolled (depth : Nat) : ∀ s, Yields (unroll rule depth s) (P s) := by
    induction depth with
    | zero => exact fun _ => yields_stuck
    | succ depth ih =>
      intro s ts a rest heq
      refine h _ (fun s' ts' a' rest' heq' => ?_) s ts a rest heq
      split at heq'
      · exact ih s' ts' a' rest' heq'
      · exact yields_stuck ts' a' rest' heq'
  exact fun ts a rest heq => unrolled _ s ts a rest heq

theorem yields_fix {rule : (σ → Parser α) → σ → Parser α}
    (h : ∀ again, (∀ s, Yields (again s) P) → ∀ s, Yields (rule again s) P) (s : σ) :
    Yields (fix rule s) P :=
  yields_fix_from (P := fun _ => P) h s

end Parser

namespace Grammar

open Stepwise.Parser

theorem checkStorable_yields (t : CType) (pos : Position) :
    Yields (checkStorable t pos) fun _ => t.Storable := by
  unfold checkStorable
  split
  · rename_i h
    exact yields_pure (.inl h)
  · cases hb : t.base with
    | void => exact yields_throw _
    | struct name => exact yields_failUnsupported _ _
    | _ =>
      refine yields_pure (.inr ?_)
      rw [hb]
      trivial

theorem arraySize_yields : Yields arraySize (0 < ·) := by
  refine .after fun here => ?_
  split
  · refine .after fun _ => ?_
    dsimp only
    split
    · exact Yields.bind (P := fun _ => False) (yields_throw _) nofun
    · rename_i n _ allowed
      refine yields_pure ?_
      omega
  · exact yields_failUnsupported _ _

theorem decideSize_yields (name : String) (pos : Position) {size : Option Nat}
    (init : Option (List Expr)) (h : ∀ n ∈ size, 0 < n) :
    Yields (decideSize name pos size init) fun n => 0 < n ∧ (init.getD []).length ≤ n := by
  unfold decideSize
  split
  · split
    · exact yields_throw _
    · exact yields_pure ⟨h _ rfl, Nat.le_of_not_lt ‹_›⟩
  · exact yields_pure ⟨h _ rfl, Nat.zero_le _⟩
  · exact yields_pure ⟨Nat.zero_lt_succ _, Nat.le_refl _⟩
  · exact yields_throw _

theorem arrayFrom_yields (name : String) (elem : CType) (pos : Position) (h : elem.Storable) :
    Yields (arrayFrom name elem pos) Decl.Sensible := by
  have sized {size : Option Nat} (hs : ∀ n ∈ size, 0 < n) (init : Option (List Expr)) : Yields (do
      let n ← decideSize name pos size init
      return Decl.array name elem n init pos) Decl.Sensible :=
    (decideSize_yields name pos init hs).bind fun n hn => yields_pure ⟨h, hn⟩
  unfold arrayFrom
  refine .after fun empty => ?_
  dsimp only
  have omitted : Yields (pure none : Parser (Option Nat)) fun size => ∀ n ∈ size, 0 < n :=
    yields_pure nofun
  have written : Yields (some <$> arraySize) fun size => ∀ n ∈ size, 0 < n :=
    arraySize_yields.map fun n hn _ heq => Option.some.inj heq ▸ hn
  -- behind the size only the last steps say something about the declaration
  split
  all_goals
    first | refine omitted.bind fun size hs => ?_ | refine written.bind fun size hs => ?_
    repeat' first | exact sized hs _ | refine Yields.after fun _ => ?_ | split

theorem declarator_yields (base : Base) : Yields (declarator base) Decl.Sensible := by
  refine .after fun t => .after fun pos => .after fun name => (checkStorable_yields t pos).bind
    fun _ ht => .after fun isArray => ?_
  split
  · exact arrayFrom_yields name t pos ht
  · have scalar (init : Option Expr) : Yields (pure (Decl.scalar name t init pos)) Decl.Sensible :=
      yields_pure ht
    dsimp only
    repeat' first | exact scalar _ | refine Yields.after fun _ => ?_ | split

theorem declarators_yields (base : Base) : Yields (declarators base) (∀ d ∈ ·, d.Sensible) := by
  refine yields_fix (fun again ih _ => (declarator_yields base).bind fun d hd =>
    .after fun more => ?_) ()
  split
  · exact (ih ()).bind fun ds hds => yields_pure (List.forall_mem_cons.mpr ⟨hd, hds⟩)
  · exact yields_pure (List.forall_mem_singleton.mpr hd)

theorem declaration_yields : Yields declaration (∀ d ∈ ·, d.Sensible) :=
  .after fun base => (declarators_yields base).bind fun _ hds => .after fun _ => yields_pure hds

theorem simple_yields : Yields simple Simple.Sensible := by
  have effect (e : Expr) (pos : Position) : Yields (pure (.effect e pos)) Simple.Sensible :=
    yields_pure trivial
  have assign (target : Expr) (op : Option Arith) (value : Expr) (pos : Position) :
      Yields (pure (.assign target op value pos)) Simple.Sensible := yields_pure trivial
  unfold simple
  dsimp only
  repeat' first | exact effect _ _ | exact assign _ _ _ _ | refine Yields.after fun _ => ?_ | split

theorem forInit_yields : Yields forInit ClauseSensible := by
  refine .after fun isNone => .ite (yields_pure trivial) (.after fun isDecl => .ite ?_ ?_)
  · refine .after fun base => (declarator_yields base).bind fun d hd => .after fun _ => ?_
    have declare : Yields (pure (some (.declare d))) ClauseSensible := yields_pure hd
    exact .ite (.after fun _ => .after fun _ => declare) declare
  · exact simple_yields.bind fun c hc => yields_pure hc

/-! Statements, when those inside them are sensible -/

section

variable {inner : Parser Stmt} (h : Yields inner Stmt.Sensible)

include h

theorem statements_yields : Yields (statements inner) AllSensible := by
  refine yields_fix (fun again ih _ => .after fun here => .ite (yields_pure trivial)
    (.after fun isDecl => .ite ?_ ?_)) ()
  · exact declaration_yields.bind fun ds hds => (ih ()).bind fun more hmore =>
      yields_pure ((AllSensible.ofDecls hds).append hmore)
  · exact h.bind fun stmt hstmt => (ih ()).bind fun more hmore => yields_pure ⟨hstmt, hmore⟩

theorem blockFrom_yields : Yields (blockFrom inner) AllSensible :=
  (statements_yields h).bind fun _ hb => .after fun _ => yields_pure hb

theorem body_yields : Yields (body inner) AllSensible := by
  refine .after fun isBlock => .ite (blockFrom_yields h) ?_
  exact h.bind fun stmt hstmt => yields_pure ⟨hstmt, trivial⟩

theorem forFrom_yields (pos : Position) : Yields (forFrom inner pos) Stmt.Sensible := by
  have rest {init : Option Simple} (hi : ClauseSensible init) (cond : Option Expr) : Yields (do
      expect .semicolon "after for condition"
      let update ← if ← sees .closeParen then pure none else some <$> simple
      expect .closeParen "after for clauses"
      return Stmt.forLoop init cond update (← body inner) pos) Stmt.Sensible := by
    have loop (update : Option Simple) (hu : ClauseSensible update) : Yields (do
        expect .closeParen "after for clauses"
        return Stmt.forLoop init cond update (← body inner) pos) Stmt.Sensible :=
      .after fun _ => (body_yields h).bind fun body hb => yields_pure ⟨hi, hu, hb⟩
    exact .after fun _ => .after fun isNone => .ite (.bind (yields_pure trivial) loop)
      (.bind (simple_yields.map fun _ hc => hc) loop)
  exact .after fun _ => forInit_yields.bind fun init hi => .after fun _ => .after fun isNone =>
    .ite (.after fun cond => rest hi cond) (.after fun cond => rest hi cond)

theorem branchFrom_yields (pos : Position) : Yields (branchFrom inner pos) Stmt.Sensible := by
  refine .after fun _ => .after fun cond => .after fun _ => (body_yields h).bind fun yes hy =>
    .after fun hasElse => ?_
  have branch (no : Option (List Stmt)) (hn : Stmt.Sensible (.branch cond yes no pos)) :
      Yields (pure (Stmt.branch cond yes no pos)) Stmt.Sensible := yields_pure hn
  exact .ite (.bind ((body_yields h).map fun _ hn => ⟨hy, hn⟩) branch) (.bind (yields_pure hy) branch)

theorem whileFrom_yields (pos : Position) : Yields (whileFrom inner pos) Stmt.Sensible :=
  .after fun _ => .after fun _ => .after fun _ => (body_yields h).bind fun _ hb => yields_pure hb

theorem statementOver_yields : Yields (statementOver inner) Stmt.Sensible := by
  have returns (pos : Position) : Yields (returnFrom pos) Stmt.Sensible :=
    .after fun _ => .ite (.after fun _ => .after fun _ => yields_pure trivial)
      (.after fun _ => .after fun _ => yields_pure trivial)
  refine .after fun _ => .after fun here => ?_
  split
  · exact .after fun _ => returns here.pos
  · exact .after fun _ => branchFrom_yields h here.pos
  · exact .after fun _ => whileFrom_yields h here.pos
  · exact .after fun _ => forFrom_yields h here.pos
  · exact .after fun _ => .after fun _ => yields_pure trivial
  · exact .after fun _ => .after fun _ => yields_pure trivial
  · exact .after fun _ => (blockFrom_yields h).bind fun _ hb => yields_pure hb
  · have rest : Yields (do
        let c ← simple
        expect .semicolon "after expression"
        return Stmt.simple c) Stmt.Sensible :=
      simple_yields.bind fun c hc => .after fun _ => yields_pure hc
    dsimp only
    repeat' first | exact rest | refine Yields.after fun _ => ?_ | split

end

theorem statement_yields : Yields statement Stmt.Sensible :=
  yields_fix (fun _ ih _ => statementOver_yields (ih ())) ()

/-! Whole programs -/

theorem functionFrom_yields (returns : CType) :
    Yields (functionFrom returns) (∀ f ∈ ·, AllSensible f.body) := by
  have rest (name : String) (params : List Member) (pos : Position) : Yields (do
      let stmts ← statements statement
      let endPos ← position
      expect .closeBrace "after function body"
      return some (⟨name, params, returns, stmts, pos, endPos⟩ : Function))
      (∀ f ∈ ·, AllSensible f.body) :=
    (statements_yields statement_yields).bind fun stmts hs => .after fun _ => .after
      fun _ => yields_pure (by simpa using hs)
  have prototype : Yields (pure (none : Option Function)) (∀ f ∈ ·, AllSensible f.body) :=
    yields_pure nofun
  unfold functionFrom
  dsimp only
  repeat' first | exact rest _ _ _ | exact prototype | refine Yields.after fun _ => ?_ | split

theorem item_yields : Yields item (∀ i ∈ ·, i.Sensible) := by
  have globals : Yields (do return (← declaration).map .global) (∀ i ∈ ·, Item.Sensible i) := by
    refine declaration_yields.bind fun ds hds => yields_pure ?_
    simpa [Item.Sensible] using hds
  have function (returns : CType) : Yields (do
      let f ← functionFrom returns
      return f.toList.map .function) (∀ i ∈ ·, Item.Sensible i) := by
    refine (functionFrom_yields returns).bind fun f hf => yields_pure ?_
    simpa [Item.Sensible] using hf
  have struct (pos : Position) : Yields (do return [.struct (← structFrom pos)])
      (∀ i ∈ ·, Item.Sensible i) :=
    .after fun d => yields_pure (List.forall_mem_singleton.mpr trivial)
  unfold item
  repeat' first
    | exact globals
    | exact function _
    | exact struct _
    | refine Yields.after fun _ => ?_
    | split

theorem fields_yields (struct : String) (seen : List Member) :
    Yields (fields struct seen) fun members => Distinct seen → Distinct members := by
  refine yields_fix_from (P := fun seen members => Distinct seen → Distinct members)
    (fun again ih seen => ?_) seen
  have next (name : String) (t : CType) (pos : Position) : Yields (do
      if seen.any (·.name == name) then throw ⟨.duplicateField name struct, pos⟩
      expect .semicolon "after struct field"
      again (seen ++ [⟨name, t⟩])) fun members => Distinct seen → Distinct members := by
    split
    · exact Yields.bind (P := fun _ => False) (yields_throw _) nofun
    · rename_i new
      exact .after fun _ ts members rest heq distinct =>
        ih _ ts members rest heq (distinct.concat new)
  refine .after fun here => .ite (yields_pure id) ?_
  refine .after fun t => .after fun _ => .after fun name => .after fun isArray => .ite ?_ ?_
  · exact .after fun _ => .after fun _ => next name t here.pos
  · exact next name t here.pos

theorem structFrom_yields (pos : Position) :
    Yields (structFrom pos) fun d => Distinct d.fields := by
  refine .after fun name => .after fun _ => (fields_yields name []).bind fun members distinct =>
    .after fun _ => .after fun _ => ?_
  have result : Yields (pure (⟨name, members, pos⟩ : StructDef)) fun d => Distinct d.fields :=
    yields_pure (distinct List.nodup_nil)
  exact .ite (.after fun _ => result) result

theorem parameters_yields (seen : List Member) :
    Yields (parameters seen) fun members => Distinct seen → Distinct members := by
  refine yields_fix_from (P := fun seen members => Distinct seen → Distinct members)
    (fun again ih seen => ?_) seen
  have next (name : String) (t : CType) (pos : Position) : Yields (do
      if seen.any (·.name == name) then throw ⟨.duplicateParameter name, pos⟩
      let seen := seen ++ [⟨name, t⟩]
      if ← accept .comma then again seen else return seen)
      fun members => Distinct seen → Distinct members := by
    split
    · exact Yields.bind (P := fun _ => False) (yields_throw _) nofun
    · rename_i new
      refine .after fun more => .ite ?_ (yields_pure fun distinct => distinct.concat new)
      exact fun ts members rest heq distinct => ih _ ts members rest heq (distinct.concat new)
  exact .after fun pos => .after fun _ => .after fun name => .after fun t => .after fun _ =>
    next name t pos

theorem parameterList_yields : Yields parameterList Distinct := by
  have none : Yields (pure []) Distinct := yields_pure List.nodup_nil
  have some : Yields (parameters []) Distinct :=
    fun ts members rest heq => parameters_yields [] ts members rest heq List.nodup_nil
  unfold parameterList
  repeat' first | exact none | exact some | refine Yields.after fun _ => ?_ | split

theorem functionFrom_distinct (returns : CType) :
    Yields (functionFrom returns) (∀ f ∈ ·, Distinct f.params) := by
  have rest (name : String) (pos : Position) : Yields (do
      let params ← parameterList
      expect .closeParen "after parameters"
      if ← accept .semicolon then return none
      expect .openBrace "before function body"
      let stmts ← statements statement
      let endPos ← position
      expect .closeBrace "after function body"
      return some (⟨name, params, returns, stmts, pos, endPos⟩ : Function))
      (∀ f ∈ ·, Distinct f.params) := by
    refine parameterList_yields.bind fun params distinct => .after fun _ => .after fun prototype =>
      .ite (yields_pure nofun) (.after fun _ => .after fun stmts => .after fun _ => .after fun _ => ?_)
    exact yields_pure (by simpa using distinct)
  refine .after fun pos => .after fun name => ?_
  dsimp only
  split
  · exact .after fun _ => .after fun _ => rest name pos
  · exact .after fun _ => rest name pos

theorem item_distinct : Yields item (∀ i ∈ ·, i.Distinct) := by
  have globals : Yields (do return (← declaration).map .global) (∀ i ∈ ·, Item.Distinct i) := by
    refine .after fun ds => yields_pure ?_
    simp [Item.Distinct]
  have function (returns : CType) : Yields (do
      let f ← functionFrom returns
      return f.toList.map .function) (∀ i ∈ ·, Item.Distinct i) := by
    refine (functionFrom_distinct returns).bind fun f hf => yields_pure ?_
    simpa [Item.Distinct] using hf
  have struct (pos : Position) : Yields (do return [.struct (← structFrom pos)])
      (∀ i ∈ ·, Item.Distinct i) :=
    (structFrom_yields pos).bind fun d hd => yields_pure (List.forall_mem_singleton.mpr hd)
  unfold item
  repeat' first
    | exact globals
    | exact function _
    | exact struct _
    | refine Yields.after fun _ => ?_
    | split

/-- What holds of the items that are read holds of a whole program. -/
theorem program_yields {P : Item → Prop} (h : Yields item (∀ i ∈ ·, P i)) :
    Yields program (∀ i ∈ ·, P i) :=
  yields_fix (fun _ ih _ => .after fun _ => .ite (yields_pure nofun)
    (h.bind fun _ hf => (ih ()).bind fun _ hm => yields_pure
      (List.forall_mem_append.mpr ⟨hf, hm⟩))) ()

end Grammar

namespace Program

variable {source : String} {p : Program}

/-- A source that is accepted, by what its program was found to do. -/
theorem exists_of_any {test : Program → Bool} (h : (Program.parse source).toOption.any test = true) :
    ∃ p, Program.parse source = .ok p ∧ test p = true := by
  cases accepted : Program.parse source with
  | error e =>
    rw [accepted] at h
    exact nomatch h
  | ok p =>
    rw [accepted] at h
    exact ⟨p, rfl, h⟩

theorem of_parse {P : Program → Prop} (hp : Parser.Yields Grammar.program P)
    (h : Program.parse source = .ok p) : P p := by
  obtain ⟨p', hp', h⟩ := exists_ok_of_bind h
  obtain ⟨_, -, h⟩ := exists_ok_of_bind h
  obtain rfl := Except.ok.inj h
  obtain ⟨tokens, -, hp'⟩ := exists_ok_of_bind hp'
  unfold Program.ofTokens at hp'
  cases hr : Grammar.program.run tokens with
  | error e =>
    rw [hr] at hp'
    exact nomatch hp'
  | ok r =>
    rw [hr] at hp'
    obtain rfl := Except.ok.inj hp'
    exact hp tokens r.1 r.2 hr

/-- All that an accepted program declares is sensible. -/
theorem sensible (h : Program.parse source = .ok p) : ∀ i ∈ p, i.Sensible :=
  of_parse (Grammar.program_yields Grammar.item_yields) h

theorem distinct (h : Program.parse source = .ok p) : ∀ i ∈ p, i.Distinct :=
  of_parse (Grammar.program_yields Grammar.item_distinct) h

end Program

end Stepwise
