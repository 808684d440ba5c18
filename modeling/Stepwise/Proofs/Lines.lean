import Stepwise.Proofs.Displacement
import Stepwise.Proofs.Positions

/-! The lines of steps. Every step is recorded where a token of the source stands that is not the end of
the text, so its line is a line of the source. -/

namespace Stepwise

open Run

/-! Where the parts of a program stand -/

namespace Parser

variable {α β σ : Type} {whole : List Lexeme} {e : α → α} {x y : Parser α} {f : α → Parser β}
  {P : α → Prop} {Q : β → Prop}

def Refuses (x : Parser α) : Prop := ∀ p rest, ∃ e, x (⟨.eof, p⟩ :: rest) = .error e

theorem Refuses.bind (h : Refuses x) : Refuses (x >>= f) := by
  intro p rest
  obtain ⟨e, he⟩ := h p rest
  refine ⟨e, ?_⟩
  show x (⟨.eof, p⟩ :: rest) >>= (fun r => f r.1 r.2) = _
  rw [he]
  rfl

/-- Whatever is read among the last tokens of `whole`, `P` holds of it. -/
def Finds (whole : List Lexeme) (x : Parser α) (P : α → Prop) : Prop :=
  ∀ ts a rest, ts <:+ whole → x ts = .ok (a, rest) → P a

theorem Yields.finds (h : Yields x P) : Finds whole x P := fun ts a rest _ heq => h ts a rest heq

namespace Finds

theorem bind (hx : Blind whole e x y) (found : Finds whole x P) (hf : ∀ a, P a → Finds whole (f a) Q) :
    Finds whole (x >>= f) Q := by
  intro ts b rest within h
  obtain ⟨r, hr, h⟩ := exists_ok_of_bind (show x ts >>= (fun r => f r.1 r.2) = .ok (b, rest) from h)
  exact hf r.1 (found ts r.1 r.2 within hr) r.2 b rest (hx.stays hr within) h

theorem after (hx : Blind whole e x y) (hf : ∀ a, Finds whole (f a) Q) : Finds whole (x >>= f) Q :=
  bind hx yields_any.finds fun a _ => hf a

theorem pure {a : α} (h : P a) : Finds whole (pure a) P := (yields_pure h).finds

theorem ite {c : Prop} [Decidable c] (hx : Finds whole x P) (hy : Finds whole y P) :
    Finds whole (if c then x else y) P := by
  split
  · exact hx
  · exact hy

/-- What is read last may go wherever it is. -/
theorem last {g : α → β} (found : Finds whole x P) (hg : ∀ a, P a → Q (g a)) :
    Finds whole (do return g (← x)) Q := by
  intro ts b rest within h
  obtain ⟨r, hr, h⟩ := exists_ok_of_bind
    (show x ts >>= (fun r => .ok (g r.1, r.2)) = .ok (b, rest) from h)
  obtain ⟨rfl, -⟩ := Prod.mk.inj (Except.ok.inj h)
  exact hg r.1 (found ts r.1 r.2 within hr)

theorem map {g : α → β} (found : Finds whole x P) (hg : ∀ a, P a → Q (g a)) :
    Finds whole (g <$> x) Q := found.last hg

theorem guard {c : Prop} [Decidable c] {r r' : Parser Unit} (hr : Blind whole id r r')
    (hx : Finds whole x P) : Finds whole (if c then r >>= fun _ => x else x) P :=
  ite (after hr fun _ => hx) hx

theorem choose {c : Prop} [Decidable c] {x' y' : Parser α} (hx : Blind whole e x y)
    (hx' : Blind whole e x' y') (found : Finds whole x P) (found' : Finds whole x' P)
    (hf : ∀ a, P a → Finds whole (f a) Q) : Finds whole (if c then x >>= f else x' >>= f) Q :=
  ite (bind hx found hf) (bind hx' found' hf)

theorem below (found : Finds whole x P) (n : Nat) : Finds whole (Parser.below n (fun _ : Unit => x) ()) P := by
  intro ts a rest within heq
  unfold Parser.below at heq
  split at heq
  · exact found ts a rest within heq
  · exact yields_stuck ts a rest heq

theorem loop {rule : (Unit → Parser α) → Unit → Parser α}
    (h : ∀ {again}, Finds whole (again ()) P → Finds whole (rule again ()) P) :
    Finds whole (Parser.fix rule ()) P := by
  have unrolled (depth : Nat) : Finds whole (unroll rule depth ()) P := by
    induction depth with
    | zero => exact yields_stuck.finds
    | succ depth ih => exact fun ts a rest within heq => h (ih.below ts.length) ts a rest within heq
  exact fun ts a rest within heq => unrolled _ ts a rest within heq

/-- A rule that has to know where what it uses of itself leaves the tokens. -/
theorem loopOver {rule : Parser α → Parser α}
    (hb : ∀ {x y}, Blind whole e x y → Blind whole e (rule x) (rule y))
    (h : ∀ {x y}, Blind whole e x y → Finds whole x P → Finds whole (rule x) P) :
    Finds whole (Parser.fix (fun again _ => rule (again ())) ()) P := by
  have unrolled (depth : Nat) : Finds whole (unroll (fun again _ => rule (again ())) depth ()) P := by
    induction depth with
    | zero => exact yields_stuck.finds
    | succ depth ih =>
      have blind (s : Unit) : Blind whole e (unroll (fun again _ => rule (again ())) depth s)
          (unroll (fun again _ => rule (again ())) depth s) :=
        Blind.unroll (d := (id : Unit → Unit)) (fun h' _ => hb (h' ())) depth s
      exact fun ts a rest within heq =>
        h (Blind.below (d := id) blind ts.length ()) (ih.below ts.length) ts a rest within heq
  exact fun ts a rest within heq => unrolled _ ts a rest within heq

/-- The parser may go back to where it is now. -/
theorem mark {f : List Lexeme → Parser β} (h : ∀ start, start <:+ whole → Finds whole (f start) Q) :
    Finds whole (get >>= f) Q := fun ts a rest within heq => h ts within ts a rest within heq

theorem goBack {start : List Lexeme} (within : start <:+ whole) (hx : Finds whole x P) :
    Finds whole (do set start; x) P := fun _ a rest _ heq => hx start a rest within heq

variable {good : Position → Prop} (sited : ∀ t ∈ whole, t.token ≠ .eof → good t.pos)

include sited

theorem look {f : Lexeme → Parser β} (h : ∀ token p, (token ≠ .eof → good p) →
    Finds whole (f ⟨token, p⟩) Q) : Finds whole (current >>= f) Q := by
  intro ts b rest within heq
  cases ts with
  | nil => cases heq
  | cons t ts => exact h t.token t.pos (sited t (within.subset List.mem_cons_self)) _ b rest within heq

/-- The position in front of something that is not the end. -/
theorem here {f : Position → α → Parser β} (refuses : Refuses x)
    (h : ∀ p, good p → Finds whole (x >>= f p) Q) : Finds whole (position >>= fun p => x >>= f p) Q := by
  intro ts b rest within heq
  have none {e : ParseError} {p : Position} (he : x ts = .error e) : (x >>= f p) ts ≠ .ok (b, rest) := by
    show x ts >>= (fun r => f p r.1 r.2) ≠ _
    rw [he]
    nofun
  cases ts with
  | nil => cases heq
  | cons t ts =>
    obtain ⟨token, p⟩ := t
    by_cases ended : token = .eof
    · obtain ⟨e, he⟩ := refuses p ts
      subst ended
      exact absurd heq (none he)
    · exact h p (sited _ (within.subset List.mem_cons_self) ended) _ b rest within heq

end Finds

end Parser

namespace Grammar

open Stepwise.Parser

theorem identifier_refuses : Refuses identifier := fun _ _ => ⟨_, rfl⟩

theorem expect_refuses (s : Symbol) (context : String) : Refuses (expect s context) :=
  fun _ _ => ⟨_, rfl⟩

theorem unary_refuses : Refuses unary := fun _ _ => ⟨_, rfl⟩

theorem expression_refuses : Refuses expression := by
  have climb (least : Nat) : Refuses (climb unary least) := by
    intro p rest
    rw [run_fix (p := Grammar.climb unary) rfl]
    exact unary_refuses.bind p rest
  exact (climb 1).bind

section Sites

variable {whole : List Lexeme} {good : Position → Prop}
  (sited : ∀ t ∈ whole, t.token ≠ .eof → good t.pos)

include sited

theorem declarator_finds (base : Base) : Finds whole (declarator base) (good ·.pos) := by
  refine .after (withStars_blind base) fun t => .here sited identifier_refuses fun p hp => ?_
  have array (name : String) : Yields (arrayFrom name t p) (good ·.pos) := by
    unfold arrayFrom
    -- every way through ends with a declaration at `p`
    repeat' first | exact yields_pure hp | refine Yields.after fun _ => ?_ | split
  refine Yields.finds ?_
  repeat' first
    | exact array _
    | exact yields_pure hp
    | refine Yields.after fun _ => ?_
    | split

theorem declarators_finds (base : Base) : Finds whole (declarators base) (∀ d ∈ ·, good d.pos) := by
  refine .loop fun ih => .bind (declarator_blind base) (declarator_finds sited base) fun d hd => ?_
  refine .after (Blind.accept .comma) fun more => .ite (ih.last fun ds hds => ?_) (.pure ?_)
  · exact List.forall_mem_cons.mpr ⟨hd, hds⟩
  · exact List.forall_mem_singleton.mpr hd

theorem declaration_finds : Finds whole declaration (∀ d ∈ ·, good d.pos) :=
  .after baseType_blind fun base => .bind (declarators_blind base) (declarators_finds sited base)
    fun _ hds => .after (Blind.expect _ _) fun _ => .pure hds

theorem simple_finds : Finds whole simple (good ·.pos) := by
  refine .here sited expression_refuses fun p hp => Yields.finds ?_
  repeat' first | exact yields_pure hp | refine Yields.after fun _ => ?_ | split

section Statements

variable {x y : Parser Stmt} (hx : Blind whole Stmt.erase x y)
  (found : Finds whole x (∀ q ∈ Stmt.sites ·, good q))

include hx found

theorem statements_finds : Finds whole (statements x) (∀ q ∈ sitesOf ·, good q) := by
  refine .loop fun ih => .after Blind.current fun here => .ite (.pure nofun) ?_
  refine .after Blind.seesType fun type => .ite ?_ ?_
  · refine .bind declaration_blind (declaration_finds sited) fun ds hds => ih.last fun stmts hs => ?_
    induction ds with
    | nil => exact hs
    | cons d ds ihd =>
      have rest := ihd fun d hd => hds d (List.mem_cons_of_mem _ hd)
      exact List.forall_mem_cons.mpr ⟨hds d List.mem_cons_self, rest⟩
  · refine .bind hx found fun stmt hstmt => ih.last fun stmts hs => ?_
    exact List.forall_mem_append.mpr ⟨hstmt, hs⟩

theorem blockFrom_finds : Finds whole (blockFrom x) (∀ q ∈ sitesOf ·, good q) :=
  .bind (statements_blind hx) (statements_finds sited hx found) fun _ hs =>
    .after (Blind.expect _ _) fun _ => .pure hs

theorem body_finds : Finds whole (body x) (∀ q ∈ sitesOf ·, good q) := by
  refine .after (Blind.accept .openBrace) fun block => .ite (blockFrom_finds sited hx found) ?_
  refine found.last fun stmt hs => ?_
  rwa [sitesOf, sitesOf, List.append_nil]

omit hx found in
theorem forInit_finds : Finds whole forInit (∀ c ∈ ·, good c.pos) := by
  refine .after (Blind.sees .semicolon) fun none => .ite (.pure nofun) ?_
  refine .after Blind.seesType fun type => .ite ?_ ((simple_finds sited).last fun c hc => ?_)
  · refine .after baseType_blind fun base => .bind (declarator_blind base) (declarator_finds sited base)
      fun d hd => Yields.finds ?_
    have result : (pure (some (.declare d)) : Parser (Option Simple)).Yields (∀ c ∈ ·, good c.pos) :=
      yields_pure fun c hc => by
        obtain rfl := Option.some.inj hc
        exact hd
    repeat' first | exact result | refine Yields.after fun _ => ?_ | split
  · rintro _ ⟨⟩
    exact hc

omit sited hx found in
theorem clause_sites {c : Option Simple} (h : ∀ x ∈ c, good x.pos) :
    ∀ q ∈ c.toList.map Simple.pos, good q := by
  rintro q hq
  obtain ⟨x, hx, rfl⟩ := List.mem_map.mp hq
  exact h x (Option.mem_toList.mp hx)

theorem forFrom_finds {p : Position} (hp : good p) :
    Finds whole (forFrom x p) (∀ q ∈ Stmt.sites ·, good q) := by
  refine .after (Blind.expect _ _) fun _ => .bind forInit_blind (forInit_finds sited) fun init hi => ?_
  refine .after (Blind.expect _ _) fun _ => .after (Blind.sees .semicolon) fun _ => ?_
  refine .choose (e := Option.map Expr.erase) (P := fun _ => True) (.pure rfl)
    (expression_blind.map fun _ => rfl) yields_any.finds yields_any.finds fun cond _ => ?_
  refine .after (Blind.expect _ _) fun _ => .after (Blind.sees .closeParen) fun _ => ?_
  refine .choose (e := Option.map Simple.erase) (P := (∀ c ∈ ·, good c.pos)) (.pure rfl)
    (simple_blind.map fun _ => rfl) (.pure nofun) ((simple_finds sited).map fun c hc => ?_)
    fun update hu => ?_
  · rintro _ ⟨⟩
    exact hc
  · refine .after (Blind.expect _ _) fun _ => (body_finds sited hx found).last fun stmts hs => ?_
    refine List.forall_mem_cons.mpr ⟨hp, List.forall_mem_append.mpr ⟨?_, hs⟩⟩
    exact List.forall_mem_append.mpr ⟨clause_sites hi, clause_sites hu⟩

theorem branchFrom_finds {p : Position} (hp : good p) :
    Finds whole (branchFrom x p) (∀ q ∈ Stmt.sites ·, good q) := by
  refine .after (Blind.expect _ _) fun _ => .after expression_blind fun cond => ?_
  refine .after (Blind.expect _ _) fun _ => .bind (body_blind hx) (body_finds sited hx found)
    fun yes hyes => ?_
  refine .after (Blind.acceptWord .elseWord) fun _ => ?_
  refine .choose (e := Option.map eraseBody) (P := (∀ no ∈ ·, ∀ q ∈ sitesOf no, good q))
    ((body_blind hx).map fun _ => rfl) (.pure rfl)
    ((body_finds sited hx found).map fun no hno => ?_) (.pure nofun) fun no hno => .pure ?_
  · rintro _ ⟨⟩
    exact hno
  · cases no with
    | none => exact List.forall_mem_cons.mpr ⟨hp, hyes⟩
    | some no =>
      exact List.forall_mem_cons.mpr ⟨hp, List.forall_mem_append.mpr ⟨hyes, hno no rfl⟩⟩

theorem whileFrom_finds {p : Position} (hp : good p) :
    Finds whole (whileFrom x p) (∀ q ∈ Stmt.sites ·, good q) :=
  .after (Blind.expect _ _) fun _ => .after expression_blind fun _ => .after (Blind.expect _ _)
    fun _ => (body_finds sited hx found).last fun _ hs => List.forall_mem_cons.mpr ⟨hp, hs⟩

theorem statementOver_finds : Finds whole (statementOver x) (∀ q ∈ Stmt.sites ·, good q) := by
  have alone {stmt : Stmt} {p : Position} (hp : good p) (h : stmt.sites = [p]) :
      ∀ q ∈ stmt.sites, good q := by
    rw [h]
    exact List.forall_mem_singleton.mpr hp
  refine .after Blind.rejectReserved fun _ => .look sited fun token p hp => ?_
  dsimp only
  split
  · refine .after Blind.advance fun _ => Yields.finds ?_
    have result (value : Option Expr) :
        (pure (.leave value p) : Parser Stmt).Yields (∀ q ∈ ·.sites, good q) :=
      yields_pure (alone (hp (by simp)) rfl)
    unfold returnFrom
    repeat' first | exact result _ | refine Yields.after fun _ => ?_ | split
  · exact .after Blind.advance fun _ => branchFrom_finds sited hx found (hp (by simp))
  · exact .after Blind.advance fun _ => whileFrom_finds sited hx found (hp (by simp))
  · exact .after Blind.advance fun _ => forFrom_finds sited hx found (hp (by simp))
  · exact .after Blind.advance fun _ => .after (Blind.expect _ _) fun _ =>
      .pure (alone (hp (by simp)) rfl)
  · exact .after Blind.advance fun _ => .after (Blind.expect _ _) fun _ =>
      .pure (alone (hp (by simp)) rfl)
  · exact .after Blind.advance fun _ => (blockFrom_finds sited hx found).last fun _ hs => hs
  · have finish : Finds whole (do
        let s ← simple
        expect .semicolon "after expression"
        return .simple s) (∀ q ∈ Stmt.sites ·, good q) :=
      .bind simple_blind (simple_finds sited) fun c hc => .after (Blind.expect _ _) fun _ =>
        .pure (alone hc rfl)
    refine .after Blind.seesType fun type => .guard (.throw _ p) (.ite ?_ finish)
    exact .after (Blind.ahead 1) fun next => .guard .fail finish

end Statements

theorem statement_finds : Finds whole statement (∀ q ∈ Stmt.sites ·, good q) :=
  .loopOver statementOver_blind (statementOver_finds sited)

theorem functionFrom_finds (returns : CType) : Finds whole (functionFrom returns)
    (∀ f ∈ ·, ∀ q ∈ f.pos :: f.endPos :: sitesOf f.body, good q) := by
  refine .here sited identifier_refuses fun p hp => .after Blind.identifier fun name => ?_
  refine .guard .fail (.after (Blind.expect _ _) fun _ => .after parameterList_blind fun params => ?_)
  refine .after (Blind.expect _ _) fun _ => .after (Blind.accept .semicolon) fun prototype => ?_
  refine .ite (.pure nofun) (.after (Blind.expect _ _) fun _ => ?_)
  refine .bind (statements_blind statement_blind)
    (statements_finds sited statement_blind (statement_finds sited)) fun stmts hs => ?_
  refine .here sited (expect_refuses _ _) fun q hq => .after (Blind.expect _ _) fun _ => .pure ?_
  rintro _ ⟨⟩
  exact List.forall_mem_cons.mpr ⟨hp, List.forall_mem_cons.mpr ⟨hq, hs⟩⟩

theorem item_finds : Finds whole item (∀ i ∈ ·, ∀ q ∈ i.sites, good q) := by
  refine .after Blind.rejectReserved fun _ => .after seesStructDefinition_blind fun struct => .ite ?_ ?_
  · refine Yields.finds (.after fun p => .after fun _ => .after fun d => yields_pure ?_)
    exact List.forall_mem_singleton.mpr nofun
  refine .mark fun start within => .after baseType_blind fun base => ?_
  refine .after (Blind.accept .star) fun star => .after seesFunctionName_blind fun function => .ite ?_ ?_
  · refine (functionFrom_finds sited _).last fun f hf i hi => ?_
    obtain ⟨g, hg, rfl⟩ := List.mem_map.mp hi
    exact hf g (Option.mem_toList.mp hg)
  · refine .goBack within ((declaration_finds sited).last fun ds hds i hi => ?_)
    obtain ⟨d, hd, rfl⟩ := List.mem_map.mp hi
    exact List.forall_mem_singleton.mpr (hds d hd)

theorem program_finds : Finds whole program (∀ q ∈ Program.sites ·, good q) := by
  refine .loop fun ih => .after Blind.current fun here => .ite (.pure nofun) ?_
  refine .bind item_blind (item_finds sited) fun first hf => ih.last fun more hm => ?_
  intro q hq
  rw [Program.sites, List.flatMap_append] at hq
  rcases List.mem_append.mp hq with hq | hq
  · obtain ⟨i, hi, hq⟩ := List.mem_flatMap.mp hq
    exact hf i hi q hq
  · exact hm q hq

end Sites

end Grammar

/-- A program that is read off a text is read off its tokens. -/
theorem Program.laid_ofSource {source : String} {p : Program} (read : Program.ofSource source = .ok p) :
    ∃ ts, Laid [] source.toList ts ∧ Program.ofTokens ts = .ok p := by
  obtain ⟨ts, cut, read⟩ := exists_ok_of_bind read
  refine ⟨ts, ?_, read⟩
  cases h : tokenize source with
  | error e =>
    rw [h] at cut
    cases cut
  | ok ts' =>
    rw [h] at cut
    obtain rfl := Except.ok.inj cut
    exact .tokens h

theorem Program.run_ofTokens {ts : List Lexeme} {p : Program} (read : Program.ofTokens ts = .ok p) :
    ∃ rest, Grammar.program ts = .ok (p, rest) := by
  unfold Program.ofTokens at read
  cases hr : Grammar.program.run ts with
  | error e =>
    rw [hr] at read
    cases read
  | ok r =>
    rw [hr] at read
    obtain rfl := Except.ok.inj read
    exact ⟨r.2, hr⟩

/-- Every step of a program is recorded where a token stands. -/
theorem Program.sites_ofSource {source : String} {p : Program} (read : Program.ofSource source = .ok p) :
    ∀ q ∈ p.sites, ∃ front c back, source.toList = front ++ c :: back ∧ q = .behind front := by
  obtain ⟨ts, laid, read⟩ := laid_ofSource read
  obtain ⟨rest, read⟩ := run_ofTokens read
  exact Grammar.program_finds laid.mem_text ts p rest List.suffix_rfl read

theorem Program.ofSource_of_parse {source : String} {p : Program} (accepted : Program.parse source = .ok p) :
    Program.ofSource source = .ok p := by
  obtain ⟨p', read, checked⟩ := exists_ok_of_bind accepted
  obtain ⟨_, -, heq⟩ := exists_ok_of_bind checked
  obtain rfl := Except.ok.inj heq
  exact read

/-! Where steps are recorded -/

def Recorder.On (r : Recorder Moment) (good : Position → Prop) : Prop :=
  ∀ x ∈ r.items, ∃ p, good p ∧ x.line = p.line

def Run.KeepsTo {α : Type} (good : Position → Prop) (x : Run α) : Prop :=
  ∀ m, m.recorder.On good → Leaves x m (·.recorder.On good)

theorem Run.Quiet.keepsTo {α : Type} {good : Position → Prop} {x : Run α} (h : Quiet x) :
    KeepsTo good x := fun m on => (h m).mono (fun _ _ same => same.1 ▸ on) fun _ _ same => same.2.1 ▸ on

theorem record_keepsTo {s : Setting} {good : Position → Prop} {p : Position} (hp : good p)
    (description : String) (returned : Option Value) :
    KeepsTo good (Run.record s p.line description returned) := by
  intro m on
  refine (record_ensures s p.line description returned m).mono ?_ ?_
  · rintro - n ⟨rfl, -⟩
    exact List.forall_mem_cons.mpr ⟨⟨p, hp, rfl⟩, on⟩
  · rintro e n ⟨rfl | rfl, -⟩ <;> exact on

def Displacement.keepsTo (s : Setting) (good : Position → Prop) : Displacement s where
  Rel x _ := KeepsTo good x
  Part _ := True
  Site := good
  plain h := fun m on => (h.keeps m).mono (fun _ _ same => same ▸ on) fun _ _ same => same ▸ on
  bind hx hf := fun m on => Ensures.bind ((hx m on).mono (fun a n on => hf a n on) fun _ _ on => on)
  name _ := (Place.steady_ofName _ _).quiet.keepsTo
  size _ _ _ := (steady_environment.bind fun _ => (steady_ofFault _).bind
    fun _ => steady_pure _).quiet.keepsTo
  missing _ _ _ := (steady_fail _ _).quiet.keepsTo
  missingMain _ := (steady_fail _ _).quiet.keepsTo
  record description returned hp := record_keepsTo hp description returned
  depth f p := fun m on =>
    (checkDepth_ensures s m f p).mono (fun _ _ same => same ▸ on) fun _ _ same => same.1 ▸ on
  stop := fun _ on => on

theorem Program.run_sites (p : Program) (source input : String) (limits : Limits) (cancelled : Bool) :
    ∀ x ∈ (p.run (.ofProgram p source limits cancelled) input).1, ∃ q ∈ p.sites, x.line = q.line := by
  let s := Setting.ofProgram p source limits cancelled
  have lines := (Displacement.keepsTo s (· ∈ p.sites)).program_rel (fun _ _ => trivial) (fun _ hq => hq)
    (.start input) nofun
  intro x hx
  unfold Program.run at hx
  cases h : runProgram s p.globals (.start input) with
  | ok _ m =>
    rw [h] at hx
    exact lines.ok h x (List.mem_reverse.mp hx)
  | error e m =>
    rw [h] at hx
    exact lines.error h x (List.mem_reverse.mp hx)

theorem Setting.code_ofProgram {p : Program} {source : String} {limits : Limits} {cancelled : Bool}
    {n : Nat} {text : List Char} (h : (Text.lines source.toList)[n]? = some text) :
    (Setting.ofProgram p source limits cancelled).code (n + 1) = String.ofList (Text.trim text) := by
  show ((List.map _ _).toArray[n]?).getD "" = _
  rw [List.getElem?_toArray, List.getElem?_map, h]
  rfl

/-- Positions are exact. A text that is cut into tokens is a row of gaps and tokens, each at the position
behind all that comes before it, so that each stands before the next. And every step of a run has the
number of a line of the text, and as its code what stands on that line between the blanks. -/
theorem positions_exact (source : String) :
    (∀ ts, tokenize source = .ok ts →
      Laid [] source.toList ts ∧ ts.Pairwise fun x y => x.pos.Before y.pos) ∧
    ∀ (input : String) (limits : Limits) (cancelled : Bool),
      ∀ x ∈ (traceSource source input limits cancelled).steps,
        1 ≤ x.line ∧ x.line ≤ (Text.lines source.toList).length ∧
          ∃ text, (Text.lines source.toList)[x.line - 1]? = some text ∧
            x.code = String.ofList (Text.trim text) := by
  refine ⟨fun ts h => ⟨.tokens h, (Laid.tokens h).ordered⟩, fun input limits cancelled x hx => ?_⟩
  unfold traceSource at hx
  cases accepted : Program.parse source with
  | error e =>
    rw [accepted] at hx
    cases hx
  | ok p =>
    rw [accepted] at hx
    obtain ⟨moment, recorded, rfl⟩ := List.mem_map.mp hx
    obtain ⟨q, hq, line⟩ := p.run_sites source input limits cancelled moment recorded
    obtain ⟨front, c, back, parts, rfl⟩ := Program.sites_ofSource (Program.ofSource_of_parse accepted) q hq
    have inside : front.count '\n' < (Text.lines source.toList).length := by
      rw [parts]
      exact Text.length_lines front c back
    have text := List.getElem?_eq_getElem inside
    have number : (moment.step (.ofProgram p source limits cancelled)).line = front.count '\n' + 1 :=
      line.trans (Nat.add_comm ..)
    rw [number]
    refine ⟨Nat.succ_pos _, inside, _, text, ?_⟩
    show Setting.code _ _ = _
    rw [line.trans (Nat.add_comm ..)]
    exact Setting.code_ofProgram text

/-- A text with a directive of two lines, comments, carriage returns, a tab, and no newline at its end. -/
def mixedText : String :=
  "#define A \\\n 1\r\n/* x\n */ int main() \x7b\r\n  int a = 1; // one\n\treturn a;\n\x7d"

theorem positions_exact_mixed :
    ∃ ts x, tokenize mixedText = .ok ts ∧
      (traceSource mixedText "" ⟨100, 9, 99999⟩ false).steps.getLast? = some x ∧
      ts.map (·.pos) = [⟨4, 5⟩, ⟨4, 9⟩, ⟨4, 13⟩, ⟨4, 14⟩, ⟨4, 16⟩, ⟨5, 3⟩, ⟨5, 7⟩, ⟨5, 9⟩, ⟨5, 11⟩, ⟨5, 12⟩,
        ⟨6, 2⟩, ⟨6, 9⟩, ⟨6, 10⟩, ⟨7, 1⟩, ⟨7, 2⟩] ∧
      x.line = 6 ∧ x.code = "return a;" ∧
      (Laid [] mixedText.toList ts ∧ ts.Pairwise fun x y => x.pos.Before y.pos) ∧
      1 ≤ x.line ∧ x.line ≤ (Text.lines mixedText.toList).length ∧
        ∃ text, (Text.lines mixedText.toList)[x.line - 1]? = some text ∧
          x.code = String.ofList (Text.trim text) := by
  have cut : (tokenize mixedText).toOption.any (fun ts => ts.map (·.pos) = [⟨4, 5⟩, ⟨4, 9⟩, ⟨4, 13⟩,
      ⟨4, 14⟩, ⟨4, 16⟩, ⟨5, 3⟩, ⟨5, 7⟩, ⟨5, 9⟩, ⟨5, 11⟩, ⟨5, 12⟩, ⟨6, 2⟩, ⟨6, 9⟩, ⟨6, 10⟩, ⟨7, 1⟩,
      ⟨7, 2⟩]) = true := by
    decide +kernel
  have shown : (traceSource mixedText "" ⟨100, 9, 99999⟩ false).steps.getLast?.any
      (fun x => x.line = 6 ∧ x.code = "return a;") = true := by
    decide +kernel
  have exact_ := positions_exact mixedText
  cases tokens : tokenize mixedText with
  | error e =>
    rw [tokens] at cut
    cases cut
  | ok ts =>
    rw [tokens] at cut
    cases last : (traceSource mixedText "" ⟨100, 9, 99999⟩ false).steps.getLast? with
    | none =>
      rw [last] at shown
      cases shown
    | some x =>
      rw [last] at shown
      obtain ⟨line, code⟩ := of_decide_eq_true shown
      refine ⟨ts, x, rfl, rfl, of_decide_eq_true cut, line, code, exact_.1 ts tokens, ?_⟩
      exact exact_.2 "" ⟨100, 9, 99999⟩ false x (List.mem_of_getLast? last)

end Stepwise
