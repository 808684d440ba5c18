import Stepwise.Proofs.Accepted
import Stepwise.Proofs.Reading

/-! The grammar does not look at positions: on tokens without them every rule takes the same tokens,
fails for the same cause, and reads the same thing without its positions. So texts of the same tokens
are programs that differ in positions only, or none of them is a program. -/

namespace Stepwise

def Lexeme.erase (t : Lexeme) : Lexeme := ⟨t.token, .start⟩

def ParseError.erase (e : ParseError) : ParseError := ⟨e.cause, .start⟩

def StructDef.erase (d : StructDef) : StructDef := { d with pos := .start }

def Function.erase (f : Function) : Function :=
  { f with body := eraseBody f.body, pos := .start, endPos := .start }

namespace Parser

variable {α β σ : Type} {whole : List Lexeme} {e : α → α} {e' : β → β} {x y : Parser α}
  {f g : α → Parser β}

/-- What a parser gave, without positions; `e` takes them off what was read. -/
def outcome (e : α → α) : Except ParseError (α × List Lexeme) → Except ParseError (α × List Lexeme)
  | .ok (a, rest) => .ok (e a, rest.map Lexeme.erase)
  | .error err => .error err.erase

/-- On tokens without positions `y` does what `x` does on tokens, and `x` does not leave the tokens at
the end of `whole`. -/
structure Blind (whole : List Lexeme) (e : α → α) (x y : Parser α) : Prop where
  agree : ∀ ts, y (ts.map Lexeme.erase) = outcome e (x ts)
  stays : ∀ {ts a rest}, x ts = .ok (a, rest) → ts <:+ whole → rest <:+ whole

namespace Blind

theorem bind (hx : Blind whole e x y) (hf : ∀ a, Blind whole e' (f a) (g (e a))) :
    Blind whole e' (x >>= f) (y >>= g) where
  agree ts := by
    show y (ts.map Lexeme.erase) >>= (fun r => g r.1 r.2) = outcome e' (x ts >>= fun r => f r.1 r.2)
    rw [hx.agree]
    cases x ts with
    | error err => rfl
    | ok r => exact (hf r.1).agree r.2
  stays {ts b rest} h within := by
    obtain ⟨r, hr, h⟩ := exists_ok_of_bind (show x ts >>= (fun r => f r.1 r.2) = .ok (b, rest) from h)
    exact (hf r.1).stays h (hx.stays hr within)

/-- What is read first has no positions. -/
theorem andThen (hx : Blind whole id x y) (hf : ∀ a, Blind whole e' (f a) (g a)) :
    Blind whole e' (x >>= f) (y >>= g) :=
  hx.bind hf

theorem pure {a b : α} (h : b = e a) : Blind whole e (pure a) (pure b) where
  agree ts := by rw [h]; rfl
  stays h within := by
    obtain ⟨-, rfl⟩ := Prod.mk.inj (Except.ok.inj h)
    exact within

theorem throw (cause : ParseError.Cause) (p : Position) :
    Blind whole e (throw ⟨cause, p⟩) (throw ⟨cause, .start⟩) where
  agree _ := rfl
  stays h := nomatch h

theorem current : Blind whole Lexeme.erase current current where
  agree ts := by cases ts <;> rfl
  stays {ts _ _} h within := by
    cases ts with
    | nil => cases h
    | cons t ts =>
      obtain ⟨-, rfl⟩ := Prod.mk.inj (Except.ok.inj h)
      exact within

theorem ahead (n : Nat) : Blind whole id (ahead n) (ahead n) where
  agree ts := by
    simp only [Parser.ahead, outcome, List.getElem?_map, Option.map_map, id_eq]
    rfl
  stays h within := by
    obtain ⟨-, rfl⟩ := Prod.mk.inj (Except.ok.inj h)
    exact within

theorem advance : Blind whole id advance advance where
  agree ts := by
    cases ts with
    | nil => rfl
    | cons t rest =>
      obtain ⟨token, p⟩ := t
      cases token <;> rfl
  stays {ts a rest} h within := by
    unfold Parser.advance at h
    split at h
    · cases h
    · obtain ⟨-, rfl⟩ := Prod.mk.inj (Except.ok.inj h)
      exact within
    · obtain ⟨-, rfl⟩ := Prod.mk.inj (Except.ok.inj h)
      exact (List.suffix_cons _ _).trans within

/-- The token at the front is looked at. -/
theorem look (h : ∀ token p, Blind whole e' (f' ⟨token, p⟩) (g' ⟨token, .start⟩)) :
    Blind whole e' (Parser.current >>= f') (Parser.current >>= g') :=
  current.bind fun t => h t.token t.pos

theorem here {f g : Position → Parser β} (h : ∀ p, Blind whole e' (f p) (g .start)) :
    Blind whole e' (position >>= f) (position >>= g) :=
  .bind (e := fun _ => .start) (look fun _ _ => .pure rfl) h

theorem ite {c : Prop} [Decidable c] {x' y' : Parser α} (h : Blind whole e x y)
    (h' : Blind whole e x' y') :
    Blind whole e (if c then x else x') (if c then y else y') := by
  split
  · exact h
  · exact h'

/-- What is to be avoided fails; otherwise the parser goes on. -/
theorem guard {c : Prop} [Decidable c] {r r' : Parser Unit} (hr : Blind whole id r r')
    (h : Blind whole e x y) :
    Blind whole e (if c then r >>= fun _ => x else x) (if c then r' >>= fun _ => y else y) :=
  ite (hr.andThen fun _ => h) h

/-- What is needed is there, or the parser does something about it; then it goes on. -/
theorem require {c : Prop} [Decidable c] {r r' : Parser Unit} (hr : Blind whole id r r')
    (h : Blind whole e x y) :
    Blind whole e (if c then x else r >>= fun _ => x) (if c then y else r' >>= fun _ => y) :=
  ite h (hr.andThen fun _ => h)

/-- The same, where the failure names the position. -/
theorem guardHere {c : Prop} [Decidable c] {r : Position → Parser Unit}
    (hr : ∀ p, Blind whole id (r p) (r .start)) (h : Blind whole e x y) :
    Blind whole e (if c then position >>= fun p => r p >>= fun _ => x else x)
      (if c then position >>= fun p => r p >>= fun _ => y else y) :=
  ite (here fun p => (hr p).andThen fun _ => h) h

/-- One of two things is read, and the parser goes on. -/
theorem choose {c : Prop} [Decidable c] {x' y' : Parser α} (h : Blind whole e x y)
    (h' : Blind whole e x' y') (hf : ∀ a, Blind whole e' (f a) (g (e a))) :
    Blind whole e' (if c then x >>= f else x' >>= f) (if c then y >>= g else y' >>= g) :=
  ite (h.bind hf) (h'.bind hf)

theorem map {k k' : α → β} (hx : Blind whole e x y) (h : ∀ a, k' (e a) = e' (k a)) :
    Blind whole e' (k <$> x) (k' <$> y) :=
  hx.bind (f := fun a => Pure.pure (k a)) (g := fun a => Pure.pure (k' a)) fun a => pure (h a)

theorem fail {c : Construct} {p : Position} :
    Blind whole e (failUnsupported c p) (failUnsupported c .start) := throw _ p

theorem sees (s : Symbol) : Blind whole id (sees s) (sees s) := look fun _ _ => pure rfl

theorem accept (s : Symbol) : Blind whole id (accept s) (accept s) :=
  (sees s).andThen fun _ => ite (advance.andThen fun _ => pure rfl) (pure rfl)

theorem acceptWord (k : Keyword) : Blind whole id (acceptWord k) (acceptWord k) := by
  refine look fun token _ => ?_
  cases token with
  | keyword k' => exact ite (advance.andThen fun _ => pure rfl) (pure rfl)
  | _ => exact pure rfl

theorem failExpected (what : Expected) : Blind whole e (failExpected what) (failExpected what) :=
  look fun _ p => throw _ p

theorem expect (s : Symbol) (context : String) : Blind whole id (expect s context) (expect s context) := by
  refine (accept s).andThen fun found => ?_
  cases found with
  | true => exact pure rfl
  | false => exact failExpected _

theorem rejectReserved : Blind whole id rejectReserved rejectReserved := by
  refine look fun token _ => ?_
  cases token with
  | reserved r => exact fail
  | _ => exact pure rfl

theorem identifier : Blind whole id identifier identifier := by
  refine rejectReserved.andThen fun _ => look fun token _ => ?_
  cases token with
  | ident name => exact advance.andThen fun _ => pure rfl
  | _ => exact failExpected _

theorem seesType : Blind whole id seesType seesType := look fun _ _ => pure rfl

theorem stuck : Blind whole e stuck stuck := here fun p => throw _ p

section Rules

variable {d : σ → σ}

theorem below {p q : σ → Parser α} (h : ∀ s, Blind whole e (p s) (q (d s))) (n : Nat) (s : σ) :
    Blind whole e (below n p s) (below n q (d s)) where
  agree ts := by
    unfold Parser.below
    rw [List.length_map]
    split
    · exact (h s).agree ts
    · exact (@stuck α whole e).agree ts
  stays {ts a rest} heq := by
    unfold Parser.below at heq
    split at heq
    · exact (h s).stays heq
    · exact (stuck (e := e)).stays heq

variable {rule rule' : (σ → Parser α) → σ → Parser α}
  (h : ∀ {again again'}, (∀ s, Blind whole e (again s) (again' (d s))) →
    ∀ s, Blind whole e (rule again s) (rule' again' (d s)))

include h

theorem unroll (depth : Nat) (s : σ) :
    Blind whole e (unroll rule depth s) (unroll rule' depth (d s)) := by
  induction depth generalizing s with
  | zero => exact stuck
  | succ depth ih =>
    -- on one row of tokens, both rules may go on for as many tokens
    have once (n : Nat) := h (below ih n) s
    refine ⟨fun ts => ?_, fun {ts a rest} heq => (once ts.length).stays heq⟩
    show rule' (Parser.below (ts.map Lexeme.erase).length (Parser.unroll rule' depth)) (d s) _ = _
    rw [List.length_map]
    exact (once ts.length).agree ts

/-- A rule that is blind as long as what it uses of itself is. -/
theorem fix (s : σ) : Blind whole e (fix rule s) (fix rule' (d s)) where
  agree ts := by
    unfold Parser.fix
    rw [List.length_map]
    exact (unroll h _ s).agree ts
  stays {_ _ _} heq := (unroll h _ s).stays heq

end Rules

/-- The parser may go back to where it is now. -/
theorem mark {f g : List Lexeme → Parser β}
    (h : ∀ start, Blind start e' (f start) (g (start.map Lexeme.erase))) :
    Blind whole e' (get >>= f) (get >>= g) where
  agree ts := (h ts).agree ts
  stays {ts _ _} heq within := ((h ts).stays heq List.suffix_rfl).trans within

theorem goBack (start : List Lexeme) :
    Blind start id (set start) (set (start.map Lexeme.erase)) where
  agree _ := rfl
  stays h _ := by
    obtain ⟨-, rfl⟩ := Prod.mk.inj (Except.ok.inj h)
    exact List.suffix_rfl

/-- A rule that starts from nothing but the tokens. -/
theorem loop {rule rule' : (Unit → Parser α) → Unit → Parser α}
    (h : ∀ {again again'}, Blind whole e (again ()) (again' ()) →
      Blind whole e (rule again ()) (rule' again' ())) :
    Blind whole e (Parser.fix rule ()) (Parser.fix rule' ()) :=
  fix (d := id) (fun h' _ => h (h' ())) ()

end Blind

end Parser

namespace Grammar

open Stepwise.Parser

variable {whole : List Lexeme}

theorem baseType_blind : Blind whole id baseType baseType := by
  refine Blind.rejectReserved.andThen fun _ => .look fun token _ => ?_
  dsimp only
  split
  all_goals first
    | exact Blind.advance.andThen fun _ => .pure rfl
    | exact Blind.advance.andThen fun _ => Blind.identifier.andThen fun _ => .pure rfl
    | exact .failExpected _

theorem withStars_blind (base : Base) : Blind whole id (withStars base) (withStars base) := by
  refine (Blind.accept .star).andThen fun star => (Blind.sees .star).andThen fun more => ?_
  exact .guardHere (fun _ => .fail) (.pure rfl)

theorem type_blind : Blind whole id type type := baseType_blind.andThen withStars_blind

theorem checkStorable_blind (t : CType) (p : Position) :
    Blind whole id (checkStorable t p) (checkStorable t .start) := by
  unfold checkStorable
  split
  · exact .pure rfl
  · split
    · exact .throw _ p
    · exact .fail
    · exact .pure rfl

/-! Expressions -/

theorem operators_blind {c c' : Nat → Parser Expr} (h : ∀ level, Blind whole Expr.erase (c level) (c' level))
    (least : Nat) (left : Expr) :
    Blind whole Expr.erase (operators c least left) (operators c' least left.erase) := by
  refine Blind.fix (d := Expr.erase) (fun ih left => .look fun token p => ?_) left
  dsimp only [Lexeme.erase]
  cases binaryOperator? token with
  | none => exact .pure rfl
  | some operator =>
    refine .ite (.pure rfl) (Blind.advance.andThen fun _ => (h _).bind fun right => ?_)
    exact ih (.binary operator.1 left right p)

section Expressions

variable {x y : Parser Expr} (h : Blind whole Expr.erase x y)

include h

theorem climb_blind (least : Nat) : Blind whole Expr.erase (climb x least) (climb y least) := by
  refine Blind.fix (σ := Nat) (d := id) (fun ih least => ?_) least
  exact h.bind fun first => operators_blind ih least first

theorem expressionOver_blind : Blind whole Expr.erase (expressionOver x) (expressionOver y) := by
  refine (climb_blind h 1).bind fun e => .look fun token p => ?_
  dsimp only
  split <;> first | exact .fail | exact .pure rfl

theorem arguments_blind : Blind whole eraseAll (arguments x) (arguments y) := by
  refine .loop fun ih => .look fun token p => .guard .fail (h.bind fun e => ?_)
  refine (Blind.accept .comma).andThen fun more => .ite ?_ (.pure rfl)
  exact ih.bind fun es => .pure rfl

theorem argumentList_blind : Blind whole eraseAll (argumentList x) (argumentList y) := by
  refine (Blind.sees .closeParen).andThen fun none => .choose (.pure rfl) (arguments_blind h) ?_
  exact fun args => (Blind.expect _ _).andThen fun _ => .pure rfl

omit h in
theorem formatText_blind (function : String) :
    Blind whole id (formatText function) (formatText function) := by
  refine .look fun token p => ?_
  dsimp only
  split
  · refine Blind.advance.andThen fun _ => (Blind.sees .closeParen).andThen fun last => .ite ?_ ?_
    · exact .pure rfl
    · exact (Blind.expect _ _).andThen fun _ => .pure rfl
  · exact .throw _ p

omit h in
theorem scanTargets_blind (args : List Expr) :
    Blind whole eraseAll (scanTargets args) (scanTargets (eraseAll args)) := by
  induction args with
  | nil => exact .pure rfl
  | cons arg rest ih =>
    cases arg with
    | addressOf target p => exact ih.bind fun targets => .pure rfl
    | _ => exact .fail

theorem call_blind (name : String) (p : Position) :
    Blind whole Expr.erase (call x name p) (call y name .start) := by
  have args := argumentList_blind h
  refine .ite ?_ (.ite ?_ (.ite ?_ ?_))
  · exact (formatText_blind name).andThen fun format => args.bind fun es => .pure rfl
  · exact (formatText_blind name).andThen fun format => args.bind fun es =>
      (scanTargets_blind es).bind fun targets => .pure rfl
  · refine args.bind fun es => ?_
    split
    · exact .pure rfl
    · rename_i other
      split
      · rename_i struct q same
        obtain ⟨e, rfl, he⟩ := List.map_eq_singleton_iff.mp ((eraseAll_eq_map es).symm.trans same)
        cases e with
        | sizeofType t q' =>
          cases he
          exact absurd rfl (other struct q')
        | _ => cases he
      · exact .fail
  · exact args.bind fun es => .pure rfl

theorem primary_blind : Blind whole Expr.erase (primary x) (primary y) := by
  refine Blind.rejectReserved.andThen fun _ => .look fun token p => ?_
  cases token with
  | int n => exact Blind.advance.andThen fun _ => .guard (.throw _ p) (.pure rfl)
  | float z | char c | ident name => exact Blind.advance.andThen fun _ => .pure rfl
  | keyword k =>
    cases k with
    | nullWord => exact Blind.advance.andThen fun _ => .pure rfl
    | _ => exact .failExpected _
  | string text => exact .fail
  | symbol y =>
    cases y with
    | openParen =>
      exact Blind.advance.andThen fun _ => h.bind fun e => (Blind.expect _ _).andThen fun _ => .pure rfl
    | _ => exact .failExpected _
  | reserved r | eof => exact .failExpected _

theorem postfixes_blind (e : Expr) :
    Blind whole Expr.erase (postfixes x e) (postfixes y e.erase) := by
  refine Blind.fix (d := Expr.erase) (fun ih e => .look fun token p => ?_) e
  dsimp only
  split
  · exact Blind.advance.andThen fun _ => h.bind fun index => (Blind.expect _ _).andThen
      fun _ => ih (.index e index p)
  · exact Blind.advance.andThen fun _ => Blind.identifier.andThen fun name => ih (.field e name false p)
  · exact Blind.advance.andThen fun _ => Blind.identifier.andThen fun name => ih (.field e name true p)
  · exact Blind.advance.andThen fun _ => ih (.step .postInc e p)
  · exact Blind.advance.andThen fun _ => ih (.step .postDec e p)
  · cases e with
    | var name q =>
      exact Blind.advance.andThen fun _ => (call_blind h name q).bind fun e => ih e
    | _ => exact .fail
  · exact .pure rfl

omit h in
theorem seesTypeInParens_blind : Blind whole id seesTypeInParens seesTypeInParens :=
  (Blind.ahead 1).andThen fun _ => .pure rfl

theorem castFrom_blind (p : Position) :
    Blind whole Expr.erase (castFrom x p) (castFrom y .start) := by
  refine type_blind.andThen fun target => (Blind.expect _ _).andThen fun _ => h.bind fun e => .ite ?_ ?_
  · cases e with
    | newNode struct q => exact .ite (.pure rfl) .fail
    | _ => exact .fail
  · split
    · exact .fail
    · exact .fail
    · exact .pure rfl

theorem sizeofFrom_blind (p : Position) :
    Blind whole Expr.erase (sizeofFrom x p) (sizeofFrom y .start) := by
  refine (Blind.sees .openParen).andThen fun paren => seesTypeInParens_blind.andThen fun type => ?_
  refine .ite ?_ ?_
  · exact Blind.advance.andThen fun _ => type_blind.andThen fun target => (Blind.expect _ _).andThen
      fun _ => .pure rfl
  · exact h.bind fun e => .pure rfl

theorem unaryOver_blind : Blind whole Expr.erase (unaryOver x) (unaryOver y) := by
  have operand := (primary_blind (expressionOver_blind h)).bind fun e =>
    postfixes_blind (expressionOver_blind h) e
  refine .look fun token p => ?_
  dsimp only
  split
  · refine (Blind.ahead 1).andThen fun next => Blind.advance.andThen fun _ => .ite ?_ ?_
    · exact Blind.advance.andThen fun _ => .pure rfl
    · exact h.bind fun e => .pure rfl
  · exact Blind.advance.andThen fun _ => h.bind fun e => .pure rfl
  · exact Blind.advance.andThen fun _ => h.bind fun e => .pure rfl
  · exact Blind.advance.andThen fun _ => h.bind fun e => .pure rfl
  · exact Blind.advance.andThen fun _ => h
  · exact Blind.advance.andThen fun _ => h.bind fun e => .pure rfl
  · exact Blind.advance.andThen fun _ => h.bind fun e => .pure rfl
  · exact .fail
  · exact Blind.advance.andThen fun _ => sizeofFrom_blind h p
  · refine seesTypeInParens_blind.andThen fun cast => .ite ?_ operand
    exact Blind.advance.andThen fun _ => castFrom_blind h p
  · exact operand

end Expressions

theorem unary_blind : Blind whole Expr.erase unary unary := .loop unaryOver_blind

theorem expression_blind : Blind whole Expr.erase expression expression := expressionOver_blind unary_blind

/-! Declarations -/

theorem arraySize_blind : Blind whole id arraySize arraySize := by
  refine .look fun token p => ?_
  dsimp only
  split
  · exact Blind.advance.andThen fun _ => .guard (.throw _ p) (.pure rfl)
  · exact .fail

theorem items_blind : Blind whole eraseAll items items := by
  refine .loop fun ih => (Blind.sees .closeBrace).andThen fun last => .ite (.pure rfl) ?_
  refine expression_blind.bind fun e => (Blind.accept .comma).andThen fun more => .ite ?_ (.pure rfl)
  exact ih.bind fun es => .pure rfl

theorem arrayInitializer_blind : Blind whole eraseAll arrayInitializer arrayInitializer := by
  refine .look fun token p => .guard .fail ((Blind.expect _ _).andThen fun _ => ?_)
  exact items_blind.bind fun es => (Blind.expect _ _).andThen fun _ => .pure rfl

theorem length_eraseAll (es : List Expr) : (eraseAll es).length = es.length := by
  rw [eraseAll_eq_map, List.length_map]

theorem decideSize_blind (name : String) (p : Position) (size : Option Nat)
    (init : Option (List Expr)) :
    Blind whole id (decideSize name p size init) (decideSize name .start size (init.map eraseAll)) := by
  cases size with
  | some size =>
    cases init with
    | some values =>
      simp only [decideSize, Option.map_some, length_eraseAll]
      exact .ite (.throw _ p) (.pure rfl)
    | none => exact .pure rfl
  | none =>
    cases init with
    | some values =>
      cases values with
      | nil => exact .throw _ p
      | cons first rest => exact .pure (congrArg (· + 1) (length_eraseAll rest))
    | none => exact .throw _ p

theorem arrayFrom_blind (name : String) (elem : CType) (p : Position) :
    Blind whole Decl.erase (arrayFrom name elem p) (arrayFrom name elem .start) := by
  refine (Blind.sees .closeBracket).andThen fun open' =>
    .choose (e := id) (.pure rfl) (arraySize_blind.map fun _ => rfl) fun size => ?_
  refine (Blind.expect _ _).andThen fun _ => (Blind.sees .openBracket).andThen fun nested => ?_
  refine .guardHere (fun _ => .fail) ((Blind.accept .eq).andThen fun given => ?_)
  refine .choose (e := Option.map eraseAll) (arrayInitializer_blind.map fun _ => rfl) (.pure rfl)
    fun init => ?_
  exact (decideSize_blind name p size init).andThen fun n => .pure rfl

theorem declarator_blind (base : Base) : Blind whole Decl.erase (declarator base) (declarator base) := by
  refine (withStars_blind base).andThen fun t => .here fun p => Blind.identifier.andThen fun name => ?_
  refine (checkStorable_blind t p).andThen fun _ => (Blind.accept .openBracket).andThen fun array => ?_
  refine .ite (arrayFrom_blind name t p) ((Blind.accept .eq).andThen fun given => .ite ?_ (.pure rfl))
  refine (Blind.sees .openBrace).andThen fun brace => .guardHere (fun p => .throw _ p) ?_
  exact expression_blind.bind fun e => .pure rfl

theorem declarators_blind (base : Base) :
    Blind whole (List.map Decl.erase) (declarators base) (declarators base) := by
  refine .loop fun ih => (declarator_blind base).bind fun d => (Blind.accept .comma).andThen
    fun more => .ite ?_ (.pure rfl)
  exact ih.bind fun ds => .pure rfl

theorem declaration_blind : Blind whole (List.map Decl.erase) declaration declaration :=
  baseType_blind.andThen fun base => (declarators_blind base).bind fun _ =>
    (Blind.expect _ _).andThen fun _ => .pure rfl

/-! Statements -/

theorem simple_blind : Blind whole Simple.erase simple simple := by
  refine .here fun p => expression_blind.bind fun e => .look fun token q => ?_
  dsimp only
  split
  · exact .pure rfl
  · refine Blind.advance.andThen fun _ => ?_
    rw [Expr.isPlace_erase]
    refine .require (.throw _ q) (expression_blind.bind fun value => .look fun next r => ?_)
    exact .guard .fail (.pure rfl)

theorem eraseBody_declared (ds : List Decl) (stmts : List Stmt) :
    eraseBody (ds.map (fun d => .simple (.declare d)) ++ stmts) =
      (ds.map Decl.erase).map (fun d => .simple (.declare d)) ++ eraseBody stmts := by
  induction ds with
  | nil => rfl
  | cons d ds ih => exact congrArg (_ :: ·) ih

section Statements

variable {x y : Parser Stmt} (h : Blind whole Stmt.erase x y)

include h

theorem statements_blind : Blind whole eraseBody (statements x) (statements y) := by
  refine .loop fun ih => .look fun token p => .ite (.pure rfl) ?_
  refine Blind.seesType.andThen fun type => .ite ?_ ?_
  · exact declaration_blind.bind fun ds => ih.bind fun stmts => .pure (eraseBody_declared ds stmts).symm
  · exact h.bind fun s => ih.bind fun stmts => .pure rfl

theorem blockFrom_blind : Blind whole eraseBody (blockFrom x) (blockFrom y) :=
  (statements_blind h).bind fun _ => (Blind.expect _ _).andThen fun _ => .pure rfl

theorem body_blind : Blind whole eraseBody (body x) (body y) :=
  (Blind.accept .openBrace).andThen fun _ => .ite (blockFrom_blind h) (h.bind fun _ => .pure rfl)

omit h in
theorem forInit_blind : Blind whole (Option.map Simple.erase) forInit forInit := by
  refine (Blind.sees .semicolon).andThen fun none => .ite (.pure rfl) ?_
  refine Blind.seesType.andThen fun type => .ite ?_ (simple_blind.bind fun s => .pure rfl)
  refine baseType_blind.andThen fun base => (declarator_blind base).bind fun d => ?_
  exact (Blind.sees .comma).andThen fun more => .guardHere (fun _ => .fail) (.pure rfl)

theorem forFrom_blind (p : Position) : Blind whole Stmt.erase (forFrom x p) (forFrom y .start) := by
  refine (Blind.expect _ _).andThen fun _ => forInit_blind.bind fun init => ?_
  refine (Blind.expect _ _).andThen fun _ => (Blind.sees .semicolon).andThen fun _ => ?_
  refine .choose (e := Option.map Expr.erase) (.pure rfl) (expression_blind.map fun _ => rfl)
    fun cond => ?_
  refine (Blind.expect _ _).andThen fun _ => (Blind.sees .closeParen).andThen fun _ => ?_
  refine .choose (e := Option.map Simple.erase) (.pure rfl) (simple_blind.map fun _ => rfl)
    fun update => ?_
  exact (Blind.expect _ _).andThen fun _ => (body_blind h).bind fun stmts => .pure rfl

theorem branchFrom_blind (p : Position) : Blind whole Stmt.erase (branchFrom x p) (branchFrom y .start) := by
  refine (Blind.expect _ _).andThen fun _ => expression_blind.bind fun cond => ?_
  refine (Blind.expect _ _).andThen fun _ => (body_blind h).bind fun yes => ?_
  refine (Blind.acceptWord .elseWord).andThen fun _ => ?_
  refine .choose (e := Option.map eraseBody) ((body_blind h).map fun _ => rfl) (.pure rfl) fun no => ?_
  cases no <;> exact .pure rfl

theorem whileFrom_blind (p : Position) : Blind whole Stmt.erase (whileFrom x p) (whileFrom y .start) :=
  (Blind.expect _ _).andThen fun _ => expression_blind.bind fun _ =>
    (Blind.expect _ _).andThen fun _ => (body_blind h).bind fun _ => .pure rfl

omit h in
theorem returnFrom_blind (p : Position) : Blind whole Stmt.erase (returnFrom p) (returnFrom .start) := by
  refine (Blind.sees .semicolon).andThen fun _ => ?_
  refine .choose (e := Option.map Expr.erase) (.pure rfl) (expression_blind.map fun _ => rfl)
    fun value => ?_
  exact (Blind.expect _ _).andThen fun _ => .pure rfl

theorem statementOver_blind : Blind whole Stmt.erase (statementOver x) (statementOver y) := by
  refine Blind.rejectReserved.andThen fun _ => .look fun token p => ?_
  dsimp only
  split
  · exact Blind.advance.andThen fun _ => returnFrom_blind p
  · exact Blind.advance.andThen fun _ => branchFrom_blind h p
  · exact Blind.advance.andThen fun _ => whileFrom_blind h p
  · exact Blind.advance.andThen fun _ => forFrom_blind h p
  · exact Blind.advance.andThen fun _ => (Blind.expect _ _).andThen fun _ => .pure rfl
  · exact Blind.advance.andThen fun _ => (Blind.expect _ _).andThen fun _ => .pure rfl
  · exact Blind.advance.andThen fun _ => (blockFrom_blind h).bind fun stmts => .pure rfl
  · have finish : Blind whole Stmt.erase
        (do let s ← simple; expect .semicolon "after expression"; return .simple s)
        (do let s ← simple; expect .semicolon "after expression"; return .simple s) :=
      simple_blind.bind fun _ => (Blind.expect _ _).andThen fun _ => .pure rfl
    refine Blind.seesType.andThen fun type => .guard (.throw _ p) (.ite ?_ finish)
    exact (Blind.ahead 1).andThen fun next => .guard .fail finish

end Statements

theorem statement_blind : Blind whole Stmt.erase statement statement := .loop statementOver_blind

/-! Programs -/

theorem fields_blind (struct : String) (seen : List Member) :
    Blind whole id (fields struct seen) (fields struct seen) := by
  refine Blind.fix (d := id) (fun ih seen => ?_) seen
  refine .look fun token p => .ite (.pure rfl) ?_
  refine type_blind.andThen fun t => (checkStorable_blind t p).andThen fun _ => ?_
  refine Blind.identifier.andThen fun name => (Blind.sees .openBracket).andThen fun array => ?_
  refine .guardHere (fun _ => .fail) (.guard (.throw _ p) ((Blind.expect _ _).andThen fun _ => ?_))
  exact ih (seen ++ [⟨name, t⟩])

theorem structFrom_blind (p : Position) :
    Blind whole StructDef.erase (structFrom p) (structFrom .start) := by
  refine Blind.identifier.andThen fun name => (Blind.expect _ _).andThen fun _ => ?_
  refine (fields_blind name []).andThen fun members => (Blind.expect _ _).andThen fun _ => ?_
  exact (Blind.expect _ _).andThen fun _ => .guard (.throw _ p) (.pure rfl)

theorem decayedParameter_blind (t : CType) (p : Position) :
    Blind whole id (decayedParameter t p) (decayedParameter t .start) := by
  refine (Blind.accept .openBracket).andThen fun array => .ite ?_ (.pure rfl)
  refine (Blind.sees .closeBracket).andThen fun none => .require (arraySize_blind.map fun _ => rfl) ?_
  exact (Blind.expect _ _).andThen fun _ => .guard .fail (.pure rfl)

theorem parameters_blind (seen : List Member) : Blind whole id (parameters seen) (parameters seen) := by
  refine Blind.fix (d := id) (fun ih seen => ?_) seen
  refine .here fun p => type_blind.andThen fun t => ?_
  refine Blind.identifier.andThen fun name => (decayedParameter_blind t p).andThen fun t => ?_
  refine (checkStorable_blind t p).andThen fun _ => .guard (.throw _ p) ?_
  exact (Blind.accept .comma).andThen fun more => .ite (ih (seen ++ [⟨name, t⟩])) (.pure rfl)

theorem parameterList_blind : Blind whole id parameterList parameterList := by
  refine (Blind.sees .closeParen).andThen fun none => .ite (.pure rfl) ?_
  refine .look fun token p => (Blind.ahead 1).andThen fun next => ?_
  refine .ite (.ite (Blind.advance.andThen fun _ => .pure rfl) ?_) ?_ <;> exact parameters_blind []

theorem functionFrom_blind (returns : CType) :
    Blind whole (Option.map Function.erase) (functionFrom returns) (functionFrom returns) := by
  refine .here fun p => Blind.identifier.andThen fun name => .guard .fail ?_
  refine (Blind.expect _ _).andThen fun _ => parameterList_blind.andThen fun params => ?_
  refine (Blind.expect _ _).andThen fun _ => (Blind.accept .semicolon).andThen fun prototype => ?_
  refine .ite (.pure rfl) ((Blind.expect _ _).andThen fun _ => ?_)
  refine (statements_blind statement_blind).bind fun stmts => .here fun q => ?_
  exact (Blind.expect _ _).andThen fun _ => .pure rfl

theorem seesFunctionName_blind : Blind whole id seesFunctionName seesFunctionName :=
  .look fun _ _ => (Blind.ahead 1).andThen fun _ => .pure rfl

theorem seesStructDefinition_blind : Blind whole id seesStructDefinition seesStructDefinition :=
  .look fun _ _ => (Blind.ahead 1).andThen fun _ => (Blind.ahead 2).andThen fun _ => .pure rfl

theorem item_blind : Blind whole (List.map Item.erase) item item := by
  refine Blind.rejectReserved.andThen fun _ => seesStructDefinition_blind.andThen fun struct => ?_
  refine .ite ?_ ?_
  · exact .here fun p => Blind.advance.andThen fun _ => (structFrom_blind p).bind fun d => .pure rfl
  refine .mark fun start => baseType_blind.andThen fun base => ?_
  refine (Blind.accept .star).andThen fun star => ?_
  refine seesFunctionName_blind.andThen fun function => .ite ?_ ?_
  · refine (functionFrom_blind _).bind fun f => .pure ?_
    cases f <;> rfl
  · refine (Blind.goBack start).andThen fun _ => declaration_blind.bind fun ds => .pure ?_
    simp [Item.erase]

theorem program_blind : Blind whole Program.erase program program :=
  .loop fun ih => .look fun _ _ => .ite (.pure rfl) (item_blind.bind fun _ =>
    ih.bind fun _ => .pure List.map_append.symm)

end Grammar

/-! The check of references -/

def Mention.erase : Mention → Mention
  | .struct name _ => .struct name .start
  | .call name arguments _ => .call name arguments .start

theorem CType.mentions_start (t : CType) (p : Position) :
    t.mentions .start = (t.mentions p).map Mention.erase := by
  unfold mentions
  split <;> rfl

mutual

theorem Expr.mentions_erase (e : Expr) : e.erase.mentions = e.mentions.map Mention.erase := by
  cases e with
  | binary op left right p => simp [Expr.erase, Expr.mentions, left.mentions_erase, right.mentions_erase]
  | index array index p => simp [Expr.erase, Expr.mentions, array.mentions_erase, index.mentions_erase]
  | unary op e p | step op e p | addressOf e p | deref e p | field e name arrow p | sizeofExpr e p =>
    exact e.mentions_erase
  | cast type e p => simp [Expr.erase, Expr.mentions, e.mentions_erase, type.mentions_start p]
  | sizeofType type p => exact type.mentions_start p
  | call name args p =>
    simp [Expr.erase, Expr.mentions, mentionsAll_erase args, Grammar.length_eraseAll, Mention.erase]
  | print format args p | read format args p => exact mentionsAll_erase args
  | _ => rfl

theorem mentionsAll_erase (es : List Expr) :
    mentionsAll (eraseAll es) = (mentionsAll es).map Mention.erase := by
  cases es with
  | nil => rfl
  | cons e rest => simp [eraseAll, mentionsAll, e.mentions_erase, mentionsAll_erase rest]

end

theorem mentions_getD {α : Type} {f : α → List Mention} {d : α → α}
    (h : ∀ a, f (d a) = (f a).map Mention.erase) (a : Option α) :
    ((a.map d).map f).getD [] = ((a.map f).getD []).map Mention.erase := by
  cases a with
  | none => rfl
  | some a => exact h a

theorem Decl.mentions_erase (d : Decl) : d.erase.mentions = d.mentions.map Mention.erase := by
  cases d with
  | scalar name type init p =>
    simp only [erase, mentions, List.map_append, type.mentions_start p, mentions_getD Expr.mentions_erase]
  | array name elem size init p =>
    simp only [erase, mentions, List.map_append, elem.mentions_start p, mentions_getD mentionsAll_erase]

theorem Simple.mentions_erase (c : Simple) : c.erase.mentions = c.mentions.map Mention.erase := by
  cases c with
  | declare d => exact d.mentions_erase
  | assign target op value p => simp [erase, mentions, Expr.mentions_erase]
  | effect e p => exact e.mentions_erase

mutual

theorem Stmt.mentions_erase (stmt : Stmt) : stmt.erase.mentions = stmt.mentions.map Mention.erase := by
  cases stmt with
  | simple c => exact c.mentions_erase
  | block body p => exact mentionsOf_erase body
  | branch cond yes no p =>
    cases no with
    | none => simp [Stmt.erase, Stmt.mentions, cond.mentions_erase, mentionsOf_erase yes]
    | some no =>
      simp [Stmt.erase, Stmt.mentions, cond.mentions_erase, mentionsOf_erase yes, mentionsOf_erase no]
  | whileLoop cond body p => simp [Stmt.erase, Stmt.mentions, cond.mentions_erase, mentionsOf_erase body]
  | forLoop init cond update body p =>
    simp only [Stmt.erase, Stmt.mentions, List.map_append, mentions_getD Simple.mentions_erase,
      mentions_getD Expr.mentions_erase, mentionsOf_erase body]
  | leave value p => exact mentions_getD Expr.mentions_erase value
  | breakLoop p => rfl
  | continueLoop p => rfl

theorem mentionsOf_erase (stmts : List Stmt) :
    mentionsOf (eraseBody stmts) = (mentionsOf stmts).map Mention.erase := by
  cases stmts with
  | nil => rfl
  | cons stmt rest => simp [eraseBody, mentionsOf, stmt.mentions_erase, mentionsOf_erase rest]

end

theorem Item.mentions_erase (i : Item) : i.erase.mentions = i.mentions.map Mention.erase := by
  have members (ms : List Member) (p : Position) : ms.flatMap (·.type.mentions .start) =
      (ms.flatMap (·.type.mentions p)).map Mention.erase := by
    rw [List.map_flatMap]
    congr 1
    funext m
    exact m.type.mentions_start p
  cases i with
  | function f =>
    simp only [erase, mentions, List.map_append, f.returns.mentions_start f.pos, members f.params f.pos,
      mentionsOf_erase]
  | struct d => exact members d.fields d.pos
  | global d => exact d.mentions_erase

/-- Errors can be rewritten in each of two computations or in both together. -/
theorem bind_mapError {ε α β : Type} {d : ε → ε} (x : Except ε α) (f : α → Except ε β) :
    (x.mapError d >>= fun a => (f a).mapError d) = (x >>= f).mapError d := by
  cases x <;> rfl

namespace Program

theorem functions_erase (p : Program) : p.erase.functions = p.functions.map Function.erase := by
  induction p with
  | nil => rfl
  | cons i p ih => cases i <;> simp_all [erase, functions, Item.erase, Function.erase]

theorem structs_erase (p : Program) : p.erase.structs = p.structs.map StructDef.erase := by
  induction p with
  | nil => rfl
  | cons i p ih => cases i <;> simp_all [erase, structs, Item.erase, StructDef.erase]

theorem globals_erase (p : Program) : p.erase.globals = p.globals.map Decl.erase := by
  induction p with
  | nil => rfl
  | cons i p ih => cases i <;> simp_all [erase, globals, Item.erase]

theorem function?_erase (p : Program) (name : String) :
    p.erase.function? name = (p.function? name).map Function.erase := by
  unfold function?
  rw [functions_erase, List.find?_map]
  rfl

theorem checkDefinitions_erase (p : Program) (structs functions : List String) :
    p.erase.checkDefinitions structs functions =
      (p.checkDefinitions structs functions).mapError ParseError.erase := by
  induction p generalizing structs functions with
  | nil => rfl
  | cons i p ih =>
    cases i with
    | struct d =>
      simp only [erase, List.map_cons, Item.erase, checkDefinitions]
      split
      · rfl
      · exact ih _ _
    | function f =>
      simp only [erase, List.map_cons, Item.erase, checkDefinitions]
      split
      · rfl
      · split
        · rfl
        · exact ih _ _
    | global d => exact ih _ _

theorem checkMain_erase (p : Program) :
    p.erase.checkMain = p.checkMain.mapError ParseError.erase := by
  unfold checkMain
  rw [function?_erase]
  cases p.function? "main" with
  | none => rfl
  | some f =>
    simp only [Option.map_some, Function.erase]
    split <;> rfl

theorem arity?_erase (p : Program) (name : String) : p.erase.arity? name = p.arity? name := by
  unfold arity?
  rw [function?_erase, Option.map_map]
  rfl

theorem checkMention_erase (p : Program) (x : Mention) :
    p.erase.checkMention x.erase = (p.checkMention x).mapError ParseError.erase := by
  cases x with
  | struct name q =>
    have known : p.erase.structs.any (·.name == name) = p.structs.any (·.name == name) := by
      rw [structs_erase, List.any_map]
      rfl
    simp only [Mention.erase, checkMention, known]
    split <;> rfl
  | call name given q =>
    simp only [Mention.erase, checkMention, arity?_erase]
    cases p.arity? name with
    | none => rfl
    | some wanted =>
      dsimp only
      split <;> rfl

theorem checkReferences_erase (p : Program) :
    p.erase.checkReferences = p.checkReferences.mapError ParseError.erase := by
  have all (ms : List Mention) : (ms.map Mention.erase).forM p.erase.checkMention =
      (ms.forM p.checkMention).mapError ParseError.erase := by
    induction ms with
    | nil => rfl
    | cons x ms ih =>
      show (p.erase.checkMention x.erase >>= fun _ => (ms.map Mention.erase).forM _) =
        (p.checkMention x >>= fun _ => ms.forM _).mapError ParseError.erase
      rw [checkMention_erase, ih, bind_mapError]
  have mentions : p.erase.flatMap Item.mentions = (p.flatMap Item.mentions).map Mention.erase := by
    simp only [erase, List.flatMap_map, List.map_flatMap, Item.mentions_erase]
  unfold checkReferences
  simp only [mentions, all, checkDefinitions_erase, checkMain_erase, bind_mapError]

/-- Texts of the same tokens are the same program but for positions, or neither is a program, and for
the same cause. -/
theorem parse_alike {source source' : String} {ts ts' : List Lexeme} (h : tokenize source = .ok ts)
    (h' : tokenize source' = .ok ts') (same : ts.map (·.token) = ts'.map (·.token)) :
    (∃ e e', parse source = .error e ∧ parse source' = .error e' ∧ e.cause = e'.cause) ∨
      ∃ p p', parse source = .ok p ∧ parse source' = .ok p' ∧ p.erase = p'.erase := by
  have erased : ts.map Lexeme.erase = ts'.map Lexeme.erase := by
    have place (ts : List Lexeme) : ts.map Lexeme.erase = (ts.map (·.token)).map (⟨·, .start⟩) := by
      rw [List.map_map]
      rfl
    rw [place ts, place ts', same]
  -- what the grammar and the check make of the tokens without positions
  have parsed {source : String} {ts : List Lexeme} (h : tokenize source = .ok ts) :
      (Grammar.program (ts.map Lexeme.erase) >>= fun r => r.1.checkReferences.map fun _ => r.1) =
        ((parse source).map erase).mapError ParseError.erase := by
    rw [(@Grammar.program_blind []).agree]
    unfold parse ofSource ofTokens
    rw [h]
    show _ = Except.mapError _ (Except.map _ ((Grammar.program ts).map (·.1) >>= fun p =>
      p.checkReferences >>= fun _ => .ok p))
    cases Grammar.program ts with
    | error e => rfl
    | ok r =>
      show (Program.erase r.1).checkReferences.map (fun _ => r.1.erase) =
        Except.mapError _ (Except.map _ (r.1.checkReferences >>= fun _ => .ok r.1))
      rw [checkReferences_erase]
      cases r.1.checkReferences <;> rfl
  have both := parsed h
  rw [erased, parsed h'] at both
  cases hp : parse source with
  | error e =>
    cases hp' : parse source' with
    | error e' =>
      rw [hp, hp'] at both
      have cause : e.erase.cause = e'.erase.cause := congrArg _ (Except.error.inj both).symm
      exact .inl ⟨e, e', rfl, rfl, cause⟩
    | ok p' =>
      rw [hp, hp'] at both
      cases both
  | ok p =>
    cases hp' : parse source' with
    | error e' =>
      rw [hp, hp'] at both
      cases both
    | ok p' =>
      rw [hp, hp'] at both
      exact .inr ⟨p, p', rfl, rfl, (Except.ok.inj both).symm⟩

end Program

end Stepwise
