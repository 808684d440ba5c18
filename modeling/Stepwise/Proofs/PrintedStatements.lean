import Stepwise.Proofs.PrintedExpressions

/-! The grammar reads every printed declaration and every printed statement back. A body stands in
braces, so only the word of the other branch must not follow a statement. -/

namespace Stepwise

theorem Simple.tokens_ident {s : Simple} (hd : s.isDeclaration = false) {name : String}
    {ks : List Token} (h : s.tokens = .ident name :: ks) : ks.head? ≠ some (.symbol .colon) := by
  cases s with
  | declare => cases hd
  | effect e => exact Expr.tokens_ident h
  | assign target op value =>
    obtain ⟨k, ks', eq, -⟩ := target.tokens_head
    rw [Simple.tokens, eq, List.cons_append, List.cons.injEq] at h
    obtain ⟨rfl, rfl⟩ := h
    have := Expr.tokens_ident eq
    cases ks' with
    | nil => rcases op with _ | op; simp; cases op <;> simp [Arith.assignSymbol]
    | cons => simpa using this

def Stmt.isDeclaration : Stmt → Bool
  | .simple s => s.isDeclaration
  | _ => false

theorem Stmt.isDeclaration_iff {s : Stmt} :
    s.isDeclaration = true ↔ ∃ d, s = .simple (.declare d) := by
  rcases s with s | _ | _ | _ | _ | _ | _ | _
  · cases s <;> simp [isDeclaration, Simple.isDeclaration]
  all_goals simp [isDeclaration]

/-- The word of the other branch does not follow. -/
def Token.endsStmt (k : Token) : Bool := !k.isWord .elseWord

theorem Decl.tokens_head (d : Decl) :
    ∃ w ks, d.tokens = .keyword w :: ks ∧ w.beginsType = true := by
  unfold Decl.tokens
  cases d.base <;> exact ⟨_, _, rfl, rfl⟩

/-- How a statement can begin, and whether that is a type. -/
theorem Stmt.tokens_head (s : Stmt) : ∃ k ks, s.tokens = k :: ks ∧ k ≠ .symbol .closeBrace ∧
    k ≠ .eof ∧ k.endsStmt = true ∧ k.beginsType = s.isDeclaration := by
  have expr {e : Expr} : ∃ k ks, e.tokens = k :: ks ∧ k ≠ .symbol .closeBrace ∧ k ≠ .eof ∧
      k.endsStmt = true ∧ k.beginsType = false := by
    obtain ⟨k, ks, eq, starts⟩ := e.tokens_head
    refine ⟨k, ks, eq, Token.ne_of_startsExpr starts rfl, Token.ne_of_startsExpr starts rfl, ?_,
      Token.beginsType_of_startsExpr starts⟩
    rw [Token.endsStmt, Token.isWord_eq_false.mpr (Token.ne_of_startsExpr starts rfl)]
    rfl
  cases s with
  | simple s =>
    cases s with
    | declare d =>
      obtain ⟨w, ks, eq, begins⟩ := d.tokens_head
      refine ⟨.keyword w, _, by rw [Stmt.tokens, Simple.tokens, eq]; rfl, by simp, by simp, ?_,
        begins⟩
      cases w <;> first | rfl | cases begins
    | effect e =>
      obtain ⟨k, ks, eq, facts⟩ := expr (e := e)
      exact ⟨k, _, by rw [Stmt.tokens, Simple.tokens, eq]; rfl, facts⟩
    | assign target =>
      obtain ⟨k, ks, eq, facts⟩ := expr (e := target)
      exact ⟨k, _, by rw [Stmt.tokens, Simple.tokens, eq]; rfl, facts⟩
  | branch cond yes no => cases no <;> exact ⟨_, _, rfl, by simp, by simp, rfl, rfl⟩
  | _ => exact ⟨_, _, rfl, by simp, by simp, rfl, rfl⟩

namespace Grammar

open Stepwise.Parser

/-! Declarations -/

def IsDecl (d a : Decl) : Prop := a.erase = d.erase

theorem run_items {es : List Expr} (hes : properAll es = true) {ts : List Lexeme}
    (written : Writes ts (separated (es.map Expr.tokens))) (p : Position) (rest : List Lexeme) :
    ∃ as, items (ts ++ ⟨.symbol .closeBrace, p⟩ :: rest) =
      .ok (as, ⟨.symbol .closeBrace, p⟩ :: rest) ∧ AreExprs es as := by
  induction es generalizing ts with
  | nil =>
    obtain rfl := writes_nil.mp written
    exact ⟨[], rfl, rfl⟩
  | cons first others ih =>
    simp only [properAll, Bool.and_eq_true] at hes
    rw [run_loop (x := items) rfl]
    cases others with
    | nil =>
      rw [List.map_singleton, separated_singleton] at written
      obtain ⟨k, q, ts', a, rfl, starts, read, ha⟩ := run_expression hes.1 written
        (t := ⟨.symbol .closeBrace, p⟩) rfl rest
      have notClosed : k.isSymbol .closeBrace = false := Token.isSymbol_of_startsExpr starts rfl
      have noComma : accept .comma (⟨.symbol .closeBrace, p⟩ :: rest) =
        .ok (false, ⟨.symbol .closeBrace, p⟩ :: rest) := run_accept_other rfl
      refine ⟨[a], ?_, congrArg (· :: []) ha⟩
      simp [notClosed, read, noComma]
    | cons second others =>
      simp only [List.map_cons, separated_cons_cons, writes_append, writes_cons] at written
      obtain ⟨front, _, rfl, wf, r, back, rfl, wb⟩ := written
      rw [List.append_assoc, List.cons_append]
      obtain ⟨k, q, ts', a, rfl, starts, read, ha⟩ := run_expression hes.1 wf
        (t := ⟨.symbol .comma, r⟩) rfl (back ++ ⟨.symbol .closeBrace, p⟩ :: rest)
      have notClosed : k.isSymbol .closeBrace = false := Token.isSymbol_of_startsExpr starts rfl
      obtain ⟨as, readAs, has⟩ := ih hes.2 wb
      refine ⟨a :: as, ?_, ?_⟩
      · simp +arith [notClosed, read, run_below, readAs]
      · rw [AreExprs, eraseAll, eraseAll, ha, has]

theorem run_arraySize {size : Nat} (positive : 0 < size) (le : size ≤ 2147483647) (p : Position)
    (ts : List Lexeme) : arraySize (⟨.int size, p⟩ :: ts) = .ok (size, ts) := by
  have inRange : ¬ ((size : Int) ≤ 0 ∨ 2147483647 < (size : Int)) := by omega
  calc arraySize (⟨.int size, p⟩ :: ts)
    _ = (if (size : Int) ≤ 0 ∨ 2147483647 < (size : Int) then _
          else pure (size : Int).toNat : Parser Nat) ts := rfl
    _ = .ok (size, ts) := by rw [if_neg inRange, Int.toNat_natCast, run_pure]

theorem run_checkStorable {c : CType} (h : c.isStorable = true) (pos : Position)
    (ts : List Lexeme) : checkStorable c pos ts = .ok ((), ts) := by
  simp only [CType.isStorable, CType.isCastable, Bool.and_eq_true, Bool.or_eq_true] at h
  unfold checkStorable
  split
  · rfl
  · have number := (h.2.resolve_left ‹_›).2
    cases hb : c.base with
    | void | struct => rw [hb] at number; cases number
    | _ => rfl

/-- The initial values of an array in their braces. -/
theorem run_arrayInitializer {es : List Expr} (hes : properAll es = true) {ts : List Lexeme}
    (written : Writes ts (.symbol .openBrace ::
      (separated (es.map Expr.tokens) ++ [.symbol .closeBrace]))) (rest : List Lexeme) :
    ∃ as, arrayInitializer (ts ++ rest) = .ok (as, rest) ∧ AreExprs es as := by
  simp only [writes_cons, writes_append, writes_nil] at written
  obtain ⟨p, _, rfl, inner, _, rfl, wi, q, _, rfl, rfl⟩ := written
  obtain ⟨as, read, has⟩ := run_items hes wi q rest
  exact ⟨as, by simp [arrayInitializer, read], has⟩

theorem run_decideSize {es : List Expr} {size : Nat} (le : es.length ≤ size) (name : String)
    (pos : Position) (ts : List Lexeme) :
    decideSize name pos (some size) (some es) ts = .ok (size, ts) := by
  have fits : ¬ size < es.length := by omega
  simp [decideSize, fits]

theorem AreExprs.length_eq {es as : List Expr} (h : AreExprs es as) : as.length = es.length := by
  have := congrArg List.length h
  simpa [eraseAll_eq_map] using this

theorem run_declarator {d : Decl} (hd : d.isProper = true) {ts : List Lexeme}
    (written : Writes ts d.declarator) (p : Position) (rest : List Lexeme) :
    ∃ a, declarator d.base (ts ++ ⟨.symbol .semicolon, p⟩ :: rest) =
      .ok (a, ⟨.symbol .semicolon, p⟩ :: rest) ∧ IsDecl d a := by
  cases d with
  | scalar name type init pos =>
    simp only [Decl.isProper, Bool.and_eq_true] at hd
    simp only [Decl.declarator, writes_append, writes_cons] at written
    obtain ⟨stars, _, rfl, ws, q, back, rfl, wi⟩ := written
    have readT := run_withStars (t := ⟨.ident name, q⟩) (CType.isPlain_of_isStorable hd.1) ws rfl
    cases init with
    | none =>
      obtain rfl := writes_nil.mp wi
      refine ⟨.scalar name type none q, ?_, rfl⟩
      simp [declarator, Decl.base, readT, run_checkStorable hd.1]
    | some e =>
      obtain ⟨r, value, rfl, wv⟩ := writes_cons.mp wi
      obtain ⟨k, o, value, a, rfl, starts, read, ha⟩ := run_expression hd.2 wv
        (t := ⟨.symbol .semicolon, p⟩) rfl rest
      have notBrace : k.isSymbol .openBrace = false := Token.isSymbol_of_startsExpr starts rfl
      refine ⟨.scalar name type (some a) q, ?_, ?_⟩
      · simp [declarator, Decl.base, readT, run_checkStorable hd.1, notBrace, read]
      · simp only [IsDecl, Decl.erase, Option.map_some, ha.symm]
  | array name elem size init pos =>
    simp only [Decl.isProper, Bool.and_eq_true, decide_eq_true_eq] at hd
    obtain ⟨⟨⟨storable, positive⟩, le⟩, hinit⟩ := hd
    simp only [Decl.declarator, writes_append, writes_cons] at written
    obtain ⟨stars, _, rfl, ws, q, _, rfl, r, _, rfl, o, _, rfl, l, back, rfl, wi⟩ := written
    have readT := run_withStars (t := ⟨.ident name, q⟩) (CType.isPlain_of_isStorable storable) ws
      rfl
    cases init with
    | none =>
      obtain rfl := writes_nil.mp wi
      refine ⟨.array name elem size none q, ?_, rfl⟩
      simp [declarator, arrayFrom, Decl.base, readT, run_checkStorable storable,
        run_arraySize positive le, decideSize]
    | some es =>
      simp only [Option.all_some, Bool.and_eq_true, decide_eq_true_eq] at hinit
      obtain ⟨m, values, rfl, wv⟩ := writes_cons.mp wi
      obtain ⟨as, read, has⟩ := run_arrayInitializer hinit.2 wv (⟨.symbol .semicolon, p⟩ :: rest)
      refine ⟨.array name elem size (some as) q, ?_, ?_⟩
      · simp [declarator, arrayFrom, Decl.base, readT, run_checkStorable storable,
          run_arraySize positive le, read, run_decideSize (has.length_eq ▸ hinit.1)]
      · simp only [IsDecl, Decl.erase, Option.map_some, has.symm]

/-- A whole declaration is read back as itself alone. -/
theorem run_declaration {d : Decl} (hd : d.isProper = true) {ts : List Lexeme}
    (written : Writes ts (d.tokens ++ [.symbol .semicolon])) (rest : List Lexeme) :
    ∃ a, declaration (ts ++ rest) = .ok ([a], rest) ∧ IsDecl d a := by
  simp only [Decl.tokens, List.append_assoc, writes_append, writes_cons, writes_nil] at written
  obtain ⟨base, _, rfl, wb, front, _, rfl, wd, p, _, rfl, rfl⟩ := written
  obtain ⟨a, read, ha⟩ := run_declarator hd wd p rest
  refine ⟨a, ?_, ha⟩
  have readAll : declarators d.base (front ++ ⟨.symbol .semicolon, p⟩ :: rest) =
      .ok ([a], ⟨.symbol .semicolon, p⟩ :: rest) := by
    rw [run_loop (x := declarators _) rfl]
    simp [read]
  simp [declaration, run_baseType wb, readAll]

/-! Simple statements -/

theorem assignSign?_symbol (op : Option Arith) :
    assignSign? (.symbol ((op.map Arith.assignSymbol).getD .eq)) = some op := by
  rcases op with _ | op
  · rfl
  · cases op <;> rfl

/-- A simple statement that declares nothing is read back in front of a token that ends it. -/
theorem run_simple {s : Simple} (hs : s.isProper = true) (hd : s.isDeclaration = false)
    {ts : List Lexeme} (written : Writes ts s.tokens) {t : Lexeme}
    (ends : t.token.endsExpr = true) (noSign : assignSign? t.token = none) (rest : List Lexeme) :
    ∃ k p ts' a, ts = ⟨k, p⟩ :: ts' ∧ k.startsExpr = true ∧
      simple (⟨k, p⟩ :: (ts' ++ t :: rest)) = .ok (a, t :: rest) ∧ a.erase = s.erase := by
  cases s with
  | declare d => cases hd
  | effect e pos =>
    obtain ⟨k, p, ts', a, rfl, starts, read, ha⟩ := run_expression hs written ends rest
    refine ⟨k, p, ts', .effect a p, rfl, starts, ?_, congrArg (Simple.effect · .start) ha⟩
    simp [simple, read, noSign]
  | assign target op value pos =>
    simp only [Simple.isProper, Bool.and_eq_true] at hs
    simp only [Simple.tokens, writes_append, writes_cons] at written
    obtain ⟨front, _, rfl, wt, q, back, rfl, wv⟩ := written
    obtain ⟨k, p, front, a, rfl, starts, readA, ha⟩ := run_expression hs.1.2 wt
      (t := ⟨.symbol ((op.map Arith.assignSymbol).getD .eq), q⟩)
      (by rcases op with _ | op; rfl; cases op <;> rfl) (back ++ t :: rest)
    obtain ⟨k', p', back, b, rfl, -, readB, hb⟩ := run_expression hs.2 wv ends rest
    have place : a.isPlace = true := by
      rw [← Expr.isPlace_erase, ha, Expr.isPlace_erase, hs.1.1]
    rw [List.cons_append] at readA
    refine ⟨k, p, _, .assign a op b p, rfl, starts, ?_, ?_⟩
    · simp [simple, readA, assignSign?_symbol, place, readB, noSign]
    · simp only [Simple.erase, ha.symm, hb.symm]

/-! Statements -/

def IsStmt (s a : Stmt) : Prop := a.erase = s.erase

def AreStmts (ss as : List Stmt) : Prop := eraseBody as = eraseBody ss

def ReadsStmts (n : Nat) (x : Parser Stmt) : Prop :=
  ∀ s, s.isProper = true → s.isDeclaration = false → Reads n x s.tokens Token.endsStmt (IsStmt s)

variable {n : Nat} {x : Parser Stmt}

/-- What begins like an expression, and not like a label, is a simple statement. -/
theorem run_statementOver_simple {k : Token} {p q : Position} {ts rest : List Lexeme} {a : Simple}
    (starts : k.startsExpr = true)
    (noLabel : ∀ name, k = .ident name → ts[0]?.map (·.token) ≠ some (.symbol .colon))
    (read : simple (⟨k, p⟩ :: ts) = .ok (a, ⟨.symbol .semicolon, q⟩ :: rest)) :
    statementOver x (⟨k, p⟩ :: ts) = .ok (.simple a, rest) := by
  cases k with
  | int | float | char => simp [statementOver, Token.beginsType, read]
  | ident name => simp [statementOver, Token.beginsType, noLabel name rfl, read]
  | keyword w =>
    cases w <;> first
      | exact absurd starts Bool.false_ne_true
      | simp [statementOver, Token.beginsType, Keyword.beginsType, read]
  | symbol s =>
    cases s <;> first
      | exact absurd starts Bool.false_ne_true
      | simp [statementOver, Token.beginsType, read]
  | string | reserved | eof => cases starts

theorem simple_reads {s : Simple} (hs : s.isProper = true) (hd : s.isDeclaration = false) :
    Reads n (statementOver x) (Stmt.simple s).tokens Token.endsStmt (IsStmt (.simple s)) := by
  intro ts t rest written _ _
  simp only [Stmt.tokens, writes_append, writes_cons, writes_nil] at written
  obtain ⟨front, _, rfl, ws, q, _, rfl, rfl⟩ := written
  obtain ⟨k, p, front, a, rfl, starts, read, ha⟩ := run_simple hs hd ws
    (t := ⟨.symbol .semicolon, q⟩) rfl rfl (t :: rest)
  refine ⟨.simple a, ?_, congrArg Stmt.simple ha⟩
  simp only [List.cons_append, List.append_assoc, List.nil_append]
  refine run_statementOver_simple starts (fun name hk => ?_) read
  have noColon := Simple.tokens_ident hd (ws.symm.trans (by rw [List.map_cons, hk]))
  cases front with
  | nil => simp
  | cons => simpa using noColon

/-- What stands behind a statement in a body: another one, or the closing brace. -/
theorem head_of_body {body : List Stmt} {ts : List Lexeme} {t : Lexeme}
    (written : Writes ts (tokensOf body)) (follows : t.token.isSymbol .closeBrace = true)
    (rest : List Lexeme) :
    ∃ t' rest', ts ++ t :: rest = t' :: rest' ∧ t'.token.endsStmt = true := by
  cases body with
  | nil =>
    obtain rfl := writes_nil.mp written
    refine ⟨t, rest, rfl, ?_⟩
    rw [Token.isSymbol_iff.mp follows]
    rfl
  | cons s others =>
    obtain ⟨k, ks, eq, -, -, ends, -⟩ := s.tokens_head
    rw [tokensOf, eq] at written
    obtain ⟨p, ts, rfl, -⟩ := writes_cons.mp written
    exact ⟨_, _, rfl, ends⟩

/-- The statements of a body, up to a closing brace. -/
theorem statements_reads (hx : ReadsStmts n x) {body : List Stmt} (hb : properBody body = true) :
    Reads n (statements x) (tokensOf body) (Token.isSymbol · .closeBrace) (AreStmts body) := by
  induction body with
  | nil =>
    intro ts t rest written follows _
    obtain rfl := writes_nil.mp written
    obtain ⟨k, p⟩ := t
    obtain rfl := Token.isSymbol_iff.mp follows
    exact ⟨[], rfl, rfl⟩
  | cons s others ih =>
    simp only [properBody, Bool.and_eq_true] at hb
    intro ts t rest written follows short
    simp only [tokensOf, writes_append] at written
    obtain ⟨front, back, rfl, ws, wo⟩ := written
    rw [List.append_assoc] at short ⊢
    obtain ⟨as, readAs, has⟩ := ih hb.2 back t rest wo follows
      (by simp only [List.length_append] at short ⊢; omega)
    obtain ⟨k, ks, eq, notClosed, notEnd, -, begins⟩ := s.tokens_head
    rw [eq] at ws
    obtain ⟨p, front, rfl, ws'⟩ := writes_cons.mp ws
    rw [run_loop (x := statements x) rfl]
    cases hd : s.isDeclaration with
    | true =>
      obtain ⟨d, rfl⟩ := Stmt.isDeclaration_iff.mp hd
      obtain ⟨a, read, ha⟩ := run_declaration hb.1 (eq ▸ ws) (back ++ t :: rest)
      rw [List.cons_append] at read
      refine ⟨.simple (.declare a) :: as, ?_, ?_⟩
      · simp +arith [begins, hd, read, run_below, readAs]
      · rw [AreStmts, eraseBody, eraseBody, has, Stmt.erase, Simple.erase, ha]
        rfl
    | false =>
      -- what follows in the body is not the other branch of this statement
      obtain ⟨t', rest', eq', ends⟩ := head_of_body wo follows rest
      obtain ⟨a, read, ha⟩ := hx s hb.1 hd (⟨k, p⟩ :: front) t' rest' (eq ▸ ws) ends (eq' ▸ short)
      rw [List.cons_append, ← eq'] at read
      refine ⟨a :: as, ?_, ?_⟩
      · simp +arith [begins, hd, read, run_below, readAs]
      · rw [AreStmts, eraseBody, eraseBody, has, ha]

theorem blockFrom_reads (hx : ReadsStmts n x) {body : List Stmt} (hb : properBody body = true) :
    Reads n (blockFrom x) (tokensOf body ++ [.symbol .closeBrace]) (fun _ => true)
      (AreStmts body) := by
  intro ts t rest written _ short
  simp only [writes_append, writes_cons, writes_nil] at written
  obtain ⟨front, _, rfl, wf, p, _, rfl, rfl⟩ := written
  rw [List.append_assoc] at short ⊢
  obtain ⟨as, read, has⟩ := statements_reads hx hb front ⟨.symbol .closeBrace, p⟩ (t :: rest) wf rfl
    short
  exact ⟨as, by simp [blockFrom, read], has⟩

/-- A body in braces. -/
theorem body_reads (hx : ReadsStmts n x) {body : List Stmt} (hb : properBody body = true) :
    Reads n (Grammar.body x) (braces (tokensOf body)) (fun _ => true) (AreStmts body) := by
  intro ts t rest written follows short
  obtain ⟨p, inner, rfl, wi⟩ := writes_cons.mp written
  rw [List.cons_append, List.length_cons] at short
  obtain ⟨as, read, has⟩ := blockFrom_reads hx hb inner t rest wi follows (by omega)
  exact ⟨as, by simp [Grammar.body, read], has⟩

/-- A rule with a clause that may be left out, which `s` behind it tells, goes on with `c` and the
tokens that are left. -/
def Optional {α : Type} (s : Symbol) (y : Parser α) (ts : List Lexeme) (c : Option α)
    (rest : List Lexeme) : Prop :=
  ∀ f : Option α → Parser Stmt,
    (sees s >>= fun b => if b then pure none >>= f else some <$> y >>= f) ts = f c rest

theorem optional_none {α : Type} (s : Symbol) (y : Parser α) (p : Position) (rest : List Lexeme) :
    Optional s y (⟨.symbol s, p⟩ :: rest) none (⟨.symbol s, p⟩ :: rest) := by
  intro f
  simp

theorem optional_some {α : Type} {s : Symbol} {y : Parser α} {k : Token} {p : Position} {a : α}
    {ts rest : List Lexeme} (starts : k.startsExpr = true)
    (closes : (Token.symbol s).startsExpr = false) (read : y (⟨k, p⟩ :: ts) = .ok (a, rest)) :
    Optional s y (⟨k, p⟩ :: ts) (some a) rest := by
  intro f
  simp [Token.isSymbol_of_startsExpr starts closes, read]

theorem optional_expression {value : Option Expr} (hv : value.all Expr.isProper = true)
    {ts : List Lexeme} (written : Writes ts ((value.map Expr.tokens).getD [])) (p : Position)
    (rest : List Lexeme) :
    ∃ c, Optional .semicolon expression (ts ++ ⟨.symbol .semicolon, p⟩ :: rest) c
      (⟨.symbol .semicolon, p⟩ :: rest) ∧ c.map Expr.erase = value.map Expr.erase := by
  cases value with
  | none =>
    obtain rfl := writes_nil.mp written
    exact ⟨none, optional_none _ _ _ _, rfl⟩
  | some e =>
    obtain ⟨k, q, ts, a, rfl, starts, read, ha⟩ := run_expression hv written
      (t := ⟨.symbol .semicolon, p⟩) rfl rest
    exact ⟨some a, optional_some starts rfl read, congrArg some ha⟩

theorem optional_simple {update : Option Simple}
    (hu : update.all (fun s => s.isProper && !s.isDeclaration) = true) {ts : List Lexeme}
    (written : Writes ts ((update.map Simple.tokens).getD [])) (p : Position)
    (rest : List Lexeme) :
    ∃ c, Optional .closeParen simple (ts ++ ⟨.symbol .closeParen, p⟩ :: rest) c
      (⟨.symbol .closeParen, p⟩ :: rest) ∧ c.map Simple.erase = update.map Simple.erase := by
  cases update with
  | none =>
    obtain rfl := writes_nil.mp written
    exact ⟨none, optional_none _ _ _ _, rfl⟩
  | some s =>
    simp only [Option.all_some, Bool.and_eq_true, Bool.not_eq_true'] at hu
    obtain ⟨k, q, ts, a, rfl, starts, read, ha⟩ := run_simple hu.1 hu.2 written
      (t := ⟨.symbol .closeParen, p⟩) rfl rfl rest
    exact ⟨some a, optional_some starts rfl read, congrArg some ha⟩

theorem leave_reads {value : Option Expr} {pos : Position} (hv : value.all Expr.isProper = true) :
    Reads n (statementOver x) (Stmt.leave value pos).tokens Token.endsStmt
      (IsStmt (.leave value pos)) := by
  intro ts t rest written _ _
  simp only [Stmt.tokens, writes_cons, writes_append, writes_nil] at written
  obtain ⟨p, _, rfl, inner, _, rfl, wv, q, _, rfl, rfl⟩ := written
  obtain ⟨c, read, eq⟩ := optional_expression hv wv q (t :: rest)
  refine ⟨.leave c p, ?_, congrArg (Stmt.leave · .start) eq⟩
  have run : returnFrom p (inner ++ ⟨.symbol .semicolon, q⟩ :: t :: rest) =
      .ok (.leave c p, t :: rest) := (read _).trans rfl
  simpa [statementOver] using run

theorem block_reads (hx : ReadsStmts n x) {body : List Stmt} {pos : Position}
    (hb : properBody body = true) :
    Reads (n + 1) (statementOver x) (Stmt.block body pos).tokens Token.endsStmt
      (IsStmt (.block body pos)) := by
  intro ts t rest written _ short
  obtain ⟨p, inner, rfl, wi⟩ := writes_cons.mp written
  rw [List.cons_append, List.length_cons] at short
  obtain ⟨as, read, has⟩ := blockFrom_reads hx hb inner t rest wi rfl (by omega)
  refine ⟨.block as p, ?_, congrArg (Stmt.block · .start) has⟩
  simp [statementOver, read]

theorem while_reads (hx : ReadsStmts n x) {cond : Expr} {body : List Stmt} {pos : Position}
    (hc : cond.isProper = true) (hb : properBody body = true) :
    Reads (n + 1) (statementOver x) (Stmt.whileLoop cond body pos).tokens Token.endsStmt
      (IsStmt (.whileLoop cond body pos)) := by
  intro ts t rest written _ short
  simp only [Stmt.tokens, writes_cons, writes_append] at written
  obtain ⟨p, _, rfl, q, _, rfl, front, _, rfl, wc, r, back, rfl, wb⟩ := written
  simp only [List.cons_append, List.append_assoc, List.length_cons, List.length_append] at short ⊢
  obtain ⟨k, o, front, c, rfl, -, readC, eqC⟩ := run_expression hc wc
    (t := ⟨.symbol .closeParen, r⟩) rfl (back ++ t :: rest)
  obtain ⟨as, readB, eqB⟩ := body_reads hx hb back t rest wb rfl (by simp; omega)
  refine ⟨.whileLoop c as p, ?_, ?_⟩
  · simp [statementOver, whileFrom, readC, readB]
  · rw [IsStmt, Stmt.erase, Stmt.erase, eqC, eqB]

theorem branch_reads (hx : ReadsStmts n x) {cond : Expr} {yes : List Stmt}
    {no : Option (List Stmt)} {pos : Position}
    (hs : (Stmt.branch cond yes no pos).isProper = true) :
    Reads (n + 1) (statementOver x) (Stmt.branch cond yes no pos).tokens Token.endsStmt
      (IsStmt (.branch cond yes no pos)) := by
  intro ts t rest written follows short
  cases no with
  | none =>
    simp only [Stmt.isProper, Bool.and_eq_true] at hs
    simp only [Stmt.tokens, writes_cons, writes_append] at written
    obtain ⟨p, _, rfl, q, _, rfl, front, _, rfl, wc, r, back, rfl, wb⟩ := written
    simp only [List.cons_append, List.append_assoc, List.length_cons, List.length_append] at short ⊢
    obtain ⟨k, o, front, c, rfl, -, readC, eqC⟩ := run_expression hs.1 wc
      (t := ⟨.symbol .closeParen, r⟩) rfl (back ++ t :: rest)
    obtain ⟨as, readB, eqB⟩ := body_reads hx hs.2 back t rest wb rfl (by simp; omega)
    have noElse : t.token.isWord .elseWord = false := by simpa [Token.endsStmt] using follows
    refine ⟨.branch c as none p, ?_, ?_⟩
    · simp [statementOver, branchFrom, readC, readB, noElse]
    · rw [IsStmt, Stmt.erase, Stmt.erase, eqC, eqB]
  | some no =>
    simp only [Stmt.isProper, Bool.and_eq_true] at hs
    simp only [Stmt.tokens, writes_cons, writes_append] at written
    obtain ⟨p, _, rfl, q, _, rfl, front, _, rfl, wc, r, _, rfl, mid, _, rfl, wy, l, back, rfl,
      wn⟩ := written
    simp only [List.cons_append, List.append_assoc, List.length_cons, List.length_append] at short ⊢
    obtain ⟨k, o, front, c, rfl, -, readC, eqC⟩ := run_expression hs.1.1 wc
      (t := ⟨.symbol .closeParen, r⟩) rfl (mid ++ ⟨.keyword .elseWord, l⟩ :: (back ++ t :: rest))
    obtain ⟨ys, readY, eqY⟩ := body_reads hx hs.1.2 mid ⟨.keyword .elseWord, l⟩ (back ++ t :: rest)
      wy rfl (by simp; omega)
    obtain ⟨ns, readN, eqN⟩ := body_reads hx hs.2 back t rest wn rfl (by simp; omega)
    refine ⟨.branch c ys (some ns) p, ?_, ?_⟩
    · simp [statementOver, branchFrom, readC, readY, readN]
    · rw [IsStmt, Stmt.erase, Stmt.erase, eqC, eqY, eqN]

theorem run_forInit {init : Option Simple} (hi : init.all Simple.isProper = true)
    {ts : List Lexeme} (written : Writes ts ((init.map Simple.tokens).getD [])) (p : Position)
    (rest : List Lexeme) :
    ∃ a, forInit (ts ++ ⟨.symbol .semicolon, p⟩ :: rest) =
      .ok (a, ⟨.symbol .semicolon, p⟩ :: rest) ∧ a.map Simple.erase = init.map Simple.erase := by
  cases init with
  | none =>
    obtain rfl := writes_nil.mp written
    exact ⟨none, rfl, rfl⟩
  | some s =>
    cases hd : s.isDeclaration with
    | true =>
      obtain ⟨d, rfl⟩ : ∃ d, s = .declare d := by
        cases s <;> first | exact ⟨_, rfl⟩ | cases hd
      obtain ⟨base, back, rfl, wb, wd⟩ := writes_append.mp written
      obtain ⟨a, read, ha⟩ := run_declarator hi wd p rest
      refine ⟨some (.declare a), ?_, congrArg (fun d => some (Simple.declare d)) ha⟩
      obtain ⟨w, q, ts', eq, begins⟩ := beginsType_of_base wb
      have readB := run_baseType wb (back ++ ⟨.symbol .semicolon, p⟩ :: rest)
      subst eq
      rw [List.cons_append] at readB
      simp [forInit, Token.beginsType, begins, readB, read]
    | false =>
      obtain ⟨k, q, ts, a, rfl, starts, read, ha⟩ := run_simple hi hd written
        (t := ⟨.symbol .semicolon, p⟩) rfl rfl rest
      have notEnd : k.isSymbol .semicolon = false := Token.isSymbol_of_startsExpr starts rfl
      refine ⟨some a, ?_, congrArg some ha⟩
      simp [forInit, notEnd, Token.beginsType_of_startsExpr starts, read]

theorem for_reads (hx : ReadsStmts n x) {init update : Option Simple} {cond : Option Expr}
    {body : List Stmt} {pos : Position}
    (hs : (Stmt.forLoop init cond update body pos).isProper = true) :
    Reads (n + 1) (statementOver x) (Stmt.forLoop init cond update body pos).tokens Token.endsStmt
      (IsStmt (.forLoop init cond update body pos)) := by
  simp only [Stmt.isProper, Bool.and_eq_true] at hs
  obtain ⟨⟨⟨hi, hc⟩, hu⟩, hb⟩ := hs
  intro ts t rest written _ short
  simp only [Stmt.tokens, writes_cons, writes_append] at written
  obtain ⟨p, _, rfl, q, _, rfl, is, _, rfl, wi, q₁, _, rfl, cs, _, rfl, wc, q₂, _, rfl, us, _, rfl,
    wu, q₃, back, rfl, wb⟩ := written
  simp only [List.cons_append, List.append_assoc, List.length_cons, List.length_append] at short ⊢
  obtain ⟨as, readB, eqB⟩ := body_reads hx hb back t rest wb rfl (by simp; omega)
  obtain ⟨i, readI, eqI⟩ := run_forInit hi wi q₁
    (cs ++ ⟨.symbol .semicolon, q₂⟩ :: (us ++ ⟨.symbol .closeParen, q₃⟩ :: (back ++ t :: rest)))
  obtain ⟨c, readC, eqC⟩ := optional_expression hc wc q₂
    (us ++ ⟨.symbol .closeParen, q₃⟩ :: (back ++ t :: rest))
  obtain ⟨u, readU, eqU⟩ := optional_simple hu wu q₃ (back ++ t :: rest)
  refine ⟨.forLoop i c u as p, ?_, ?_⟩
  · have header : forFrom x p (⟨.symbol .openParen, q⟩ :: (is ++ ⟨.symbol .semicolon, q₁⟩ ::
        (cs ++ ⟨.symbol .semicolon, q₂⟩ :: (us ++ ⟨.symbol .closeParen, q₃⟩ ::
        (back ++ t :: rest))))) = .ok (.forLoop i c u as p, t :: rest) := by
      -- the rule goes on after each clause in one way, so the clauses are taken one by one
      rw [forFrom, run_bind, run_expect, ok_bind, run_bind, readI, ok_bind, run_bind, run_expect,
        ok_bind]
      refine (readC _).trans ?_
      dsimp only
      rw [run_bind, run_expect, ok_bind]
      refine (readU _).trans ?_
      simp [readB]
    simpa [statementOver] using header
  · rw [IsStmt, Stmt.erase, Stmt.erase, eqI, eqC, eqU, eqB]

theorem statementOver_reads (hx : ReadsStmts n x) : ReadsStmts (n + 1) (statementOver x) := by
  intro s hs hd
  cases s with
  | simple s => exact simple_reads hs hd
  | block => exact block_reads hx hs
  | branch => exact branch_reads hx hs
  | whileLoop =>
    simp only [Stmt.isProper, Bool.and_eq_true] at hs
    exact while_reads hx hs.1 hs.2
  | forLoop => exact for_reads hx hs
  | leave => exact leave_reads hs
  | breakLoop pos | continueLoop pos =>
    intro ts t rest written _ _
    simp only [Stmt.tokens, writes_cons, writes_nil] at written
    obtain ⟨p, _, rfl, q, _, rfl, rfl⟩ := written
    exact ⟨_, rfl, rfl⟩

/-- The rule for statements reads on inputs of every length. -/
theorem statement_reads (n : Nat) : ReadsStmts n statement := fun s hs hd =>
  reads_fix (fun s : Stmt => s.isProper = true ∧ s.isDeclaration = false) Stmt.tokens IsStmt
    (fun _ _ h s hs => statementOver_reads (fun s hs hd => h s ⟨hs, hd⟩) s hs.1 hs.2) n s ⟨hs, hd⟩

end Grammar

end Stepwise
