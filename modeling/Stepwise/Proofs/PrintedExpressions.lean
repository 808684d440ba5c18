import Stepwise.Proofs.Reading

/-! The grammar reads every printed expression back. Three things may follow one: what cannot go on
with a postfix form, what does not bind as tightly as a rank, and what ends a whole expression. -/

namespace Stepwise

/-- No postfix form begins with the token. -/
def Token.endsOperand : Token → Bool
  | .symbol .openBracket | .symbol .dot | .symbol .arrow | .symbol .plusPlus
  | .symbol .minusMinus | .symbol .openParen => false
  | _ => true

/-- The rank of a binary operator; anything else binds less than all of them. -/
def Token.rank : Token → Nat
  | .symbol .star | .symbol .slash | .symbol .percent => 1
  | .symbol .plus | .symbol .minus => 2
  | .symbol .less | .symbol .lessEq | .symbol .greater | .symbol .greaterEq => 3
  | .symbol .eqEq | .symbol .bangEq => 4
  | .symbol .ampAmp => 5
  | .symbol .pipePipe => 6
  | _ => 7

def Token.endsRank (rank : Nat) (k : Token) : Bool := k.endsOperand && rank < k.rank

theorem Token.endsRank_iff {rank : Nat} {k : Token} :
    k.endsRank rank = true ↔ k.endsOperand = true ∧ rank < k.rank := by
  simp [endsRank]

def Token.endsExpr (k : Token) : Bool :=
  k.endsRank 6 && match k with
    | .symbol .question | .symbol .colon | .symbol .amp | .symbol .pipe | .symbol .caret
    | .symbol .lessLess | .symbol .greaterGreater => false
    | _ => true

def Token.startsExpr : Token → Bool
  | .int n => n ≤ 2147483647
  | .float _ | .char _ | .ident _ | .keyword .nullWord | .keyword .sizeofWord => true
  | .symbol .minus | .symbol .bang | .symbol .plusPlus | .symbol .minusMinus | .symbol .amp
  | .symbol .star | .symbol .openParen => true
  | _ => false

theorem Token.endsExpr_of_isSymbol {k : Token} {s : Symbol} (h : k.isSymbol s = true)
    (hs : (Token.symbol s).endsExpr = true) : k.endsExpr = true := by
  rwa [Token.isSymbol_iff.mp h]

theorem Token.ne_of_startsExpr {k k' : Token} (h : k.startsExpr = true)
    (h' : k'.startsExpr = false) : k ≠ k' := by
  rintro rfl
  exact absurd (h.symm.trans h') (by decide)

theorem Token.isSymbol_of_startsExpr {k : Token} {s : Symbol} (h : k.startsExpr = true)
    (hs : (Token.symbol s).startsExpr = false) : k.isSymbol s = false :=
  isSymbol_eq_false.mpr (ne_of_startsExpr h hs)

theorem Token.beginsType_of_startsExpr {k : Token} (h : k.startsExpr = true) :
    k.beginsType = false := by
  cases k with
  | keyword w => cases w <;> first | rfl | cases h
  | _ => rfl

/-- Where the symbol of a binary operator stands, a part of an expression ends, and it is in one of
the six ranks. -/
theorem BinOp.symbol_ends (op : BinOp) : (Token.symbol op.symbol).endsOperand = true ∧
    0 < (Token.symbol op.symbol).rank ∧ (Token.symbol op.symbol).rank ≤ 6 := by
  rcases op with op | op | op <;> cases op <;> decide

namespace Expr

def isBinary : Expr → Bool
  | .binary .. => true
  | _ => false

theorem isBinary_iff {e : Expr} :
    e.isBinary = true ↔ ∃ op left right pos, e = .binary op left right pos := by
  cases e <;> simp [isBinary]

theorem operand_head (e : Expr) : ∃ k ks, e.operand = k :: ks ∧ k.startsExpr = true := by
  cases e with
  | int n => exact ⟨_, _, rfl, decide_eq_true (Int32.toInt_le n)⟩
  | _ => exact ⟨_, _, rfl, rfl⟩

theorem tokens_head (e : Expr) : ∃ k ks, e.tokens = k :: ks ∧ k.startsExpr = true := by
  cases e with
  | int n => exact ⟨_, _, rfl, decide_eq_true (Int32.toInt_le n)⟩
  | binary op left right =>
    obtain ⟨k, ks, eq, starts⟩ := left.operand_head
    exact ⟨k, _, by rw [tokens, grouped_tokens, eq]; rfl, starts⟩
  | index array index =>
    obtain ⟨k, ks, eq, starts⟩ := array.operand_head
    exact ⟨k, _, by rw [tokens, grouped_tokens, eq]; rfl, starts⟩
  | field object =>
    obtain ⟨k, ks, eq, starts⟩ := object.operand_head
    exact ⟨k, _, by rw [tokens, grouped_tokens, eq]; rfl, starts⟩
  | step op e =>
    obtain ⟨k, ks, eq, starts⟩ := e.operand_head
    cases op with
    | preInc | preDec => exact ⟨_, _, rfl, rfl⟩
    | postInc | postDec => exact ⟨k, _, by rw [tokens, grouped_tokens, eq]; rfl, starts⟩
  | unary op => cases op <;> exact ⟨_, _, rfl, rfl⟩
  | _ => exact ⟨_, _, rfl, rfl⟩

theorem operand_cases (e : Expr) :
    (∃ k, e.operand = [k]) ∨ ∃ ks, e.operand = .symbol .openParen :: ks := by
  cases e <;> simp [operand, grouped, isAtom, tokens]

/-- A name at the front of an expression is no label: no colon stands behind it. -/
theorem tokens_ident {e : Expr} {name : String} {ks : List Token}
    (h : e.tokens = .ident name :: ks) : ks.head? ≠ some (.symbol .colon) := by
  have behind (e : Expr) (k : Token) (ks' : List Token) (hk : k ≠ .symbol .colon)
      (h : e.operand ++ k :: ks' = .ident name :: ks) : ks.head? ≠ some (.symbol .colon) := by
    obtain ⟨k', eq⟩ | ⟨ks', eq⟩ := e.operand_cases <;> rw [eq] at h
    · rw [← (List.cons.inj h).2]
      simpa using hk
    · cases h
  cases e with
  | binary op left right =>
    refine behind left _ _ ?_ h
    rcases op with op | op | op <;> cases op <;> decide
  | index array index => exact behind array _ _ (by decide) h
  | field object name arrow =>
    refine behind object _ _ ?_ h
    cases arrow <;> decide
  | step op e =>
    cases op with
    | preInc | preDec => cases h
    | postInc | postDec => exact behind e _ _ (by decide) h
  | var | call | newNode | print | read =>
    rw [← (List.cons.inj h).2]
    simp
  | _ => cases h

end Expr

namespace Grammar

open Stepwise.Parser

/-! Types -/

theorem run_baseType {b : Base} {ts : List Lexeme} (written : Writes ts b.tokens)
    (rest : List Lexeme) : baseType (ts ++ rest) = .ok (b, rest) := by
  cases b <;> simp only [Base.tokens, writes_cons, writes_nil] at written
  case struct name =>
    obtain ⟨p, _, rfl, q, _, rfl, rfl⟩ := written
    rfl
  all_goals
    obtain ⟨p, _, rfl, rfl⟩ := written
    rfl

theorem run_withStars {c : CType} {ts : List Lexeme} {t : Lexeme} (plain : c.isPlain = true)
    (written : Writes ts c.stars) (follows : t.token.isSymbol .star = false) (rest : List Lexeme) :
    withStars c.base (ts ++ t :: rest) = .ok (c, t :: rest) := by
  obtain ⟨b, depth⟩ := c
  obtain rfl | rfl : depth = 0 ∨ depth = 1 := by
    have : depth ≤ 1 := of_decide_eq_true plain
    omega
  · obtain rfl := writes_nil.mp written
    simp [withStars, follows]
  · obtain ⟨p, _, rfl, nil⟩ := writes_cons.mp written
    obtain rfl := writes_nil.mp nil
    simp [withStars, follows]

theorem run_type {c : CType} {ts : List Lexeme} {t : Lexeme} (plain : c.isPlain = true)
    (written : Writes ts c.tokens) (follows : t.token.isSymbol .star = false) (rest : List Lexeme) :
    type (ts ++ t :: rest) = .ok (c, t :: rest) := by
  obtain ⟨base, stars, rfl, wb, ws⟩ := writes_append.mp written
  simp only [type, run_bind, List.append_assoc, run_baseType wb, ok_bind]
  exact run_withStars plain ws follows rest

theorem beginsType_of_base {b : Base} {ts : List Lexeme} (written : Writes ts b.tokens) :
    ∃ w p ts', ts = ⟨.keyword w, p⟩ :: ts' ∧ w.beginsType = true := by
  cases b <;> simp only [Base.tokens, writes_cons] at written
  all_goals
    obtain ⟨p, ts', rfl, -⟩ := written
    exact ⟨_, p, ts', rfl, rfl⟩

theorem run_seesTypeInParens_type {c : CType} {ts : List Lexeme} (written : Writes ts c.tokens)
    (t : Lexeme) (rest : List Lexeme) :
    seesTypeInParens (t :: (ts ++ rest)) = .ok (true, t :: (ts ++ rest)) := by
  obtain ⟨base, stars, rfl, wb, -⟩ := writes_append.mp written
  obtain ⟨w, p, ts, rfl, begins⟩ := beginsType_of_base wb
  exact congrArg (fun b => Except.ok (b, _)) begins

def IsExpr (e a : Expr) : Prop := a.erase = e.erase

/-! Binary operators -/

/-- Levels are counted from the other end than ranks. -/
theorem level_add_rank {k : Token} {op : BinOp} {level : Nat}
    (h : binaryOperator? k = some (op, level)) : level + k.rank = 7 := by
  unfold binaryOperator? at h
  split at h <;> cases h <;> rfl

theorem exists_level (op : BinOp) : ∃ level, binaryOperator? (.symbol op.symbol) = some (op, level) := by
  rcases op with op | op | op <;> cases op <;> exact ⟨_, rfl⟩

/-- The loop ends in front of a token that is below its level. -/
theorem run_operators_end {c : Nat → Parser Expr} {least : Nat} {left : Expr} {t : Lexeme}
    {ts : List Lexeme} (h : 7 < least + t.token.rank) :
    operators c least left (t :: ts) = .ok (left, t :: ts) := by
  rw [run_fix (p := operators c least) rfl]
  simp only [run_bind, run_current, ok_bind]
  cases found : binaryOperator? t.token with
  | none => rfl
  | some operator =>
    have sum := level_add_rank found
    have below : operator.2 < least := by omega
    simp only [if_pos below, run_pure]

/-- The loop takes an operator of its level or above, with what stands on the right of it. -/
theorem run_operators_step {c : Nat → Parser Expr} {least level : Nat} {op : BinOp} {right : Expr}
    {ts rest : List Lexeme} (found : binaryOperator? (.symbol op.symbol) = some (op, level))
    (above : least ≤ level) (read : c (level + 1) (ts ++ rest) = .ok (right, rest)) (left : Expr)
    (p : Position) : operators c least left (⟨.symbol op.symbol, p⟩ :: (ts ++ rest)) =
      operators c least (.binary op left right p) rest := by
  rw [run_fix (p := operators c least) rfl]
  simp only [run_bind, run_current, ok_bind, found, if_neg (Nat.not_lt.mpr above), ne_eq, reduceCtorEq,
    not_false_eq_true, run_advance, read]
  exact run_below (by simp only [List.length_append, List.length_cons]; omega)

variable {n : Nat} {u : Parser Expr} {ks : List Token} {P : Expr → Prop}

/-- The rule hands itself to the loop for what stands on the right of operators. -/
theorem run_climb {least : Nat} {a : Expr} {ts rest : List Lexeme} (read : u ts = .ok (a, rest)) :
    climb u least ts = operators (below ts.length (climb u)) least a rest := by
  rw [run_fix (p := climb u) rfl]
  simp only [run_bind, read, ok_bind]

theorem climb_of_unary {least r : Nat} (sum : least + r = 7) (h : Reads n u ks Token.endsOperand P) :
    Reads n (climb u least) ks (Token.endsRank r) P := by
  intro ts t rest written follows short
  obtain ⟨ends, lt⟩ := Token.endsRank_iff.mp follows
  obtain ⟨a, read, ha⟩ := h ts t rest written ends short
  exact ⟨a, (run_climb read).trans (run_operators_end (by omega)), ha⟩

/-- The tokens print an expression without an operator outside parentheses. -/
def IsPart (e : Expr) (ks : List Token) : Prop :=
  ks = e.operand ∨ ks = e.tokens ∧ e.isBinary = false

def ReadsParts (n : Nat) (u : Parser Expr) : Prop :=
  ∀ e ks, e.isProper = true → IsPart e ks → Reads n u ks Token.endsOperand (IsExpr e)

theorem binary_reads (hu : ReadsParts n u) {op : BinOp} {left right : Expr} {pos : Position}
    (hl : left.isProper = true) (hr : right.isProper = true) :
    Reads n (climb u 1) (Expr.binary op left right pos).tokens (Token.endsRank 6)
      (IsExpr (.binary op left right pos)) := by
  obtain ⟨endsLeft, positive, most⟩ := op.symbol_ends
  obtain ⟨level, found⟩ := exists_level op
  have sum := level_add_rank found
  intro ts t rest written follows short
  simp only [Expr.tokens, Expr.grouped_tokens, writes_append, writes_cons] at written
  obtain ⟨ls, _, rfl, wl, p, rs, rfl, wr⟩ := written
  simp only [List.append_assoc, List.cons_append, List.length_append, List.length_cons] at short ⊢
  obtain ⟨ends, lt⟩ := Token.endsRank_iff.mp follows
  obtain ⟨l, readL, eqL⟩ := hu left _ hl (.inl rfl) ls ⟨.symbol op.symbol, p⟩ (rs ++ t :: rest) wl endsLeft
    (by simp only [List.length_append, List.length_cons]; omega)
  have onRight : Reads n (climb u (level + 1)) right.operand (Token.endsRank (6 - level)) (IsExpr right) :=
    climb_of_unary (by omega) (hu right _ hr (.inl rfl))
  obtain ⟨a, readR, eqR⟩ := onRight rs t rest wr (Token.endsRank_iff.mpr ⟨ends, by omega⟩)
    (by simp only [List.length_append, List.length_cons]; omega)
  refine ⟨.binary op l a p, ?_, by simp only [IsExpr, Expr.erase, eqL.symm, eqR.symm]⟩
  have again : below (ls ++ ⟨.symbol op.symbol, p⟩ :: (rs ++ t :: rest)).length (climb u) (level + 1)
      (rs ++ t :: rest) = .ok (a, t :: rest) :=
    (run_below (by simp only [List.length_append, List.length_cons]; omega)).trans readR
  rw [run_climb readL, run_operators_step found (by omega) again]
  exact run_operators_end (by omega)

theorem expressionOver_of_climb (h : Reads n (climb u 1) ks (Token.endsRank 6) P) :
    Reads n (expressionOver u) ks Token.endsExpr P := by
  intro ts t rest written follows short
  simp only [Token.endsExpr, Bool.and_eq_true] at follows
  obtain ⟨a, read, ha⟩ := h ts t rest written follows.1 short
  refine ⟨a, ?_, ha⟩
  obtain ⟨k, p⟩ := t
  simp only [expressionOver, run_bind, read, ok_bind, run_current]
  split at follows
  all_goals simp_all

theorem expressionOver_reads_operand (hu : ReadsParts n u) {e : Expr} (he : e.isProper = true) :
    Reads n (expressionOver u) e.operand Token.endsExpr (IsExpr e) :=
  expressionOver_of_climb (climb_of_unary rfl (hu e _ he (.inl rfl)))

theorem expressionOver_reads (hu : ReadsParts n u) {e : Expr} (he : e.isProper = true) :
    Reads n (expressionOver u) e.tokens Token.endsExpr (IsExpr e) := by
  apply expressionOver_of_climb
  cases hb : e.isBinary with
  | false => exact climb_of_unary rfl (hu e _ he (.inr ⟨rfl, hb⟩))
  | true =>
    obtain ⟨op, left, right, pos, rfl⟩ := Expr.isBinary_iff.mp hb
    simp only [Expr.isProper, Bool.and_eq_true] at he
    exact binary_reads hu he.1 he.2

/-! Argument lists -/

structure ReadsItem (n : Nat) (x : Parser Expr) (ks : List Token) (e : Expr) : Prop where
  reads : Reads n x ks Token.endsExpr (IsExpr e)
  head : ∃ k ks', ks = k :: ks' ∧ k.startsExpr = true

def AreExprs (es as : List Expr) : Prop := eraseAll as = eraseAll es

variable {x : Parser Expr} {es : List Expr} {print : Expr → List Token}

theorem ReadsItem.run {e : Expr} (h : ReadsItem n x ks e) {ts rest : List Lexeme} {t : Lexeme}
    (written : Writes ts ks) (follows : t.token.endsExpr = true)
    (short : (ts ++ t :: rest).length < n) :
    ∃ k p ts' a, ts = ⟨k, p⟩ :: ts' ∧ k.startsExpr = true ∧
      x (⟨k, p⟩ :: (ts' ++ t :: rest)) = .ok (a, t :: rest) ∧ IsExpr e a := by
  obtain ⟨k, ks', rfl, starts⟩ := h.head
  obtain ⟨a, read, ha⟩ := h.reads ts t rest written follows short
  obtain ⟨p, ts', rfl, -⟩ := writes_cons.mp written
  exact ⟨k, p, ts', a, rfl, starts, read, ha⟩

theorem arguments_reads (nonempty : es ≠ []) (h : ∀ e ∈ es, ReadsItem n x (print e) e) :
    Reads n (arguments x) (separated (es.map print)) (Token.isSymbol · .closeParen)
      (AreExprs es) := by
  induction es with
  | nil => exact absurd rfl nonempty
  | cons first rest ih =>
    have hfirst := h first List.mem_cons_self
    intro ts t after written follows short
    rw [run_loop (x := arguments x) rfl]
    cases rest with
    | nil =>
      rw [List.map_singleton, separated_singleton] at written
      obtain ⟨k, p, ts', a, rfl, starts, read, ha⟩ := hfirst.run written
        (Token.endsExpr_of_isSymbol follows rfl) short
      refine ⟨[a], ?_, congrArg (· :: []) ha⟩
      have noComma : accept .comma (t :: after) = .ok (false, t :: after) :=
        run_accept_other (Token.isSymbol_of_ne follows (by decide))
      -- the rule refuses a string here, and no expression begins with one
      cases k with
      | string text => cases starts
      | _ => simp [read, noComma]
    | cons second rest =>
      simp only [List.map_cons, separated_cons_cons, writes_append, writes_cons] at written
      obtain ⟨front, _, rfl, wf, q, back, rfl, wb⟩ := written
      rw [List.append_assoc, List.cons_append] at short ⊢
      obtain ⟨k, p, ts', a, rfl, starts, read, ha⟩ := hfirst.run wf
        (t := ⟨.symbol .comma, q⟩) rfl short
      obtain ⟨as, readAs, has⟩ := ih (List.cons_ne_nil _ _)
        (fun e he => h e (List.mem_cons_of_mem _ he)) back t after wb follows
        (by simp at short ⊢; omega)
      refine ⟨a :: as, ?_, ?_⟩
      · cases k with
        | string text => cases starts
        | _ => simp +arith [read, run_below, readAs]
      · rw [AreExprs, eraseAll, eraseAll, ha, has]

theorem argumentList_reads (h : ∀ e ∈ es, ReadsItem n x (print e) e) :
    Reads n (argumentList x) (separated (es.map print) ++ [.symbol .closeParen]) (fun _ => true)
      (AreExprs es) := by
  intro ts t after written _ short
  simp only [writes_append, writes_cons, writes_nil] at written
  obtain ⟨front, _, rfl, wf, q, _, rfl, rfl⟩ := written
  simp only [List.append_assoc, List.cons_append, List.nil_append] at short ⊢
  cases es with
  | nil =>
    obtain rfl := writes_nil.mp wf
    exact ⟨[], rfl, rfl⟩
  | cons first rest =>
    obtain ⟨as, read, has⟩ := arguments_reads (List.cons_ne_nil _ _) h front
      ⟨.symbol .closeParen, q⟩ (t :: after) wf rfl short
    refine ⟨as, ?_, has⟩
    obtain ⟨k, ks, eq, starts⟩ := (h first List.mem_cons_self).head
    simp only [List.map_cons, separated, eq, List.cons_append, writes_cons] at wf
    obtain ⟨p, ts', rfl, -⟩ := wf
    have notClosed : k.isSymbol .closeParen = false := Token.isSymbol_of_startsExpr starts rfl
    rw [List.cons_append] at read
    simp [argumentList, notClosed, read]

/-- A format, and the arguments behind it, each with its comma. -/
theorem format_reads (h : ∀ e ∈ es, ReadsItem n x (print e) e) (function : String) {text : String}
    {ts rest : List Lexeme} {t : Lexeme}
    (written : Writes ts (.string text :: (following (es.map print) ++ [.symbol .closeParen])))
    (short : (ts ++ t :: rest).length < n) :
    ∃ mid as, formatText function (ts ++ t :: rest) = .ok (text, mid) ∧
      argumentList x mid = .ok (as, t :: rest) ∧ AreExprs es as := by
  obtain ⟨p, args, rfl, wargs⟩ := writes_cons.mp written
  rw [List.cons_append, List.length_cons] at short
  cases es with
  | nil =>
    obtain ⟨as, read, has⟩ := argumentList_reads h args t rest wargs rfl (by omega)
    refine ⟨_, as, ?_, read, has⟩
    obtain ⟨q, _, rfl, -⟩ := writes_cons.mp wargs
    rfl
  | cons first others =>
    obtain ⟨q, args, rfl, wargs'⟩ := writes_cons.mp wargs
    rw [List.cons_append, List.length_cons] at short
    obtain ⟨as, read, has⟩ := argumentList_reads h args t rest wargs' rfl (by omega)
    exact ⟨_, as, rfl, read, has⟩

/-! Postfix forms -/

theorem run_primary_int (x : Parser Expr) (k : Int32) (p : Position) (ts : List Lexeme) :
    primary x (⟨.int k.toInt, p⟩ :: ts) = .ok (.int k p, ts) := by
  have high : k.toInt ≤ 2147483647 := Int32.toInt_le k
  have low := Int32.le_toInt k
  have inRange : ¬ (k.toInt < -2147483648 ∨ 2147483647 < k.toInt) := by omega
  calc primary x (⟨.int k.toInt, p⟩ :: ts)
    _ = (if k.toInt < -2147483648 ∨ 2147483647 < k.toInt then _
          else pure (.int (Int32.ofInt k.toInt) p) : Parser Expr) ts := rfl
    _ = .ok (.int k p, ts) := by rw [if_neg inRange, Int32.ofInt_toInt, run_pure]

theorem run_primary_parens (x : Parser Expr) (p : Position) (ts : List Lexeme) :
    primary x (⟨.symbol .openParen, p⟩ :: ts) = (do
      let e ← x
      expect .closeParen "after expression"
      return e) ts := rfl

theorem primary_reads (hu : ReadsParts n u) {e : Expr} (he : e.isProper = true) :
    Reads (n + 1) (primary (expressionOver u)) e.operand (fun _ => true) (IsExpr e) := by
  intro ts t rest written _ short
  cases ha : e.isAtom with
  | true =>
    cases e <;> simp only [Expr.isAtom, Bool.false_eq_true] at ha
    all_goals
      obtain ⟨p, _, rfl, nil⟩ := writes_cons.mp written
      obtain rfl := writes_nil.mp nil
    case int k _ => exact ⟨.int k p, run_primary_int _ k p _, rfl⟩
    all_goals exact ⟨_, rfl, rfl⟩
  | false =>
    simp only [Expr.operand, Expr.grouped, ha, Bool.false_eq_true, if_false, writes_cons,
      writes_append, writes_nil] at written
    obtain ⟨p, _, rfl, inner, _, rfl, written, q, _, rfl, rfl⟩ := written
    simp only [List.cons_append, List.append_assoc, List.nil_append, List.length_cons,
      List.length_append] at short ⊢
    obtain ⟨a, read, eq⟩ := expressionOver_reads hu he inner ⟨.symbol .closeParen, q⟩ (t :: rest)
      written rfl (by simp only [List.length_append, List.length_cons]; omega)
    refine ⟨a, ?_, eq⟩
    rw [run_primary_parens]
    simp [read]

/-- What begins like a part of an expression goes on as a postfix form. -/
theorem unaryOver_operand {e : Expr} {ts : List Lexeme} (written : Writes ts e.operand)
    (rest : List Lexeme) :
    unaryOver u (ts ++ rest) =
      (primary (expressionOver u) >>= postfixes (expressionOver u)) (ts ++ rest) := by
  cases ha : e.isAtom with
  | true =>
    cases e <;> simp only [Expr.isAtom, Bool.false_eq_true] at ha
    all_goals
      obtain ⟨p, _, rfl, written⟩ := writes_cons.mp written
      rfl
  | false =>
    obtain ⟨k, ks, eq, starts⟩ := e.tokens_head
    simp only [Expr.operand, Expr.grouped, ha, Bool.false_eq_true, if_false, eq, List.cons_append,
      writes_cons] at written
    obtain ⟨p, _, rfl, q, more, rfl, -⟩ := written
    simp only [unaryOver, run_bind, run_current, ok_bind, List.cons_append,
      run_seesTypeInParens (Token.beginsType_of_startsExpr starts)
        (fun _ => Token.ne_of_startsExpr starts rfl)]
    rfl

theorem run_postfixes_end {x : Parser Expr} {e : Expr} {t : Lexeme} {ts : List Lexeme}
    (h : t.token.endsOperand = true) : postfixes x e (t :: ts) = .ok (e, t :: ts) := by
  obtain ⟨k, p⟩ := t
  rw [run_fix (p := postfixes x) rfl]
  simp only [run_bind, run_current, ok_bind]
  unfold Token.endsOperand at h
  split at h <;> simp_all

/-- A part of an expression and what the postfix rule makes of the tokens behind it. -/
theorem postfix_reads (hu : ReadsParts n u) {e : Expr} (he : e.isProper = true)
    (form : ∀ a, IsExpr e a →
      Reads (n + 1) (postfixes (expressionOver u) a) ks Token.endsOperand P) :
    Reads (n + 1) (unaryOver u) (e.operand ++ ks) Token.endsOperand P := by
  intro ts t rest written follows short
  obtain ⟨front, back, rfl, wf, wb⟩ := writes_append.mp written
  rw [List.append_assoc] at short ⊢
  obtain ⟨t', rest', eq⟩ : ∃ t' rest', back ++ t :: rest = t' :: rest' := by
    cases back <;> exact ⟨_, _, rfl⟩
  obtain ⟨a, readA, ha⟩ := primary_reads hu he front t' rest' wf rfl (eq ▸ short)
  obtain ⟨b, readB, hb⟩ := form a ha back t rest wb follows
    (by simp only [List.length_append] at short ⊢; omega)
  refine ⟨b, ?_, hb⟩
  rw [unaryOver_operand wf, run_bind, eq, readA, ok_bind, ← eq]
  exact readB

theorem operand_reads (hu : ReadsParts n u) {e : Expr} (he : e.isProper = true) :
    Reads (n + 1) (unaryOver u) e.operand Token.endsOperand (IsExpr e) := by
  rw [← List.append_nil e.operand]
  refine postfix_reads hu he fun a ha ts t rest written follows _ => ?_
  obtain rfl := writes_nil.mp written
  exact ⟨a, run_postfixes_end follows, ha⟩

theorem run_postfixes_index {x : Parser Expr} {a i : Expr} {p q : Position} {inner rest : List Lexeme}
    (read : x (inner ++ ⟨.symbol .closeBracket, q⟩ :: rest) = .ok (i, ⟨.symbol .closeBracket, q⟩ :: rest)) :
    postfixes x a (⟨.symbol .openBracket, p⟩ :: (inner ++ ⟨.symbol .closeBracket, q⟩ :: rest)) =
      postfixes x (.index a i p) rest := by
  rw [run_fix (p := postfixes _) rfl]
  simp +arith [read, run_below]

theorem index_reads (hu : ReadsParts n u) {array index : Expr} {pos : Position}
    (ha : array.isProper = true) (hi : index.isProper = true) :
    Reads (n + 1) (unaryOver u) (Expr.index array index pos).tokens Token.endsOperand
      (IsExpr (.index array index pos)) := by
  simp only [Expr.tokens, Expr.grouped_tokens]
  refine postfix_reads hu ha fun a eqA ts t rest written follows short => ?_
  simp only [writes_cons, writes_append, writes_nil] at written
  obtain ⟨p, _, rfl, inner, _, rfl, written, q, _, rfl, rfl⟩ := written
  simp only [List.cons_append, List.append_assoc, List.nil_append, List.length_cons] at short ⊢
  obtain ⟨i, read, eqI⟩ := expressionOver_reads_operand hu hi inner ⟨.symbol .closeBracket, q⟩
    (t :: rest) written rfl (by omega)
  refine ⟨.index a i p, ?_, by simp only [IsExpr, Expr.erase, eqA.symm, eqI.symm]⟩
  rw [run_postfixes_index read, run_postfixes_end follows]

theorem run_postfixes_field {x : Parser Expr} {a : Expr} {name : String} {arrow : Bool} {p q : Position}
    {rest : List Lexeme} :
    postfixes x a (⟨.symbol (if arrow then .arrow else .dot), p⟩ :: ⟨.ident name, q⟩ :: rest) =
      postfixes x (.field a name arrow p) rest := by
  rw [run_fix (p := postfixes _) rfl]
  cases arrow <;> simp +arith [run_below]

theorem field_reads (hu : ReadsParts n u) {object : Expr} {name : String} {arrow : Bool}
    {pos : Position} (ho : object.isProper = true) :
    Reads (n + 1) (unaryOver u) (Expr.field object name arrow pos).tokens Token.endsOperand
      (IsExpr (.field object name arrow pos)) := by
  simp only [Expr.tokens, Expr.grouped_tokens]
  refine postfix_reads hu ho fun a eqA ts t rest written follows short => ?_
  simp only [writes_cons, writes_nil] at written
  obtain ⟨p, _, rfl, q, _, rfl, rfl⟩ := written
  refine ⟨.field a name arrow p, ?_, by simp only [IsExpr, Expr.erase, eqA.symm]⟩
  exact run_postfixes_field.trans (run_postfixes_end follows)

theorem run_postfixes_step {x : Parser Expr} {a : Expr} {op : StepOp} {p : Position} {rest : List Lexeme}
    {s : Symbol} (h : op = .postInc ∧ s = .plusPlus ∨ op = .postDec ∧ s = .minusMinus) :
    postfixes x a (⟨.symbol s, p⟩ :: rest) = postfixes x (.step op a p) rest := by
  rw [run_fix (p := postfixes _) rfl]
  obtain ⟨rfl, rfl⟩ | ⟨rfl, rfl⟩ := h <;> simp [run_below]

theorem postStep_reads (hu : ReadsParts n u) {e : Expr} {pos : Position} (he : e.isProper = true)
    {op : StepOp} (hop : op = .postInc ∨ op = .postDec) :
    Reads (n + 1) (unaryOver u) (Expr.step op e pos).tokens Token.endsOperand
      (IsExpr (.step op e pos)) := by
  obtain rfl | rfl := hop
  all_goals
    refine postfix_reads hu he fun a ha ts t rest written follows short => ?_
    simp only [writes_cons, writes_nil] at written
    obtain ⟨p, _, rfl, rfl⟩ := written
    refine ⟨.step _ a p, ?_, congrArg (Expr.step _ · .start) ha⟩
    exact (run_postfixes_step (by simp)).trans (run_postfixes_end follows)

theorem run_postfixes_call {x : Parser Expr} {a : Expr} {name : String} {pos p : Position}
    {ts rest : List Lexeme} (read : call x name pos (ts ++ rest) = .ok (a, rest)) :
    postfixes x (.var name pos) (⟨.symbol .openParen, p⟩ :: (ts ++ rest)) = postfixes x a rest := by
  rw [run_fix (p := postfixes _) rfl]
  simp +arith [read, run_below]

/-- A name, an opening parenthesis and what the rule for calls reads behind it. -/
theorem calls_reads (hu : ReadsParts n u) {name : String}
    (form : ∀ pos, Reads n (call (expressionOver u) name pos) ks (fun _ => true) P) :
    Reads (n + 1) (unaryOver u) (.ident name :: .symbol .openParen :: ks) Token.endsOperand P := by
  refine postfix_reads hu (e := .var name .start) rfl fun a ha ts t rest written follows short => ?_
  obtain ⟨pos, rfl⟩ := Expr.of_erase_var ha
  obtain ⟨p, inner, rfl, wi⟩ := writes_cons.mp written
  rw [List.cons_append, List.length_cons] at short
  obtain ⟨b, read, hb⟩ := form pos inner t rest wi rfl (by omega)
  refine ⟨b, ?_, hb⟩
  rw [List.cons_append, run_postfixes_call read, run_postfixes_end follows]

theorem operands_read (hu : ReadsParts n u) (hes : properAll es = true) :
    ∀ e ∈ es, ReadsItem n (expressionOver u) e.operand e := fun e he =>
  ⟨expressionOver_reads_operand hu (properAll_iff.mp hes e he), e.operand_head⟩

/-- The arguments of a call, read one by one. -/
theorem callForm_reads (h : ∀ e ∈ es, ReadsItem n x (print e) e) {name : String} {pos pos' : Position}
    (other : name ≠ "printf" ∧ name ≠ "scanf" ∧ name ≠ "malloc") :
    Reads n (call x name pos') (separated (es.map print) ++ [.symbol .closeParen]) (fun _ => true)
      (IsExpr (.call name es pos)) := by
  intro ts t rest written follows short
  obtain ⟨as, read, has⟩ := argumentList_reads h ts t rest written follows short
  refine ⟨.call name as pos', ?_, congrArg (Expr.call name · .start) has⟩
  simp [call, other, read]

theorem call_reads (hu : ReadsParts n u) {name : String} {args : List Expr} {pos : Position}
    (he : (Expr.call name args pos).isProper = true) :
    Reads (n + 1) (unaryOver u) (Expr.call name args pos).tokens Token.endsOperand
      (IsExpr (.call name args pos)) := by
  simp only [Expr.isProper, Bool.and_eq_true, bne_iff_ne, and_assoc] at he
  obtain ⟨noPrint, noRead, noNode, hargs⟩ := he
  simp only [Expr.tokens, operands_eq_map]
  exact calls_reads hu fun _ => callForm_reads (operands_read hu hargs) ⟨noPrint, noRead, noNode⟩

theorem printForm_reads (h : ∀ e ∈ es, ReadsItem n x (print e) e) {format : String}
    {pos pos' : Position} :
    Reads n (call x "printf" pos') (.string format :: (following (es.map print) ++ [.symbol .closeParen]))
      (fun _ => true) (IsExpr (.print format es pos)) := by
  intro ts t rest written _ short
  obtain ⟨mid, as, readF, read, has⟩ := format_reads h "printf" written short
  refine ⟨.print format as pos', ?_, congrArg (Expr.print format · .start) has⟩
  simp [call, readF, read]

theorem print_reads (hu : ReadsParts n u) {format : String} {args : List Expr} {pos : Position}
    (hargs : properAll args = true) :
    Reads (n + 1) (unaryOver u) (Expr.print format args pos).tokens Token.endsOperand
      (IsExpr (.print format args pos)) := by
  simp only [Expr.tokens, operands_eq_map]
  exact calls_reads hu fun _ => printForm_reads (operands_read hu hargs)

theorem run_scanTargets {targets as : List Expr}
    (h : AreExprs (targets.map (.addressOf · .start)) as) (ts : List Lexeme) :
    ∃ bs, scanTargets as ts = .ok (bs, ts) ∧ AreExprs targets bs := by
  induction targets generalizing as with
  | nil =>
    cases as with
    | nil => exact ⟨[], rfl, rfl⟩
    | cons a as => cases h
  | cons target targets ih =>
    cases as with
    | nil => cases h
    | cons a as =>
      obtain ⟨ha, has⟩ := List.cons.inj h
      obtain ⟨b, p, rfl⟩ := Expr.of_erase_addressOf ha
      obtain ⟨bs, read, hbs⟩ := ih has
      refine ⟨b :: bs, by simp [scanTargets, read], ?_⟩
      rw [AreExprs, eraseAll, eraseAll, hbs, (Expr.addressOf.inj ha).1]

/-- The targets of formatted input, each printed as the address of one. -/
theorem readForm_reads {targets : List Expr}
    (h : ∀ e ∈ targets.map (Expr.addressOf · .start), ReadsItem n x (print e) e) {format : String}
    {pos pos' : Position} :
    Reads n (call x "scanf" pos') (.string format ::
      (following ((targets.map (Expr.addressOf · .start)).map print) ++ [.symbol .closeParen]))
      (fun _ => true) (IsExpr (.read format targets pos)) := by
  intro ts t rest written _ short
  obtain ⟨mid, as, readF, read, has⟩ := format_reads h "scanf" written short
  obtain ⟨bs, readB, hbs⟩ := run_scanTargets has (t :: rest)
  refine ⟨.read format bs pos', ?_, congrArg (Expr.read format · .start) hbs⟩
  simp [call, readF, read, readB]

theorem read_reads (hu : ReadsParts n u) {format : String} {targets : List Expr} {pos : Position}
    (htargets : properAll targets = true) :
    Reads (n + 1) (unaryOver u) (Expr.read format targets pos).tokens Token.endsOperand
      (IsExpr (.read format targets pos)) := by
  have addresses : ∀ e ∈ targets.map (Expr.addressOf · .start),
      ReadsItem n (expressionOver u) e.tokens e := by
    simp only [List.mem_map, forall_exists_index, and_imp]
    rintro _ e he rfl
    exact ⟨expressionOver_reads hu (properAll_iff.mp htargets e he), Expr.tokens_head _⟩
  have rows : (operands targets).map (.symbol .amp :: ·) =
      (targets.map (Expr.addressOf · .start)).map Expr.tokens := by
    simp only [operands_eq_map, List.map_map]
    rfl
  simp only [Expr.tokens, rows]
  exact calls_reads hu fun _ => readForm_reads addresses

theorem newNodeForm_reads {struct : String} {pos pos' : Position}
    (h : ReadsItem n x (print (.sizeofType ⟨.struct struct, 0⟩ .start))
      (.sizeofType ⟨.struct struct, 0⟩ .start)) :
    Reads n (call x "malloc" pos') (print (.sizeofType ⟨.struct struct, 0⟩ .start) ++
      [.symbol .closeParen]) (fun _ => true) (IsExpr (.newNode struct pos)) := by
  intro ts t rest written follows short
  obtain ⟨as, read, has⟩ := argumentList_reads (List.forall_mem_singleton.mpr h) ts t rest
    (by rwa [List.map_singleton, separated_singleton]) follows short
  obtain ⟨p, rfl⟩ : ∃ p, as = [.sizeofType ⟨.struct struct, 0⟩ p] := by
    rcases as with _ | ⟨a, _ | ⟨b, as⟩⟩
    · cases has
    · obtain ⟨p, rfl⟩ := Expr.of_erase_sizeofType (List.cons.inj has).1
      exact ⟨p, rfl⟩
    · exact absurd (List.cons.inj has).2 (List.cons_ne_nil _ _)
  exact ⟨.newNode struct pos', by simp [call, read], rfl⟩

theorem newNode_reads (hu : ReadsParts n u) {struct : String} {pos : Position} :
    Reads (n + 1) (unaryOver u) (Expr.newNode struct pos).tokens Token.endsOperand
      (IsExpr (.newNode struct pos)) :=
  calls_reads hu fun _ => newNodeForm_reads
    ⟨expressionOver_reads hu rfl, Expr.tokens_head _⟩

/-! Prefix forms -/

/-- A token in front of a part of an expression, and what it makes of the part. -/
theorem prefix_reads (make : Expr → Position → Expr) {e : Expr} {pos : Position} {k : Token}
    (he : Reads n u ks Token.endsOperand (IsExpr e))
    (run : ∀ p ts rest, Writes ts ks → unaryOver u (⟨k, p⟩ :: (ts ++ rest)) =
      u (ts ++ rest) >>= fun r => .ok (make r.1 p, r.2))
    (erase_make : ∀ a p, (make a p).erase = make a.erase .start) :
    Reads (n + 1) (unaryOver u) (k :: ks) Token.endsOperand (IsExpr (make e pos)) := by
  intro ts t rest written follows short
  obtain ⟨p, ts, rfl, we⟩ := writes_cons.mp written
  rw [List.cons_append, List.length_cons] at short
  obtain ⟨a, read, ha⟩ := he ts t rest we follows (by omega)
  refine ⟨make a p, ?_, ?_⟩
  · rw [List.cons_append, run p ts _ we, read, ok_bind]
  · rw [IsExpr, erase_make, erase_make, ha]

/-- The literal one past the largest int would be taken for the least one; no expression begins with
it. -/
theorem run_neg {k : Token} {ks : List Token} (starts : k.startsExpr = true) {p : Position}
    {ts rest : List Lexeme} (written : Writes ts (k :: ks)) :
    unaryOver u (⟨.symbol .minus, p⟩ :: (ts ++ rest)) =
      u (ts ++ rest) >>= fun r => .ok (.unary .neg r.1 p, r.2) := by
  have notLeast : k ≠ .int 2147483648 := Token.ne_of_startsExpr starts rfl
  obtain ⟨q, ts, rfl, -⟩ := writes_cons.mp written
  simp [unaryOver, notLeast]

theorem neg_reads (hu : ReadsParts n u) {e : Expr} {pos : Position} (he : e.isProper = true) :
    Reads (n + 1) (unaryOver u) (Expr.unary .neg e pos).tokens Token.endsOperand
      (IsExpr (.unary .neg e pos)) := by
  obtain ⟨k, ks, eq, starts⟩ := e.operand_head
  refine prefix_reads (.unary .neg) (hu e _ he (.inl rfl)) (fun p ts rest written => ?_) fun _ _ => rfl
  rw [← Expr.operand, eq] at written
  exact run_neg starts written

/-- What stands in parentheses behind `sizeof` is no type when it begins like an expression. -/
theorem run_sizeof_parens {k : Token} {ks : List Token} (starts : k.startsExpr = true) {p : Position}
    {ts rest : List Lexeme} (written : Writes ts (.symbol .openParen :: k :: ks)) :
    unaryOver u (⟨.keyword .sizeofWord, p⟩ :: (ts ++ rest)) =
      u (ts ++ rest) >>= fun r => .ok (.sizeofExpr r.1 p, r.2) := by
  simp only [writes_cons] at written
  obtain ⟨q, _, rfl, r, more, rfl, -⟩ := written
  have noType := run_seesTypeInParens (Token.beginsType_of_startsExpr starts)
    (fun _ => Token.ne_of_startsExpr starts rfl) ⟨.symbol .openParen, q⟩ r (more ++ rest)
  simp [unaryOver, sizeofFrom, noType]

theorem sizeofExpr_reads (hu : ReadsParts n u) {e : Expr} {pos : Position}
    (he : e.isProper = true) :
    Reads (n + 1) (unaryOver u) (Expr.sizeofExpr e pos).tokens Token.endsOperand
      (IsExpr (.sizeofExpr e pos)) := by
  refine prefix_reads .sizeofExpr (hu e _ he (.inl rfl)) (fun p ts rest written => ?_) fun _ _ => rfl
  cases ha : e.isAtom with
  | true =>
    cases e <;> simp only [Expr.isAtom, Bool.false_eq_true] at ha
    all_goals
      obtain ⟨q, _, rfl, -⟩ := writes_cons.mp written
      rfl
  | false =>
    obtain ⟨k, ks, eq, starts⟩ := e.tokens_head
    simp only [Expr.grouped, ha, Bool.false_eq_true, if_false, eq,
      List.cons_append] at written
    exact run_sizeof_parens starts written

theorem sizeofType_reads {type : CType} {pos : Position} (ht : type.isPlain = true) :
    Reads (n + 1) (unaryOver u) (Expr.sizeofType type pos).tokens Token.endsOperand
      (IsExpr (.sizeofType type pos)) := by
  intro ts t rest written follows short
  simp only [Expr.tokens, writes_cons, writes_append, writes_nil] at written
  obtain ⟨p, _, rfl, q, _, rfl, inner, _, rfl, wt, r, _, rfl, rfl⟩ := written
  refine ⟨.sizeofType type p, ?_, rfl⟩
  have read := run_type (t := ⟨.symbol .closeParen, r⟩) ht wt rfl (t :: rest)
  have sees := run_seesTypeInParens_type wt ⟨.symbol .openParen, q⟩
    (⟨.symbol .closeParen, r⟩ :: t :: rest)
  simp [unaryOver, sizeofFrom, sees, read]

theorem cast_reads {type : CType} {e : Expr} {pos : Position} (ht : type.isCastable = true)
    (he : Reads n u ks Token.endsOperand (IsExpr e)) :
    Reads (n + 1) (unaryOver u) (.symbol .openParen :: (type.tokens ++ .symbol .closeParen :: ks))
      Token.endsOperand (IsExpr (.cast type e pos)) := by
  intro ts t rest written follows short
  simp only [writes_cons, writes_append] at written
  obtain ⟨p, _, rfl, inner, _, rfl, wt, q, back, rfl, we⟩ := written
  simp only [List.cons_append, List.append_assoc, List.length_cons, List.length_append] at short ⊢
  obtain ⟨a, read, ha⟩ := he back t rest we follows (by simp; omega)
  refine ⟨.cast type a p, ?_, congrArg (Expr.cast type · .start) ha⟩
  have sees := run_seesTypeInParens_type wt ⟨.symbol .openParen, p⟩
    (⟨.symbol .closeParen, q⟩ :: (back ++ t :: rest))
  obtain ⟨base, depth⟩ := type
  simp only [CType.isCastable, Bool.and_eq_true, beq_iff_eq] at ht
  obtain ⟨rfl, number⟩ := ht
  have readT := run_type (t := ⟨.symbol .closeParen, q⟩) rfl wt rfl (back ++ t :: rest)
  cases base with
  | void | struct => cases number
  | _ => simp [unaryOver, castFrom, sees, readT, read, CType.isPointer]

theorem unaryOver_reads (hu : ReadsParts n u) : ReadsParts (n + 1) (unaryOver u) := by
  rintro e ks he (rfl | ⟨rfl, hb⟩)
  · exact operand_reads hu he
  have part (e : Expr) (he : e.isProper = true) := hu e _ he (.inl rfl)
  cases e with
  | int | float | char | null | var => exact operand_reads hu he
  | binary => cases hb
  | unary op e =>
    cases op with
    | neg => exact neg_reads hu he
    | not => exact prefix_reads (.unary .not) (part e he) (fun _ _ _ _ => rfl) fun _ _ => rfl
  | step op e =>
    cases op with
    | preInc => exact prefix_reads (.step .preInc) (part e he) (fun _ _ _ _ => rfl) fun _ _ => rfl
    | preDec => exact prefix_reads (.step .preDec) (part e he) (fun _ _ _ _ => rfl) fun _ _ => rfl
    | postInc => exact postStep_reads hu (e := e) he (.inl rfl)
    | postDec => exact postStep_reads hu (e := e) he (.inr rfl)
  | addressOf e => exact prefix_reads .addressOf (part e he) (fun _ _ _ _ => rfl) fun _ _ => rfl
  | deref e => exact prefix_reads .deref (part e he) (fun _ _ _ _ => rfl) fun _ _ => rfl
  | call => exact call_reads hu he
  | index =>
    simp only [Expr.isProper, Bool.and_eq_true] at he
    exact index_reads hu he.1 he.2
  | field object =>
    have ho : object.isProper = true := he
    exact field_reads hu ho
  | cast type e =>
    simp only [Expr.isProper, Bool.and_eq_true] at he
    exact cast_reads he.1 (part e he.2)
  | sizeofType => exact sizeofType_reads he
  | sizeofExpr e => exact sizeofExpr_reads hu (e := e) he
  | newNode => exact newNode_reads hu
  | print => exact print_reads hu he
  | read => exact read_reads hu he

/-- The rule for prefix forms reads on inputs of every length. -/
theorem unary_reads (n : Nat) : ReadsParts n unary := by
  intro e ks he part
  refine reads_fix (fun i : Expr × List Token => i.1.isProper = true ∧ IsPart i.1 i.2) Prod.snd
    (fun i => IsExpr i.1) (fun n again h i hi => ?_) n (e, ks) ⟨he, part⟩
  exact unaryOver_reads (fun e ks he part => h (e, ks) ⟨he, part⟩) _ _ hi.1 hi.2

theorem expression_reads (n : Nat) {e : Expr} (he : e.isProper = true) :
    ReadsItem n expression e.tokens e :=
  ⟨expressionOver_reads (unary_reads n) he, e.tokens_head⟩

/-- An expression is read back in front of any token that can end one. Where it begins matters to
the rules around it. -/
theorem run_expression {e : Expr} (he : e.isProper = true) {ts : List Lexeme}
    (written : Writes ts e.tokens) {t : Lexeme} (follows : t.token.endsExpr = true)
    (rest : List Lexeme) :
    ∃ k p ts' a, ts = ⟨k, p⟩ :: ts' ∧ k.startsExpr = true ∧
      expression (⟨k, p⟩ :: (ts' ++ t :: rest)) = .ok (a, t :: rest) ∧ IsExpr e a :=
  (expression_reads _ he).run written follows (Nat.lt_succ_self (ts ++ t :: rest).length)

end Grammar

end Stepwise
