import Stepwise.Proofs.PrintedExpressions

/-! A printer of expressions that writes no parentheses but those the grammar needs, and the proof
that the grammar reads its tokens back. What has to be fenced is decided by how loosely a form
binds: postfix forms and single tokens not at all, prefix forms behind them, then the binary
operators rank by rank. -/

namespace Stepwise

def BinOp.rank : BinOp → Nat
  | .arith .mul | .arith .div | .arith .mod => 1
  | .arith .add | .arith .sub => 2
  | .compare .lt | .compare .le | .compare .gt | .compare .ge => 3
  | .compare .eq | .compare .ne => 4
  | .connect .and => 5
  | .connect .or => 6

theorem BinOp.rank_symbol (op : BinOp) : (Token.symbol op.symbol).rank = op.rank := by
  rcases op with op | op | op <;> cases op <;> rfl

def inParens (ks : List Token) : List Token :=
  .symbol .openParen :: (ks ++ [.symbol .closeParen])

/-- How loosely an expression binds. With `split` the least int is written in two tokens, as the
negative of a literal one past the largest, and is a prefix form then. -/
def Expr.looseness (split : Bool) : Expr → Nat
  | .int n _ => if split && n == -2147483648 then 1 else 0
  | .float .. | .char .. | .null _ | .var .. | .call .. | .index .. | .field .. | .newNode ..
  | .print .. | .read .. | .step .postInc .. | .step .postDec .. => 0
  | .unary .. | .step .preInc .. | .step .preDec .. | .addressOf .. | .deref .. | .cast ..
  | .sizeofType .. | .sizeofExpr .. => 1
  | .binary op .. => op.rank + 1

/-- The tokens of an operand: in parentheses exactly if it binds looser than its place allows. -/
def Expr.fenced (split : Bool) (limit : Nat) (e : Expr) (tokens : List Token) : List Token :=
  if e.looseness split ≤ limit then tokens else inParens tokens

mutual

/-- The tokens of an expression with only the parentheses it needs. An operator takes on its left
what binds as it does, on its right only what binds tighter. -/
def Expr.terse (split : Bool) : Expr → List Token
  | .int n _ =>
    if split && n == -2147483648 then [.symbol .minus, .int 2147483648] else [.int n.toInt]
  | .float x _ => [.float x]
  | .char c _ => [.char c]
  | .null _ => [.keyword .nullWord]
  | .var name _ => [.ident name]
  | .binary op left right _ =>
    left.fenced split (op.rank + 1) (left.terse split) ++
      .symbol op.symbol :: right.fenced split op.rank (right.terse split)
  | .unary op e _ => .symbol op.symbol :: e.fenced split 1 (e.terse split)
  | .step .preInc e _ => .symbol .plusPlus :: e.fenced split 1 (e.terse split)
  | .step .preDec e _ => .symbol .minusMinus :: e.fenced split 1 (e.terse split)
  | .step .postInc e _ => e.fenced split 0 (e.terse split) ++ [.symbol .plusPlus]
  | .step .postDec e _ => e.fenced split 0 (e.terse split) ++ [.symbol .minusMinus]
  | .addressOf e _ => .symbol .amp :: e.fenced split 1 (e.terse split)
  | .deref e _ => .symbol .star :: e.fenced split 1 (e.terse split)
  | .call name args _ =>
    .ident name :: .symbol .openParen :: (separated (terseAll split args) ++ [.symbol .closeParen])
  | .index array index _ =>
    array.fenced split 0 (array.terse split) ++
      .symbol .openBracket :: (index.terse split ++ [.symbol .closeBracket])
  | .field object name arrow _ =>
    object.fenced split 0 (object.terse split) ++
      [.symbol (if arrow then .arrow else .dot), .ident name]
  | .cast type e _ =>
    .symbol .openParen :: (type.tokens ++ .symbol .closeParen :: e.fenced split 1 (e.terse split))
  | .sizeofType type _ => .keyword .sizeofWord :: inParens type.tokens
  | .sizeofExpr e _ => .keyword .sizeofWord :: inParens (e.terse split)
  | .newNode struct _ =>
    .ident "malloc" :: inParens (.keyword .sizeofWord :: inParens [.keyword .structWord, .ident struct])
  | .print format args _ =>
    .ident "printf" :: .symbol .openParen :: .string format ::
      (following (terseAll split args) ++ [.symbol .closeParen])
  | .read format targets _ =>
    .ident "scanf" :: .symbol .openParen :: .string format ::
      (following (terseAddresses split targets) ++ [.symbol .closeParen])

def terseAll (split : Bool) : List Expr → List (List Token)
  | [] => []
  | e :: rest => e.terse split :: terseAll split rest

def terseAddresses (split : Bool) : List Expr → List (List Token)
  | [] => []
  | e :: rest =>
    (.symbol .amp :: e.fenced split 1 (e.terse split)) :: terseAddresses split rest

end

variable {split : Bool}

theorem terseAll_eq_map (es : List Expr) : terseAll split es = es.map (Expr.terse split) := by
  induction es with
  | nil => rfl
  | cons e rest ih => rw [terseAll, ih, List.map_cons]

theorem terseAddresses_eq_map (es : List Expr) : terseAddresses split es =
    (es.map (Expr.addressOf · .start)).map (Expr.terse split) := by
  induction es with
  | nil => rfl
  | cons e rest ih => rw [terseAddresses, ih, List.map_cons, List.map_cons, Expr.terse]

namespace Expr

theorem looseness_le (e : Expr) : e.looseness split ≤ 7 := by
  cases e with
  | int n =>
    simp only [looseness]
    split <;> decide
  | binary op =>
    have := op.symbol_ends.2.2
    rw [op.rank_symbol] at this
    exact Nat.succ_le_succ this
  | step op => cases op <;> exact Nat.le_of_ble_eq_true rfl
  | _ => exact Nat.le_of_ble_eq_true rfl

theorem fenced_head {limit : Nat} {e : Expr}
    (h : ∃ k ks, e.terse split = k :: ks ∧ k.startsExpr = true) (back : List Token) :
    ∃ k ks, e.fenced split limit (e.terse split) ++ back = k :: ks ∧ k.startsExpr = true := by
  obtain ⟨k, ks, eq, starts⟩ := h
  unfold fenced
  split
  · exact ⟨k, ks ++ back, by rw [eq]; rfl, starts⟩
  · exact ⟨_, _, rfl, rfl⟩

theorem terse_head (split : Bool) (e : Expr) : ∃ k ks, e.terse split = k :: ks ∧ k.startsExpr = true := by
  cases e with
  | int n =>
    unfold terse
    split
    · exact ⟨_, _, rfl, rfl⟩
    · exact ⟨_, _, rfl, decide_eq_true (Int32.toInt_le n)⟩
  | binary op left right => exact fenced_head (left.terse_head split) _
  | index array index => exact fenced_head (array.terse_head split) _
  | field object => exact fenced_head (object.terse_head split) _
  | step op e =>
    cases op with
    | preInc | preDec => exact ⟨_, _, rfl, rfl⟩
    | postInc | postDec => exact fenced_head (e.terse_head split) _
  | unary op => cases op <;> exact ⟨_, _, rfl, rfl⟩
  | _ => exact ⟨_, _, rfl, rfl⟩

end Expr

namespace Grammar

open Stepwise.Parser

/-- The tokens print an expression so that it may stand where only what binds up to a limit may. -/
def Fits (split : Bool) (limit : Nat) (e : Expr) (ks : List Token) : Prop :=
  ks = inParens (e.terse split) ∨ ks = e.terse split ∧ e.looseness split ≤ limit

theorem fits_fenced (split : Bool) (limit : Nat) (e : Expr) :
    Fits split limit e (e.fenced split limit (e.terse split)) := by
  unfold Expr.fenced
  split
  · exact .inr ⟨rfl, ‹_›⟩
  · exact .inl rfl

def ReadsTight (split : Bool) (n : Nat) (u : Parser Expr) : Prop :=
  ∀ e ks, e.isProper = true → Fits split 1 e ks → Reads n u ks Token.endsOperand (IsExpr e)

variable {n : Nat} {u : Parser Expr}

/-! Binary operators -/

/-- The rule comes to the end of an expression with that expression in hand, whatever its loop has to say to
the next token, if that token binds no tighter than what stands rightmost in the expression. The induction is
on the expression: the loop that has its left operand in hand takes the operator, and the right operand is read
from the next level on, where the token ends it. -/
theorem climb_reaches (hu : ReadsTight split n u) (e : Expr) {ks : List Token} (least : Nat) {limit : Nat}
    (he : e.isProper = true) (fits : Fits split limit e ks) (sum : least + limit ≤ 8) (ts : List Lexeme)
    (t : Lexeme) (rest : List Lexeme) (written : Writes ts ks) (ends : t.token.endsOperand = true)
    (looser : limit ≤ t.token.rank + 1) (short : (ts ++ t :: rest).length < n) :
    ∃ a, climb u least (ts ++ t :: rest) =
      operators (below (ts ++ t :: rest).length (climb u)) least a (t :: rest) ∧ IsExpr e a := by
  have tightly (tight : Fits split 1 e ks) : ∃ a, climb u least (ts ++ t :: rest) =
      operators (below (ts ++ t :: rest).length (climb u)) least a (t :: rest) ∧ IsExpr e a := by
    obtain ⟨a, read, ha⟩ := hu e ks he tight ts t rest written ends short
    exact ⟨a, run_climb read, ha⟩
  obtain rfl | ⟨rfl, loose⟩ := fits
  · exact tightly (.inl rfl)
  by_cases tight : e.looseness split ≤ 1
  · exact tightly (.inr ⟨rfl, tight⟩)
  clear tightly
  cases e with
  | binary op left right pos =>
    obtain ⟨level, found⟩ := exists_level op
    have levels := level_add_rank found
    rw [op.rank_symbol] at levels
    have loose : op.rank + 1 ≤ limit := loose
    simp only [Expr.isProper, Bool.and_eq_true] at he
    simp only [Expr.terse, writes_append, writes_cons] at written
    obtain ⟨ls, _, rfl, wl, p, rs, rfl, wr⟩ := written
    simp only [List.append_assoc, List.cons_append] at short ⊢
    obtain ⟨l, reachL, hl⟩ := climb_reaches hu left least he.1 (fits_fenced split _ left) (by omega)
      ls ⟨.symbol op.symbol, p⟩ (rs ++ t :: rest) wl op.symbol_ends.1 (Nat.le_of_eq (by rw [op.rank_symbol]))
      short
    obtain ⟨a, reachR, ha⟩ := climb_reaches hu right (level + 1) he.2 (fits_fenced split _ right)
      (by omega) rs t rest wr ends (by omega)
      (by simp only [List.length_append, List.length_cons] at short ⊢; omega)
    have readR : climb u (level + 1) (rs ++ t :: rest) = .ok (a, t :: rest) :=
      reachR.trans (run_operators_end (by omega))
    have above : least ≤ level := by omega
    refine ⟨.binary op l a p, ?_, by simp only [IsExpr, Expr.erase, hl.symm, ha.symm]⟩
    rw [reachL]
    refine run_operators_step found above (Eq.trans ?_ readR) l p
    exact run_below (by simp only [List.length_append, List.length_cons]; omega)
  | int n =>
    simp only [Expr.looseness] at tight
    split at tight <;> omega
  | step op => cases op <;> simp [Expr.looseness] at tight
  | _ => simp [Expr.looseness] at tight

/-- From a level on the rule reads what binds as its operators do. -/
theorem climb_reads (hu : ReadsTight split n u) {least : Nat} (limit : Nat) (sum : least + limit = 8) (e : Expr)
    (ks : List Token) (he : e.isProper = true) (fits : Fits split limit e ks) :
    Reads n (climb u least) ks (fun k => k.endsOperand && limit ≤ k.rank) (IsExpr e) := by
  intro ts t rest written follows short
  obtain ⟨ends, lt⟩ := Bool.and_eq_true_iff.mp follows
  have lt := of_decide_eq_true lt
  obtain ⟨a, reach, ha⟩ := climb_reaches hu e least he fits (by omega) ts t rest written ends
    (by omega) short
  exact ⟨a, reach.trans (run_operators_end (by omega)), ha⟩

theorem terse_reads (hu : ReadsTight split n u) {e : Expr} (he : e.isProper = true) :
    ReadsItem n (expressionOver u) (e.terse split) e where
  reads := expressionOver_of_climb (climb_reads hu 7 rfl e _ he (.inr ⟨rfl, e.looseness_le⟩))
  head := e.terse_head split

/-! Postfix forms -/

theorem run_unaryOver_parens {e a : Expr} {p q : Position} {inner rest : List Lexeme}
    (written : Writes inner (e.terse split))
    (read : expressionOver u (inner ++ ⟨.symbol .closeParen, q⟩ :: rest) =
      .ok (a, ⟨.symbol .closeParen, q⟩ :: rest)) :
    unaryOver u (⟨.symbol .openParen, p⟩ :: (inner ++ ⟨.symbol .closeParen, q⟩ :: rest)) =
      postfixes (expressionOver u) a rest := by
  obtain ⟨k, ks, eq, starts⟩ := e.terse_head split
  rw [eq] at written
  obtain ⟨q', inner, rfl, -⟩ := writes_cons.mp written
  have noType := run_seesTypeInParens (Token.beginsType_of_startsExpr starts)
    (fun _ => Token.ne_of_startsExpr starts rfl) ⟨.symbol .openParen, p⟩ q'
    (inner ++ ⟨.symbol .closeParen, q⟩ :: rest)
  rw [List.cons_append] at read
  simp only [unaryOver, run_bind, run_current, ok_bind, List.cons_append, noType, if_false,
    Bool.false_eq_true, run_ite, run_primary_parens, read, run_expect, run_pure]

/-- A name, an opening parenthesis and what the rule for calls reads behind it. -/
theorem run_unaryOver_call {name : String} {p q : Position} {a : Expr} {ts rest : List Lexeme}
    (read : call (expressionOver u) name p (ts ++ rest) = .ok (a, rest)) :
    unaryOver u (⟨.ident name, p⟩ :: ⟨.symbol .openParen, q⟩ :: (ts ++ rest)) =
      postfixes (expressionOver u) a rest :=
  run_postfixes_call read

/-- The rule for prefix forms comes to the end of what is written with an expression in hand, whatever the
postfix rule has to say to the next token. -/
def Reached (u : Parser Expr) (e : Expr) (ts : List Lexeme) (t : Lexeme) (rest : List Lexeme) : Prop :=
  ∃ a, unaryOver u (ts ++ t :: rest) = postfixes (expressionOver u) a (t :: rest) ∧ IsExpr e a

theorem parens_reached (hu : ReadsTight split n u) {e : Expr} (he : e.isProper = true) {ts : List Lexeme}
    {t : Lexeme} {rest : List Lexeme} (written : Writes ts (inParens (e.terse split)))
    (short : (ts ++ t :: rest).length < n + 1) : Reached u e ts t rest := by
  simp only [inParens, writes_cons, writes_append, writes_nil] at written
  obtain ⟨p, _, rfl, inner, _, rfl, wi, q, _, rfl, rfl⟩ := written
  simp only [Reached, List.cons_append, List.append_assoc, List.nil_append, List.length_cons] at short ⊢
  obtain ⟨a, read, ha⟩ := (terse_reads hu he).reads inner ⟨.symbol .closeParen, q⟩ (t :: rest) wi rfl
    (by omega)
  exact ⟨a, run_unaryOver_parens wi read, ha⟩

theorem call_reached {name : String} {ks : List Token} {e : Expr}
    (form : ∀ pos, Reads n (call (expressionOver u) name pos) ks (fun _ => true) (IsExpr e))
    {ts : List Lexeme} {t : Lexeme} {rest : List Lexeme}
    (written : Writes ts (.ident name :: .symbol .openParen :: ks))
    (short : (ts ++ t :: rest).length < n + 1) : Reached u e ts t rest := by
  simp only [writes_cons] at written
  obtain ⟨p, _, rfl, q, inner, rfl, wi⟩ := written
  simp only [List.cons_append, List.length_cons] at short
  obtain ⟨a, read, ha⟩ := form p inner t rest wi rfl (by omega)
  exact ⟨a, run_unaryOver_call read, ha⟩

/-- Postfix forms are reached. The induction follows the form from its outermost postfix to its first
token. -/
theorem unaryOver_reaches (hu : ReadsTight split n u) (e : Expr) {ks : List Token}
    (he : e.isProper = true) (fits : Fits split 0 e ks) (ts : List Lexeme) (t : Lexeme)
    (rest : List Lexeme) (written : Writes ts ks) (short : (ts ++ t :: rest).length < n + 1) :
    Reached u e ts t rest := by
  obtain rfl | ⟨rfl, tight⟩ := fits
  · exact parens_reached hu he written short
  cases e with
  | int k =>
    have whole : (split && k == -2147483648) = false := by
      cases h : split && k == -2147483648 <;> simp [Expr.looseness, h] at tight ⊢
    simp only [Expr.terse, whole, Bool.false_eq_true, if_false, writes_cons, writes_nil] at written
    obtain ⟨p, _, rfl, rfl⟩ := written
    refine ⟨.int k p, ?_, rfl⟩
    have read := run_primary_int (expressionOver u) k p (t :: rest)
    calc unaryOver u (⟨.int k.toInt, p⟩ :: t :: rest)
      _ = (primary (expressionOver u) >>= postfixes (expressionOver u))
          (⟨.int k.toInt, p⟩ :: t :: rest) := rfl
      _ = postfixes (expressionOver u) (.int k p) (t :: rest) := by rw [run_bind, read, ok_bind]
  | float | char | null | var =>
    simp only [Expr.terse, writes_cons, writes_nil] at written
    obtain ⟨p, _, rfl, rfl⟩ := written
    exact ⟨_, rfl, rfl⟩
  | call name args pos =>
    simp only [Expr.isProper, Bool.and_eq_true, bne_iff_ne, and_assoc] at he
    obtain ⟨noPrint, noRead, noNode, hargs⟩ := he
    simp only [Expr.terse, terseAll_eq_map] at written
    exact call_reached (fun _ => callForm_reads (fun e h => terse_reads hu (properAll_iff.mp hargs e h))
      ⟨noPrint, noRead, noNode⟩) written short
  | print format args pos =>
    simp only [Expr.terse, terseAll_eq_map] at written
    exact call_reached (fun _ => printForm_reads fun e h => terse_reads hu (properAll_iff.mp he e h))
      written short
  | read format targets pos =>
    simp only [Expr.terse, terseAddresses_eq_map] at written
    refine call_reached (fun _ => readForm_reads fun e h => terse_reads hu ?_) written short
    obtain ⟨target, mem, rfl⟩ := List.mem_map.mp h
    exact properAll_iff.mp he target mem
  | newNode struct pos =>
    exact call_reached (fun _ => newNodeForm_reads (terse_reads hu rfl)) written short
  | index array index pos =>
    simp only [Expr.isProper, Bool.and_eq_true] at he
    simp only [Expr.terse, writes_append, writes_cons, writes_nil] at written
    obtain ⟨front, _, rfl, wf, p, _, rfl, inner, _, rfl, wi, q, _, rfl, rfl⟩ := written
    simp only [Reached, List.cons_append, List.append_assoc, List.nil_append, List.length_append,
      List.length_cons] at short ⊢
    obtain ⟨a, reaches, ha⟩ := unaryOver_reaches hu array he.1 (fits_fenced split 0 array) front
      ⟨.symbol .openBracket, p⟩ (inner ++ ⟨.symbol .closeBracket, q⟩ :: t :: rest) wf
      (by simp only [List.length_append, List.length_cons]; omega)
    obtain ⟨i, read, hi⟩ := (terse_reads hu he.2).reads inner ⟨.symbol .closeBracket, q⟩ (t :: rest) wi
      rfl (by simp only [List.length_append, List.length_cons]; omega)
    refine ⟨.index a i p, ?_, by simp only [IsExpr, Expr.erase, ha.symm, hi.symm]⟩
    rw [reaches, run_postfixes_index read]
  | field object name arrow pos =>
    have ho : object.isProper = true := he
    simp only [Expr.terse, writes_append, writes_cons, writes_nil] at written
    obtain ⟨front, _, rfl, wf, p, _, rfl, q, _, rfl, rfl⟩ := written
    simp only [Reached, List.cons_append, List.append_assoc, List.nil_append] at short ⊢
    obtain ⟨a, reaches, ha⟩ := unaryOver_reaches hu object ho (fits_fenced split 0 object) front _ _ wf
      short
    refine ⟨.field a name arrow p, ?_, by simp only [IsExpr, Expr.erase, ha.symm]⟩
    rw [reaches, run_postfixes_field]
  | step op e pos =>
    have he' : e.isProper = true := he
    have stepped {s : Symbol} (h : op = .postInc ∧ s = .plusPlus ∨ op = .postDec ∧ s = .minusMinus)
        (written : Writes ts (e.fenced split 0 (e.terse split) ++ [.symbol s])) :
        Reached u (.step op e pos) ts t rest := by
      simp only [writes_append, writes_cons, writes_nil] at written
      obtain ⟨front, _, rfl, wf, p, _, rfl, rfl⟩ := written
      simp only [Reached, List.cons_append, List.append_assoc, List.nil_append] at short ⊢
      obtain ⟨a, reaches, ha⟩ := unaryOver_reaches hu e he' (fits_fenced split 0 e) front _ _ wf short
      refine ⟨.step op a p, ?_, congrArg (Expr.step op · .start) ha⟩
      rw [reaches, run_postfixes_step h]
    cases op with
    | preInc | preDec => simp [Expr.looseness] at tight
    | postInc => exact stepped (.inl ⟨rfl, rfl⟩) written
    | postDec => exact stepped (.inr ⟨rfl, rfl⟩) written
  | binary | unary | addressOf | deref | cast | sizeofType | sizeofExpr =>
    simp [Expr.looseness] at tight

/-! Prefix forms -/

/-- A minus in front of the literal one past the largest int is the least int. -/
theorem least_reads {pos : Position} :
    Reads (n + 1) (unaryOver u) [.symbol .minus, .int 2147483648] Token.endsOperand
      (IsExpr (.int (-2147483648) pos)) := by
  intro ts t rest written follows short
  simp only [writes_cons, writes_nil] at written
  obtain ⟨p, _, rfl, q, _, rfl, rfl⟩ := written
  exact ⟨.int (-2147483648) p, rfl, rfl⟩

theorem unaryOver_tight (hu : ReadsTight split n u) : ReadsTight split (n + 1) (unaryOver u) := by
  intro e ks he fits
  have tighter (fits : Fits split 0 e ks) :
      Reads (n + 1) (unaryOver u) ks Token.endsOperand (IsExpr e) := by
    intro ts t rest written follows short
    obtain ⟨a, reaches, ha⟩ := unaryOver_reaches hu e he fits ts t rest written short
    exact ⟨a, reaches.trans (run_postfixes_end follows), ha⟩
  obtain rfl | ⟨rfl, loose⟩ := fits
  · exact tighter (.inl rfl)
  by_cases tight : e.looseness split = 0
  · exact tighter (.inr ⟨rfl, Nat.le_of_eq tight⟩)
  have part (e : Expr) (he : e.isProper = true) := hu e _ he (fits_fenced split 1 e)
  cases e with
  | int k =>
    obtain ⟨rfl, rfl⟩ : split = true ∧ k = -2147483648 := by
      simpa [Expr.looseness] using tight
    exact least_reads
  | unary op e =>
    cases op with
    | neg =>
      refine prefix_reads (.unary .neg) (part e he) (fun p ts rest written => ?_) fun _ _ => rfl
      obtain ⟨k, ks, eq, starts⟩ := Expr.fenced_head (e.terse_head split) []
      rw [List.append_nil] at eq
      rw [eq] at written
      exact run_neg starts written
    | not => exact prefix_reads (.unary .not) (part e he) (fun _ _ _ _ => rfl) fun _ _ => rfl
  | step op e =>
    cases op with
    | preInc => exact prefix_reads (.step .preInc) (part e he) (fun _ _ _ _ => rfl) fun _ _ => rfl
    | preDec => exact prefix_reads (.step .preDec) (part e he) (fun _ _ _ _ => rfl) fun _ _ => rfl
    | postInc | postDec => exact absurd rfl tight
  | addressOf e => exact prefix_reads .addressOf (part e he) (fun _ _ _ _ => rfl) fun _ _ => rfl
  | deref e => exact prefix_reads .deref (part e he) (fun _ _ _ _ => rfl) fun _ _ => rfl
  | cast type e =>
    simp only [Expr.isProper, Bool.and_eq_true] at he
    exact cast_reads he.1 (part e he.2)
  | sizeofType => exact sizeofType_reads he
  | sizeofExpr e =>
    refine prefix_reads .sizeofExpr (hu e _ he (.inl rfl)) (fun p ts rest written => ?_) fun _ _ => rfl
    obtain ⟨k, ks, eq, starts⟩ := e.terse_head split
    rw [inParens, eq] at written
    exact run_sizeof_parens starts written
  | binary op =>
    have := op.symbol_ends.2.1
    rw [op.rank_symbol] at this
    exact absurd loose (by simp only [Expr.looseness]; omega)
  | _ => exact absurd rfl tight

theorem unary_tight (n : Nat) : ReadsTight split n unary := by
  intro e ks he fits
  refine reads_fix (fun i : Expr × List Token => i.1.isProper = true ∧ Fits split 1 i.1 i.2) Prod.snd
    (fun i => IsExpr i.1) (fun n again h i hi => ?_) n (e, ks) ⟨he, fits⟩
  exact unaryOver_tight (fun e ks he fits => h (e, ks) ⟨he, fits⟩) _ _ hi.1 hi.2

/-- The grammar reads an expression written with only the parentheses it needs back, up to
positions, and stops in front of the next token, whichever it is of those that can end an
expression. -/
theorem expression_terse (split : Bool) (e : Expr) (he : e.isProper = true) (ts : List Lexeme)
    (written : Writes ts (e.terse split)) (t : Lexeme) (follows : t.token.endsExpr = true)
    (rest : List Lexeme) :
    ∃ a, expression (ts ++ t :: rest) = .ok (a, t :: rest) ∧ a.erase = e.erase :=
  (terse_reads (unary_tight _) he).reads ts t rest written follows (Nat.lt_succ_self _)

/-- `a - (b - c) * -2147483648 - d[0]++`: the operand on the right of the product is a prefix form,
the difference on its left needs its parentheses, and the outer differences group to the left. -/
theorem expression_terse_differences :
    let minus (left right : Expr) : Expr := .binary (.arith .sub) left right .start
    let var (name : String) : Expr := .var name .start
    let e := minus
      (minus (var "a") (.binary (.arith .mul) (minus (var "b") (var "c")) (.int (-2147483648) .start)
        .start))
      (.step .postInc (.index (var "d") (.int 0 .start) .start) .start)
    let ks : List Token := [.ident "a", .symbol .minus, .symbol .openParen, .ident "b", .symbol .minus,
      .ident "c", .symbol .closeParen, .symbol .star, .symbol .minus, .int 2147483648, .symbol .minus,
      .ident "d", .symbol .openBracket, .int 0, .symbol .closeBracket, .symbol .plusPlus]
    e.isProper = true ∧ e.terse true = ks ∧
      ∃ a, expression (ks.map (⟨·, .start⟩) ++ [⟨.symbol .semicolon, .start⟩]) =
        .ok (a, [⟨.symbol .semicolon, .start⟩]) ∧ a.erase = e.erase := by
  intro minus var e ks
  exact ⟨rfl, rfl, expression_terse true e rfl (ks.map (⟨·, .start⟩)) rfl _ rfl []⟩

end Grammar

end Stepwise
