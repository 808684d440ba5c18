import Stepwise.Proofs.Accepted
import Stepwise.Proofs.Parts
import Stepwise.Proofs.Positions
import Stepwise.Proofs.Reading

/-! The grammar always comes to an end. Wherever a rule starts among the tokens of a text, it never looks behind
the end of the text and never takes it; what it reads takes at least one token, so no rule goes on with itself
where it has begun; and where a text is no program, the error stands at one of its tokens. All expressions that
are read stand at tokens too. -/

namespace Stepwise

def Token.isEof : Token → Bool
  | eof => true
  | _ => false

theorem Token.ne_eof {token : Token} (plain : token.isEof = false) : token ≠ eof := by
  rintro rfl
  cases plain

/-- Causes that are no fault of the text: a rule goes on without progress, or looks behind the end. -/
def ParseError.Cause.isInternal : Cause → Bool
  | noProgress | pastEnd => true
  | _ => false

structure ParseError.Located (tokens : List Lexeme) (e : ParseError) : Prop where
  external : e.cause.isInternal = false
  token : ∃ t ∈ tokens, t.pos = e.pos

namespace Parser

/-- What a parser comes to that starts at `ts`: it takes at least `k` tokens and leaves at least one, and `P`
holds of what it reads; or it fails at one of the tokens of `whole`. -/
def Comes {α : Type} (whole ts : List Lexeme) (k : Nat) (P : α → Prop) :
    Except ParseError (α × List Lexeme) → Prop
  | .ok (a, rest) => rest <:+ ts ∧ rest ≠ [] ∧ rest.length + k ≤ ts.length ∧ P a
  | .error e => e.Located whole

/-- What a parser comes to wherever it starts among the tokens of `whole`, provided that the first token is of
the kind wanted and that at most `n` are left. -/
def Goes {α : Type} (whole : List Lexeme) (front : Lexeme → Prop) (n k : Nat) (x : Parser α)
    (P : α → Prop) : Prop :=
  ∀ t rest, t :: rest <:+ whole → front t → rest.length < n →
    Comes whole (t :: rest) k P (x (t :: rest))

def anywhere (_ : Lexeme) : Prop := True

/-- A row of tokens with the end of the text behind it, and nowhere else. -/
def Ended (whole : List Lexeme) : Prop :=
  ∃ front p, whole = front ++ [⟨.eof, p⟩] ∧ ∀ t ∈ front, t.token ≠ .eof

/-- One of the tokens stands there. -/
def Placed (whole : List Lexeme) (p : Position) : Prop := ∃ t ∈ whole, t.pos = p

variable {α β σ : Type} {whole : List Lexeme} {front : Lexeme → Prop} {m n j k : Nat} {x y : Parser α}
  {f : α → Parser β} {P : α → Prop} {Q : β → Prop}

/-- What a parser comes to, counted from `start`, wherever behind it the parser is. -/
def Resumes {α : Type} (whole start : List Lexeme) (k : Nat) (x : Parser α) (P : α → Prop) : Prop :=
  ∀ t rest, t :: rest <:+ start → Comes whole start k P (x (t :: rest))

/-- A parser that takes nothing and cannot fail while there are tokens. -/
def Peeks (x : Parser α) : Prop := ∀ t rest, ∃ a, x (t :: rest) = .ok (a, t :: rest)

namespace Comes

variable {ts ts' : List Lexeme}

/-- The first has come to something; the second goes on from there. -/
theorem bind {r : Except ParseError (α × List Lexeme)} (h : Comes whole ts j P r)
    (hf : ∀ a t rest, P a → t :: rest <:+ ts → (t :: rest).length + j ≤ ts.length →
      Comes whole ts k Q (f a (t :: rest))) : Comes whole ts k Q (r >>= fun r => f r.1 r.2) := by
  cases r with
  | error e => exact h
  | ok r =>
    obtain ⟨a, rest⟩ := r
    obtain ⟨suffix, nonempty, taken, ha⟩ := h
    obtain ⟨t, rest, rfl⟩ := List.exists_cons_of_ne_nil nonempty
    exact hf a t rest ha suffix taken

/-- What starts further on has also taken the tokens in between. -/
theorem earlier {i : Nat} {r : Except ParseError (α × List Lexeme)} (h : Comes whole ts k P r)
    (suffix : ts <:+ ts') (between : ts.length + j ≤ ts'.length) (le : i ≤ k + j) : Comes whole ts' i P r := by
  cases r with
  | error e => exact h
  | ok r =>
    obtain ⟨suffix', nonempty, taken, ha⟩ := h
    exact ⟨suffix'.trans suffix, nonempty, by omega, ha⟩

end Comes

namespace Goes

theorem mono {P' : α → Prop} (h : Goes whole anywhere n k x P) (hn : m ≤ n) (hk : j ≤ k)
    (hP : ∀ a, P a → P' a) : Goes whole front m j x P' := by
  intro t rest within _ short
  have := h t rest within trivial (by omega)
  cases hr : x (t :: rest) with
  | error e =>
    rw [hr] at this
    exact this
  | ok r =>
    rw [hr] at this
    obtain ⟨suffix, left, taken, ha⟩ := this
    exact ⟨suffix, left, by omega, hP _ ha⟩

/-- The kind of the first token does not matter. -/
theorem toFront (h : Goes whole anywhere n k x P) : Goes whole front n k x P :=
  h.mono (Nat.le_refl _) (Nat.le_refl _) fun _ => id

theorem le (h : Goes whole anywhere n k x P) (hn : m ≤ n) : Goes whole front m k x P :=
  h.mono hn (Nat.le_refl _) fun _ => id

/-- How many tokens are taken does not matter. -/
theorem free (h : Goes whole anywhere n k x P) : Goes whole front n 0 x P :=
  h.mono (Nat.le_refl _) (Nat.zero_le _) fun _ => id

/-- One after the other: the second has those tokens left that the first has not taken. -/
theorem seq (hx : Goes whole front n j x P) (hn : n ≤ m + j)
    (hf : ∀ a, P a → Goes whole anywhere m (k - j) (f a) Q) : Goes whole front n k (x >>= f) Q := by
  intro t rest within ht short
  refine (hx t rest within ht short).bind fun a t' rest' ha suffix taken => ?_
  simp only [List.length_cons] at taken
  have second := hf a ha t' rest' (suffix.trans within) trivial (by omega)
  exact second.earlier suffix (j := j) (by simp only [List.length_cons]; omega) (by omega)

theorem bind (hx : Goes whole front n j x P) (hf : ∀ a, P a → Goes whole anywhere n (k - j) (f a) Q) :
    Goes whole front n k (x >>= f) Q :=
  hx.seq (Nat.le_add_right n j) hf

/-- The first takes a token, so that there are fewer left for the second. -/
theorem past (hx : Goes whole front (n + 1) 1 x P) (hf : ∀ a, P a → Goes whole anywhere n (k - 1) (f a) Q) :
    Goes whole front (n + 1) k (x >>= f) Q :=
  hx.seq (Nat.le_refl _) hf

theorem pure {a : α} (h : P a) : Goes whole front n 0 (pure a) P :=
  fun _ _ _ _ _ => ⟨List.suffix_rfl, List.cons_ne_nil _ _, Nat.le_refl _, h⟩

theorem throw {cause : ParseError.Cause} {p : Position} (hp : Placed whole p)
    (external : cause.isInternal = false) : Goes whole front n k (throw ⟨cause, p⟩) P :=
  fun _ _ _ _ _ => ⟨external, hp⟩

theorem fail {c : Construct} {p : Position} (hp : Placed whole p) :
    Goes whole front n k (failUnsupported c p) P := throw hp rfl

theorem ite {c : Prop} [Decidable c] (hx : Goes whole front n k x P) (hy : Goes whole front n k y P) :
    Goes whole front n k (if c then x else y) P := by
  split
  · exact hx
  · exact hy

theorem map {g : α → β} (hx : Goes whole front n k x P) (hg : ∀ a, P a → Q (g a)) :
    Goes whole front n k (g <$> x) Q :=
  hx.bind (f := fun a => Pure.pure (g a)) fun a ha => by
    rw [Nat.sub_self]
    exact pure (hg a ha)

/-- The first token is looked at. -/
theorem look {f : Lexeme → Parser β}
    (h : ∀ token p, Placed whole p → Goes whole (· = ⟨token, p⟩) n k (f ⟨token, p⟩) Q) :
    Goes whole front n k (current >>= f) Q := fun t rest within _ short =>
  h t.token t.pos ⟨t, within.subset List.mem_cons_self, rfl⟩ t rest within rfl short

theorem here {f : Position → Parser β} (h : ∀ p, Placed whole p → Goes whole front n k (f p) Q) :
    Goes whole front n k (position >>= f) Q := fun t rest within ht short =>
  h t.pos ⟨t, within.subset List.mem_cons_self, rfl⟩ t rest within ht short

/-- Something is found out about the tokens; the first one is still there. -/
theorem peek (h : Peeks x) (hf : ∀ a, Goes whole front n k (f a) Q) : Goes whole front n k (x >>= f) Q := by
  intro t rest within ht short
  obtain ⟨a, ha⟩ := h t rest
  rw [run_bind, ha]
  exact hf a t rest within ht short

/-- What is to be avoided fails; otherwise the parser goes on. -/
theorem guard {c : Prop} [Decidable c] {r : Parser Unit} (hr : Goes whole front n 0 r fun _ => False)
    (hx : Goes whole front n k x P) : Goes whole front n k (if c then r >>= fun _ => x else x) P :=
  ite (hr.bind fun _ h => h.elim) hx

/-- The same, where the failure names the position. -/
theorem guardHere {c : Prop} [Decidable c] {r : Position → Parser Unit}
    (hr : ∀ p, Placed whole p → Goes whole front n 0 (r p) fun _ => False)
    (hx : Goes whole front n k x P) :
    Goes whole front n k (if c then position >>= fun p => r p >>= fun _ => x else x) P :=
  ite (here fun p hp => (hr p hp).bind fun _ h => h.elim) hx

/-- What is needed is there, or the parser does something about it; then it goes on. -/
theorem require {c : Prop} [Decidable c] {r : Parser Unit} (hr : Goes whole front n 0 r fun _ => True)
    (hx : Goes whole anywhere n k x P) : Goes whole front n k (if c then x else r >>= fun _ => x) P :=
  ite hx.toFront (hr.bind fun _ _ => hx)

/-- One of two things is read, and the parser goes on. -/
theorem choose {c : Prop} [Decidable c] (hx : Goes whole front n 0 x P) (hy : Goes whole front n 0 y P)
    (hf : ∀ a, P a → Goes whole anywhere n k (f a) Q) :
    Goes whole front n k (if c then x >>= f else y >>= f) Q :=
  ite (hx.bind hf) (hy.bind hf)

/-- A rule that goes well as long as what it uses of itself does, with fewer tokens left. The states that it
may be in are those of `S`. -/
theorem fix {rule : (σ → Parser α) → σ → Parser α} {S : σ → Prop}
    (h : ∀ {m again}, m < n → (∀ s, S s → Goes whole anywhere m k (again s) P) →
      ∀ s, S s → Goes whole anywhere (m + 1) k (rule again s) P) {s : σ} (hs : S s) :
    Goes whole front n k (fix rule s) P := by
  have upTo (m : Nat) (hm : m ≤ n) : ∀ s, S s → Goes whole anywhere m k (Parser.fix rule s) P := by
    induction m with
    | zero => exact fun _ _ _ _ _ _ short => absurd short (Nat.not_lt_zero _)
    | succ m ih =>
      intro s hs t rest within _ short
      rw [fix_eq]
      -- the rule starts with one token more than it may use itself on
      refine h (m := rest.length) (by omega) (fun s' hs' t' rest' within' _ short' => ?_) s hs t rest within
        trivial (Nat.lt_succ_self _)
      -- so the rest is shorter, and the rule is not stuck
      rw [if_pos (by simp only [List.length_cons]; omega)]
      exact ih (by omega) s' hs' t' rest' within' trivial (by omega)
  exact (upTo n (Nat.le_refl _) s hs).toFront

/-- A rule that starts from nothing but the tokens. -/
theorem loop {rule : (Unit → Parser α) → Unit → Parser α}
    (h : ∀ {m again}, m < n → Goes whole anywhere m k (again ()) P →
      Goes whole anywhere (m + 1) k (rule again ()) P) : Goes whole front n k (Parser.fix rule ()) P :=
  fix (S := fun _ => True) (fun hm ih _ _ => h hm (ih () trivial)) trivial

theorem run {ts : List Lexeme} (h : Goes whole anywhere ts.length k x P) (within : ts <:+ whole)
    (nonempty : ts ≠ []) : Comes whole ts k P (x ts) := by
  obtain ⟨t, rest, rfl⟩ := List.exists_cons_of_ne_nil nonempty
  exact h t rest within trivial (Nat.lt_succ_self _)

/-- The parser may come back to where it is now. -/
theorem mark {f : List Lexeme → Parser β}
    (h : ∀ start, start <:+ whole → start.length ≤ n → Resumes whole start k (f start) Q) :
    Goes whole front n k (get >>= f) Q := fun t rest within _ short =>
  h (t :: rest) within short t rest List.suffix_rfl

end Goes

namespace Resumes

variable {start : List Lexeme} (within : start <:+ whole) (short : start.length ≤ n)

include within short

theorem bind (hx : Goes whole anywhere n j x P) (hf : ∀ a, P a → Resumes whole start k (f a) Q) :
    Resumes whole start k (x >>= f) Q := by
  intro t rest behind
  have first := hx t rest (behind.trans within) trivial (Nat.lt_of_lt_of_le behind.length_le short)
  have first := first.earlier (i := 0) (j := 0) behind behind.length_le (Nat.zero_le _)
  exact first.bind fun a t' rest' ha behind' _ => hf a ha t' rest' behind'

theorem goOn (hx : Goes whole anywhere n k x P) : Resumes whole start k x P := by
  intro t rest behind
  have next := hx t rest (behind.trans within) trivial (Nat.lt_of_lt_of_le behind.length_le short)
  exact next.earlier (j := 0) behind behind.length_le (Nat.le_refl _)

theorem goBack (hx : Goes whole anywhere n k x P) :
    Resumes whole start k (set start >>= fun _ => x) P := by
  intro t rest behind
  have nonempty : start ≠ [] := List.ne_nil_of_mem (behind.subset List.mem_cons_self)
  exact (hx.le short).run within nonempty

end Resumes

/-! The pieces of the grammar -/

theorem Peeks.goes (h : Peeks x) : Goes whole front n 0 x fun _ => True := fun t rest _ _ _ => by
  obtain ⟨a, ha⟩ := h t rest
  rw [ha]
  exact ⟨List.suffix_rfl, List.cons_ne_nil _ _, Nat.le_refl _, trivial⟩

theorem peeks_ahead (i : Nat) : Peeks (ahead i) := fun _ _ => ⟨_, rfl⟩

theorem peeks_sees (s : Symbol) : Peeks (sees s) := fun _ _ => ⟨_, rfl⟩

theorem peeks_seesType : Peeks seesType := fun _ _ => ⟨_, rfl⟩

section Pieces

theorem goes_failExpected (what : Expected) : Goes whole front n k (failExpected what) P :=
  .look fun _ _ hp => .throw hp rfl

theorem goes_rejectReserved : Goes whole front n 0 rejectReserved fun _ => True := by
  refine .look fun token p hp => ?_
  cases token with
  | reserved r => exact .fail hp
  | _ => exact .pure trivial

variable (ended : Ended whole)

include ended

theorem Ended.ne_nil : whole ≠ [] := by
  obtain ⟨tokens, p, rfl, -⟩ := ended
  exact List.append_ne_nil_of_right_ne_nil _ (List.cons_ne_nil _ _)

/-- The end of the text is the last token, so there is another one behind any other. -/
theorem Ended.rest_ne_nil {t : Lexeme} {rest : List Lexeme} (within : t :: rest <:+ whole)
    (plain : t.token ≠ .eof) : rest ≠ [] := by
  rintro rfl
  obtain ⟨before, same⟩ := within
  obtain ⟨tokens, p, rfl, -⟩ := ended
  obtain ⟨-, rfl⟩ := List.append_singleton_inj.mp same
  exact plain rfl

/-- Behind the end of the text there is nothing. -/
theorem Ended.eq_nil {p : Position} {rest : List Lexeme} (within : ⟨.eof, p⟩ :: rest <:+ whole) :
    rest = [] := by
  obtain ⟨before, same⟩ := within
  obtain ⟨tokens, q, rfl, plain⟩ := ended
  rcases List.eq_nil_or_concat rest with rfl | ⟨rest, last, rfl⟩
  · rfl
  · rw [List.concat_eq_append, ← List.cons_append, ← List.append_assoc] at same
    obtain ⟨rfl, -⟩ := List.append_singleton_inj.mp same
    exact absurd rfl (plain ⟨.eof, p⟩ (by simp))

/-- A token that is not the end can be taken. -/
theorem Ended.comes {t : Lexeme} {rest : List Lexeme} (within : t :: rest <:+ whole)
    (plain : t.token ≠ .eof) {a : α} (ha : P a) : Comes whole (t :: rest) 1 P (.ok (a, rest)) :=
  ⟨List.suffix_cons _ _, ended.rest_ne_nil within plain, Nat.le_refl _, ha⟩

/-- The token at the front is known, and it is not the end of the text. -/
theorem goes_take {token : Token} {p : Position} (plain : token.isEof = false) :
    Goes whole (· = ⟨token, p⟩) n 1 advance fun _ => True := by
  rintro _ rest within rfl _
  have plain := Token.ne_eof plain
  rw [run_advance plain]
  exact ended.comes within plain trivial

/-- At the end of the text nothing is taken. -/
theorem goes_advance_anywhere : Goes whole front n 0 advance fun _ => True := by
  intro t rest within _ _
  obtain ⟨token, p⟩ := t
  by_cases plain : token = .eof
  · subst plain
    exact ⟨List.suffix_rfl, List.cons_ne_nil _ _, Nat.le_refl _, trivial⟩
  · rw [run_advance plain]
    obtain ⟨suffix, left, taken, -⟩ := ended.comes (P := fun _ : Unit => True) (a := ()) within plain trivial
    exact ⟨suffix, left, Nat.le_of_succ_le taken, trivial⟩

theorem goes_accept (s : Symbol) : Goes whole front n 0 (accept s) fun _ => True :=
  .peek (peeks_sees s) fun _ => .ite ((goes_advance_anywhere ended).bind fun _ _ => .pure trivial)
    (.pure trivial)

theorem goes_acceptWord (w : Keyword) : Goes whole front n 0 (acceptWord w) fun _ => True := by
  refine .look fun token p _ => ?_
  cases token with
  | keyword w' =>
    exact .ite ((goes_advance_anywhere ended).bind fun _ _ => .pure trivial) (.pure trivial)
  | _ => exact .pure trivial

theorem goes_expect (s : Symbol) (context : String) :
    Goes whole front n 1 (expect s context) fun _ => True := by
  intro t rest within ht short
  cases hs : t.token.isSymbol s with
  | true =>
    obtain ⟨token, p⟩ := t
    obtain rfl := Token.isSymbol_iff.mp hs
    rw [run_expect]
    exact ended.comes within (Token.ne_eof rfl) trivial
  | false =>
    -- another token is there, and it is not taken
    have missing : expect s context (t :: rest) = failExpected (.symbol s context) (t :: rest) := by
      simp [expect, run_accept_other hs]
    rw [missing]
    exact goes_failExpected _ t rest within ht short

theorem goes_identifier : Goes whole front n 1 identifier fun _ => True := by
  refine goes_rejectReserved.bind fun _ _ => .look fun token p _ => ?_
  cases token with
  | ident name => exact (goes_take ended rfl).bind fun _ _ => .pure trivial
  | _ => exact goes_failExpected _

end Pieces

end Parser

namespace Grammar

open Stepwise.Parser

def AllStand (whole : List Lexeme) (es : List Expr) : Prop := ∀ e ∈ es, Placed whole e.pos

/-- The expression stands at one of the tokens, its operator's or its own first, and so do those inside it. -/
def Stands (whole : List Lexeme) (e : Expr) : Prop := AllStand whole e.parts

section Standing

variable {whole : List Lexeme} {e : Expr} {es es' : List Expr}

theorem AllStand.nil : AllStand whole [] := List.forall_mem_nil _

theorem AllStand.append (h : AllStand whole es) (h' : AllStand whole es') : AllStand whole (es ++ es') :=
  List.forall_mem_append.mpr ⟨h, h'⟩

theorem AllStand.optional {α : Type} {parts : α → List Expr} {a : Option α}
    (h : ∀ x ∈ a, AllStand whole (parts x)) : AllStand whole ((a.map parts).getD []) := by
  cases a with
  | none => exact .nil
  | some x => exact h x rfl

theorem Stands.placed (h : Stands whole e) : Placed whole e.pos := h e e.self_mem_parts

theorem Stands.around (hp : Placed whole e.pos) (parts : e.parts = e :: es) (h : AllStand whole es) :
    Stands whole e := by
  unfold Stands
  rw [parts]
  exact List.forall_mem_cons.mpr ⟨hp, h⟩

theorem Stands.alone (hp : Placed whole e.pos) (parts : e.parts = [e]) : Stands whole e :=
  .around hp parts .nil

theorem AllStand.ofAll (h : ∀ e ∈ es, Stands whole e) : AllStand whole (partsAll es) := by
  induction es with
  | nil => exact .nil
  | cons e rest ih =>
    obtain ⟨he, hrest⟩ := List.forall_mem_cons.mp h
    exact .append he (ih hrest)

theorem AllStand.declared {ds : List Decl} {stmts : List Stmt} (hds : ∀ d ∈ ds, AllStand whole d.parts)
    (h : AllStand whole (partsOf stmts)) :
    AllStand whole (partsOf (ds.map (fun d => .simple (.declare d)) ++ stmts)) := by
  induction ds with
  | nil => exact h
  | cons d ds ih =>
    obtain ⟨hd, hds⟩ := List.forall_mem_cons.mp hds
    exact .append hd (ih hds)

def ItemStands (whole : List Lexeme) : Item → Prop
  | .function f => AllStand whole (partsOf f.body)
  | .struct d => Placed whole d.pos
  | .global d => AllStand whole d.parts

end Standing

variable {whole : List Lexeme} (ended : Ended whole) {front : Lexeme → Prop} {n : Nat}

include ended

theorem baseType_goes : Goes whole front n 1 baseType fun _ => True := by
  refine goes_rejectReserved.bind fun _ _ => .look fun token p _ => ?_
  dsimp only
  split
  all_goals first
    | exact (goes_take ended rfl).bind fun _ _ => .pure trivial
    | exact (goes_take ended rfl).bind fun _ _ => (goes_identifier ended).bind fun _ _ => .pure trivial
    | exact goes_failExpected _

theorem withStars_goes (base : Base) : Goes whole front n 0 (withStars base) fun _ => True := by
  refine (goes_accept ended .star).bind fun star _ => .peek (peeks_sees .star) fun more => ?_
  exact .guardHere (fun _ hp => .fail hp) (.pure trivial)

theorem type_goes : Goes whole front n 1 type fun _ => True :=
  (baseType_goes ended).bind fun base _ => withStars_goes ended base

omit ended in
theorem checkStorable_goes (t : CType) {p : Position} (hp : Placed whole p) :
    Goes whole front n 0 (checkStorable t p) fun _ => True := by
  unfold checkStorable
  split
  · exact .pure trivial
  · split
    · exact .throw hp rfl
    · exact .fail hp
    · exact .pure trivial

/-! Expressions. The rules take at least one token where the rule for prefix forms does, and where they use it
at all, they have taken one before. -/

/-- The rule for right operands may have one token less left than the loop, which takes an operator first. -/
theorem operators_goes {c : Nat → Parser Expr} (h : ∀ level, Goes whole anywhere n 1 (c level) (Stands whole))
    (least : Nat) {left : Expr} (hl : Stands whole left) :
    Goes whole front (n + 1) 0 (operators c least left) (Stands whole) := by
  refine .fix (S := Stands whole) (fun hm ih left hl => .look fun token p hp => ?_) hl
  cases found : binaryOperator? token with
  | none => exact .pure hl
  | some operator =>
    obtain ⟨op, level⟩ := operator
    have taken : token.isEof = false := by
      cases token with
      | eof => cases found
      | _ => rfl
    refine .ite (.pure hl) ((goes_take ended taken).past fun _ _ => ?_)
    exact ((h (level + 1)).le (Nat.le_of_lt_succ hm)).bind fun right hr =>
      ih (.binary op left right p) (.around hp rfl (.append hl hr))

section Expressions

variable {x : Parser Expr} (h : Goes whole anywhere n 1 x (Stands whole))

include h

theorem climb_goes (least : Nat) : Goes whole anywhere n 1 (climb x least) (Stands whole) := by
  refine .fix (S := fun _ => True) (fun hm ih least _ => (h.le hm).past fun first hf => ?_) trivial
  exact (operators_goes ended (fun level => ih level trivial) least hf).le (Nat.le_succ _)

theorem expressionOver_goes : Goes whole anywhere n 1 (expressionOver x) (Stands whole) := by
  refine (climb_goes ended h 1).bind fun e he => .look fun token p hp => ?_
  dsimp only
  split <;> first | exact .fail hp | exact .pure he

theorem arguments_goes : Goes whole front n 1 (arguments x) fun es => ∀ e ∈ es, Stands whole e := by
  refine .loop fun hm ih => .look fun token p hp => .guard (.fail hp) ?_
  refine ((h.le hm).toFront).past fun e he => ?_
  refine (goes_accept ended .comma).bind fun more _ => .ite ?_ (.pure ?_)
  · exact ih.bind fun es hes => .pure (List.forall_mem_cons.mpr ⟨he, hes⟩)
  · exact List.forall_mem_singleton.mpr he

theorem argumentList_goes : Goes whole front n 1 (argumentList x) fun es => ∀ e ∈ es, Stands whole e := by
  refine .peek (peeks_sees .closeParen) fun none =>
    .choose (P := fun es => ∀ e ∈ es, Stands whole e) (.pure (List.forall_mem_nil _))
      (arguments_goes ended h).free fun es hes => ?_
  exact (goes_expect ended _ _).bind fun _ _ => .pure hes

omit h in
theorem formatText_goes (function : String) : Goes whole front n 0 (formatText function) fun _ => True := by
  refine .look fun token p hp => ?_
  dsimp only
  split
  · refine (goes_take ended rfl).bind fun _ _ => .peek (peeks_sees .closeParen) fun last => .ite ?_ ?_
    · exact .pure trivial
    · exact (goes_expect ended _ _).bind fun _ _ => .pure trivial
  · exact .throw hp rfl

omit ended h in
theorem scanTargets_goes {args : List Expr} (hargs : ∀ e ∈ args, Stands whole e) :
    Goes whole front n 0 (scanTargets args) fun es => ∀ e ∈ es, Stands whole e := by
  induction args generalizing front with
  | nil => exact .pure (List.forall_mem_nil _)
  | cons arg rest ih =>
    obtain ⟨harg, hrest⟩ := List.forall_mem_cons.mp hargs
    cases arg with
    | addressOf target p =>
      have inner : Stands whole target := fun e he => harg e (List.mem_cons_of_mem _ he)
      exact (ih hrest).bind fun targets ht => .pure (List.forall_mem_cons.mpr ⟨inner, ht⟩)
    | _ => exact .fail harg.placed

theorem call_goes (name : String) {p : Position} (hp : Placed whole p) :
    Goes whole front n 1 (call x name p) (Stands whole) := by
  have args : Goes whole anywhere n 1 (argumentList x) _ := argumentList_goes ended h
  refine .ite ?_ (.ite ?_ (.ite ?_ ?_))
  · exact (formatText_goes ended name).bind fun format _ => args.bind fun es hes =>
      .pure (.around hp rfl (.ofAll hes))
  · exact (formatText_goes ended name).bind fun format _ => args.bind fun es hes =>
      (scanTargets_goes hes).bind fun targets ht => .pure (.around hp rfl (.ofAll ht))
  · refine args.toFront.bind fun es _ => ?_
    split
    · exact .pure (.alone hp rfl)
    · exact .fail hp
  · exact args.toFront.bind fun es hes => .pure (.around hp rfl (.ofAll hes))

theorem primary_goes : Goes whole front (n + 1) 1 (primary x) (Stands whole) := by
  refine goes_rejectReserved.bind fun _ _ => .look fun token p hp => ?_
  cases token with
  | int i => exact (goes_take ended rfl).bind fun _ _ => .guard (.throw hp rfl) (.pure (.alone hp rfl))
  | float z | char c | ident name => exact (goes_take ended rfl).bind fun _ _ => .pure (.alone hp rfl)
  | keyword w =>
    cases w with
    | nullWord => exact (goes_take ended rfl).bind fun _ _ => .pure (.alone hp rfl)
    | _ => exact goes_failExpected _
  | string text => exact .fail hp
  | symbol s =>
    cases s with
    | openParen =>
      exact (goes_take ended rfl).past fun _ _ => h.bind fun e he => (goes_expect ended _ _).bind
        fun _ _ => .pure he
    | _ => exact goes_failExpected _
  | reserved r | eof => exact goes_failExpected _

theorem postfixes_goes {e : Expr} (he : Stands whole e) :
    Goes whole front (n + 1) 0 (postfixes x e) (Stands whole) := by
  refine .fix (S := Stands whole) (fun hm ih e he => .look fun token p hp => ?_) he
  have shorter : Goes whole anywhere _ 1 x (Stands whole) := h.le (Nat.le_of_lt_succ hm)
  dsimp only
  split
  · exact (goes_take ended rfl).past fun _ _ => shorter.bind fun index hi => (goes_expect ended _ _).bind
      fun _ _ => ih (.index e index p) (.around hp rfl (.append he hi))
  · exact (goes_take ended rfl).past fun _ _ => (goes_identifier ended).bind fun name _ =>
      ih (.field e name false p) (.around hp rfl he)
  · exact (goes_take ended rfl).past fun _ _ => (goes_identifier ended).bind fun name _ =>
      ih (.field e name true p) (.around hp rfl he)
  · exact (goes_take ended rfl).past fun _ _ => ih (.step .postInc e p) (.around hp rfl he)
  · exact (goes_take ended rfl).past fun _ _ => ih (.step .postDec e p) (.around hp rfl he)
  · cases e with
    | var name q =>
      exact (goes_take ended rfl).past fun _ _ => (call_goes ended shorter name he.placed).bind fun e he => ih e he
    | _ => exact .fail hp
  · exact .pure he

omit ended h in
theorem peeks_seesTypeInParens : Peeks seesTypeInParens := fun _ _ => ⟨_, rfl⟩

theorem castFrom_goes {p : Position} (hp : Placed whole p) :
    Goes whole front n 1 (castFrom x p) (Stands whole) := by
  refine (type_goes ended).bind fun target _ => (goes_expect ended _ _).bind fun _ _ =>
    h.bind fun e he => .ite ?_ ?_
  · cases e with
    | newNode struct q => exact .ite (.pure he) (.fail hp)
    | _ => exact .fail hp
  · split
    · exact .fail hp
    · exact .fail hp
    · exact .pure (.around hp rfl he)

theorem sizeofFrom_goes {p : Position} (hp : Placed whole p) :
    Goes whole front n 1 (sizeofFrom x p) (Stands whole) := by
  refine .peek (peeks_sees .openParen) fun paren => .peek peeks_seesTypeInParens fun type => .ite ?_ ?_
  · exact (goes_advance_anywhere ended).bind fun _ _ => (type_goes ended).bind fun target _ =>
      (goes_expect ended _ _).bind fun _ _ => .pure (.alone hp rfl)
  · exact h.toFront.bind fun e he => .pure (.around hp rfl he)

theorem unaryOver_goes : Goes whole front (n + 1) 1 (unaryOver x) (Stands whole) := by
  have operand {front : Lexeme → Prop} : Goes whole front (n + 1) 1
      (primary (expressionOver x) >>= postfixes (expressionOver x)) (Stands whole) :=
    (primary_goes ended (expressionOver_goes ended h)).bind fun e he =>
      postfixes_goes ended (expressionOver_goes ended h) he
  have behind {token : Token} {p : Position} {g : Expr → Expr} (plain : token.isEof = false)
      (hg : ∀ e, Stands whole e → Stands whole (g e)) :
      Goes whole (· = ⟨token, p⟩) (n + 1) 1 (advance >>= fun _ => x >>= fun e => pure (g e)) (Stands whole) :=
    (goes_take ended plain).past fun _ _ => h.bind fun e he => .pure (hg e he)
  refine .look fun token p hp => ?_
  dsimp only
  split
  · refine .peek (peeks_ahead 1) fun next => (goes_take ended rfl).past fun _ _ => .ite ?_ ?_
    · exact (goes_advance_anywhere ended).bind fun _ _ => .pure (.alone hp rfl)
    · exact h.bind fun e he => .pure (.around hp rfl he)
  · exact behind rfl fun _ he => .around hp rfl he
  · exact behind rfl fun _ he => .around hp rfl he
  · exact behind rfl fun _ he => .around hp rfl he
  · exact (goes_take ended rfl).past fun _ _ => h.free
  · exact behind rfl fun _ he => .around hp rfl he
  · exact behind rfl fun _ he => .around hp rfl he
  · exact .fail hp
  · exact (goes_take ended rfl).past fun _ _ =>
      (sizeofFrom_goes ended h hp).free
  · refine .peek peeks_seesTypeInParens fun cast => .ite ?_ operand
    exact (goes_take ended rfl).past fun _ _ =>
      (castFrom_goes ended h hp).free
  · exact operand

end Expressions

theorem unary_goes : Goes whole anywhere n 1 unary (Stands whole) := .loop fun _ => unaryOver_goes ended

theorem expression_goes : Goes whole anywhere n 1 expression (Stands whole) :=
  expressionOver_goes ended (unary_goes ended)

/-! Declarations -/

theorem arraySize_goes : Goes whole front n 1 arraySize fun _ => True := by
  refine .look fun token p hp => ?_
  dsimp only
  split
  · exact (goes_take ended rfl).bind fun _ _ => .guard (.throw hp rfl) (.pure trivial)
  · exact .fail hp

theorem items_goes : Goes whole front n 0 items fun es => AllStand whole (partsAll es) := by
  refine .loop fun _ ih => .peek (peeks_sees .closeBrace) fun last => .ite (.pure .nil) ?_
  refine (expression_goes ended).past fun e he => (goes_accept ended .comma).bind fun more _ => ?_
  exact .ite (ih.bind fun es hes => .pure (.append he hes)) (.pure (.append he .nil))

theorem arrayInitializer_goes :
    Goes whole front n 1 arrayInitializer fun es => AllStand whole (partsAll es) := by
  refine .look fun token p hp => .guard (.fail hp) ((goes_expect ended _ _).bind fun _ _ => ?_)
  exact (items_goes ended).bind fun es hes => (goes_expect ended _ _).bind fun _ _ => .pure hes

omit ended in
theorem decideSize_goes (name : String) {p : Position} (hp : Placed whole p) (size : Option Nat)
    (init : Option (List Expr)) : Goes whole front n 0 (decideSize name p size init) fun _ => True := by
  unfold decideSize
  split
  · exact .ite (.throw hp rfl) (.pure trivial)
  · exact .pure trivial
  · exact .pure trivial
  · exact .throw hp rfl

theorem arrayFrom_goes (name : String) (elem : CType) {p : Position} (hp : Placed whole p) :
    Goes whole front n 1 (arrayFrom name elem p) fun d => AllStand whole d.parts := by
  refine .peek (peeks_sees .closeBracket) fun unsized => .choose (P := fun _ => True) (.pure trivial)
    ((arraySize_goes ended).map fun _ _ => trivial).free fun size _ => ?_
  refine (goes_expect ended _ _).bind fun _ _ => .peek (peeks_sees .openBracket) fun nested => ?_
  refine .guardHere (fun _ hp => .fail hp) ((goes_accept ended .eq).bind fun given _ => ?_)
  refine .choose (P := fun init => ∀ es ∈ init, AllStand whole (partsAll es))
    ((arrayInitializer_goes ended).map fun es hes => ?_).free (.pure nofun) fun init hinit => ?_
  · rintro _ ⟨⟩
    exact hes
  · exact (decideSize_goes name hp size init).bind fun _ _ => .pure (.optional hinit)

theorem declarator_goes (base : Base) :
    Goes whole front n 1 (declarator base) fun d => AllStand whole d.parts := by
  refine (withStars_goes ended base).bind fun t _ => .here fun p hp => ?_
  refine (goes_identifier ended).bind fun name _ => ?_
  refine (checkStorable_goes t hp).bind fun _ _ => (goes_accept ended .openBracket).bind fun array _ => ?_
  refine .ite (arrayFrom_goes ended name t hp).free ((goes_accept ended .eq).bind fun given _ => ?_)
  refine .ite (.peek (peeks_sees .openBrace) fun brace => .guardHere (fun _ hp => .throw hp rfl) ?_)
    (.pure .nil)
  exact (expression_goes ended).bind fun e he => .pure he

theorem declarators_goes (base : Base) :
    Goes whole front n 1 (declarators base) fun ds => ∀ d ∈ ds, AllStand whole d.parts := by
  refine .loop fun _ ih => (declarator_goes ended base).past fun d hd => ?_
  refine (goes_accept ended .comma).bind fun more _ => .ite ?_ (.pure (List.forall_mem_singleton.mpr hd))
  exact ih.bind fun ds hds => .pure (List.forall_mem_cons.mpr ⟨hd, hds⟩)

theorem declaration_goes : Goes whole front n 1 declaration fun ds => ∀ d ∈ ds, AllStand whole d.parts :=
  (baseType_goes ended).bind fun base _ => (declarators_goes ended base).bind fun _ hds =>
    (goes_expect ended _ _).bind fun _ _ => .pure hds

/-! Statements -/

theorem simple_goes : Goes whole front n 1 simple fun c => AllStand whole c.parts := by
  refine .here fun p _ => (expression_goes ended).toFront.bind fun e he => .look fun token q hq => ?_
  dsimp only
  split
  · exact .pure he
  · refine (goes_advance_anywhere ended).bind fun _ _ => .require (.throw hq rfl) ?_
    exact (expression_goes ended).bind fun value hv => .look fun next r hr =>
      .guard (.fail hr) (.pure (.append he hv))

/-- An expression that may be left out. -/
theorem optionalExpression_goes : Goes whole front n 1 (some <$> expression) fun e =>
    ∀ x ∈ e, AllStand whole x.parts := by
  refine ((expression_goes ended).map fun e he => ?_).toFront
  rintro _ ⟨⟩
  exact he

section Statements

variable {x : Parser Stmt} (h : Goes whole anywhere n 1 x fun stmt => AllStand whole stmt.parts)

include h

theorem statements_goes : Goes whole front n 0 (statements x) fun stmts => AllStand whole (partsOf stmts) := by
  refine .loop fun hm ih => .look fun token p _ => .ite (.pure .nil) ?_
  refine .peek peeks_seesType fun type => .ite ?_ ?_
  · exact (declaration_goes ended).past fun ds hds => ih.bind fun stmts hs => .pure (.declared hds hs)
  · exact (h.le hm).past fun s hs => ih.bind fun stmts hss => .pure (.append hs hss)

theorem blockFrom_goes : Goes whole front n 1 (blockFrom x) fun stmts => AllStand whole (partsOf stmts) :=
  (statements_goes ended h).bind fun _ hs => (goes_expect ended _ _).bind fun _ _ => .pure hs

theorem body_goes : Goes whole front n 1 (body x) fun stmts => AllStand whole (partsOf stmts) :=
  (goes_accept ended .openBrace).bind fun _ _ => .ite (blockFrom_goes ended h)
    (h.bind fun _ hs => .pure (.append hs .nil))

omit h in
theorem forInit_goes : Goes whole front n 0 forInit fun c => ∀ x ∈ c, AllStand whole x.parts := by
  have given {c : Simple} (hc : AllStand whole c.parts) : ∀ x ∈ some c, AllStand whole x.parts := by
    rintro _ ⟨⟩
    exact hc
  refine .peek (peeks_sees .semicolon) fun empty => .ite (.pure nofun) ?_
  refine .peek peeks_seesType fun type => .ite ?_ ((simple_goes ended).bind fun s hs => .pure (given hs))
  refine (baseType_goes ended).bind fun base _ => (declarator_goes ended base).bind fun d hd => ?_
  exact .peek (peeks_sees .comma) fun more => .guardHere (fun _ hp => .fail hp) (.pure (given hd))

theorem forFrom_goes (p : Position) :
    Goes whole front n 1 (forFrom x p) fun stmt => AllStand whole stmt.parts := by
  refine (goes_expect ended _ _).bind fun _ _ => (forInit_goes ended).bind fun init hinit => ?_
  refine (goes_expect ended _ _).bind fun _ _ => .peek (peeks_sees .semicolon) fun _ => ?_
  refine .choose (.pure nofun) (optionalExpression_goes ended).free fun cond hcond => ?_
  refine (goes_expect ended _ _).bind fun _ _ => .peek (peeks_sees .closeParen) fun _ => ?_
  refine .choose (P := fun c => ∀ x ∈ c, AllStand whole x.parts) (.pure nofun)
    ((simple_goes ended).map fun c hc => ?_).free fun update hupdate => ?_
  · rintro _ ⟨⟩
    exact hc
  · exact (goes_expect ended _ _).bind fun _ _ => (body_goes ended h).bind fun _ hb =>
      .pure (.append (.append (.append (.optional hinit) (.optional hcond)) (.optional hupdate)) hb)

theorem branchFrom_goes (p : Position) :
    Goes whole front n 1 (branchFrom x p) fun stmt => AllStand whole stmt.parts := by
  refine (goes_expect ended _ _).bind fun _ _ => (expression_goes ended).bind fun cond hcond => ?_
  refine (goes_expect ended _ _).bind fun _ _ => (body_goes ended h).bind fun yes hyes => ?_
  refine (goes_acceptWord ended .elseWord).bind fun _ _ => ?_
  refine .choose (P := fun no => ∀ stmts ∈ no, AllStand whole (partsOf stmts))
    ((body_goes ended h).map fun stmts hs => ?_).free (.pure nofun) fun no hno => .pure ?_
  · rintro _ ⟨⟩
    exact hs
  · cases no with
    | none => exact .append hcond hyes
    | some no => exact .append (.append hcond hyes) (hno no rfl)

theorem whileFrom_goes (p : Position) :
    Goes whole front n 1 (whileFrom x p) fun stmt => AllStand whole stmt.parts :=
  (goes_expect ended _ _).bind fun _ _ => (expression_goes ended).bind fun _ hcond =>
    (goes_expect ended _ _).bind fun _ _ => (body_goes ended h).bind fun _ hb => .pure (.append hcond hb)

omit h in
theorem returnFrom_goes (p : Position) :
    Goes whole front n 1 (returnFrom p) fun stmt => AllStand whole stmt.parts := by
  refine .peek (peeks_sees .semicolon) fun _ => ?_
  refine .choose (.pure nofun) (optionalExpression_goes ended).free fun value hvalue => ?_
  exact (goes_expect ended _ _).bind fun _ _ => .pure (.optional hvalue)

theorem statementOver_goes :
    Goes whole front (n + 1) 1 (statementOver x) fun stmt => AllStand whole stmt.parts := by
  refine goes_rejectReserved.bind fun _ _ => .look fun token p hp => ?_
  dsimp only
  split
  · exact (goes_take ended rfl).past fun _ _ => (returnFrom_goes ended p).free
  · exact (goes_take ended rfl).past fun _ _ => (branchFrom_goes ended h p).free
  · exact (goes_take ended rfl).past fun _ _ => (whileFrom_goes ended h p).free
  · exact (goes_take ended rfl).past fun _ _ => (forFrom_goes ended h p).free
  · exact (goes_take ended rfl).past fun _ _ => (goes_expect ended _ _).bind fun _ _ => .pure .nil
  · exact (goes_take ended rfl).past fun _ _ => (goes_expect ended _ _).bind fun _ _ => .pure .nil
  · exact (goes_take ended rfl).past fun _ _ => (blockFrom_goes ended h).bind fun _ hs => .pure hs
  · have finish {front : Lexeme → Prop} : Goes whole front (n + 1) 1
        (do let s ← simple; expect .semicolon "after expression"; return Stmt.simple s)
        fun stmt => AllStand whole stmt.parts :=
      (simple_goes ended).bind fun _ hs => (goes_expect ended _ _).bind fun _ _ => .pure hs
    refine .peek peeks_seesType fun type => .guard (.throw hp rfl) (.ite ?_ finish)
    exact .peek (peeks_ahead 1) fun next => .guard (.fail hp) finish

end Statements

theorem statement_goes : Goes whole anywhere n 1 statement fun stmt => AllStand whole stmt.parts :=
  .loop fun _ => statementOver_goes ended

/-! Programs -/

theorem fields_goes (struct : String) (seen : List Member) :
    Goes whole front n 0 (fields struct seen) fun _ => True := by
  refine .fix (S := fun _ => True) (fun _ ih seen _ => ?_) trivial
  refine .look fun token p hp => .ite (.pure trivial) ?_
  refine (type_goes ended).past fun t _ => (checkStorable_goes t hp).bind fun _ _ => ?_
  refine (goes_identifier ended).bind fun name _ => .peek (peeks_sees .openBracket) fun array => ?_
  refine .guardHere (fun _ hp => .fail hp) (.guard (.throw hp rfl) ((goes_expect ended _ _).bind fun _ _ => ?_))
  exact ih (seen ++ [⟨name, t⟩]) trivial

theorem structFrom_goes {p : Position} (hp : Placed whole p) :
    Goes whole front n 1 (structFrom p) fun d => Placed whole d.pos := by
  refine (goes_identifier ended).bind fun name _ => (goes_expect ended _ _).bind fun _ _ => ?_
  refine (fields_goes ended name []).bind fun members _ => (goes_expect ended _ _).bind fun _ _ => ?_
  exact (goes_expect ended _ _).bind fun _ _ => .guard (.throw hp rfl) (.pure hp)

theorem decayedParameter_goes (t : CType) {p : Position} (hp : Placed whole p) :
    Goes whole front n 0 (decayedParameter t p) fun _ => True := by
  refine (goes_accept ended .openBracket).bind fun array _ => .ite ?_ (.pure trivial)
  refine .peek (peeks_sees .closeBracket) fun unsized =>
    .require ((arraySize_goes ended).map fun _ _ => trivial).free ?_
  exact (goes_expect ended _ _).bind fun _ _ => .guard (.fail hp) (.pure trivial)

theorem parameters_goes (seen : List Member) : Goes whole front n 1 (parameters seen) fun _ => True := by
  refine .fix (S := fun _ => True) (fun _ ih seen _ => ?_) trivial
  refine .here fun p hp => (type_goes ended).past fun t _ => ?_
  refine (goes_identifier ended).bind fun name _ => (decayedParameter_goes ended t hp).bind fun t _ => ?_
  refine (checkStorable_goes t hp).bind fun _ _ => .guard (.throw hp rfl) ?_
  exact (goes_accept ended .comma).bind fun more _ =>
    .ite (ih (seen ++ [⟨name, t⟩]) trivial).free (.pure trivial)

theorem parameterList_goes : Goes whole front n 0 parameterList fun _ => True := by
  refine .peek (peeks_sees .closeParen) fun none => .ite (.pure trivial) ?_
  refine .look fun token p _ => .peek (peeks_ahead 1) fun next => ?_
  refine .ite (.ite ((goes_advance_anywhere ended).bind fun _ _ => .pure trivial) ?_) ?_ <;>
    exact (parameters_goes ended []).free

theorem functionFrom_goes (returns : CType) : Goes whole front n 1 (functionFrom returns) fun f =>
    ∀ g ∈ f, AllStand whole (partsOf g.body) := by
  refine .here fun p hp => (goes_identifier ended).bind fun name _ => .guard (.fail hp) ?_
  refine (goes_expect ended _ _).bind fun _ _ => (parameterList_goes ended).bind fun params _ => ?_
  refine (goes_expect ended _ _).bind fun _ _ => (goes_accept ended .semicolon).bind fun prototype _ => ?_
  refine .ite (.pure nofun) ((goes_expect ended _ _).bind fun _ _ => ?_)
  refine (statements_goes ended (statement_goes ended)).bind fun stmts hs => .here fun q _ => ?_
  refine (goes_expect ended _ _).bind fun _ _ => .pure ?_
  rintro _ ⟨⟩
  exact hs

omit ended in
theorem peeks_seesFunctionName : Peeks seesFunctionName := fun _ _ => ⟨_, rfl⟩

omit ended in
theorem peeks_seesStructDefinition : Peeks seesStructDefinition := fun _ _ => ⟨_, rfl⟩

theorem item_goes : Goes whole front n 1 item fun is => ∀ i ∈ is, ItemStands whole i := by
  refine goes_rejectReserved.bind fun _ _ => .peek peeks_seesStructDefinition fun struct => .ite ?_ ?_
  · exact .here fun p hp => (goes_advance_anywhere ended).bind fun _ _ =>
      (structFrom_goes ended hp).bind fun d hd => .pure (List.forall_mem_singleton.mpr hd)
  -- what is read to tell functions from variables does not count: a declaration starts over
  refine .mark fun start within short => .bind within short (baseType_goes ended) fun base _ => ?_
  refine .bind within short (goes_accept ended .star) fun star _ => ?_
  refine .bind within short peeks_seesFunctionName.goes fun function _ => ?_
  split
  · refine .goOn within short ((functionFrom_goes ended _).bind fun f hf => .pure fun i hi => ?_)
    obtain ⟨g, hg, rfl⟩ := List.mem_map.mp hi
    exact hf g (Option.mem_toList.mp hg)
  · refine .goBack within short ((declaration_goes ended).bind fun ds hds => .pure fun i hi => ?_)
    obtain ⟨d, hd, rfl⟩ := List.mem_map.mp hi
    exact hds d hd

theorem program_goes : Goes whole front n 0 program fun p => ∀ i ∈ p, ItemStands whole i :=
  .loop fun _ ih => .look fun _ _ _ => .ite (.pure (List.forall_mem_nil _)) ((item_goes ended).past fun _ hf =>
    ih.bind fun _ hm => .pure (List.forall_mem_append.mpr ⟨hf, hm⟩))

omit ended in
theorem stuck_ne_ok {α : Type} {ts : List Lexeme} {r : α × List Lexeme} : (stuck : Parser α) ts ≠ .ok r := by
  cases ts <;> intro h <;> cases h

omit ended in
/-- A program is read up to the end of the text. -/
theorem program_stops {ts rest : List Lexeme} {p : Program} (h : program ts = .ok (p, rest)) :
    ∃ q more, rest = ⟨.eof, q⟩ :: more := by
  generalize bound : ts.length = m
  induction m using Nat.strongRecOn generalizing ts rest p with
  | _ m ih =>
    subst bound
    rw [run_loop (x := program) rfl] at h
    cases ts with
    | nil => cases h
    | cons t ts =>
      obtain ⟨token, q⟩ := t
      -- the only way out is the test for the end; behind an item the rule goes on with itself
      rw [run_bind, run_current, ok_bind, run_ite] at h
      split at h
      · rename_i last
        obtain ⟨-, rfl⟩ := Prod.mk.inj (Except.ok.inj h)
        cases token with
        | eof => exact ⟨q, ts, rfl⟩
        | _ => cases last
      · obtain ⟨r, -, more⟩ := exists_ok_of_bind h
        obtain ⟨s, again, done⟩ := exists_ok_of_bind more
        obtain ⟨-, rfl⟩ := Prod.mk.inj (Except.ok.inj done)
        unfold below at again
        split at again
        · rename_i shorter
          exact ih _ shorter again rfl
        · exact absurd again stuck_ne_ok

end Grammar

/-! Texts -/

theorem Laid.ended {before rest : List Char} {lexemes : List Lexeme} (h : Laid before rest lexemes) :
    Parser.Ended lexemes := by
  induction h with
  | @token before gap text rest token lexemes front taken plain read more ih =>
    obtain ⟨tokens, p, rfl, plains⟩ := ih
    exact ⟨⟨token, _⟩ :: tokens, p, rfl, List.forall_mem_cons.mpr ⟨plain, plains⟩⟩
  | last back => exact ⟨[], _, rfl, List.forall_mem_nil _⟩

/-- Wherever among the tokens the rule starts, it takes at least one of them and never the last, or it fails at
one of them. -/
def Parser.Progresses {α : Type} (tokens : List Lexeme) (x : Parser α) : Prop :=
  ∀ ts, ts <:+ tokens → ts ≠ [] → Comes tokens ts 1 (fun _ => True) (x ts)

theorem Parser.Progresses.of_goes {α : Type} {whole : List Lexeme} {x : Parser α} {P : α → Prop}
    (h : ∀ n, Goes whole anywhere n 1 x P) : Progresses whole x := fun ts =>
  Goes.run ((h ts.length).mono (Nat.le_refl _) (Nat.le_refl _) fun _ _ => trivial)

/-- The tokens are those of a program, with nothing left behind it but the end of the text; or there is a fault
at one of them. -/
def Grammar.Finishes (tokens : List Lexeme) : Prop :=
  (∃ p last, Grammar.program.run tokens = .ok (p, [last]) ∧ last.token = .eof ∧
    Program.ofTokens tokens = .ok p) ∨
  ∃ e, Program.ofTokens tokens = .error e ∧ e.Located tokens

theorem Grammar.Finishes.of_ended {tokens : List Lexeme} (ended : Parser.Ended tokens) : Finishes tokens := by
  have comes := (program_goes ended).run List.suffix_rfl ended.ne_nil
  unfold Finishes Program.ofTokens
  rw [StateT.run]
  cases hr : Grammar.program tokens with
  | error e =>
    rw [hr] at comes
    exact .inr ⟨e, rfl, comes⟩
  | ok r =>
    rw [hr] at comes
    obtain ⟨p, rest⟩ := r
    obtain ⟨suffix, -⟩ := comes
    obtain ⟨q, more, rfl⟩ := program_stops hr
    obtain rfl := ended.eq_nil suffix
    exact .inl ⟨p, ⟨.eof, q⟩, rfl, rfl, rfl⟩

/-- The rules of the grammar on the tokens of a text: each makes progress, and they come to an end. -/
structure Grammar.Progress (tokens : List Lexeme) : Prop where
  ended : Parser.Ended tokens
  type : Parser.Progresses tokens Grammar.type
  expression : Parser.Progresses tokens Grammar.expression
  declarator : ∀ base, Parser.Progresses tokens (Grammar.declarator base)
  declaration : Parser.Progresses tokens Grammar.declaration
  statement : Parser.Progresses tokens Grammar.statement
  item : Parser.Progresses tokens Grammar.item
  finishes : Grammar.Finishes tokens

/-- The grammar is total and makes progress on the tokens of every text. -/
theorem grammar_progresses {source : String} {tokens : List Lexeme} (cut : tokenize source = .ok tokens) :
    Grammar.Progress tokens := by
  have ended := (Laid.tokens cut).ended
  exact {
    ended
    type := .of_goes fun _ => Grammar.type_goes ended
    expression := .of_goes fun _ => Grammar.expression_goes ended
    declarator := fun base => .of_goes fun _ => Grammar.declarator_goes ended base
    declaration := .of_goes fun _ => Grammar.declaration_goes ended
    statement := .of_goes fun _ => Grammar.statement_goes ended
    item := .of_goes fun _ => Grammar.item_goes ended
    finishes := .of_ended ended }

def brokenOff : List Lexeme :=
  [⟨.keyword .intWord, ⟨1, 1⟩⟩, ⟨.ident "x", ⟨1, 5⟩⟩, ⟨.symbol .eq, ⟨1, 7⟩⟩, ⟨.int 1, ⟨1, 9⟩⟩,
    ⟨.symbol .plus, ⟨1, 11⟩⟩, ⟨.eof, ⟨1, 12⟩⟩]

theorem grammar_progresses_brokenOff :
    tokenize "int x = 1 +" = .ok brokenOff ∧ Grammar.Progress brokenOff := by
  have cut : tokenize "int x = 1 +" = .ok brokenOff := by rfl
  exact ⟨cut, grammar_progresses cut⟩

end Stepwise
