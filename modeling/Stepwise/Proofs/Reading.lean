import Stepwise.Proofs.Printer

/-! What the pieces of the grammar do on tokens that are known. A parser reads a row of tokens when,
in front of any token that may follow them, it takes just these and gives a value of the kind
wanted. -/

namespace Stepwise

def Writes (ts : List Lexeme) (ks : List Token) : Prop := ts.map (·.token) = ks

@[simp] theorem writes_nil {ts : List Lexeme} : Writes ts [] ↔ ts = [] := List.map_eq_nil_iff

@[simp] theorem writes_cons {ts : List Lexeme} {k : Token} {ks : List Token} :
    Writes ts (k :: ks) ↔ ∃ p rest, ts = ⟨k, p⟩ :: rest ∧ Writes rest ks := by
  simp only [Writes, List.map_eq_cons_iff]
  constructor
  · rintro ⟨⟨_, p⟩, rest, rfl, rfl, h⟩
    exact ⟨p, rest, rfl, h⟩
  · rintro ⟨p, rest, rfl, h⟩
    exact ⟨⟨k, p⟩, rest, rfl, rfl, h⟩

@[simp] theorem writes_append {ts : List Lexeme} {ks ks' : List Token} :
    Writes ts (ks ++ ks') ↔ ∃ front back, ts = front ++ back ∧ Writes front ks ∧ Writes back ks' :=
  List.map_eq_append_iff

def Token.isSymbol : Token → Symbol → Bool
  | .symbol s', s => s' = s
  | _, _ => false

@[simp] theorem Token.isSymbol_symbol (s s' : Symbol) :
    (Token.symbol s').isSymbol s = decide (s' = s) := rfl

@[simp] theorem Token.isSymbol_int (n : Int) (s : Symbol) : (Token.int n).isSymbol s = false := rfl

@[simp] theorem Token.isSymbol_ident (name : String) (s : Symbol) :
    (Token.ident name).isSymbol s = false := rfl

@[simp] theorem Token.isSymbol_keyword (w : Keyword) (s : Symbol) :
    (Token.keyword w).isSymbol s = false := rfl

theorem Token.isSymbol_iff {k : Token} {s : Symbol} : k.isSymbol s = true ↔ k = .symbol s := by
  cases k <;> simp [isSymbol]

theorem Token.isSymbol_of_ne {k : Token} {s s' : Symbol} (h : k.isSymbol s = true) (ne : s ≠ s') :
    k.isSymbol s' = false := by
  rw [isSymbol_iff.mp h]
  exact decide_eq_false ne

theorem Token.isSymbol_eq_false {k : Token} {s : Symbol} :
    k.isSymbol s = false ↔ k ≠ .symbol s := by
  cases k <;> simp [isSymbol]

def Token.isWord : Token → Keyword → Bool
  | .keyword w', w => w' = w
  | _, _ => false

theorem Token.isWord_eq_false {k : Token} {w : Keyword} : k.isWord w = false ↔ k ≠ .keyword w := by
  cases k <;> simp [isWord]

def Token.beginsType : Token → Bool
  | .keyword w => w.beginsType
  | _ => false

namespace Parser

variable {α β σ : Type} {x : Parser α} {f : α → Parser β} {g : α → β} {t : Lexeme}
  {ts : List Lexeme}

/-! Each piece on an input whose front is known. With these `simp` runs a rule step by step. -/

@[simp] theorem run_bind : (x >>= f) ts = x ts >>= fun r => f r.1 r.2 := rfl

@[simp] theorem run_pure (a : α) : (pure a : Parser α) ts = .ok (a, ts) := rfl

@[simp] theorem run_map : (g <$> x) ts = x ts >>= fun r => .ok (g r.1, r.2) := rfl

@[simp] theorem ok_bind {ε : Type} (a : α) (k : α → Except ε β) : (Except.ok a >>= k) = k a := rfl

@[simp] theorem run_ite {c : Prop} [Decidable c] (y : Parser α) :
    (if c then x else y) ts = if c then x ts else y ts := by
  split <;> rfl

@[simp] theorem run_current : current (t :: ts) = .ok (t, t :: ts) := rfl

@[simp] theorem run_ahead (n : Nat) : ahead n ts = .ok (ts[n]?.map (·.token), ts) := rfl

@[simp] theorem run_position : position (t :: ts) = .ok (t.pos, t :: ts) := rfl

@[simp] theorem run_sees (s : Symbol) :
    sees s (t :: ts) = .ok (t.token.isSymbol s, t :: ts) := by
  obtain ⟨k, p⟩ := t
  cases k <;> rfl

@[simp] theorem run_advance {k : Token} (h : k ≠ .eof) (p : Position) :
    advance (⟨k, p⟩ :: ts) = .ok ((), ts) := by
  cases k <;> first | rfl | exact absurd rfl h

@[simp] theorem run_seesType : seesType (t :: ts) = .ok (t.token.beginsType, t :: ts) := rfl

@[simp] theorem run_accept (s : Symbol) (p : Position) :
    accept s (⟨.symbol s, p⟩ :: ts) = .ok (true, ts) := by
  simp [accept]

@[simp] theorem run_accept_other {s : Symbol} (h : t.token.isSymbol s = false) :
    accept s (t :: ts) = .ok (false, t :: ts) := by
  simp [accept, h]

@[simp] theorem run_acceptWord (w : Keyword) (p : Position) :
    acceptWord w (⟨.keyword w, p⟩ :: ts) = .ok (true, ts) := by
  simp [acceptWord]

@[simp] theorem run_acceptWord_other {w : Keyword} (h : t.token.isWord w = false) :
    acceptWord w (t :: ts) = .ok (false, t :: ts) := by
  obtain ⟨k, p⟩ := t
  cases k with
  | keyword w' => simp_all [Token.isWord, acceptWord]
  | _ => rfl

@[simp] theorem run_expect (s : Symbol) (context : String) (p : Position) :
    expect s context (⟨.symbol s, p⟩ :: ts) = .ok ((), ts) := by
  simp [expect]

@[simp] theorem run_rejectReserved (h : ∀ r, t.token ≠ .reserved r) :
    rejectReserved (t :: ts) = .ok ((), t :: ts) := by
  obtain ⟨k, p⟩ := t
  cases k with
  | reserved r => exact absurd rfl (h r)
  | _ => rfl

@[simp] theorem run_identifier (name : String) (p : Position) :
    identifier (⟨.ident name, p⟩ :: ts) = .ok (name, ts) := rfl

theorem run_seesTypeInParens {k : Token} (h : k.beginsType = false) (hr : ∀ r, k ≠ .reserved r)
    (t : Lexeme) (p : Position) (ts : List Lexeme) :
    Grammar.seesTypeInParens (t :: ⟨k, p⟩ :: ts) = .ok (false, t :: ⟨k, p⟩ :: ts) := by
  cases k with
  | keyword w => exact congrArg (fun b => Except.ok (b, _)) h
  | reserved r => exact absurd rfl (hr r)
  | _ => rfl

/-! Rules that use themselves -/

def below (n : Nat) (p : σ → Parser α) : σ → Parser α := fun s rest =>
  if rest.length < n then p s rest else stuck rest

theorem run_below {n : Nat} {p : σ → Parser α} {s : σ} (lt : ts.length < n) :
    below n p s ts = p s ts := if_pos lt

/-- What a rule built by `fix` does, in terms of its name. -/
theorem run_fix {rule : (σ → Parser α) → σ → Parser α} {p : σ → Parser α} (eq : p = fix rule)
    (s : σ) : p s ts = rule (below ts.length p) s ts := by
  subst eq
  exact fix_eq rule s ts

/-- The same for a rule without a parameter. -/
theorem run_loop {rule : (Unit → Parser α) → Unit → Parser α} (eq : x = fix rule ()) :
    x ts = rule (below ts.length fun _ => x) () ts := by
  subst eq
  exact fix_eq rule () ts

/-- On inputs below a length, in front of a token that may follow, the parser takes a row of tokens
and gives a value of the kind wanted. -/
def Reads (bound : Nat) (x : Parser α) (ks : List Token) (next : Token → Bool) (P : α → Prop) :
    Prop :=
  ∀ ts t rest, Writes ts ks → next t.token = true → (ts ++ t :: rest).length < bound →
    ∃ a, x (ts ++ t :: rest) = .ok (a, t :: rest) ∧ P a

variable {ks : List Token} {next next' : Token → Bool} {P : α → Prop} {m n : Nat}

theorem Reads.of_eq {y : Parser α} (h : Reads n y ks next P)
    (eq : ∀ ts, ts.length < n → x ts = y ts) : Reads n x ks next P := by
  intro ts t rest written follows short
  rw [eq _ short]
  exact h ts t rest written follows short

theorem Reads.mono (h : Reads n x ks next P) (le : m ≤ n)
    (weaker : ∀ k, next' k = true → next k = true) : Reads m x ks next' P := by
  intro ts t rest written follows short
  exact h ts t rest written (weaker _ follows) (by omega)

/-- A rule that reads what it should whenever it does so on shorter inputs reads it on all. The
index `i` goes over the rows to be read. -/
theorem reads_fix {ι : Type} {rule : (Unit → Parser α) → Unit → Parser α} (C : ι → Prop)
    (row : ι → List Token) (kind : ι → α → Prop)
    (step : ∀ n again, (∀ i, C i → Reads n (again ()) (row i) next (kind i)) →
      ∀ i, C i → Reads (n + 1) (rule again ()) (row i) next (kind i)) (n : Nat) (i : ι) (hi : C i) :
    Reads n (fix rule ()) (row i) next (kind i) := by
  induction n generalizing i with
  | zero =>
    intro ts t rest _ _ short
    omega
  | succ n ih =>
    intro ts t rest written follows short
    -- the rule is handed itself for inputs shorter than this one
    have shorter : ∀ i, C i →
        Reads (ts ++ t :: rest).length (below (ts ++ t :: rest).length (fix rule) ()) (row i) next
          (kind i) := fun i hi =>
      ((ih i hi).mono (by omega) fun _ hk => hk).of_eq fun _ lt => run_below lt
    rw [run_fix rfl]
    exact step _ _ shorter i hi ts t rest written follows (Nat.lt_succ_self _)

end Parser

end Stepwise
