import Stepwise.Json.Basic

/-! Cutting a JSON text into tokens. Blanks part tokens and are dropped. -/

namespace Stepwise.Json

inductive Token where
  | openBrace
  | closeBrace
  | openBracket
  | closeBracket
  | colon
  | comma
  | null
  | bool (b : Bool)
  | num (lexeme : List Char)
  | str (raw : List Char)
deriving DecidableEq, Repr

def isSpace (c : Char) : Bool := c == ' ' || c == '\n' || c == '\t' || c == '\r'

/-- The rest of a string behind its first quote: its characters and what follows the last quote.
Control characters and unknown escapes have no place in it. -/
def readString (done : List Char) : List Char → Option (List Char × List Char)
  | [] => none
  | '"' :: rest => some (done.reverse, rest)
  | '\\' :: 'u' :: a :: b :: c :: d :: rest =>
    if (hexValue? [a, b, c, d]).isSome then
      readString (d :: c :: b :: a :: 'u' :: '\\' :: done) rest
    else none
  | '\\' :: c :: rest =>
    if (shortEscape? c).isSome then readString (c :: '\\' :: done) rest else none
  | c :: rest => if c.toNat < 32 ∨ c = '\\' then none else readString (c :: done) rest

def readDigits (cs : List Char) : Option (List Char × List Char) :=
  match cs.takeWhile Decimal.isDigit with
  | [] => none
  | ds => some (ds, cs.dropWhile Decimal.isDigit)

/-- The whole part of a number: a zero stands alone. -/
def readWhole (cs : List Char) : Option (List Char × List Char) :=
  match readDigits cs with
  | some ('0' :: _ :: _, _) => none
  | found => found

def readFraction : List Char → Option (List Char × List Char)
  | '.' :: cs => (readDigits cs).map fun (ds, rest) => ('.' :: ds, rest)
  | cs => some ([], cs)

def readPower : List Char → Option (List Char × List Char)
  | mark :: cs =>
    if mark = 'e' ∨ mark = 'E' then
      match cs with
      | sign :: more =>
        if sign = '+' ∨ sign = '-' then
          (readDigits more).map fun (ds, rest) => (mark :: sign :: ds, rest)
        else (readDigits cs).map fun (ds, rest) => (mark :: ds, rest)
      | [] => none
    else some ([], mark :: cs)
  | [] => some ([], [])

def readUnsigned (cs : List Char) : Option (List Char × List Char) := do
  let (whole, cs) ← readWhole cs
  let (fraction, cs) ← readFraction cs
  let (power, cs) ← readPower cs
  return (whole ++ fraction ++ power, cs)

def readToken : List Char → Option (Token × List Char)
  | '\x7b' :: rest => some (.openBrace, rest)
  | '\x7d' :: rest => some (.closeBrace, rest)
  | '[' :: rest => some (.openBracket, rest)
  | ']' :: rest => some (.closeBracket, rest)
  | ':' :: rest => some (.colon, rest)
  | ',' :: rest => some (.comma, rest)
  | 'n' :: 'u' :: 'l' :: 'l' :: rest => some (.null, rest)
  | 't' :: 'r' :: 'u' :: 'e' :: rest => some (.bool true, rest)
  | 'f' :: 'a' :: 'l' :: 's' :: 'e' :: rest => some (.bool false, rest)
  | '"' :: rest => (readString [] rest).map fun (raw, rest) => (.str raw, rest)
  | '-' :: rest => (readUnsigned rest).map fun (lexeme, rest) => (.num ('-' :: lexeme), rest)
  | cs => (readUnsigned cs).map fun (lexeme, rest) => (.num lexeme, rest)

theorem length_of_readString {cs done raw rest : List Char}
    (h : readString done cs = some (raw, rest)) : rest.length < cs.length := by
  fun_induction readString done cs with
  | case1 => cases h
  | case2 => cases h; simp
  | case3 _ _ _ _ _ _ _ ih => exact Nat.lt_of_lt_of_le (ih h) (by simp; omega)
  | case4 => cases h
  | case5 _ _ _ _ _ ih => exact Nat.lt_of_lt_of_le (ih h) (by simp; omega)
  | case6 => cases h
  | case7 => cases h
  | case8 _ _ _ _ _ _ _ ih => exact Nat.lt_of_lt_of_le (ih h) (by simp)

theorem length_of_readDigits {cs ds rest : List Char} (h : readDigits cs = some (ds, rest)) :
    rest.length < cs.length := by
  unfold readDigits at h
  split at h
  · cases h
  · rename_i some_digit
    cases h
    have split := congrArg List.length (List.takeWhile_append_dropWhile (p := Decimal.isDigit) (l := cs))
    rw [List.length_append] at split
    have := List.length_pos_iff.mpr some_digit
    omega

theorem length_of_readWhole {cs ds rest : List Char} (h : readWhole cs = some (ds, rest)) :
    rest.length < cs.length := by
  unfold readWhole at h
  split at h
  · cases h
  · exact length_of_readDigits h

theorem length_of_readFraction {cs ds rest : List Char} (h : readFraction cs = some (ds, rest)) :
    rest.length ≤ cs.length := by
  unfold readFraction at h
  split at h
  · obtain ⟨found, hfound, heq⟩ := Option.map_eq_some_iff.mp h
    cases heq
    exact Nat.le_of_lt (Nat.lt_succ_of_lt (length_of_readDigits hfound))
  · cases h
    exact Nat.le_refl _

theorem length_of_readPower {cs ds rest : List Char} (h : readPower cs = some (ds, rest)) :
    rest.length ≤ cs.length := by
  unfold readPower at h
  split at h
  · split at h
    · split at h
      · split at h
        all_goals
          obtain ⟨found, hfound, heq⟩ := Option.map_eq_some_iff.mp h
          cases heq
          have := length_of_readDigits hfound
          simp only [List.length_cons] at *
          omega
      · cases h
    · cases h
      exact Nat.le_refl _
  · cases h
    exact Nat.le_refl _

theorem length_of_readUnsigned {cs ds rest : List Char} (h : readUnsigned cs = some (ds, rest)) :
    rest.length < cs.length := by
  simp only [readUnsigned, bind, Option.bind_eq_some_iff] at h
  obtain ⟨whole, hwhole, fraction, hfraction, power, hpower, heq⟩ := h
  cases heq
  exact Nat.lt_of_le_of_lt
    (Nat.le_trans (length_of_readPower hpower) (length_of_readFraction hfraction))
    (length_of_readWhole hwhole)

/-- A token takes at least one character. -/
theorem length_of_readToken {cs rest : List Char} {t : Token}
    (h : readToken cs = some (t, rest)) : rest.length < cs.length := by
  unfold readToken at h
  split at h
  case h_10 =>
    obtain ⟨found, hfound, heq⟩ := Option.map_eq_some_iff.mp h
    cases heq
    exact Nat.lt_succ_of_lt (length_of_readString hfound)
  case h_11 =>
    obtain ⟨found, hfound, heq⟩ := Option.map_eq_some_iff.mp h
    cases heq
    exact Nat.lt_succ_of_lt (length_of_readUnsigned hfound)
  case h_12 =>
    obtain ⟨found, hfound, heq⟩ := Option.map_eq_some_iff.mp h
    cases heq
    exact length_of_readUnsigned hfound
  all_goals
    cases h
    simp only [List.length_cons]
    omega

/-- The tokens of a text behind those in `done`, which are the last first. -/
def tokensFrom (done : List Token) (cs : List Char) : Option (List Token) :=
  match cs with
  | [] => some done.reverse
  | c :: rest =>
    if isSpace c then tokensFrom done rest
    else match h : readToken (c :: rest) with
      | none => none
      | some (t, after) =>
        have : after.length < (c :: rest).length := length_of_readToken h
        tokensFrom (t :: done) after
termination_by cs.length
decreasing_by
  · exact Nat.lt_succ_self _
  · exact this

def tokens (cs : List Char) : Option (List Token) := tokensFrom [] cs

end Stepwise.Json
