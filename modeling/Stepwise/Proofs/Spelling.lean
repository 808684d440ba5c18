import Stepwise.Proofs.Positions
import Stepwise.Proofs.NumberText

/-! How tokens are written. A token has its spellings, and a text spells a row of tokens when they stand
in it one after another, each set apart from the next by a blank and whatever else may stand between
tokens. The lexer gives back the row that a text spells. -/

namespace Stepwise

/-! Spellings -/

def escapes : List (Char × Char) :=
  [('n', '\n'), ('t', '\t'), ('r', '\r'), ('\\', '\\'), ('\'', '\''), ('"', '"'), ('0', '\x00')]

/-- How a character stands between two quotes: as itself, unless it would end the literal or begin an
escape, or as an escape. Only strings end with their line. -/
inductive InLiteral (quote : Char) : Char → List Char → Prop where
  | plain {c : Char} (inside : c ≠ quote) (slash : c ≠ '\\') (line : quote = '"' → c ≠ '\n') :
      InLiteral quote c [c]
  | escaped {mark c : Char} (h : (mark, c) ∈ escapes) : InLiteral quote c ['\\', mark]

inductive InString : List Char → List Char → Prop where
  | nil : InString [] []
  | cons {c : Char} {cs text rest : List Char} (first : InLiteral '"' c text) (more : InString cs rest) :
      InString (c :: cs) (text ++ rest)

/-- A word that is a name: a letter or an underscore, then more of them or digits, and no word with a
meaning of its own. -/
structure IsName (name : String) : Prop where
  letters : ∃ c cs, name.toList = c :: cs ∧ Lexer.isNameStart c = true ∧
    cs.all Lexer.isNamePart = true
  keyword (k : Keyword) : k.spelling ≠ name
  reserved (r : Reserved) : r.spelling ≠ name

inductive Spelling : Token → List Char → Prop where
  | symbol (s : Symbol) : Spelling (.symbol s) s.spelling
  | keyword (k : Keyword) : Spelling (.keyword k) k.spelling.toList
  | reserved (r : Reserved) : Spelling (.reserved r) r.spelling.toList
  | ident {name : String} (h : IsName name) : Spelling (.ident name) name.toList
  | decimal {ds : List Char} (h : Json.IsDigits ds) (small : Decimal.digitsValue 10 ds ≤ 2147483648) :
      Spelling (.int (Decimal.digitsValue 10 ds)) ds
  /-- Up to eight digits in base sixteen are the bits of an `int`. -/
  | hex {ds : List Char} (nonempty : ds ≠ []) (h : ds.all Decimal.isHexDigit = true)
      (short : ds.length ≤ 8) :
      Spelling (.int (Int32.ofNat (Decimal.digitsValue 16 ds)).toInt) ('0' :: 'x' :: ds)
  | char {c : Char} {text : List Char} (ascii : c.toNat < 128) (h : InLiteral '\'' c text) :
      Spelling (.char (Int8.ofNat c.toNat)) ('\'' :: (text ++ ['\'']))
  | string {s : String} {text : List Char} (h : InString s.toList text) :
      Spelling (.string s) ('"' :: (text ++ ['"']))

/-- The tokens that can be written: all but the end of the text and, here, floating numbers. -/
def Token.IsSpellable : Token → Prop
  | .int n => -2147483648 ≤ n ∧ n ≤ 2147483648
  | .char c => 0 ≤ c.toInt
  | .ident name => IsName name
  | .string _ | .keyword _ | .reserved _ | .symbol _ => True
  | .float _ | .eof => False

/-- What sets two tokens apart: a blank or a newline first, then anything that may stand between
tokens. -/
inductive Separator : List Char → Prop where
  | mk {c : Char} {gap : List Char} (h : c = ' ' ∨ c = '\t' ∨ c = '\r' ∨ c = '\n') (more : Gap gap) :
      Separator (c :: gap)

inductive Spells : List Token → List Char → Prop where
  | nil : Spells [] []
  | last {k : Token} {text : List Char} (h : Spelling k text) : Spells [k] text
  | cons {k : Token} {ks : List Token} {text gap rest : List Char} (h : Spelling k text)
      (apart : Separator gap) (more : Spells ks rest) : Spells (k :: ks) (text ++ (gap ++ rest))

theorem Separator.gap {gap : List Char} (h : Separator gap) : Gap gap := by
  obtain ⟨h, more⟩ := h
  exact .cons (.blank h) more

/-! Every token but those has a spelling -/

theorem exists_inLiteral {quote : Char} (h : quote = '"' ∨ quote = '\'') (c : Char) :
    ∃ text, InLiteral quote c text := by
  have escaped (mark : Char) {c : Char} (h : (mark, c) ∈ escapes) : ∃ text, InLiteral quote c text :=
    ⟨_, .escaped h⟩
  by_cases inside : c = quote
  · rw [inside]
    rcases h with rfl | rfl
    · exact escaped '"' (by decide)
    · exact escaped '\'' (by decide)
  by_cases slash : c = '\\'
  · rw [slash]
    exact escaped '\\' (by decide)
  by_cases line : c = '\n'
  · rw [line]
    exact escaped 'n' (by decide)
  exact ⟨[c], .plain inside slash fun _ => line⟩

theorem exists_inString (cs : List Char) : ∃ text, InString cs text := by
  induction cs with
  | nil => exact ⟨[], .nil⟩
  | cons c cs ih =>
    obtain ⟨first, hfirst⟩ := exists_inLiteral (.inl rfl) c
    obtain ⟨rest, hrest⟩ := ih
    exact ⟨first ++ rest, .cons hfirst hrest⟩

namespace Decimal

theorem digitsValue_concat (base : Nat) (ds : List Char) (d : Char) :
    digitsValue base (ds ++ [d]) = base * digitsValue base ds + digitValue d := by
  simp [digitsValue]

theorem digitsValue_hex (n : Nat) : digitsValue 16 (Nat.toDigits 16 n) = n := by
  have digit : ∀ k < 16, digitValue k.digitChar = k := by decide
  induction n using Nat.strongRecOn with
  | ind n ih =>
    rw [Nat.toDigits_eq_if (by decide)]
    split
    next small => simp [digitsValue, digit n small]
    next large =>
      rw [digitsValue_concat, ih (n / 16) (by omega), digit _ (Nat.mod_lt n (by decide))]
      omega

theorem all_isHexDigit_toDigits (n : Nat) : (Nat.toDigits 16 n).all isHexDigit = true := by
  have digit : ∀ k < 16, isHexDigit k.digitChar = true := by decide
  induction n using Nat.strongRecOn with
  | ind n ih =>
    rw [Nat.toDigits_eq_if (by decide)]
    split
    next small => simp [digit n small]
    next large =>
      rw [List.all_append, ih (n / 16) (by omega)]
      simp [digit _ (Nat.mod_lt n (by decide : 16 > 0))]

end Decimal

theorem toInt_ofNat_eq_wrapInt {n : Nat} (h : n < 4294967296) :
    (Int32.ofNat n).toInt = Lexer.wrapInt n := by
  rw [Int32.toInt_ofNat', Int.bmod_def, Lexer.wrapInt]
  simp only [Int32.size]
  split <;> split <;> omega

/-- A negative number is written by the bits of its sum with `2 ^ 32`. -/
theorem spelling_negative {n : Int} (low : -2147483648 ≤ n) (high : n < 0) :
    Spelling (.int n) ('0' :: 'x' :: Nat.toDigits 16 (n + 4294967296).toNat) := by
  have bits : (Int32.ofNat (Decimal.digitsValue 16 (Nat.toDigits 16 (n + 4294967296).toNat))).toInt = n := by
    rw [Decimal.digitsValue_hex, toInt_ofNat_eq_wrapInt (by omega), Lexer.wrapInt]
    split <;> omega
  have short : (Nat.toDigits 16 (n + 4294967296).toNat).length ≤ 8 :=
    (Nat.length_toDigits_le_iff (by decide) (by decide)).mpr (by omega)
  have := Spelling.hex Nat.toDigits_ne_nil (Decimal.all_isHexDigit_toDigits _) short
  rwa [bits] at this

theorem exists_spelling {k : Token} (h : k.IsSpellable) : ∃ text, Spelling k text := by
  cases k with
  | int n =>
    obtain ⟨low, high⟩ := h
    by_cases negative : n < 0
    · exact ⟨_, spelling_negative low negative⟩
    · obtain ⟨n, rfl⟩ := Int.eq_ofNat_of_zero_le (Int.not_lt.mp negative)
      have value := Decimal.digitsValue_toDigits n
      have := Spelling.decimal (Decimal.isDigits_toDigits n) (by omega)
      rw [value] at this
      exact ⟨_, this⟩
  | char c =>
    have ascii : c.toInt.toNat < 128 := by
      have := Int8.toInt_lt c
      omega
    have code : (Char.ofNat c.toInt.toNat).toNat = c.toInt.toNat :=
      (by decide : ∀ n < 128, (Char.ofNat n).toNat = n) _ ascii
    have byte : Int8.ofNat c.toInt.toNat = c := by
      rw [← Int8.ofInt_eq_ofNat, Int.toNat_of_nonneg h, Int8.ofInt_toInt]
    obtain ⟨text, inside⟩ := exists_inLiteral (.inr rfl) (Char.ofNat c.toInt.toNat)
    have := Spelling.char (by rwa [code]) inside
    rw [code, byte] at this
    exact ⟨_, this⟩
  | string s =>
    obtain ⟨text, h⟩ := exists_inString s.toList
    exact ⟨_, .string h⟩
  | ident name => exact ⟨_, .ident h⟩
  | keyword k => exact ⟨_, .keyword k⟩
  | reserved r => exact ⟨_, .reserved r⟩
  | symbol s => exact ⟨_, .symbol s⟩
  | float | eof => exact absurd h id

namespace Lexer

/-! Gaps are skipped -/

theorem skipLine_newline {body : List Char} (h : '\n' ∉ body) (p : Position) (rest : List Char) :
    skipLine p (body ++ '\n' :: rest) = skip (p.after (body ++ ['\n'])) rest := by
  induction body generalizing p with
  | nil => rfl
  | cons c body ih =>
    rw [List.mem_cons, not_or] at h
    rw [List.cons_append, skipLine, if_neg (Ne.symm h.1), ih h.2]
    rfl

theorem skipBlock_close {body : List Char} (h : ¬ ['*', '/'] <:+: body) (opened p : Position)
    (rest : List Char) :
    skipBlock opened p (body ++ '*' :: '/' :: rest) = skip (p.after (body ++ ['*', '/'])) rest := by
  induction body generalizing p with
  | nil => rfl
  | cons c body ih =>
    rw [List.infix_cons_iff, not_or] at h
    have goesOn : ∀ more, c = '*' → body ++ '*' :: '/' :: rest = '/' :: more → False := by
      rintro more rfl heq
      cases body with
      | nil => exact absurd (List.cons.inj heq).1 (by decide)
      | cons d body =>
        obtain rfl := (List.cons.inj heq).1
        exact h.1 ⟨body, rfl⟩
    have step : skipBlock opened p (c :: (body ++ '*' :: '/' :: rest)) =
        skipBlock opened (p.next c) (body ++ '*' :: '/' :: rest) := by
      rw [skipBlock]
      exact goesOn
    rw [List.cons_append, step, ih h.2]
    rfl

end Lexer

theorem Continued.of_cons {c : Char} {body : List Char} (h : Continued (c :: body))
    (goesOn : ∀ more, c = '\\' → body = '\n' :: more → False) : Continued body := by
  intro front back heq
  have last := h (c :: front) back (by rw [heq]; rfl)
  cases front with
  | nil =>
    obtain rfl : c = '\\' := by simpa using last
    exact (goesOn back rfl heq).elim
  | cons d front => rwa [List.getLast?_cons_cons] at last

theorem Continued.of_newline {body : List Char} (h : Continued ('\\' :: '\n' :: body)) :
    Continued body := by
  intro front back heq
  have last := h ('\\' :: '\n' :: front) back (by rw [heq]; rfl)
  cases front with
  | nil => simp at last
  | cons d front => rwa [List.getLast?_cons_cons, List.getLast?_cons_cons] at last

namespace Lexer

theorem skipDirective_newline (p : Position) (rest : List Char) : (body : List Char) →
    Continued body → body.getLast? ≠ some '\\' →
    skipDirective p (body ++ '\n' :: rest) = skip (p.after (body ++ ['\n'])) rest
  | [], _, _ => by simp [skipDirective]
  | c :: body, continued, last => by
    by_cases goesOn : ∃ more, c = '\\' ∧ body = '\n' :: more
    · obtain ⟨more, rfl, rfl⟩ := goesOn
      have last' : more.getLast? ≠ some '\\' := by
        intro heq
        rw [List.getLast?_cons_cons, List.getLast?_cons, heq] at last
        exact last rfl
      exact skipDirective_newline ((p.next '\\').next '\n') rest more continued.of_newline last'
    · have hc : c ≠ '\n' := by
        rintro rfl
        exact absurd (continued [] body rfl) (by simp)
      have stays : ∀ more, c = '\\' → body ++ '\n' :: rest = '\n' :: more → False := by
        rintro more rfl heq
        cases body with
        | nil => exact last rfl
        | cons d body => exact goesOn ⟨body, rfl, by rw [(List.cons.inj heq).1]⟩
      have step : skipDirective p (c :: (body ++ '\n' :: rest)) =
          skipDirective (p.next c) (body ++ '\n' :: rest) := by
        rw [skipDirective, if_neg hc]
        exact stays
      have last' : body.getLast? ≠ some '\\' := by
        intro heq
        rw [List.getLast?_cons, heq] at last
        exact last rfl
      rw [List.cons_append, step, skipDirective_newline (p.next c) rest body
        (continued.of_cons fun more h h' => goesOn ⟨more, h, h'⟩) last']
      rfl

theorem skip_filler {filler : List Char} (h : Filler filler) (p : Position) (rest : List Char) :
    skip p (filler ++ rest) = skip (p.after filler) rest := by
  cases h with
  | blank h => rcases h with rfl | rfl | rfl | rfl <;> rfl
  | line h =>
    rw [List.cons_append, List.cons_append, List.append_assoc]
    exact skipLine_newline h _ rest
  | block h =>
    rw [List.cons_append, List.cons_append, List.append_assoc]
    exact skipBlock_close h p _ rest
  | directive h last =>
    rw [List.cons_append, List.append_assoc]
    exact skipDirective_newline _ rest _ h last

theorem skip_gap {gap : List Char} (h : Gap gap) (p : Position) (rest : List Char) :
    skip p (gap ++ rest) = skip (p.after gap) rest := by
  induction h generalizing p with
  | nil => rfl
  | cons first more ih => rw [List.append_assoc, skip_filler first, ih, Position.after_append]

/-- Nothing is skipped in front of a character that begins no gap. -/
theorem skip_stays {c : Char} {rest : List Char} (space : isSpace c = false) (hash : c ≠ '#')
    (comment : c = '/' → ∀ d ∈ rest.head?, d ≠ '/' ∧ d ≠ '*') (p : Position) :
    skip p (c :: rest) = .ok ⟨c :: rest, p⟩ := by
  rw [skip, space]
  · rfl
  · rintro more rfl rfl
    exact (comment rfl '/' rfl).1 rfl
  · rintro more rfl rfl
    exact (comment rfl '*' rfl).2 rfl
  · exact hash

/-! Each spelling is one token -/

def Apart (back : List Char) : Prop := ∀ c ∈ back.head?, isSpace c = true

theorem eq_of_isSpace {c : Char} (h : isSpace c = true) : c = ' ' ∨ c = '\t' ∨ c = '\r' ∨ c = '\n' := by
  simpa [isSpace, or_assoc] using h

/-- What no blank is, the next character is not. -/
theorem Apart.next {back : List Char} (apart : Apart back) {p : Char → Bool}
    (h : p ' ' = false ∧ p '\t' = false ∧ p '\r' = false ∧ p '\n' = false) :
    ∀ c ∈ back.head?, p c = false := by
  intro c hc
  rcases eq_of_isSpace (apart c hc) with rfl | rfl | rfl | rfl
  · exact h.1
  · exact h.2.1
  · exact h.2.2.1
  · exact h.2.2.2

theorem takeWhile_apart {p : Char → Bool} {text back : List Char} (h : text.all p = true)
    (stop : ∀ c ∈ back.head?, p c = false) : (text ++ back).takeWhile p = text := by
  rw [List.takeWhile_append_of_pos (List.all_eq_true.mp h)]
  cases back with
  | nil => simp
  | cons c back => simp [stop c rfl]

/-- The lexer takes the text for this token, whatever stands behind it once it is set apart. -/
structure Takes (k : Token) (text : List Char) : Prop where
  stays {back : List Char} (apart : Apart back) (p : Position) :
    skip p (text ++ back) = .ok ⟨text ++ back, p⟩
  reads {back : List Char} (apart : Apart back) : lexeme (text ++ back) = .ok (k, text.length)
  nonempty : text ≠ []

theorem isDigit_of_isNameStart {c : Char} (h : isNameStart c = true) : Decimal.isDigit c = false := by
  rw [← Bool.not_eq_true]
  intro digit
  simp only [Decimal.isDigit, isNameStart, Bool.or_eq_true, Bool.and_eq_true, decide_eq_true_eq,
    Char.le_def, UInt32.le_iff_toNat_le] at h digit
  rcases h with h | rfl
  · simp at h digit
    omega
  · exact absurd digit (by decide)

theorem takes_word {c : Char} {cs : List Char} (start : isNameStart c = true)
    (parts : cs.all isNamePart = true) :
    Takes (wordToken (String.ofList (c :: cs))) (c :: cs) where
  nonempty := List.cons_ne_nil c cs
  stays apart p := by
    refine skip_stays ?_ ?_ ?_ p
    · cases space : isSpace c with
      | false => rfl
      | true => rcases eq_of_isSpace space with rfl | rfl | rfl | rfl <;> cases start
    · rintro rfl
      cases start
    · rintro rfl
      cases start
  reads {back} apart := by
    have word : (c :: cs ++ back).takeWhile isNamePart = c :: cs := by
      refine takeWhile_apart ?_ (apart.next (by decide))
      rw [List.all_cons, parts, isNamePart, start]
      rfl
    have point : c ≠ '.' := by
      rintro rfl
      cases start
    rw [List.cons_append] at word ⊢
    rw [lexeme]
    · simp [isDigit_of_isNameStart start, point, start, word]
    · rintro rfl
      cases start
    · rintro rfl
      cases start
    · rintro more rfl
      cases start
    · rintro more rfl
      cases start

/-- A symbol without a blank that stands in front of a text set apart stands in the text itself. -/
theorem isPrefixOf_apart {symbol text back : List Char} (solid : symbol.all (!isSpace ·) = true)
    (apart : Apart back) : symbol.isPrefixOf (text ++ back) = symbol.isPrefixOf text := by
  induction symbol generalizing text with
  | nil => simp
  | cons c symbol ih =>
    rw [List.all_cons, Bool.and_eq_true, Bool.not_eq_true'] at solid
    cases text with
    | nil =>
      cases back with
      | nil => rfl
      | cons d back =>
        have ne : (c == d) = false := by
          rw [beq_eq_false_iff_ne]
          rintro rfl
          exact absurd (apart c rfl) (by simp [solid.1])
        simp [List.isPrefixOf, ne]
    | cons d text => simp [List.isPrefixOf, ih solid.2]

theorem longest?_apart (s : Symbol) {back : List Char} (apart : Apart back) :
    Symbol.longest? (s.spelling ++ back) = some s := by
  have alone : Symbol.longest? s.spelling = some s := by
    cases s <;> decide
  rw [← alone, Symbol.longest?, Symbol.longest?]
  congr 1
  funext t
  exact isPrefixOf_apart (by cases t <;> rfl) apart

theorem lexeme_symbol {c : Char} {rest : List Char} {s : Symbol} (quote : c ≠ '"') (apostrophe : c ≠ '\'')
    (digit : Decimal.isDigit c = false) (name : isNameStart c = false)
    (point : c = '.' → rest.head?.any Decimal.isDigit = false)
    (found : Symbol.longest? (c :: rest) = some s) :
    lexeme (c :: rest) = .ok (.symbol s, s.spelling.length) := by
  rw [lexeme]
  · have number : (c = '.' && rest.head?.any Decimal.isDigit) = false := by
      by_cases hc : c = '.'
      · simp [point hc]
      · simp [hc]
    simp [digit, number, name, found]
  · exact quote
  · exact apostrophe
  · rintro more rfl
    cases digit
  · rintro more rfl
    cases digit

theorem takes_symbol (s : Symbol) : Takes (.symbol s) s.spelling where
  nonempty := List.length_pos_iff.mp s.length_pos
  stays {back} apart p := by
    have slash : ∀ d ∈ back.head?, d ≠ '/' ∧ d ≠ '*' := by
      intro d hd
      rcases eq_of_isSpace (apart d hd) with rfl | rfl | rfl | rfl <;> decide
    cases s with
    | slash => exact skip_stays rfl (by decide) (fun _ => slash) p
    | slashEq => exact skip_stays rfl (by decide) (by simp) p
    | _ => exact skip_stays rfl (by decide) (fun h => absurd h (by decide)) p
  reads {back} apart := by
    have found := longest?_apart s apart
    have digit : back.head?.any Decimal.isDigit = false := by
      have := apart.next (p := Decimal.isDigit) (by decide)
      cases h : back.head? with
      | none => rfl
      | some c => exact this c h
    cases s with
    | dot => exact lexeme_symbol (by decide) (by decide) rfl rfl (fun _ => digit) found
    | _ => exact lexeme_symbol (by decide) (by decide) rfl rfl (fun h => absurd h (by decide)) found

/-! Numbers -/

theorem takes_of_digit {k : Token} {c : Char} {cs : List Char} (digit : Decimal.isDigit c = true)
    (reads : ∀ {back}, Apart back → lexeme (c :: cs ++ back) = .ok (k, (c :: cs).length)) :
    Takes k (c :: cs) where
  nonempty := List.cons_ne_nil c cs
  reads := reads
  stays apart p := by
    refine skip_stays ?_ ?_ ?_ p
    · cases space : isSpace c with
      | false => rfl
      | true => rcases eq_of_isSpace space with rfl | rfl | rfl | rfl <;> cases digit
    · rintro rfl
      cases digit
    · rintro rfl
      cases digit

theorem readExponent?_apart {back : List Char} (apart : Apart back) :
    Decimal.readExponent? back = none := by
  have noMark : ∀ c ∈ back.head?, ¬ (c = 'e' ∨ c = 'E') := by
    intro c hc
    rcases eq_of_isSpace (apart c hc) with rfl | rfl | rfl | rfl <;> decide
  unfold Decimal.readExponent?
  split
  · rw [if_neg (noMark _ rfl)]
  · rw [if_neg (fun h => noMark _ rfl h.1)]
  · rfl

theorem read_digits {ds back : List Char} (h : ∀ d ∈ ds, Decimal.isDigit d = true) (apart : Apart back) :
    Decimal.Numeral.read (ds ++ back) = (⟨ds, none, none⟩, back) := by
  have stop : Json.NoDigit back := apart.next (by decide)
  unfold Decimal.Numeral.read
  rw [Json.takeWhile_isDigit h stop, Json.dropWhile_isDigit h stop]
  cases back with
  | nil => rfl
  | cons c back =>
    have point : c ≠ '.' := by
      rintro rfl
      cases apart '.' rfl
    simp [point, readExponent?_apart apart]

theorem takes_decimal {ds : List Char} (h : Json.IsDigits ds)
    (small : Decimal.digitsValue 10 ds ≤ 2147483648) : Takes (.int (Decimal.digitsValue 10 ds)) ds := by
  obtain ⟨c, cs, rfl⟩ := List.exists_cons_of_ne_nil h.nonempty
  have digit := h.digits c List.mem_cons_self
  refine takes_of_digit digit fun {back} apart => ?_
  have read := read_digits h.digits apart
  have noMark : ∀ d ∈ (cs ++ back).head?, d ≠ 'x' ∧ d ≠ 'X' := by
    cases cs with
    | nil =>
      intro d hd
      rcases eq_of_isSpace (apart d hd) with rfl | rfl | rfl | rfl <;> decide
    | cons e cs =>
      have next := h.digits e (by simp)
      intro d hd
      obtain rfl : e = d := Option.some.inj hd
      constructor <;> rintro rfl <;> cases next
  rw [List.cons_append] at read ⊢
  rw [lexeme]
  · have length : cs.length + back.length + 1 - back.length = cs.length + 1 := by omega
    simp [digit, decimalLiteral, read, Decimal.Numeral.isFloating, maxMagnitude, small, length]
  · rintro rfl
    cases digit
  · rintro rfl
    cases digit
  · intro rest hc heq
    rw [heq] at noMark
    exact (noMark 'x' rfl).1 rfl
  · intro rest hc heq
    rw [heq] at noMark
    exact (noMark 'X' rfl).2 rfl

theorem digitValue_hex_lt {d : Char} (h : Decimal.isHexDigit d = true) : Decimal.digitValue d < 16 := by
  simp only [Decimal.isHexDigit, Decimal.isDigit, Bool.or_eq_true, Bool.and_eq_true, decide_eq_true_eq,
    Char.le_def, UInt32.le_iff_toNat_le] at h
  simp only [Decimal.digitValue, Decimal.isDigit, Bool.and_eq_true, decide_eq_true_eq, Char.le_def,
    UInt32.le_iff_toNat_le]
  simp at h ⊢
  split
  · omega
  · split <;> omega

theorem digitsValue_hex_lt {ds : List Char} (h : ds.all Decimal.isHexDigit = true) :
    Decimal.digitsValue 16 ds < 16 ^ ds.length := by
  have behind (n : Nat) : ds.foldl (fun n d => 16 * n + Decimal.digitValue d) n <
      16 ^ ds.length * (n + 1) := by
    induction ds generalizing n with
    | nil => simp
    | cons d ds ih =>
      rw [List.all_cons, Bool.and_eq_true] at h
      have digit := digitValue_hex_lt h.1
      calc (d :: ds).foldl (fun n d => 16 * n + Decimal.digitValue d) n
        _ < 16 ^ ds.length * (16 * n + Decimal.digitValue d + 1) :=
          ih h.2 _
        _ ≤ 16 ^ ds.length * (16 * (n + 1)) := Nat.mul_le_mul_left _ (by omega)
        _ = 16 ^ (d :: ds).length * (n + 1) := by rw [List.length_cons, Nat.pow_succ, Nat.mul_assoc]
  have := behind 0
  rwa [Nat.zero_add, Nat.mul_one] at this

theorem takes_hex {ds : List Char} (nonempty : ds ≠ []) (h : ds.all Decimal.isHexDigit = true)
    (short : ds.length ≤ 8) :
    Takes (.int (Int32.ofNat (Decimal.digitsValue 16 ds)).toInt) ('0' :: 'x' :: ds) := by
  refine takes_of_digit rfl fun {back} apart => ?_
  have digits : (ds ++ back).takeWhile Decimal.isHexDigit = ds := takeWhile_apart h (apart.next (by decide))
  have small : Decimal.digitsValue 16 ds < 4294967296 :=
    Nat.lt_of_lt_of_le (digitsValue_hex_lt h) (Nat.pow_le_pow_right (by decide) short)
  rw [toInt_ofNat_eq_wrapInt small]
  have fits : (ds.isEmpty || decide (UInt32.size ≤ Decimal.digitsValue 16 ds)) = false := by
    rw [Bool.or_eq_false_iff, List.isEmpty_eq_false_iff, decide_eq_false_iff_not]
    exact ⟨nonempty, Nat.not_le.mpr small⟩
  calc lexeme ('0' :: 'x' :: ds ++ back)
    _ = hexLiteral (ds ++ back) := rfl
    _ = .ok (.int (wrapInt (Decimal.digitsValue 16 ds)), ds.length + 2) := by
      simp [hexLiteral, digits, fits]

/-! Literals between quotes -/

theorem escape?_of_mem {mark c : Char} (h : (mark, c) ∈ escapes) : escape? mark = some c := by
  simp only [escapes, List.mem_cons, Prod.mk.injEq, List.not_mem_nil, or_false] at h
  rcases h with ⟨rfl, rfl⟩ | ⟨rfl, rfl⟩ | ⟨rfl, rfl⟩ | ⟨rfl, rfl⟩ | ⟨rfl, rfl⟩ | ⟨rfl, rfl⟩ | ⟨rfl, rfl⟩ <;> rfl

theorem stringBody_inString {cs text : List Char} (h : InString cs text) (n : Nat) (back : List Char) :
    stringBody n (text ++ '"' :: back) = .ok (cs, n + text.length + 1) := by
  induction h generalizing n with
  | nil => rfl
  | cons first more ih =>
    cases first with
    | plain inside slash line =>
      rw [List.append_assoc, List.singleton_append, stringBody, if_neg (line rfl), ih]
      · simp only [Except.map, List.length_append, List.length_singleton]
        congr 3
        omega
      · exact inside
      · exact fun _ _ h => absurd h slash
      · exact fun h => absurd h slash
    | escaped h =>
      rw [List.append_assoc, List.cons_append, List.singleton_append, stringBody, escape?_of_mem h]
      simp only [ih, Except.map, List.length_append, List.length_cons, List.length_nil]
      congr 3
      omega

theorem takes_string {s : String} {text : List Char} (h : InString s.toList text) :
    Takes (.string s) ('"' :: (text ++ ['"'])) where
  nonempty := List.cons_ne_nil _ _
  stays apart p := skip_stays rfl (by decide) (fun h => absurd h (by decide)) p
  reads {back} apart := by
    have body := stringBody_inString h 1 back
    calc lexeme ('"' :: (text ++ ['"']) ++ back)
      _ = (stringBody 1 (text ++ ['"'] ++ back)).map fun r => (Token.string (String.ofList r.1), r.2) := rfl
      _ = .ok (.string s, ('"' :: (text ++ ['"'])).length) := by
        rw [List.append_assoc, List.singleton_append, body]
        simp [Except.map, Nat.add_comm, Nat.add_left_comm]

theorem closeChar_ascii {c : Char} (ascii : c.toNat < 128) (n : Nat) (back : List Char) :
    closeChar n c ('\'' :: back) = .ok (.char (Int8.ofNat c.toNat), n + 1) :=
  if_neg (Nat.not_le.mpr ascii)

theorem takes_char {c : Char} {text : List Char} (ascii : c.toNat < 128) (h : InLiteral '\'' c text) :
    Takes (.char (Int8.ofNat c.toNat)) ('\'' :: (text ++ ['\''])) where
  nonempty := List.cons_ne_nil _ _
  stays apart p := skip_stays rfl (by decide) (fun h => absurd h (by decide)) p
  reads {back} apart := by
    have closed (n : Nat) := closeChar_ascii ascii n back
    cases h with
    | plain inside slash line =>
      calc lexeme ('\'' :: ([c] ++ ['\'']) ++ back)
        _ = charLiteral (c :: '\'' :: back) := rfl
        _ = closeChar 2 c ('\'' :: back) := by
          rw [charLiteral, if_neg inside]
          · exact fun h => absurd h slash
          · exact fun _ _ h => absurd h slash
        _ = .ok (.char (Int8.ofNat c.toNat), 3) := closed 2
    | @escaped mark _ h =>
      calc lexeme ('\'' :: (['\\', mark] ++ ['\'']) ++ back)
        _ = charLiteral ('\\' :: mark :: '\'' :: back) := rfl
        _ = closeChar 3 c ('\'' :: back) := by rw [charLiteral, escape?_of_mem h]
        _ = .ok (.char (Int8.ofNat c.toNat), 4) := closed 3

/-! Words with a meaning -/

theorem wordToken_keyword (k : Keyword) : wordToken k.spelling = .keyword k := by
  cases k <;> decide

theorem wordToken_reserved (r : Reserved) : wordToken r.spelling = .reserved r := by
  cases r <;> decide

theorem wordToken_name {name : String} (h : IsName name) : wordToken name = .ident name := by
  have keyword : Keyword.ofSpelling? name = none := by
    simp [Keyword.ofSpelling?, h.keyword]
  have reserved : Reserved.ofSpelling? name = none := by
    simp [Reserved.ofSpelling?, h.reserved]
  rw [wordToken, keyword, reserved]

theorem takes_of_letters {name : String} {k : Token} (token : wordToken name = k)
    (letters : ∃ c cs, name.toList = c :: cs ∧ isNameStart c = true ∧ cs.all isNamePart = true) :
    Takes k name.toList := by
  obtain ⟨c, cs, eq, start, parts⟩ := letters
  have word := takes_word start parts
  rwa [← eq, String.ofList_toList, token] at word

theorem takes_spelling {k : Token} {text : List Char} (h : Spelling k text) : Takes k text := by
  cases h with
  | symbol s => exact takes_symbol s
  | keyword k =>
    refine takes_of_letters (wordToken_keyword k) ?_
    cases k <;> exact ⟨_, _, rfl, rfl, rfl⟩
  | reserved r =>
    refine takes_of_letters (wordToken_reserved r) ?_
    cases r <;> exact ⟨_, _, rfl, rfl, rfl⟩
  | ident h => exact takes_of_letters (wordToken_name h) h.letters
  | decimal h small => exact takes_decimal h small
  | hex nonempty h short => exact takes_hex nonempty h short
  | char ascii h => exact takes_char ascii h
  | string h => exact takes_string h

/-! Rows of tokens -/

theorem Apart.nil : Apart [] := fun _ h => nomatch h

theorem Separator.apart {gap : List Char} (h : Separator gap) (rest : List Char) : Apart (gap ++ rest) := by
  obtain ⟨h, more⟩ := h
  intro c hc
  obtain rfl := Option.some.inj hc
  rcases h with rfl | rfl | rfl | rfl <;> rfl

/-- One round of the lexer: a gap, a token, and what is behind them. -/
theorem tokensFrom_takes {k : Token} {gap text back : List Char} (front : Gap gap) (taken : Takes k text)
    (apart : Apart back) (rounds : Nat) (pos : Position) :
    ∃ here behind, tokensFrom (rounds + 1) ⟨gap ++ (text ++ back), pos⟩ =
      (tokensFrom rounds ⟨back, behind⟩).map (⟨k, here⟩ :: ·) := by
  obtain ⟨c, cs, rfl⟩ := List.exists_cons_of_ne_nil taken.nonempty
  refine ⟨pos.after gap, (pos.after gap).after (c :: cs), ?_⟩
  have dropped : Cursor.drop (c :: cs).length ⟨c :: cs ++ back, pos.after gap⟩ =
      ⟨back, (pos.after gap).after (c :: cs)⟩ := by
    rw [drop_eq, List.drop_left, List.take_left]
  rw [tokensFrom, skip_gap front, taken.stays apart]
  simp only [taken.reads apart, dropped]
  rfl

theorem tokensFrom_gap {gap : List Char} (h : Gap gap) (rounds : Nat) (pos : Position) :
    ∃ last, tokensFrom (rounds + 1) ⟨gap, pos⟩ = .ok [⟨.eof, last⟩] := by
  have skipped := skip_gap h pos []
  rw [List.append_nil] at skipped
  refine ⟨pos.after gap, ?_⟩
  rw [tokensFrom, skipped]
  rfl

theorem tokensFrom_spells {ks : List Token} {text : List Char} (h : Spells ks text) {gap : List Char}
    (front : Gap gap) {rounds : Nat} (enough : (gap ++ text).length ≤ rounds) (pos : Position) :
    ∃ lexemes, tokensFrom (rounds + 1) ⟨gap ++ text, pos⟩ = .ok lexemes ∧
      lexemes.map (·.token) = ks ++ [.eof] := by
  -- a token takes a round and at least one character
  have left {k : Token} {gap text back : List Char} {rounds : Nat} (taken : Takes k text)
      (enough : (gap ++ (text ++ back)).length ≤ rounds) : ∃ less, rounds = less + 1 ∧ back.length ≤ less := by
    have := List.length_pos_iff.mpr taken.nonempty
    simp only [List.length_append] at enough
    exact ⟨rounds - 1, by omega, by omega⟩
  induction h generalizing gap rounds pos with
  | nil =>
    obtain ⟨last, eq⟩ := tokensFrom_gap front rounds pos
    rw [List.append_nil]
    exact ⟨_, eq, rfl⟩
  | last h =>
    have taken := takes_spelling h
    rw [← List.append_nil (gap ++ _), List.append_assoc] at enough ⊢
    obtain ⟨rounds, rfl, -⟩ := left taken enough
    obtain ⟨here, behind, eq⟩ := tokensFrom_takes front taken .nil (rounds + 1) pos
    obtain ⟨last, rest⟩ := tokensFrom_gap .nil rounds behind
    rw [eq, rest]
    exact ⟨_, rfl, rfl⟩
  | cons h apart more ih =>
    have taken := takes_spelling h
    obtain ⟨rounds, rfl, shorter⟩ := left taken enough
    obtain ⟨here, behind, eq⟩ := tokensFrom_takes front taken (Separator.apart apart _) (rounds + 1) pos
    obtain ⟨lexemes, rest, tokens⟩ := ih apart.gap shorter behind
    rw [eq, rest]
    exact ⟨_, rfl, congrArg (_ :: ·) tokens⟩

end Lexer

/-- The lexer inverts spelling. Every token but floating numbers and the end of the text has a spelling,
and whatever spells a row of tokens is cut into just these, with the end of the text behind them. -/
theorem tokenize_spells :
    (∀ k : Token, k.IsSpellable → ∃ text, Spelling k text) ∧
    ∀ (ks : List Token) (text : List Char), Spells ks text →
      ∃ lexemes, tokenize (String.ofList text) = .ok lexemes ∧ lexemes.map (·.token) = ks ++ [.eof] := by
  refine ⟨fun k h => exists_spelling h, fun ks text h => ?_⟩
  rw [tokenize, String.toList_ofList]
  exact Lexer.tokensFrom_spells h .nil (Nat.le_refl _) .start

/-- A comment with a quote in it and a directive that goes on over a newline stand between the tokens. -/
theorem tokenize_spells_initialized :
    let text := "x /*\"*/= 0xFFFFFFFF\n#a\\\n'\n;".toList
    let ks : List Token := [.ident "x", .symbol .eq, .int (-1), .symbol .semicolon]
    Spells ks text ∧
      ∃ lexemes, tokenize (String.ofList text) = .ok lexemes ∧ lexemes.map (·.token) = ks ++ [.eof] := by
  intro text ks
  have name : IsName "x" :=
    ⟨⟨'x', [], rfl, rfl, rfl⟩, fun k => by cases k <;> decide, fun r => by cases r <;> decide⟩
  have comment : Separator (' ' :: (['/', '*', '"', '*', '/'] ++ [])) :=
    .mk (.inl rfl) (.cons (@Filler.block ['"'] (by decide)) .nil)
  have nil : Continued [] := by simp [Continued]
  have directive : Separator ('\n' :: ('#' :: (['a', '\\', '\n', '\''] ++ ['\n']) ++ [])) :=
    .mk (by decide) (.cons (.directive ((nil.cons (by decide)).newline.cons (by decide)) (by decide)) .nil)
  have spells : Spells ks text :=
    .cons (.ident name) comment (.cons (.symbol .eq) (.mk (.inl rfl) .nil)
      (.cons (@Spelling.hex "FFFFFFFF".toList (by decide) rfl (by decide)) directive
        (.last (.symbol .semicolon))))
  exact ⟨spells, tokenize_spells.2 ks text spells⟩

end Stepwise
