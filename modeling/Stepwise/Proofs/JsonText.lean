import Stepwise.Json.Decode
import Stepwise.Json.Reader
import Stepwise.Json.Writer

/-! A JSON value that is written, in one line or over many, reads back as itself. A writer adds
characters to a text, and each lemma says which tokens these are cut into. A number ends where
nothing follows that could go on with it, so what is added counts as tokens in front of such a rest
only. -/

namespace Stepwise.Json

/-! Strings -/

/-- The number of a control character is written with two zeros in front. -/
theorem hexValue?_control :
    ∀ n < 32, hexValue? ['0', '0', Nat.digitChar (n / 16), Nat.digitChar (n % 16)] = some n := by
  decide

/-- A character is escaped by a letter, escaped by its number, or stands for itself. -/
theorem escapeChar_cases (c : Char) :
    (∃ x, escapeChar c = ['\\', x] ∧ shortEscape? x = some c) ∨
    (escapeChar c =
        ['\\', 'u', '0', '0', Nat.digitChar (c.toNat / 16), Nat.digitChar (c.toNat % 16)] ∧
      c.toNat < 32) ∨
    (escapeChar c = [c] ∧ c ≠ '"' ∧ c ≠ '\\' ∧ 32 ≤ c.toNat) := by
  have same {n : Nat} (h : c.toNat = n) : Char.ofNat n = c := by rw [← h, Char.ofNat_toNat]
  unfold escapeChar
  split
  next h => exact .inl ⟨_, rfl, by rw [h]; rfl⟩
  split
  next h => exact .inl ⟨_, rfl, by rw [h]; rfl⟩
  split
  next h => exact .inl ⟨_, rfl, by rw [h]; rfl⟩
  split
  next h => exact .inl ⟨_, rfl, by rw [h]; rfl⟩
  split
  next h => exact .inl ⟨_, rfl, by rw [h]; rfl⟩
  split
  next h => exact .inl ⟨_, rfl, congrArg some (same h)⟩
  split
  next h => exact .inl ⟨_, rfl, congrArg some (same h)⟩
  split
  next h => exact .inr (.inl ⟨rfl, h⟩)
  next notQuote notSlash _ _ _ _ _ h => exact .inr (.inr ⟨rfl, notQuote, notSlash, by omega⟩)

theorem unescapeFrom_escapeChar (c : Char) (done rest : List Char) :
    unescapeFrom done (escapeChar c ++ rest) = unescapeFrom (c :: done) rest := by
  obtain ⟨x, text, short⟩ | ⟨text, control⟩ | ⟨text, notQuote, notSlash, -⟩ := escapeChar_cases c
  · have notNumber : x ≠ 'u' := by
      rintro rfl
      cases short
    rw [text, List.cons_append, List.singleton_append, unescapeFrom, short]
    intro a b c d rest h
    exact absurd h notNumber
  · have low : ¬isLowSurrogate c.toNat = true := by
      simp [isLowSurrogate]
      omega
    have high : ¬isHighSurrogate c.toNat = true := by
      simp [isHighSurrogate]
      omega
    simp only [text, List.cons_append, List.nil_append]
    rw [unescapeFrom]
    simp only [hexValue?_control _ control]
    rw [if_neg low, if_neg high, Char.ofNat_toNat]
  · rw [text, List.singleton_append, unescapeFrom, if_neg notSlash]
    · intro a b c d rest h
      exact absurd h notSlash
    · intro x rest h
      exact absurd h notSlash

theorem readString_escapeChar (c : Char) (done rest : List Char) :
    readString done (escapeChar c ++ rest) = readString ((escapeChar c).reverse ++ done) rest := by
  obtain ⟨x, text, short⟩ | ⟨text, control⟩ | ⟨text, notQuote, notSlash, printable⟩ :=
    escapeChar_cases c
  · have notNumber : x ≠ 'u' := by
      rintro rfl
      cases short
    rw [text, List.cons_append, List.singleton_append, readString]
    · simp [short]
    · intro a b c d rest h
      exact absurd h notNumber
  · simp only [text, List.cons_append, List.nil_append]
    rw [readString]
    simp [hexValue?_control _ control]
  · rw [text, List.singleton_append, readString]
    · rw [if_neg (by simp [notSlash]; omega)]
      rfl
    · exact notQuote
    · intro a b c d rest h
      exact absurd h notSlash
    · intro x rest h
      exact absurd h notSlash

/-- Escaped text says what was escaped. -/
theorem unescape?_escape (cs : List Char) : unescape? (escape cs) = some cs := by
  have from_done (done : List Char) :
      unescapeFrom done (escape cs) = some (done.reverse ++ cs) := by
    induction cs generalizing done with
    | nil => simp [escape, unescapeFrom]
    | cons c cs ih =>
      have rest := ih (c :: done)
      rw [escape] at rest
      rw [escape, List.flatMap_cons, unescapeFrom_escapeChar, rest]
      simp
  exact from_done []

theorem readString_escape (cs done rest : List Char) :
    readString done (escape cs ++ '"' :: rest) = some (done.reverse ++ escape cs, rest) := by
  induction cs generalizing done with
  | nil => simp [escape, readString]
  | cons c cs ih =>
    have tail := ih ((escapeChar c).reverse ++ done)
    simp only [escape, List.flatMap_cons, List.append_assoc] at tail ⊢
    rw [readString_escapeChar, tail]
    simp

/-! Numbers -/

def goesOn (c : Char) : Bool := Decimal.isDigit c || c == '.' || c == 'e' || c == 'E'

/-- A number in front of this text ends there. -/
def Ends (rest : List Char) : Prop := ∀ c ∈ rest.head?, goesOn c = false

theorem Ends.nil : Ends [] := by
  intro c h
  cases h

theorem Ends.cons {c : Char} {rest : List Char} (h : goesOn c = false) : Ends (c :: rest) := by
  intro d hd
  cases hd
  exact h

structure IsDigits (ds : List Char) : Prop where
  digits : ∀ c ∈ ds, Decimal.isDigit c = true
  nonempty : ds ≠ []

def NoDigit (rest : List Char) : Prop := ∀ c ∈ rest.head?, Decimal.isDigit c = false

theorem Ends.noDigit {rest : List Char} (h : Ends rest) : NoDigit rest := by
  intro c hc
  have := h c hc
  simp only [goesOn, Bool.or_eq_false_iff] at this
  exact this.1.1.1

theorem takeWhile_isDigit {ds rest : List Char} (h : ∀ c ∈ ds, Decimal.isDigit c = true)
    (stop : NoDigit rest) : (ds ++ rest).takeWhile Decimal.isDigit = ds := by
  rw [List.takeWhile_append_of_pos h]
  cases rest with
  | nil => simp
  | cons c rest => simp [stop c rfl]

theorem dropWhile_isDigit {ds rest : List Char} (h : ∀ c ∈ ds, Decimal.isDigit c = true)
    (stop : NoDigit rest) : (ds ++ rest).dropWhile Decimal.isDigit = rest := by
  rw [List.dropWhile_append_of_pos h]
  cases rest with
  | nil => rfl
  | cons c rest => simp [stop c rfl]

theorem IsDigits.readDigits {ds rest : List Char} (h : IsDigits ds) (stop : NoDigit rest) :
    Json.readDigits (ds ++ rest) = some (ds, rest) := by
  unfold Json.readDigits
  rw [takeWhile_isDigit h.digits stop, dropWhile_isDigit h.digits stop]
  split
  next => exact absurd rfl h.nonempty
  next => rfl

/-- The digits before the point: a zero stands alone. -/
structure IsWhole (ds : List Char) : Prop extends IsDigits ds where
  lead : ds.head? = some '0' → ds = ['0']

theorem IsWhole.readWhole {ds rest : List Char} (h : IsWhole ds) (stop : NoDigit rest) :
    Json.readWhole (ds ++ rest) = some (ds, rest) := by
  unfold Json.readWhole
  rw [h.readDigits stop]
  split
  next heq =>
    cases heq
    cases h.lead rfl
  next => rfl

inductive IsFraction : List Char → Prop
  | none : IsFraction []
  | some {ds : List Char} (h : IsDigits ds) : IsFraction ('.' :: ds)

theorem IsFraction.readFraction {cs rest : List Char} (h : IsFraction cs)
    (stop : NoDigit rest) (noPoint : ∀ c ∈ rest.head?, c ≠ '.') :
    Json.readFraction (cs ++ rest) = Option.some (cs, rest) := by
  cases h with
  | none =>
    cases rest with
    | nil => rfl
    | cons c rest =>
      rw [List.nil_append, Json.readFraction]
      rintro more ⟨⟩
      exact noPoint _ rfl rfl
  | some h => rw [List.cons_append, Json.readFraction, h.readDigits stop]; rfl

inductive IsPower : List Char → Prop
  | none : IsPower []
  | some {sign : Char} {ds : List Char} (h : IsDigits ds) (isSign : sign = '+' ∨ sign = '-') :
    IsPower ('e' :: sign :: ds)

theorem IsPower.readPower {cs rest : List Char} (h : IsPower cs) (stop : Ends rest) :
    Json.readPower (cs ++ rest) = Option.some (cs, rest) := by
  cases h with
  | none =>
    cases rest with
    | nil => rfl
    | cons c rest =>
      have := stop c rfl
      simp only [goesOn, Bool.or_eq_false_iff, beq_eq_false_iff_ne] at this
      rw [List.nil_append]; simp only [Json.readPower]; rw [if_neg (by simp [this])]
  | some h isSign =>
    rw [List.cons_append, List.cons_append]
    simp only [Json.readPower, if_pos isSign, h.readDigits stop.noDigit]
    rfl

/-- In front of an exponent or of what ends a number, a fraction ends. -/
theorem IsPower.stops {cs rest : List Char} (h : IsPower cs) (stop : Ends rest) :
    ∀ c ∈ (cs ++ rest).head?, Decimal.isDigit c = false ∧ c ≠ '.' := by
  cases h with
  | none =>
    intro c hc
    have := stop c hc
    simp only [goesOn, Bool.or_eq_false_iff, beq_eq_false_iff_ne] at this
    exact this.1.1
  | some h isSign =>
    rintro c ⟨⟩
    decide

/-- In front of a fraction, the digits before the point end. -/
theorem IsFraction.stops {cs rest : List Char} (h : IsFraction cs) (stop : NoDigit rest) :
    NoDigit (cs ++ rest) := by
  cases h with
  | none => exact stop
  | some h =>
    rintro c ⟨⟩
    decide

inductive IsNumber : List Char → Prop
  | unsigned {whole fraction power : List Char} (w : IsWhole whole) (f : IsFraction fraction)
      (p : IsPower power) : IsNumber (whole ++ fraction ++ power)
  | negative {whole fraction power : List Char} (w : IsWhole whole) (f : IsFraction fraction)
      (p : IsPower power) : IsNumber ('-' :: (whole ++ fraction ++ power))

theorem readUnsigned_append {whole fraction power rest : List Char} (w : IsWhole whole)
    (f : IsFraction fraction) (p : IsPower power) (stop : Ends rest) :
    readUnsigned (whole ++ fraction ++ power ++ rest) =
      some (whole ++ fraction ++ power, rest) := by
  have noDigit : NoDigit (power ++ rest) := fun c hc => (p.stops stop c hc).1
  have atPower : readFraction (fraction ++ (power ++ rest)) = some (fraction, power ++ rest) :=
    f.readFraction noDigit fun c hc => (p.stops stop c hc).2
  simp only [List.append_assoc, readUnsigned, w.readWhole (f.stops noDigit), Option.bind_some,
    bind, atPower, p.readPower stop]
  rfl

/-! Tokens -/

theorem readToken_digit {c : Char} {rest : List Char} (h : Decimal.isDigit c = true) :
    readToken (c :: rest) =
      (readUnsigned (c :: rest)).map fun (lexeme, rest) => (.num lexeme, rest) := by
  rw [readToken]
  all_goals
    rintro more ⟨⟩
    exact absurd h (by decide)

theorem IsNumber.readToken {lexeme rest : List Char} (h : IsNumber lexeme) (stop : Ends rest) :
    Json.readToken (lexeme ++ rest) = some (.num lexeme, rest) := by
  cases h with
  | unsigned w f p =>
    have read := readUnsigned_append w f p stop
    obtain ⟨c, more, rfl⟩ := List.exists_cons_of_ne_nil w.nonempty
    simp only [List.cons_append] at read ⊢
    rw [readToken_digit (w.digits c (by simp)), read]
    rfl
  | negative w f p => rw [List.cons_append, Json.readToken, readUnsigned_append w f p stop]; rfl

theorem tokensFrom_space {c : Char} {rest : List Char} (done : List Token) (h : isSpace c = true) :
    tokensFrom done (c :: rest) = tokensFrom done rest := by
  rw [tokensFrom, if_pos h]

/-- No token starts with a blank. -/
theorem isSpace_of_readToken {c : Char} {rest : List Char} {found : Token × List Char}
    (h : readToken (c :: rest) = some found) : isSpace c = false := by
  rw [Bool.eq_false_iff]
  intro space
  simp only [isSpace, Bool.or_eq_true, beq_iff_eq] at space
  rcases space with ((rfl | rfl) | rfl) | rfl
  all_goals
    simp [readToken, readUnsigned, readWhole, readDigits, Decimal.isDigit] at h

theorem tokensFrom_token {cs after : List Char} {t : Token} (done : List Token)
    (h : readToken cs = some (t, after)) : tokensFrom done cs = tokensFrom (t :: done) after := by
  cases cs with
  | nil => cases h
  | cons c rest =>
    rw [tokensFrom, isSpace_of_readToken h, if_neg Bool.false_ne_true]
    split
    next none => cases h.symm.trans none
    next t' after' found =>
      cases h.symm.trans found
      rfl

/-! What a writer adds to a text -/

/-- The characters added to `a` are cut into `ts` where a number may end behind them. -/
def Adds (ts : List Token) (a b : String) : Prop :=
  ∃ cs, b.toList = a.toList ++ cs ∧ ∀ done rest, Ends rest →
    tokensFrom done (cs ++ rest) = tokensFrom (ts.reverse ++ done) rest

/-- A number may also end in front of what is added. -/
def AddsApart (ts : List Token) (a b : String) : Prop :=
  ∃ cs, b.toList = a.toList ++ cs ∧ ∀ done rest, Ends rest →
    Ends (cs ++ rest) ∧ tokensFrom done (cs ++ rest) = tokensFrom (ts.reverse ++ done) rest

/-- A number may end in front of what is added, and anything may follow it. -/
def AddsFirmly (ts : List Token) (a b : String) : Prop :=
  ∃ cs, b.toList = a.toList ++ cs ∧ ∀ done rest,
    Ends (cs ++ rest) ∧ tokensFrom done (cs ++ rest) = tokensFrom (ts.reverse ++ done) rest

section

variable {ts us : List Token} {a b c : String}

theorem AddsApart.adds (h : AddsApart ts a b) : Adds ts a b := by
  obtain ⟨cs, text, cut⟩ := h
  exact ⟨cs, text, fun done rest stop => (cut done rest stop).2⟩

theorem AddsFirmly.apart (h : AddsFirmly ts a b) : AddsApart ts a b := by
  obtain ⟨cs, text, cut⟩ := h
  exact ⟨cs, text, fun done rest _ => cut done rest⟩

theorem AddsApart.refl (a : String) : AddsApart [] a a :=
  ⟨[], by simp, fun _ _ stop => ⟨stop, rfl⟩⟩

theorem Adds.trans (h : Adds ts a b) (next : AddsApart us b c) : Adds (ts ++ us) a c := by
  obtain ⟨cs, text, cut⟩ := h
  obtain ⟨cs', text', cut'⟩ := next
  refine ⟨cs ++ cs', by simp [text', text], fun done rest stop => ?_⟩
  obtain ⟨stop', tail⟩ := cut' (ts.reverse ++ done) rest stop
  rw [List.append_assoc, cut done _ stop', tail]
  simp

theorem AddsApart.trans (h : AddsApart ts a b) (next : AddsApart us b c) :
    AddsApart (ts ++ us) a c := by
  obtain ⟨cs, text, cut⟩ := h
  obtain ⟨cs', text', cut'⟩ := next
  refine ⟨cs ++ cs', by simp [text', text], fun done rest stop => ?_⟩
  obtain ⟨stop', tail⟩ := cut' (ts.reverse ++ done) rest stop
  obtain ⟨stop, head⟩ := cut done _ stop'
  rw [List.append_assoc, head, tail]
  exact ⟨stop, by simp⟩

theorem AddsFirmly.adds (h : AddsFirmly ts a b) (next : Adds us b c) :
    AddsApart (ts ++ us) a c := by
  obtain ⟨cs, text, cut⟩ := h
  obtain ⟨cs', text', cut'⟩ := next
  refine ⟨cs ++ cs', by simp [text', text], fun done rest stop => ?_⟩
  obtain ⟨stop', head⟩ := cut done (cs' ++ rest)
  rw [List.append_assoc, head, cut' _ _ stop]
  exact ⟨stop', by simp⟩

theorem AddsFirmly.trans (h : AddsFirmly ts a b) (next : AddsFirmly us b c) :
    AddsFirmly (ts ++ us) a c := by
  obtain ⟨cs, text, cut⟩ := h
  obtain ⟨cs', text', cut'⟩ := next
  refine ⟨cs ++ cs', by simp [text', text], fun done rest => ?_⟩
  obtain ⟨stop, head⟩ := cut done (cs' ++ rest)
  rw [List.append_assoc, head, (cut' _ _).2]
  exact ⟨stop, by simp⟩

end

theorem toList_append (out : String) (cs : List Char) :
    (append out cs).toList = out.toList ++ cs := by
  induction cs generalizing out with
  | nil => simp [append]
  | cons c cs ih =>
    have rest := ih (out.push c)
    rw [append] at rest
    rw [append, List.foldl_cons, rest]
    simp

/-- A bracket, a brace, a comma or a colon is one token. -/
theorem addsFirmly_push {c : Char} {t : Token} (out : String) (stop : goesOn c = false)
    (read : ∀ rest, readToken (c :: rest) = some (t, rest)) :
    AddsFirmly [t] out (out.push c) :=
  ⟨[c], by simp, fun done rest => ⟨.cons stop, tokensFrom_token done (read rest)⟩⟩

theorem addsFirmly_comma (out : String) : AddsFirmly [.comma] out (out.push ',') :=
  addsFirmly_push out (by decide) fun _ => rfl

theorem addsFirmly_newline (out : String) (level : Nat) :
    AddsFirmly [] out (newline out level) := by
  have blanks (n : Nat) (done : List Token) (rest : List Char) :
      tokensFrom done (List.replicate n ' ' ++ rest) = tokensFrom done rest := by
    induction n with
    | zero => rfl
    | succ n ih => rw [List.replicate_succ, List.cons_append, tokensFrom_space done rfl, ih]
  refine ⟨'\n' :: List.replicate (2 * level) ' ', by simp [newline, toList_append],
    fun done rest => ⟨.cons (by decide), ?_⟩⟩
  rw [List.cons_append, tokensFrom_space done rfl, blanks]
  rfl

theorem addsFirmly_appendQuoted (out : String) (cs : List Char) :
    AddsFirmly [.str (escape cs)] out (appendQuoted out (escape cs)) := by
  refine ⟨'"' :: (escape cs ++ ['"']), by simp [appendQuoted, toList_append],
    fun done rest => ⟨.cons (by decide), tokensFrom_token done ?_⟩⟩
  simp [readToken, readString_escape]

theorem adds_append {lexeme : List Char} (out : String) (h : IsNumber lexeme) :
    Adds [.num lexeme] out (append out lexeme) :=
  ⟨lexeme, toList_append out lexeme,
    fun done _ stop => tokensFrom_token done (h.readToken stop)⟩

/-- A name is one token. -/
theorem adds_name {name : String} {t : Token} (out : String)
    (read : ∀ rest, readToken (name.toList ++ rest) = some (t, rest)) :
    Adds [t] out (out ++ name) :=
  ⟨name.toList, by simp, fun done rest _ => tokensFrom_token done (read rest)⟩

theorem adds_null (out : String) : Adds [.null] out (out ++ "null") := adds_name out fun _ => rfl

theorem adds_bool (out : String) (b : Bool) :
    Adds [.bool b] out (out ++ (if b then "true" else "false")) := by
  cases b with
  | false => exact adds_name out fun _ => rfl
  | true => exact adds_name out fun _ => rfl

/-! The tokens of a value -/

mutual

def lexemes : Json → List Token
  | .null => [.null]
  | .bool b => [.bool b]
  | .num lexeme => [.num lexeme]
  | .str raw => [.str raw]
  | .arr items => [.openBracket] ++ itemLexemes true items ++ [.closeBracket]
  | .obj fields => [.openBrace] ++ fieldLexemes true fields ++ [.closeBrace]

def itemLexemes (first : Bool) : List Json → List Token
  | [] => []
  | j :: rest => (if first then [] else [.comma]) ++ lexemes j ++ itemLexemes false rest

def fieldLexemes (first : Bool) : List (List Char × Json) → List Token
  | [] => []
  | (key, j) :: rest =>
    (if first then [] else [.comma]) ++ [.str key] ++ [.colon] ++ lexemes j ++
      fieldLexemes false rest

end

/-- Every number and string of a value is spelled as JSON spells them. -/
inductive Spelled : Json → Prop
  | null : Spelled .null
  | bool (b : Bool) : Spelled (.bool b)
  | num {lexeme : List Char} (h : IsNumber lexeme) : Spelled (.num lexeme)
  | str (cs : List Char) : Spelled (.str (escape cs))
  | arr {items : List Json} (h : ∀ j ∈ items, Spelled j) : Spelled (.arr items)
  | obj {fields : List (List Char × Json)} (keys : ∀ f ∈ fields, ∃ cs, f.1 = escape cs)
      (h : ∀ f ∈ fields, Spelled f.2) : Spelled (.obj fields)

/-! In one line -/

theorem addsApart_writeItems {items : List Json} (out : String)
    (h : ∀ j ∈ items, ∀ out, Adds (lexemes j) out (writeCompact out j)) :
    AddsApart (itemLexemes false items) out (writeItems out false items) := by
  induction items generalizing out with
  | nil => exact .refl out
  | cons j rest ih =>
    have item := (addsFirmly_comma out).adds (h j (by simp) _)
    exact item.trans (ih _ fun k hk => h k (by simp [hk]))

theorem adds_writeItems {items : List Json} (out : String)
    (h : ∀ j ∈ items, ∀ out, Adds (lexemes j) out (writeCompact out j)) :
    Adds (itemLexemes true items) out (writeItems out true items) := by
  cases items with
  | nil => exact (AddsApart.refl out).adds
  | cons j rest =>
    exact (h j (by simp) out).trans (addsApart_writeItems _ fun k hk => h k (by simp [hk]))

/-- A key, a colon and a value. -/
theorem addsApart_field {key : List Char} {j : Json} {a b c : String} (h : ∃ cs, key = escape cs)
    (colon : AddsFirmly [.colon] (appendQuoted a key) b) (value : Adds (lexemes j) b c) :
    AddsApart ([.str key] ++ [.colon] ++ lexemes j) a c := by
  obtain ⟨cs, rfl⟩ := h
  exact ((addsFirmly_appendQuoted a cs).trans colon).adds value

theorem addsFirmly_colon (out : String) : AddsFirmly [.colon] out (out.push ':') :=
  addsFirmly_push out (by decide) fun _ => rfl

theorem addsApart_writeFields {fields : List (List Char × Json)} (out : String)
    (keys : ∀ f ∈ fields, ∃ cs, f.1 = escape cs)
    (h : ∀ f ∈ fields, ∀ out, Adds (lexemes f.2) out (writeCompact out f.2)) (first : Bool) :
    AddsApart (fieldLexemes first fields) out (writeFields out first fields) := by
  induction fields generalizing out first with
  | nil => exact .refl out
  | cons f rest ih =>
    have tail (out : String) := ih out (fun k hk => keys k (by simp [hk]))
      (fun k hk => h k (by simp [hk])) false
    have field (out : String) := addsApart_field (keys f (by simp))
      (addsFirmly_colon (appendQuoted out f.1)) (h f (by simp) _)
    cases first with
    | true => exact (field out).trans (tail _)
    | false =>
      have entry := (addsFirmly_comma out).apart.trans (field (out.push ','))
      exact entry.trans (tail _)

/-- What the one-line writer adds for a value is cut into the tokens of the value. -/
theorem Spelled.adds_writeCompact {j : Json} (h : Spelled j) (out : String) :
    Adds (lexemes j) out (writeCompact out j) := by
  induction h generalizing out with
  | null => exact adds_null out
  | bool b => exact adds_bool out b
  | num h => exact adds_append out h
  | str cs => exact (addsFirmly_appendQuoted out cs).apart.adds
  | arr h ih =>
    have opened : AddsFirmly [.openBracket] out (out.push '[') :=
      addsFirmly_push out (by decide) fun _ => rfl
    have items := opened.adds (adds_writeItems _ fun j hj out => ih j hj out)
    exact (items.trans (addsFirmly_push _ (by decide) fun _ => rfl).apart).adds
  | obj keys h ih =>
    have opened : AddsFirmly [.openBrace] out (out.push '\x7b') :=
      addsFirmly_push out (by decide) fun _ => rfl
    have fields := addsApart_writeFields (out.push '\x7b') keys (fun f hf out => ih f hf out) true
    have inside := opened.apart.trans fields
    exact (inside.trans (addsFirmly_push _ (by decide) fun _ => rfl).apart).adds

/-! Over many lines -/

theorem addsApart_writeItemLines {items : List Json} (out : String) (level : Nat)
    (h : ∀ j ∈ items, ∀ out level, Adds (lexemes j) out (writePretty out level j)) (first : Bool) :
    AddsApart (itemLexemes first items) out (writeItemLines out level first items) := by
  induction items generalizing out first with
  | nil => exact .refl out
  | cons j rest ih =>
    have tail (out : String) := ih out (fun k hk => h k (by simp [hk])) false
    have item (out : String) := (addsFirmly_newline out level).adds (h j (by simp) _ level)
    cases first with
    | true => exact (item out).trans (tail _)
    | false =>
      have entry := (addsFirmly_comma out).apart.trans (item (out.push ','))
      exact entry.trans (tail _)

theorem addsFirmly_colonSpace (out : String) : AddsFirmly [.colon] out (out ++ ": ") :=
  ⟨[':', ' '], by simp, fun done rest => ⟨.cons (by decide), by
    rw [List.cons_append, tokensFrom_token done (t := .colon) rfl, List.singleton_append,
      tokensFrom_space _ rfl]
    rfl⟩⟩

theorem addsApart_writeFieldLines {fields : List (List Char × Json)} (out : String) (level : Nat)
    (keys : ∀ f ∈ fields, ∃ cs, f.1 = escape cs)
    (h : ∀ f ∈ fields, ∀ out level, Adds (lexemes f.2) out (writePretty out level f.2))
    (first : Bool) :
    AddsApart (fieldLexemes first fields) out (writeFieldLines out level first fields) := by
  induction fields generalizing out first with
  | nil => exact .refl out
  | cons f rest ih =>
    have tail (out : String) := ih out (fun k hk => keys k (by simp [hk]))
      (fun k hk => h k (by simp [hk])) false
    have field (out : String) := (addsFirmly_newline out level).apart.trans (addsApart_field
      (keys f (by simp)) (addsFirmly_colonSpace (appendQuoted (newline out level) f.1))
      (h f (by simp) _ level))
    cases first with
    | true => exact (field out).trans (tail _)
    | false =>
      have entry := (addsFirmly_comma out).apart.trans (field (out.push ','))
      exact entry.trans (tail _)

/-- An array or object with nothing in it stands on one line. -/
theorem append_pair (out : String) (x y : Char) :
    out ++ String.ofList [x, y] = (out.push x).push y := by
  apply String.toList_inj.mp
  simp

/-- What the writer of many lines adds for a value is cut into the tokens of the value. -/
theorem Spelled.adds_writePretty {j : Json} (h : Spelled j) (out : String) (level : Nat) :
    Adds (lexemes j) out (writePretty out level j) := by
  induction h generalizing out level with
  | null => exact adds_null out
  | bool b => exact adds_bool out b
  | num h => exact adds_append out h
  | str cs => exact (addsFirmly_appendQuoted out cs).apart.adds
  | @arr items h ih =>
    have opened : AddsFirmly [.openBracket] out (out.push '[') :=
      addsFirmly_push out (by decide) fun _ => rfl
    have closed (out : String) : AddsFirmly [.closeBracket] out (out.push ']') :=
      addsFirmly_push out (by decide) fun _ => rfl
    cases items with
    | nil =>
      have pair := (opened.trans (closed _)).apart.adds
      rw [← append_pair] at pair
      exact pair
    | cons j rest =>
      have lines := addsApart_writeItemLines (out.push '[') (level + 1)
        (fun j hj out => ih j hj out) true
      have last := (opened.apart.trans lines).trans (addsFirmly_newline _ level).apart
      rw [List.append_nil] at last
      exact (last.trans (closed _).apart).adds
  | @obj fields keys h ih =>
    have opened : AddsFirmly [.openBrace] out (out.push '\x7b') :=
      addsFirmly_push out (by decide) fun _ => rfl
    have closed (out : String) : AddsFirmly [.closeBrace] out (out.push '\x7d') :=
      addsFirmly_push out (by decide) fun _ => rfl
    cases fields with
    | nil =>
      have pair := (opened.trans (closed _)).apart.adds
      rw [← append_pair] at pair
      exact pair
    | cons f rest =>
      have lines := addsApart_writeFieldLines (out.push '\x7b') (level + 1) keys
        (fun f hf out => ih f hf out) true
      have last := (opened.apart.trans lines).trans (addsFirmly_newline _ level).apart
      rw [List.append_nil] at last
      exact (last.trans (closed _).apart).adds

/-! Reading the tokens -/

namespace Progress

/-- The first token of a value never closes an array. -/
theorem run_itemOrEnd (j : Json) (stack : List Open) (ts : List Token) :
    run ⟨stack, .itemOrEnd⟩ (lexemes j ++ ts) = run ⟨stack, .value⟩ (lexemes j ++ ts) := by
  cases j with
  | _ => rfl

theorem run_items {items : List Json} (done : List Json) (stack : List Open) (ts : List Token)
    (h : ∀ j ∈ items, ∀ stack ts,
      run ⟨stack, .value⟩ (lexemes j ++ ts) = run (.complete j stack) ts) :
    run ⟨.arr done :: stack, .commaOrEnd⟩ (itemLexemes false items ++ .closeBracket :: ts) =
      run (.complete (.arr (done.reverse ++ items)) stack) ts := by
  induction items generalizing done with
  | nil => simp [itemLexemes, run, step]
  | cons j rest ih =>
    have first := h j (by simp) (.arr done :: stack)
      (itemLexemes false rest ++ .closeBracket :: ts)
    have others := ih (j :: done) fun k hk => h k (by simp [hk])
    simp only [itemLexemes, List.append_assoc, Bool.false_eq_true, if_false, List.cons_append,
      List.nil_append]
    rw [run]
    simp only [step]
    rw [first, complete, others]
    simp

theorem run_fields {fields : List (List Char × Json)} (done : List (List Char × Json))
    (key : List Char) (stack : List Open) (ts : List Token)
    (h : ∀ f ∈ fields, ∀ stack ts,
      run ⟨stack, .value⟩ (lexemes f.2 ++ ts) = run (.complete f.2 stack) ts) :
    run ⟨.obj done key :: stack, .commaOrEnd⟩ (fieldLexemes false fields ++ .closeBrace :: ts) =
      run (.complete (.obj (done.reverse ++ fields)) stack) ts := by
  induction fields generalizing done key with
  | nil => simp [fieldLexemes, run, step]
  | cons f rest ih =>
    have first := h f (by simp) (.obj done f.1 :: stack)
      (fieldLexemes false rest ++ .closeBrace :: ts)
    have others := ih (f :: done) f.1 fun k hk => h k (by simp [hk])
    simp only [fieldLexemes, List.append_assoc, Bool.false_eq_true, if_false, List.cons_append,
      List.nil_append]
    simp only [run, step]
    rw [first, complete, others]
    simp

/-- Behind the tokens of a value the value is complete. -/
theorem run_lexemes {j : Json} (h : Spelled j) (stack : List Open) (ts : List Token) :
    run ⟨stack, .value⟩ (lexemes j ++ ts) = run (.complete j stack) ts := by
  induction h generalizing stack ts with
  | null | bool b | num h | str cs => rfl
  | @arr items h ih =>
    simp only [lexemes, List.append_assoc, List.cons_append, List.nil_append]
    rw [run]
    simp only [step, begin]
    cases items with
    | nil => rfl
    | cons j rest =>
      simp only [itemLexemes, List.append_assoc, if_true, List.nil_append]
      rw [run_itemOrEnd, ih j (by simp), complete,
        run_items [j] stack ts fun k hk => ih k (by simp [hk])]
      rfl
  | @obj fields keys h ih =>
    simp only [lexemes, List.append_assoc, List.cons_append, List.nil_append]
    rw [run]
    simp only [step, begin]
    cases fields with
    | nil => rfl
    | cons f rest =>
      simp only [fieldLexemes, List.append_assoc, if_true, List.nil_append, List.cons_append]
      simp only [run, step]
      rw [ih f (by simp), complete, run_fields [f] f.1 stack ts fun k hk => ih k (by simp [hk])]
      rfl

end Progress

/-- A text that is cut into the tokens of a value reads as that value. -/
theorem Spelled.ofText? {j : Json} {text : String} (h : Spelled j)
    (added : Adds (lexemes j) "" text) : Json.ofText? text = some j := by
  obtain ⟨cs, all, cut⟩ := added
  have cut : tokens text.toList = some (lexemes j) := by
    have := cut [] [] .nil
    rw [List.append_nil, List.append_nil] at this
    rw [all, String.toList_empty, List.nil_append, tokens, this, tokensFrom]
    simp
  have read := Progress.run_lexemes h [] []
  rw [List.append_nil] at read
  rw [Json.ofText?, cut, Option.bind_some, read]
  rfl

/-- The text of a value in one line reads as the value. -/
theorem Spelled.ofText?_compact {j : Json} (h : Spelled j) : Json.ofText? j.compact = some j :=
  h.ofText? (h.adds_writeCompact "")

/-- The text of a value over many lines reads as the value. -/
theorem Spelled.ofText?_pretty {j : Json} (h : Spelled j) : Json.ofText? j.pretty = some j :=
  h.ofText? (h.adds_writePretty "" 0)

end Stepwise.Json
