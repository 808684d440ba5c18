import Stepwise.Format.Input
import Stepwise.Format.Output
import Stepwise.Proofs.Accepted
import Stepwise.Proofs.Positions

/-! Templates put together. The texts of directives and of templates are described without the way they are
read, and reading accepts just these. So a template is read the same way in front of another one, and
formatted output and formatted input by two templates put together come to what the two come to one after
the other. What input is left is an end of the input, and begins with the word that did not fit. -/

namespace Stepwise.Format

open Lexer (exists_ok_of_map)

/-! The text of a directive -/

section

variable {p : Char → Bool} {body rest : List Char}

def Stops (p : Char → Bool) (cs : List Char) : Prop := ∀ c ∈ cs.head?, p c = false

theorem Stops.append (hb : ∀ c ∈ body, p c = false) (hr : Stops p rest) : Stops p (body ++ rest) := by
  cases body with
  | nil => exact hr
  | cons c body =>
    intro d hd
    cases hd
    exact hb _ List.mem_cons_self

theorem takeWhile_stops (hb : ∀ c ∈ body, p c = true) (hr : Stops p rest) :
    (body ++ rest).takeWhile p = body := by
  have stop : rest.takeWhile p = [] := by
    cases rest with
    | nil => rfl
    | cons c rest => simp [hr c rfl]
  rw [List.takeWhile_append_of_pos hb, stop, List.append_nil]

theorem dropWhile_stops (hb : ∀ c ∈ body, p c = true) (hr : Stops p rest) :
    (body ++ rest).dropWhile p = rest := by
  rw [List.dropWhile_append_of_pos hb]
  cases rest with
  | nil => rfl
  | cons c rest => simp [hr c rfl]

theorem stops_dropWhile (p : Char → Bool) (cs : List Char) : Stops p (cs.dropWhile p) := by
  intro c hc
  have := List.head?_dropWhile_not p cs
  rw [hc] at this
  simpa using this

end

namespace Directive

/-- How a directive is written behind its percent sign. A width that began with 0 would begin with a flag. -/
structure Spelling where
  flags : List Char
  width : List Char
  /-- The digits behind the point, if there is one. -/
  precision : Option (List Char)
  lengths : List Char
  letter : Char
  conversion : Conversion
  areFlags : ∀ c ∈ flags, isFlag c = true
  areDigits : ∀ c ∈ width, Decimal.isDigit c = true
  noZero : width.head? ≠ some '0'
  areDecimals : ∀ ds ∈ precision, ∀ c ∈ ds, Decimal.isDigit c = true
  areLengths : ∀ c ∈ lengths, isLength c = true
  converts : Conversion.ofLetter? letter = some conversion

namespace Spelling

def pointText : Option (List Char) → List Char
  | some ds => '.' :: ds
  | none => []

variable (t : Spelling)

def text : List Char := t.flags ++ (t.width ++ (pointText t.precision ++ (t.lengths ++ [t.letter])))

def directive : Directive where
  leftAlign := t.flags.contains '-'
  zeroPad := t.flags.contains '0'
  width := readSize? t.width
  precision := t.precision.map fun ds => (readSize? ds).getD 0
  conversion := t.conversion

end Spelling

end Directive

/-- The letters of conversions are of no other use in a directive. -/
theorem Conversion.letter_apart {letter : Char} {c : Conversion} (h : ofLetter? letter = some c) :
    isFlag letter = false ∧ Decimal.isDigit letter = false ∧ letter ≠ '.' ∧ isLength letter = false ∧
      letter ≠ '%' := by
  unfold ofLetter? at h
  split at h <;> first | decide | cases h

namespace Directive.Spelling

variable (t : Spelling) (rest : List Char)

theorem stops_lengths {p : Char → Bool} (lengths : ∀ c, isLength c = true → p c = false)
    (letter : p t.letter = false) : Stops p (t.lengths ++ t.letter :: rest) := by
  refine Stops.append (fun c hc => lengths c (t.areLengths c hc)) ?_
  intro c hc
  cases hc
  exact letter

theorem stops_pointText {p : Char → Bool} (point : p '.' = false)
    (lengths : ∀ c, isLength c = true → p c = false) (letter : p t.letter = false) :
    Stops p (pointText t.precision ++ (t.lengths ++ t.letter :: rest)) := by
  cases t.precision with
  | some ds =>
    intro c hc
    cases hc
    exact point
  | none => exact t.stops_lengths rest lengths letter

theorem isLength_apart {c : Char} (h : isLength c = true) :
    isFlag c = false ∧ Decimal.isDigit c = false ∧ c ≠ '.' := by
  simp only [isLength, Bool.or_eq_true, beq_iff_eq] at h
  obtain rfl | rfl := h <;> decide

theorem stops_flags : Stops isFlag (t.width ++ (pointText t.precision ++ (t.lengths ++ t.letter :: rest))) := by
  cases hw : t.width with
  | nil =>
    exact t.stops_pointText rest rfl (fun _ h => (isLength_apart h).1)
      (Conversion.letter_apart t.converts).1
  | cons d ds =>
    intro c hc
    cases hc
    -- of the digits only 0 is a flag
    have digit := t.areDigits d (hw ▸ List.mem_cons_self)
    have first := t.noZero
    rw [hw] at first
    simp only [isFlag, Bool.or_eq_false_iff, beq_eq_false_iff_ne]
    refine ⟨?_, fun zero => first (congrArg some zero)⟩
    rintro rfl
    cases digit

theorem readPrecision_text : readPrecision (pointText t.precision ++ (t.lengths ++ t.letter :: rest)) =
    (t.directive.precision, t.lengths ++ t.letter :: rest) := by
  have apart := Conversion.letter_apart t.converts
  unfold directive
  cases hp : t.precision with
  | some ds =>
    have digits := t.areDecimals ds hp
    have stop := t.stops_lengths rest (p := Decimal.isDigit) (fun _ h => (isLength_apart h).2.1) apart.2.1
    show (some ((readSize? ((ds ++ (t.lengths ++ t.letter :: rest)).takeWhile Decimal.isDigit)).getD 0),
      (ds ++ (t.lengths ++ t.letter :: rest)).dropWhile Decimal.isDigit) = _
    rw [takeWhile_stops digits stop, dropWhile_stops digits stop]
    rfl
  | none =>
    have stop : Stops (· == '.') (t.lengths ++ t.letter :: rest) :=
      t.stops_lengths rest (fun _ h => beq_eq_false_iff_ne.mpr (isLength_apart h).2.2)
        (beq_eq_false_iff_ne.mpr apart.2.2.1)
    show readPrecision (t.lengths ++ t.letter :: rest) = _
    unfold readPrecision
    split
    · rename_i eq
      rw [eq] at stop
      exact absurd (stop _ rfl) (by decide)
    · rfl

theorem append_assoc : t.text ++ rest =
    t.flags ++ (t.width ++ (pointText t.precision ++ (t.lengths ++ t.letter :: rest))) := by
  simp only [text, List.append_assoc, List.cons_append, List.nil_append]

/-- A directive that is written so is read, and reading stops behind its letter. -/
theorem readDirective_text : readDirective (t.text ++ rest) = .ok (t.directive, rest) := by
  have flags := t.stops_flags rest
  have apart := Conversion.letter_apart t.converts
  have width := t.stops_pointText rest (p := Decimal.isDigit) rfl (fun _ h => (isLength_apart h).2.1)
    apart.2.1
  have lengths : Stops isLength (t.letter :: rest) := by
    intro c hc
    cases hc
    exact apart.2.2.2.1
  rw [append_assoc]
  unfold readDirective
  simp only [takeWhile_stops t.areFlags flags, dropWhile_stops t.areFlags flags,
    takeWhile_stops t.areDigits width, dropWhile_stops t.areDigits width, readPrecision_text,
    dropWhile_stops t.areLengths lengths, t.converts]
  rfl

/-- No directive begins with a percent sign, which would be a literal one with that in front of it. -/
theorem text_ne_percent (more : List Char) : t.text ++ rest ≠ '%' :: more := by
  intro same
  have unsupported : readDirective ('%' :: more) = .error (.unsupported '%') := rfl
  have read := t.readDirective_text rest
  rw [same, unsupported] at read
  cases read

end Directive.Spelling

theorem exists_precision (cs : List Char) : ∃ precision : Option (List Char),
    (∀ ds ∈ precision, ∀ c ∈ ds, Decimal.isDigit c = true) ∧
      cs = Directive.Spelling.pointText precision ++ (readPrecision cs).2 ∧
        (readPrecision cs).1 = precision.map fun ds => (readSize? ds).getD 0 := by
  unfold readPrecision
  split
  · rename_i rest
    refine ⟨some (rest.takeWhile Decimal.isDigit), ?_, ?_, rfl⟩
    · rintro _ ⟨⟩
      exact List.all_eq_true.mp List.all_takeWhile
    · exact congrArg ('.' :: ·) List.takeWhile_append_dropWhile.symm
  · exact ⟨none, fun _ h => (nomatch h), rfl, rfl⟩

/-- Every directive that is read was written so. -/
theorem exists_spelling {cs rest : List Char} {d : Directive} (h : readDirective cs = .ok (d, rest)) :
    ∃ t : Directive.Spelling, cs = t.text ++ rest ∧ t.directive = d := by
  unfold readDirective at h
  simp only at h
  split at h
  · cases h
  rename_i letter more shape
  split at h
  · cases h
  rename_i conversion converts
  cases h
  obtain ⟨precision, areDecimals, point, size⟩ :=
    exists_precision ((cs.dropWhile isFlag).dropWhile Decimal.isDigit)
  have noZero : ((cs.dropWhile isFlag).takeWhile Decimal.isDigit).head? ≠ some '0' := by
    intro zero
    rw [List.head?_takeWhile] at zero
    cases stops_dropWhile isFlag cs '0' (Option.filter_eq_some_iff.mp zero).1
  refine ⟨⟨cs.takeWhile isFlag, (cs.dropWhile isFlag).takeWhile Decimal.isDigit, precision,
    (readPrecision ((cs.dropWhile isFlag).dropWhile Decimal.isDigit)).2.takeWhile isLength, letter,
    conversion, List.all_eq_true.mp List.all_takeWhile, List.all_eq_true.mp List.all_takeWhile, noZero,
    areDecimals, List.all_eq_true.mp List.all_takeWhile, converts⟩, ?_, ?_⟩
  · rw [Directive.Spelling.append_assoc]
    simp only
    rw [← shape, List.takeWhile_append_dropWhile, ← point, List.takeWhile_append_dropWhile,
      List.takeWhile_append_dropWhile]
  · simp only [Directive.Spelling.directive, size]

/-! The text of a template -/

inductive Spells : List Char → List Piece → Prop where
  | nil : Spells [] []
  | percent {cs ps} : Spells cs ps → Spells ('%' :: '%' :: cs) (.literal '%' :: ps)
  | directive (t : Directive.Spelling) {cs ps} : Spells cs ps →
    Spells ('%' :: (t.text ++ cs)) (.directive t.directive :: ps)
  | literal {c cs ps} : c ≠ '%' → Spells cs ps → Spells (c :: cs) (.literal c :: ps)

theorem spells_of_pieces {cs : List Char} {ps : List Piece} (h : pieces cs = .ok ps) : Spells cs ps := by
  rw [pieces.eq_def] at h
  split at h
  · cases h
    exact .nil
  · obtain ⟨qs, hq, rfl⟩ := exists_ok_of_map h
    exact .percent (spells_of_pieces hq)
  · split at h
    · cases h
    · rename_i d after read
      obtain ⟨qs, hq, rfl⟩ := exists_ok_of_map h
      have shorter := length_of_readDirective read
      have rest := spells_of_pieces hq
      obtain ⟨t, rfl, rfl⟩ := exists_spelling read
      exact .directive t rest
  · rename_i plain
    obtain ⟨qs, hq, rfl⟩ := exists_ok_of_map h
    exact .literal plain (spells_of_pieces hq)
termination_by cs.length
decreasing_by
  all_goals
    subst_vars
    simp only [List.length_cons]
    omega

namespace Spells

variable {cs cs₁ cs₂ : List Char} {ps ps₁ ps₂ : List Piece}

theorem pieces_eq (h : Spells cs ps) : pieces cs = .ok ps := by
  induction h with
  | nil => rw [pieces]
  | percent _ ih =>
    rw [pieces, ih]
    rfl
  | @directive t cs ps _ ih =>
    have read := t.readDirective_text cs
    rw [pieces]
    · split
      · rename_i fails
        rw [read] at fails
        cases fails
      · rename_i d after succeeds
        rw [read] at succeeds
        cases succeeds
        rw [ih]
        rfl
    · exact t.text_ne_percent cs
  | literal plain _ ih =>
    rw [pieces, ih]
    · rfl
    · exact fun _ h => absurd h plain
    · exact plain

theorem append (h₁ : Spells cs₁ ps₁) (h₂ : Spells cs₂ ps₂) : Spells (cs₁ ++ cs₂) (ps₁ ++ ps₂) := by
  induction h₁ with
  | nil => exact h₂
  | percent _ ih => exact .percent ih
  | directive t _ ih =>
    rw [List.cons_append, List.append_assoc]
    exact .directive t ih
  | literal plain _ ih => exact .literal plain ih

end Spells

theorem pieces_append {cs₁ cs₂ : List Char} {ps₁ ps₂ : List Piece} (h₁ : pieces cs₁ = .ok ps₁)
    (h₂ : pieces cs₂ = .ok ps₂) : pieces (cs₁ ++ cs₂) = .ok (ps₁ ++ ps₂) :=
  ((spells_of_pieces h₁).append (spells_of_pieces h₂)).pieces_eq

theorem directives_append (ps₁ ps₂ : List Piece) :
    directives (ps₁ ++ ps₂) = directives ps₁ ++ directives ps₂ := List.filterMap_append

/-! Output -/

theorem fill_append {ps₁ ps₂ : List Piece} {vs₁ vs₂ : List Value} {text₁ text₂ : List Char}
    (count : (directives ps₁).length = vs₁.length) (h₁ : fill ps₁ vs₁ = .ok text₁)
    (h₂ : fill ps₂ vs₂ = .ok text₂) : fill (ps₁ ++ ps₂) (vs₁ ++ vs₂) = .ok (text₁ ++ text₂) := by
  induction ps₁, vs₁ using fill.induct generalizing text₁ with
  | case1 vs₁ =>
    cases List.eq_nil_of_length_eq_zero count.symm
    cases h₁
    exact h₂
  | case2 c ps vs ih =>
    obtain ⟨text, h, rfl⟩ := exists_ok_of_map h₁
    show (fill (ps ++ ps₂) (vs ++ vs₂)).map (c :: ·) = _
    rw [ih count h]
    rfl
  | case3 d ps => cases h₁
  | case4 d ps v vs ih =>
    obtain ⟨field, hf, h₁⟩ := exists_ok_of_bind h₁
    obtain ⟨text, h, h₁⟩ := exists_ok_of_bind h₁
    cases h₁
    show (d.field v >>= fun field => fill (ps ++ ps₂) (vs ++ vs₂) >>= fun rest => .ok (field ++ rest)) = _
    rw [hf, ih (Nat.succ.inj count) h, List.append_assoc]
    rfl

theorem output_eq_ok {template : String} {vs : List Value} {out : String} :
    output template vs = .ok out ↔ ∃ ps, pieces template.toList = .ok ps ∧
      (directives ps).length = vs.length ∧ fill ps vs = .ok out.toList := by
  constructor
  · intro h
    obtain ⟨ps, hp, h⟩ := exists_ok_of_bind h
    dsimp only at h
    split at h
    · cases h
    · rename_i count
      obtain ⟨text, ht, h⟩ := exists_ok_of_bind h
      cases h
      exact ⟨ps, hp, Decidable.not_not.mp count, by rw [ht, String.toList_ofList]⟩
  · rintro ⟨ps, hp, count, ht⟩
    unfold output
    rw [hp]
    simp only [count, ht, bind, Except.bind, ne_eq, not_true_eq_false, if_false, pure, Except.pure,
      String.ofList_toList]

theorem output_append {t₁ t₂ : String} {vs₁ vs₂ : List Value} {out₁ out₂ : String}
    (h₁ : output t₁ vs₁ = .ok out₁) (h₂ : output t₂ vs₂ = .ok out₂) :
    output (t₁ ++ t₂) (vs₁ ++ vs₂) = .ok (out₁ ++ out₂) := by
  obtain ⟨ps₁, hp₁, count₁, ht₁⟩ := output_eq_ok.mp h₁
  obtain ⟨ps₂, hp₂, count₂, ht₂⟩ := output_eq_ok.mp h₂
  refine output_eq_ok.mpr ⟨ps₁ ++ ps₂, ?_, ?_, ?_⟩
  · rw [String.toList_append]
    exact pieces_append hp₁ hp₂
  · rw [directives_append, List.length_append, List.length_append, count₁, count₂]
  · rw [String.toList_append]
    exact fill_append count₁ ht₁ ht₂

/-! Input -/

/-- What conversions take off an input, one after the other, and the input behind that. -/
inductive Takes : List Conversion → List Char → List Value → List Char → Prop where
  | done {input} : Takes [] input [] input
  | ended {c cs input} : input.dropWhile Text.isBlank = [] → Takes (c :: cs) input [] []
  | stuck {c cs input} : input.dropWhile Text.isBlank ≠ [] →
    c.read (input.dropWhile Text.isBlank) = .ok none →
    Takes (c :: cs) input [] (input.dropWhile Text.isBlank)
  | took {c cs input v vs next rest} : input.dropWhile Text.isBlank ≠ [] →
    c.read (input.dropWhile Text.isBlank) = .ok (some (v, next)) → Takes cs next vs rest →
    Takes (c :: cs) input (v :: vs) rest

theorem takes_of_readAll {cs : List Conversion} {input rest : List Char} {vs : List Value}
    (h : readAll cs input = (.ok vs, rest)) : Takes cs input vs rest := by
  induction cs generalizing input vs with
  | nil =>
    cases h
    exact .done
  | cons c cs ih =>
    unfold readAll at h
    split at h
    · rename_i none
      cases h
      exact .ended none
    · rename_i some
      split at h
      · cases h
      · rename_i fails
        cases h
        exact .stuck some fails
      · rename_i v next reads
        dsimp only at h
        obtain ⟨more, hm, rfl⟩ := exists_ok_of_map (congrArg Prod.fst h)
        have left : (readAll cs next).2 = rest := congrArg Prod.snd h
        exact .took some reads (ih (Prod.ext hm left))

namespace Takes

variable {cs cs₁ cs₂ : List Conversion} {input rest rest₁ rest₂ : List Char} {vs vs₁ vs₂ : List Value}

theorem readAll_eq (h : Takes cs input vs rest) : readAll cs input = (.ok vs, rest) := by
  induction h with
  | done => rfl
  | ended none =>
    unfold readAll
    rw [none]
  | stuck some fails =>
    unfold readAll
    split
    · contradiction
    · rw [fails]
  | took some reads _ ih =>
    unfold readAll
    split
    · contradiction
    · rw [reads]
      dsimp only
      rw [ih]
      rfl

theorem length_le (h : Takes cs input vs rest) : vs.length ≤ cs.length := by
  induction h with
  | took _ _ _ ih => exact Nat.succ_le_succ ih
  | _ => exact Nat.zero_le _

/-- When everything was taken, more conversions go on where these stopped. -/
theorem append (h₁ : Takes cs₁ input vs₁ rest₁) (all : vs₁.length = cs₁.length)
    (h₂ : Takes cs₂ rest₁ vs₂ rest₂) : Takes (cs₁ ++ cs₂) input (vs₁ ++ vs₂) rest₂ := by
  induction h₁ with
  | done => exact h₂
  | ended | stuck => cases all
  | took some reads _ ih => exact .took some reads (ih (Nat.succ.inj all) h₂)

/-- What stops early stops there with more conversions too. -/
theorem append_left (h : Takes cs₁ input vs rest) (early : vs.length < cs₁.length)
    (cs₂ : List Conversion) : Takes (cs₁ ++ cs₂) input vs rest := by
  induction h with
  | done => cases early
  | ended none => exact .ended none
  | stuck some fails => exact .stuck some fails
  | took some reads _ ih => exact .took some reads (ih (Nat.lt_of_succ_lt_succ early))

/-- The first conversion that took nothing stood before an input that ends or does not fit it. -/
theorem stopped (h : Takes cs input vs rest) {c : Conversion} (next : cs[vs.length]? = some c) :
    ∃ before, Takes (cs.take vs.length) input vs before ∧ rest = before.dropWhile Text.isBlank ∧
      (rest = [] ∨ c.read rest = .ok none) := by
  induction h with
  | done => cases next
  | @ended _ _ input none => exact ⟨input, .done, none.symm, .inl rfl⟩
  | @stuck _ _ input _ fails =>
    cases next
    exact ⟨input, .done, rfl, .inr fails⟩
  | took some reads _ ih =>
    obtain ⟨before, took, same, stop⟩ := ih next
    exact ⟨before, .took some reads took, same, stop⟩

end Takes

/-- A conversion takes characters off the front only. -/
theorem Conversion.read_suffix {c : Conversion} {input rest : List Char} {v : Value}
    (h : c.read input = .ok (some (v, rest))) : rest <:+ input := by
  cases c with
  | pointer => cases h
  | char =>
    cases input with
    | nil => cases h
    | cons x more =>
      cases h
      exact List.suffix_cons x _
  | _ =>
    obtain ⟨x, -, hx⟩ := Option.map_eq_some_iff.mp (Except.ok.inj h)
    cases hx
    exact List.dropWhile_suffix _

theorem readAll_suffix (cs : List Conversion) (input : List Char) : (readAll cs input).2 <:+ input := by
  have blanks := List.dropWhile_suffix (l := input) Text.isBlank
  induction cs generalizing input with
  | nil => exact List.suffix_refl input
  | cons c cs ih =>
    unfold readAll
    split
    · exact List.nil_suffix
    · split
      · exact blanks
      · exact blanks
      · rename_i reads
        exact ((ih _ (List.dropWhile_suffix _)).trans (Conversion.read_suffix reads)).trans blanks

/-- Only addresses cannot be read. -/
theorem exists_takes {cs : List Conversion} (h : ∀ c ∈ cs, c ≠ .pointer) (input : List Char) :
    ∃ vs rest, Takes cs input vs rest := by
  induction cs generalizing input with
  | nil => exact ⟨[], input, .done⟩
  | cons c cs ih =>
    by_cases none : input.dropWhile Text.isBlank = []
    · exact ⟨[], [], .ended none⟩
    cases hr : c.read (input.dropWhile Text.isBlank) with
    | error e =>
      cases c with
      | pointer => exact absurd rfl (h _ List.mem_cons_self)
      | _ => cases hr
    | ok r =>
      cases r with
      | none => exact ⟨[], _, .stuck none hr⟩
      | some r =>
        obtain ⟨vs, rest, took⟩ := ih (fun c' mem => h c' (List.mem_cons_of_mem c mem)) r.2
        exact ⟨r.1 :: vs, rest, .took none hr took⟩

theorem scan_of_takes {template : String} {ps : List Piece} (hp : pieces template.toList = .ok ps)
    {input rest : List Char} {vs : List Value}
    (took : Takes ((directives ps).map (·.conversion)) input vs rest) :
    ∃ found, scan template input = (.ok found, rest) ∧
      found.conversions = (directives ps).map (·.conversion) ∧ found.values = vs := by
  unfold scan
  rw [hp]
  dsimp only
  rw [took.readAll_eq]
  exact ⟨_, rfl, rfl, rfl⟩

theorem takes_of_scan {template : String} {input rest : List Char} {found : Scan}
    (h : scan template input = (.ok found, rest)) :
    Takes found.conversions input found.values rest := by
  unfold scan at h
  split at h
  · cases h
  · dsimp only at h
    obtain ⟨vs, hv, rfl⟩ := exists_ok_of_map (congrArg Prod.fst h)
    exact takes_of_readAll (Prod.ext hv (congrArg Prod.snd h :))

theorem scan_suffix (template : String) (input : List Char) : (scan template input).2 <:+ input := by
  unfold scan
  split
  · exact List.suffix_refl input
  · exact readAll_suffix _ input

/-- A template that formatted input accepts whatever the input is. -/
def Scannable (template : String) : Prop :=
  ∃ ps, pieces template.toList = .ok ps ∧ ∀ d ∈ directives ps, d.conversion ≠ .pointer

structure Joined (t₁ t₂ : String) (input : List Char) (first second whole : Scan)
    (rest₁ rest₂ rest : List Char) : Prop where
  reads_first : scan t₁ input = (.ok first, rest₁)
  reads_second : scan t₂ rest₁ = (.ok second, rest₂)
  reads_whole : scan (t₁ ++ t₂) input = (.ok whole, rest)
  goes_on : first.values.length = first.conversions.length →
    whole.values = first.values ++ second.values ∧ rest = rest₂
  stops : first.values.length < first.conversions.length → whole.values = first.values ∧ rest = rest₁

theorem exists_joined {t₁ t₂ : String} (h₁ : Scannable t₁) (h₂ : Scannable t₂) (input : List Char) :
    ∃ first second whole rest₁ rest₂ rest, Joined t₁ t₂ input first second whole rest₁ rest₂ rest := by
  obtain ⟨ps₁, hp₁, plain₁⟩ := h₁
  obtain ⟨ps₂, hp₂, plain₂⟩ := h₂
  have hp : pieces (t₁ ++ t₂).toList = .ok (ps₁ ++ ps₂) := by
    rw [String.toList_append]
    exact pieces_append hp₁ hp₂
  have both : (directives (ps₁ ++ ps₂)).map (·.conversion) =
      (directives ps₁).map (·.conversion) ++ (directives ps₂).map (·.conversion) := by
    rw [directives_append, List.map_append]
  obtain ⟨vs₁, rest₁, took₁⟩ := exists_takes (List.forall_mem_map.mpr plain₁) input
  obtain ⟨vs₂, rest₂, took₂⟩ := exists_takes (List.forall_mem_map.mpr plain₂) rest₁
  obtain ⟨first, scan₁, conversions₁, rfl⟩ := scan_of_takes hp₁ took₁
  obtain ⟨second, scan₂, -, rfl⟩ := scan_of_takes hp₂ took₂
  rw [← conversions₁] at took₁ both
  obtain all | early := Nat.eq_or_lt_of_le took₁.length_le
  · obtain ⟨whole, scan, -, values⟩ := scan_of_takes hp (both ▸ took₁.append all took₂)
    exact ⟨first, second, whole, rest₁, rest₂, rest₂, scan₁, scan₂, scan, fun _ => ⟨values, rfl⟩,
      fun early => absurd all (Nat.ne_of_lt early)⟩
  · obtain ⟨whole, scan, -, values⟩ := scan_of_takes hp (both ▸ took₁.append_left early _)
    exact ⟨first, second, whole, rest₁, rest₂, rest₁, scan₁, scan₂, scan,
      fun all => absurd all (Nat.ne_of_lt early), fun _ => ⟨values, rfl⟩⟩

/-- Templates compose. Formatted output by two templates put together is the two texts put together.
Formatted input by them reads on behind the first where that one took all its values and stops where it
stopped early. What is left is in any case an end of the input, and where a conversion took nothing it
begins behind the values taken, blanks apart, with the word that does not fit. -/
theorem templates_compose :
    (∀ (t₁ t₂ : String) (vs₁ vs₂ : List Value) (out₁ out₂ : String), output t₁ vs₁ = .ok out₁ →
      output t₂ vs₂ = .ok out₂ → output (t₁ ++ t₂) (vs₁ ++ vs₂) = .ok (out₁ ++ out₂)) ∧
    (∀ (t₁ t₂ : String) (input : List Char), Scannable t₁ → Scannable t₂ →
      ∃ first second whole rest₁ rest₂ rest,
        Joined t₁ t₂ input first second whole rest₁ rest₂ rest) ∧
    (∀ (template : String) (input : List Char), (scan template input).2 <:+ input) ∧
    (∀ (template : String) (input : List Char) (found : Scan) (rest : List Char),
      scan template input = (.ok found, rest) → found.values.length ≤ found.conversions.length ∧
        ∀ c, found.conversions[found.values.length]? = some c → ∃ before,
          readAll (found.conversions.take found.values.length) input = (.ok found.values, before) ∧
            rest = before.dropWhile Text.isBlank ∧ (rest = [] ∨ c.read rest = .ok none)) := by
  refine ⟨fun _ _ _ _ _ _ => output_append, fun _ _ input h₁ h₂ => exists_joined h₁ h₂ input,
    scan_suffix, ?_⟩
  intro template input found rest h
  have took := takes_of_scan h
  refine ⟨took.length_le, fun c next => ?_⟩
  obtain ⟨before, took, same, stop⟩ := took.stopped next
  exact ⟨before, took.readAll_eq, same, stop⟩

theorem eq_ok_of_toOption {ε α : Type} {x : Except ε α} {a : α} (h : x.toOption = some a) : x = .ok a := by
  cases x with
  | error e => cases h
  | ok b =>
    cases h
    rfl

/-- A width before a literal percent sign; a first template that takes all its values, and one whose second
word does not fit. -/
theorem templates_compose_parted :
    output ("%3d:" ++ "%c%%") ([.int 7] ++ [.char 65]) = .ok ("  7:" ++ "A%") ∧
    (∃ first second whole rest₁ rest₂ rest,
      Joined "%d %c" "%x" " 12 y fg".toList first second whole rest₁ rest₂ rest) ∧
    (scan "%d%d" "7 q 8".toList).2 <:+ "7 q 8".toList ∧
    ∃ before, readAll [.int] "7 q 8".toList = (.ok [.int 7], before) ∧
      "q 8".toList = before.dropWhile Text.isBlank ∧
        ("q 8".toList = [] ∨ Conversion.int.read "q 8".toList = .ok none) := by
  have number : output "%3d:" [.int 7] = .ok "  7:" := eq_ok_of_toOption (by decide +kernel)
  have percent : output "%c%%" [.char 65] = .ok "A%" := eq_ok_of_toOption (by decide +kernel)
  have first : Scannable "%d %c" := ⟨[.directive ⟨false, false, none, none, .int⟩, .literal ' ',
    .directive ⟨false, false, none, none, .char⟩], eq_ok_of_toOption (by decide +kernel), by decide⟩
  have second : Scannable "%x" := ⟨[.directive ⟨false, false, none, none, .hex⟩],
    eq_ok_of_toOption (by decide +kernel), by decide⟩
  have stopped : scan "%d%d" "7 q 8".toList = (.ok ⟨[.int, .int], [.int 7], false⟩, "q 8".toList) :=
    Prod.ext (eq_ok_of_toOption (by decide +kernel)) (by decide +kernel)
  exact ⟨templates_compose.1 _ _ _ _ _ _ number percent,
    templates_compose.2.1 _ _ _ first second, templates_compose.2.2.1 _ _,
    (templates_compose.2.2.2 _ _ _ _ stopped).2 .int rfl⟩

end Stepwise.Format
