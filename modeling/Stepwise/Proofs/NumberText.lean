import Stepwise.Proofs.JsonText
import Stepwise.Proofs.ShortestDecimal

/-! The texts of numbers. A numeral with all its parts in order reads as itself, the text of a
finite double is such a numeral, and the decimal that it writes rounds to the double; so a double
that is written reads back as itself. -/

namespace Stepwise.Decimal

open Json (IsDigits IsWhole IsFraction IsPower IsNumber NoDigit Ends takeWhile_isDigit
  dropWhile_isDigit)

/-! Rows of digits -/

theorem isDigit_eq (c : Char) : isDigit c = c.isDigit := by
  rw [Bool.eq_iff_iff]
  simp [isDigit, Char.isDigit, Char.le_def, UInt32.le_iff_toNat_le]

theorem digitsValue_eq {ds : List Char} (h : ∀ c ∈ ds, isDigit c = true) :
    digitsValue 10 ds = Nat.ofDigitChars 10 ds 0 := by
  have from_start (n : Nat) :
      ds.foldl (fun n c => 10 * n + digitValue c) n = Nat.ofDigitChars 10 ds n := by
    induction ds generalizing n with
    | nil => simp
    | cons c ds ih =>
      rw [List.foldl_cons, Nat.ofDigitChars_cons, ih (fun d hd => h d (by simp [hd])), digitValue,
        if_pos (h c (by simp))]
  exact from_start 0

theorem isDigits_toDigits (n : Nat) : IsDigits (Nat.toDigits 10 n) where
  digits c hc := by
    rw [isDigit_eq]
    exact Nat.isDigit_of_mem_toDigits (by decide) (by decide) hc
  nonempty := Nat.toDigits_ne_nil

theorem isDigits_zero : IsDigits ['0'] := isDigits_toDigits 0

theorem digitsValue_toDigits (n : Nat) : digitsValue 10 (Nat.toDigits 10 n) = n := by
  rw [digitsValue_eq (isDigits_toDigits n).digits, Nat.ofDigitChars_ten_toDigits]

theorem head?_toDigits {n : Nat} (h : n ≠ 0) : (Nat.toDigits 10 n).head? ≠ some '0' := by
  induction n using Nat.strongRecOn with
  | ind n ih =>
    rw [Nat.toDigits_eq_if (by decide)]
    split
    next small =>
      have : ∀ n < 10, n ≠ 0 → some n.digitChar ≠ some '0' := by decide
      exact this n small h
    next large =>
      have first := ih (n / 10) (by omega) (by omega)
      obtain ⟨c, ds, digits⟩ :=
        List.exists_cons_of_ne_nil (Nat.toDigits_ne_nil (b := 10) (n := n / 10))
      rw [digits] at first ⊢
      exact first

theorem isWhole_toDigits (n : Nat) : IsWhole (Nat.toDigits 10 n) where
  toIsDigits := isDigits_toDigits n
  lead h := by
    by_cases zero : n = 0
    · rw [zero]
      rfl
    · exact absurd h (head?_toDigits zero)

def fractionText : Option (List Char) → List Char
  | none => []
  | some ds => '.' :: ds

def exponentPart : Option (Bool × List Char) → List Char
  | none => []
  | some (negative, ds) => 'e' :: (if negative then '-' else '+') :: ds

def Numeral.text (n : Numeral) : List Char :=
  n.whole ++ fractionText n.fraction ++ exponentPart n.exponent

/-- Every part of a numeral has digits, and a zero before the point stands alone. -/
structure Numeral.Proper (n : Numeral) : Prop where
  whole : IsWhole n.whole
  fraction : ∀ ds ∈ n.fraction, IsDigits ds
  exponent : ∀ e ∈ n.exponent, IsDigits e.2

namespace Numeral.Proper

variable {n : Numeral}

theorem isFraction (h : n.Proper) : IsFraction (fractionText n.fraction) := by
  cases found : n.fraction with
  | none => exact .none
  | some ds => exact .some (h.fraction ds found)

theorem isPower (h : n.Proper) : IsPower (exponentPart n.exponent) := by
  cases found : n.exponent with
  | none => exact .none
  | some e =>
    refine .some (h.exponent e found) ?_
    cases e.1 with
    | false => exact .inl rfl
    | true => exact .inr rfl

/-- The text of a numeral spells a number, also behind a minus sign. -/
theorem isNumber (h : n.Proper) (negative : Bool) :
    IsNumber ((if negative then ['-'] else []) ++ n.text) := by
  cases negative with
  | false => exact .unsigned h.whole h.isFraction h.isPower
  | true => exact .negative h.whole h.isFraction h.isPower

theorem readExponent (h : n.Proper) :
    readExponent? (exponentPart n.exponent) = n.exponent.map fun e => (e, []) := by
  cases found : n.exponent with
  | none => rfl
  | some e =>
    obtain ⟨negative, ds⟩ := e
    have digits := h.exponent _ found
    obtain ⟨c, more, rfl⟩ := List.exists_cons_of_ne_nil digits.nonempty
    have first := digits.digits c (by simp)
    have rest : ∀ d ∈ more, isDigit d = true := fun d hd => digits.digits d (by simp [hd])
    have taken := takeWhile_isDigit rest Ends.nil.noDigit
    have dropped := dropWhile_isDigit rest Ends.nil.noDigit
    rw [List.append_nil] at taken dropped
    have plus : isDigit '+' = false := by decide
    have minus : isDigit '-' = false := by decide
    cases negative with
    | false => simp [exponentPart, readExponent?, first, plus, taken, dropped]
    | true => simp [exponentPart, readExponent?, first, minus, taken, dropped]

/-- Reading the text of a numeral gives the numeral. -/
theorem read (h : n.Proper) : Numeral.read n.text = (n, []) := by
  have stop := h.isPower.stops Ends.nil
  rw [List.append_nil] at stop
  have noDigit : NoDigit (exponentPart n.exponent) := fun c hc => (stop c hc).1
  have wholeStop := h.isFraction.stops noDigit
  unfold Numeral.read Numeral.text
  rw [List.append_assoc, takeWhile_isDigit h.whole.digits wholeStop,
    dropWhile_isDigit h.whole.digits wholeStop]
  obtain ⟨whole, fraction, exponent⟩ := n
  have exponentRead := h.readExponent
  cases fraction with
  | none =>
    cases exponent with
    | none => rfl
    | some e =>
      simp only [exponentPart] at exponentRead
      simp [fractionText, exponentPart, exponentRead]
  | some ds =>
    have digits := h.fraction ds rfl
    simp only [fractionText, List.cons_append, takeWhile_isDigit digits.digits noDigit,
      dropWhile_isDigit digits.digits noDigit]
    rw [exponentRead]
    cases exponent with
    | none => rfl
    | some e => rfl

theorem head_isDigit (h : n.Proper) : ∃ c rest, n.text = c :: rest ∧ isDigit c = true := by
  obtain ⟨c, more, whole⟩ := List.exists_cons_of_ne_nil h.whole.nonempty
  refine ⟨c, more ++ fractionText n.fraction ++ exponentPart n.exponent, ?_,
    h.whole.digits c (by simp [whole])⟩
  simp [Numeral.text, whole]

theorem splitSign (h : n.Proper) (negative : Bool) :
    Decimal.splitSign ((if negative then ['-'] else []) ++ n.text) = (negative, n.text) := by
  cases negative with
  | true => rfl
  | false =>
    obtain ⟨c, rest, text, digit⟩ := h.head_isDigit
    simp only [text, Bool.false_eq_true, if_false, List.nil_append]
    rw [Decimal.splitSign]
    · rintro more ⟨⟩
      exact absurd digit (by decide)
    · rintro more ⟨⟩
      exact absurd digit (by decide)

/-- A text that starts with a digit is no name. -/
theorem not_name (h : n.Proper) {name : String} {c : Char} {rest : List Char}
    (first : name.toList = c :: rest) (letter : isDigit c = false) :
    String.ofList (n.text.map lower) ≠ name := by
  intro same
  obtain ⟨d, more, text, digit⟩ := h.head_isDigit
  rw [text, List.map_cons] at same
  have small : lower d = d := by
    rw [lower, if_neg]
    simp only [isDigit, Bool.and_eq_true, decide_eq_true_eq, Char.le_def,
      UInt32.le_iff_toNat_le] at *
    have : '9'.val.toNat = 57 := rfl
    have : 'A'.val.toNat = 65 := rfl
    omega
  rw [← same, String.toList_ofList, small] at first
  cases first
  exact absurd digit (by rw [letter]; decide)

/-- The text of a numeral reads as its double. -/
theorem readFloat (h : n.Proper) (negative : Bool) :
    readFloat? ((if negative then ['-'] else []) ++ n.text) = some (n.toFloat negative) := by
  have digits : n.digits.isEmpty = false := by
    rw [List.isEmpty_eq_false_iff, Numeral.digits]
    simp [h.whole.nonempty]
  unfold readFloat?
  rw [h.splitSign]
  simp only
  rw [if_neg, if_neg, h.read]
  · simp [digits]
  · exact h.not_name rfl (by decide)
  · rintro (inf | infinity)
    · exact h.not_name rfl (by decide) inf
    · exact h.not_name rfl (by decide) infinity

end Numeral.Proper

/-! Setting out digits -/

def Numeral.value (n : Numeral) : ℚ := digitsValue 10 n.digits * 10 ^ n.scale

def Scientific.value (s : Scientific) : ℚ := s.digits * 10 ^ s.exponent

theorem digitsValue_append {a b : List Char} (ha : ∀ c ∈ a, isDigit c = true)
    (hb : ∀ c ∈ b, isDigit c = true) :
    digitsValue 10 (a ++ b) = digitsValue 10 a * 10 ^ b.length + digitsValue 10 b := by
  have hab : ∀ c ∈ a ++ b, isDigit c = true := by
    intro c hc
    rcases List.mem_append.mp hc with hc | hc
    · exact ha c hc
    · exact hb c hc
  rw [digitsValue_eq hab, digitsValue_eq ha, digitsValue_eq hb, Nat.ofDigitChars_append,
    Nat.ofDigitChars_eq_ofDigitChars_zero, mul_comm]

theorem isDigit_of_mem_replicate {k : Nat} : ∀ c ∈ List.replicate k '0', isDigit c = true := by
  intro c hc
  rw [List.eq_of_mem_replicate hc]
  decide

theorem digitsValue_replicate (k : Nat) : digitsValue 10 (List.replicate k '0') = 0 := by
  rw [digitsValue_eq isDigit_of_mem_replicate, Nat.ofDigitChars_replicate_zero, Nat.mul_zero]

/-- A text of a decimal: a numeral with the same value. -/
def Writes (s : Scientific) (text : List Char) : Prop :=
  ∃ n : Numeral, n.Proper ∧ n.text = text ∧ n.value = s.value

theorem isWhole_of_head {ds : List Char} (h : IsDigits ds) (lead : ds.head? ≠ some '0') :
    IsWhole ds where
  toIsDigits := h
  lead zero := absurd zero lead

theorem isDigits_append {a b : List Char} (ha : IsDigits a) (hb : ∀ c ∈ b, isDigit c = true) :
    IsDigits (a ++ b) where
  digits c hc := by
    rcases List.mem_append.mp hc with hc | hc
    · exact ha.digits c hc
    · exact hb c hc
  nonempty := by simp [ha.nonempty]

theorem head?_append {a b : List Char} (h : a ≠ []) : (a ++ b).head? = a.head? := by
  obtain ⟨c, rest, rfl⟩ := List.exists_cons_of_ne_nil h
  rfl

/-- Zeros behind the digits and a fraction of zero. -/
theorem writes_whole {digits : Nat} (zeros : Nat) (h : digits ≠ 0 ∨ zeros = 0) :
    Writes ⟨digits, zeros⟩ (Nat.toDigits 10 digits ++ List.replicate zeros '0' ++ ['.', '0']) := by
  have row := isDigits_toDigits digits
  have all := isDigits_append row (isDigit_of_mem_replicate (k := zeros))
  refine ⟨⟨Nat.toDigits 10 digits ++ List.replicate zeros '0', some ['0'], none⟩,
    ⟨?_, ?_, ?_⟩, ?_, ?_⟩
  · rcases h with some_digit | rfl
    · apply isWhole_of_head all
      rw [head?_append row.nonempty]
      exact head?_toDigits some_digit
    · simpa using isWhole_toDigits digits
  · rintro ds ⟨⟩
    exact isDigits_zero
  · rintro e ⟨⟩
  · simp [Numeral.text, fractionText, exponentPart]
  · have last : digitsValue 10 ['0'] = 0 := by decide
    simp only [Numeral.value, Numeral.digits, Numeral.scale, Option.getD_some]
    rw [digitsValue_append all.digits isDigits_zero.digits, digitsValue_append row.digits
      isDigit_of_mem_replicate, digitsValue_toDigits, digitsValue_replicate, last]
    simp [Scientific.value]

/-- The point stands among the digits. -/
theorem writes_inside {digits places : Nat} (h : digits ≠ 0)
    (inside : places < (Nat.toDigits 10 digits).length) (some_place : 0 < places) :
    Writes ⟨digits, -places⟩
      ((Nat.toDigits 10 digits).take ((Nat.toDigits 10 digits).length - places) ++
        '.' :: (Nat.toDigits 10 digits).drop ((Nat.toDigits 10 digits).length - places)) := by
  have row := isDigits_toDigits digits
  have head := head?_toDigits h
  have value := digitsValue_toDigits digits
  generalize Nat.toDigits 10 digits = ds at *
  have both := List.take_append_drop (ds.length - places) ds
  refine ⟨⟨ds.take (ds.length - places), some (ds.drop (ds.length - places)), none⟩,
    ⟨?_, ?_, ?_⟩, ?_, ?_⟩
  · apply isWhole_of_head
    · refine ⟨fun c hc => row.digits c (List.mem_of_mem_take hc), ?_⟩
      apply List.ne_nil_of_length_pos
      rw [List.length_take]
      omega
    · rw [List.head?_take, if_neg (by omega)]
      exact head
  · rintro _ ⟨⟩
    refine ⟨fun c hc => row.digits c (List.mem_of_mem_drop hc), ?_⟩
    apply List.ne_nil_of_length_pos
    rw [List.length_drop]
    omega
  · rintro e ⟨⟩
  · simp [Numeral.text, fractionText, exponentPart]
  · simp only [Numeral.value, Numeral.digits, Numeral.scale, Option.getD_some, both, value,
      List.length_drop, Scientific.value]
    congr 2
    omega

/-- All digits stand behind the point. -/
theorem writes_outside {digits places : Nat} (outside : (Nat.toDigits 10 digits).length ≤ places) :
    Writes ⟨digits, -places⟩
      ('0' :: '.' :: (List.replicate (places - (Nat.toDigits 10 digits).length) '0' ++
        Nat.toDigits 10 digits)) := by
  have row := isDigits_toDigits digits
  have value := digitsValue_toDigits digits
  generalize Nat.toDigits 10 digits = ds at *
  have fraction : IsDigits (List.replicate (places - ds.length) '0' ++ ds) := by
    refine ⟨fun c hc => ?_, by simp [row.nonempty]⟩
    rcases List.mem_append.mp hc with hc | hc
    · exact isDigit_of_mem_replicate c hc
    · exact row.digits c hc
  refine ⟨⟨['0'], some (List.replicate (places - ds.length) '0' ++ ds), none⟩,
    ⟨isWhole_toDigits 0, ?_, ?_⟩, ?_, ?_⟩
  · rintro _ ⟨⟩
    exact fraction
  · rintro e ⟨⟩
  · simp [Numeral.text, fractionText, exponentPart]
  · have zero : digitsValue 10 ['0'] = 0 := by decide
    simp only [Numeral.value, Numeral.digits, Numeral.scale, Option.getD_some, Scientific.value]
    rw [digitsValue_append isDigits_zero.digits fraction.digits,
      digitsValue_append isDigit_of_mem_replicate row.digits, digitsValue_replicate, zero, value]
    simp only [zero_mul, zero_add, List.length_append, List.length_replicate]
    congr 2
    omega

theorem writes_positionalText {s : Scientific} (h : s.digits ≠ 0 ∨ s.exponent = 0) :
    Writes s (positionalText true s) := by
  obtain ⟨digits, exponent⟩ := s
  unfold positionalText
  simp only
  split
  next nonneg =>
    obtain ⟨zeros, rfl⟩ := Int.eq_ofNat_of_zero_le nonneg
    exact writes_whole zeros (h.imp_right Int.ofNat_eq_zero.mp)
  next neg =>
    obtain ⟨places, hp⟩ := Int.eq_ofNat_of_zero_le (show 0 ≤ -exponent by omega)
    obtain rfl : exponent = -(places : Int) := by omega
    simp only [neg_neg, Int.toNat_natCast]
    split
    next inside => exact writes_inside (h.resolve_right (by simp only; omega)) inside (by omega)
    next outside => exact writes_outside (by omega)

/-- The exponent of a numeral as its sign and digits write it. -/
theorem shift_eq (e : Int) :
    (if decide (e < 0) = true then -(digitsValue 10 (Nat.toDigits 10 e.natAbs) : Int)
      else digitsValue 10 (Nat.toDigits 10 e.natAbs)) = e := by
  rw [digitsValue_toDigits]
  simp only [decide_eq_true_eq]
  split <;> omega

theorem writes_exponentText (s : Scientific) : Writes s (exponentText true s) := by
  have row := isDigits_toDigits s.digits
  have value := digitsValue_toDigits s.digits
  unfold exponentText
  simp only [if_true]
  generalize Nat.toDigits 10 s.digits = ds at *
  obtain ⟨d, more, rfl⟩ := List.exists_cons_of_ne_nil row.nonempty
  have lead : IsWhole [d] := by
    refine ⟨⟨fun c hc => ?_, by simp⟩, fun h => ?_⟩
    · apply row.digits
      simp only [List.mem_singleton] at hc
      simp [hc]
    · cases h
      rfl
  generalize he : s.exponent + (((d :: more).length : Int) - 1) = e
  have power := isDigits_toDigits e.natAbs
  have sign : (if e < 0 then ['-'] else ['+']) = [if decide (e < 0) = true then '-' else '+'] := by
    simp only [decide_eq_true_eq]
    split <;> rfl
  rw [sign]
  simp only [List.length_cons] at he
  cases more with
  | nil =>
    refine ⟨⟨[d], none, some (e < 0, Nat.toDigits 10 e.natAbs)⟩, ⟨lead, ?_, ?_⟩, ?_, ?_⟩
    · rintro ds ⟨⟩
    · rintro p ⟨⟩
      exact power
    · simp [Numeral.text, fractionText, exponentPart]
    · simp only [Numeral.value, Numeral.digits, Numeral.scale, shift_eq, Option.getD_none,
        List.append_nil, value, Scientific.value]
      congr 2
      simp at he ⊢
      omega
  | cons c more =>
    refine ⟨⟨[d], some (c :: more), some (e < 0, Nat.toDigits 10 e.natAbs)⟩, ⟨lead, ?_, ?_⟩, ?_, ?_⟩
    · rintro ds ⟨⟩
      exact ⟨fun x hx => row.digits x (List.mem_cons_of_mem d hx), by simp⟩
    · rintro p ⟨⟩
      exact power
    · simp [Numeral.text, fractionText, exponentPart]
    · simp only [Numeral.value, Numeral.digits, Numeral.scale, shift_eq, Option.getD_some,
        List.cons_append, List.nil_append, value, Scientific.value]
      congr 2
      simp at he ⊢
      omega

theorem writes_unsigned {s : Scientific} (h : s.digits ≠ 0 ∨ s.exponent = 0) :
    Writes s (Json.doubleLayout.unsigned s) := by
  unfold Layout.unsigned
  simp only
  split
  next => exact writes_positionalText h
  next => exact writes_exponentText s

/-! Doubles -/

/-- A finite double is put together again from its sign, mantissa and exponent. -/
theorem assemble_eq {x : Float} {negative : Bool} {m : Nat} {e : Int}
    (h : Binary64.ofFloat x = .finite negative m e) : assemble negative m e = x := by
  rw [assemble, ← (ofBits_finite h).2, UInt64.ofNat_toNat, ofBits_toBits]

/-- A numeral with the value of the shortest decimal of a double rounds to the double. -/
theorem toFloat_of_value {n : Numeral} (negative : Bool) {tie : Tie} {m : Nat} {e : Int}
    (c : Canonical m e) (h : n.value = (shortest tie m e).value) :
    n.toFloat negative = assemble negative m e := by
  rw [Numeral.value, Scientific.value] at h
  unfold Numeral.toFloat
  rcases Nat.eq_zero_or_pos m with rfl | positive
  · have ten_pos : (10 : ℚ) ^ n.scale ≠ 0 := by positivity
    rw [shortest, if_pos rfl, Nat.cast_zero, zero_mul, mul_eq_zero, or_iff_left ten_pos,
      Nat.cast_eq_zero] at h
    rw [h, ofDecimal, if_pos (.inl rfl)]
    rfl
  · apply ofDecimal_of_rounds negative positive c
    rw [h]
    exact (shortest_rounds tie positive c).2

/-- The text of a finite double spells a number and reads as the double. -/
theorem finiteText_reads {x : Float} {negative : Bool} {m : Nat} {e : Int}
    (h : Binary64.ofFloat x = .finite negative m e) :
    IsNumber (Json.doubleLayout.finiteText negative m e) ∧
      Json.lexemeFloat? (Json.doubleLayout.finiteText negative m e) = some x := by
  have c := (ofBits_finite h).1
  have proper : (shortest .even m e).digits ≠ 0 ∨ (shortest .even m e).exponent = 0 := by
    rcases Nat.eq_zero_or_pos m with rfl | positive
    · exact .inr rfl
    · exact .inl (shortest_rounds .even positive c).1
  obtain ⟨n, hn, text, value⟩ := writes_unsigned proper
  have number := hn.isNumber negative
  have read := hn.readFloat negative
  rw [text] at number
  rw [toFloat_of_value negative c value, assemble_eq h, text] at read
  refine ⟨number, ?_⟩
  have finite : Json.doubleLayout.finiteText negative m e = (if negative then ['-'] else []) ++
    Json.doubleLayout.unsigned (shortest .even m e) := rfl
  rw [Json.lexemeFloat?, finite, read, Option.filter_some, h]
  rfl

/-! Naturals -/

theorem roundHalfEven_le (num den : Nat) : roundHalfEven num den ≤ num / den + 1 := by
  unfold roundHalfEven
  simp only
  split
  next => omega
  next =>
    split
    next => omega
    next => omega

theorem packBits_lt {m : Nat} {e : Int} (short : m ≤ 2 * leadBit) (most : e ≤ 900) :
    packBits m e < 2047 * leadBit := by
  rcases Nat.lt_or_ge m leadBit with small | lead
  · rw [packBits_short small]
    omega
  · rcases Nat.lt_or_eq_of_le short with short | rfl
    · rw [packBits_full lead short (by omega)]
      simp only [leadBit] at *
      omega
    · rw [packBits_carry, packBits_full (by decide) (by decide) (by omega)]
      simp only [leadBit] at *
      omega

/-- A number of 64 bits lies far below the largest double. -/
theorem nearestBits_lt {n : Nat} (h : n < UInt64.size) : nearestBits n 1 < 2047 * leadBit := by
  rcases Nat.eq_zero_or_pos n with rfl | positive
  · decide
  · obtain ⟨e, bits, least, fits, lead⟩ := nearestBits_scale positive Nat.one_pos
    have value := atScale_value n 1 e
    have den_pos := atScale_den_pos n Nat.one_pos e
    have whole : (atScale n 1 e).1 / (atScale n 1 e).2 < 2 * leadBit := by
      rw [Nat.div_lt_iff_lt_mul den_pos]
      rw [← value, div_lt_iff₀ (by exact_mod_cast den_pos)] at fits
      exact_mod_cast fits
    have most : e ≤ 900 := by
      rcases lead with lead | rfl
      · by_contra more
        rw [Nat.cast_one, div_one, le_div_iff₀ (by positivity), leadBit_mul] at lead
        have small : (n : ℚ) < 2 ^ (64 : Int) := by
          have : (n : ℚ) < UInt64.size := by exact_mod_cast h
          exact this.trans_eq (by norm_num [UInt64.size])
        have large : (2 : ℚ) ^ (64 : Int) ≤ 2 ^ (e + 52) :=
          zpow_le_zpow_right₀ (by norm_num) (by omega)
        linarith
      · decide
    rw [bits]
    exact packBits_lt ((roundHalfEven_le _ _).trans whole) most

theorem finite_of_lt {bits : Nat} (h : bits < 2047 * leadBit) :
    ∃ m e, Binary64.ofFloat (Float.ofBits (UInt64.ofNat bits)) = .finite false m e := by
  have bound : bits < UInt64.size := h.trans (by decide)
  have small : (UInt64.ofNat bits).toNat = bits := UInt64.toNat_ofNat_of_lt' bound
  have positive : decide (signBit ≤ bits) = false := by
    apply decide_eq_false
    simp only [signBit, leadBit] at *
    omega
  have finite : bits / leadBit % 2048 ≠ 2047 := by
    simp only [leadBit] at *
    omega
  rw [Binary64.ofFloat, toBits_ofBits (by rwa [small])]
  unfold Binary64.ofBits
  simp only [small, positive, if_neg finite]
  split
  next => exact ⟨_, _, rfl⟩
  next => exact ⟨_, _, rfl⟩

theorem ofDecimal_natural {n : Nat} (h : n < UInt64.size) :
    ofDecimal false n 0 = nearest false n 1 := by
  have length : (Nat.toDigits 10 n).length ≤ 20 :=
    (Nat.length_toDigits_le_iff (by decide) (by decide)).mpr (h.trans (by decide))
  unfold ofDecimal
  simp only
  split
  next zero =>
    rcases zero with rfl | below
    · rfl
    · omega
  next =>
    rw [if_neg (by omega), if_pos (by decide)]
    simp

/-- The digits of a number of 64 bits read as a finite double too. -/
theorem lexemeFloat?_toDigits {n : Nat} (h : n < UInt64.size) :
    (Json.lexemeFloat? (Nat.toDigits 10 n)).isSome = true := by
  have proper : (⟨Nat.toDigits 10 n, none, none⟩ : Numeral).Proper := by
    refine ⟨isWhole_toDigits n, ?_, ?_⟩
    · rintro ds ⟨⟩
    · rintro e ⟨⟩
  have text : (⟨Nat.toDigits 10 n, none, none⟩ : Numeral).text = Nat.toDigits 10 n := by
    simp [Numeral.text, fractionText, exponentPart]
  have value : (⟨Nat.toDigits 10 n, none, none⟩ : Numeral).toFloat false = nearest false n 1 := by
    simp [Numeral.toFloat, Numeral.digits, Numeral.scale, digitsValue_toDigits, ofDecimal_natural h]
  have read := proper.readFloat false
  rw [text, value, if_neg Bool.false_ne_true, List.nil_append] at read
  obtain ⟨m, e, finite⟩ := finite_of_lt (nearestBits_lt h)
  rw [Json.lexemeFloat?, read, Option.filter_some, nearest]
  simp [finite]

end Stepwise.Decimal
