import Stepwise.Proofs.Spelling
import Stepwise.Proofs.Templates
import Stepwise.Run

/-! Fields of integers and characters. Whatever the flags, the width and the precision of a directive are, its
field is one word between blanks, and the conversion that wrote the word reads the argument from it. So with
blanks between the directives formatted input is the inverse of formatted output. Only a field into which more
characters are to be filled than a text can have is not written, and the run that asks for it crashes. -/

namespace Stepwise.Format

open Decimal
open Json (IsDigits)

/-! The texts of integers -/

def zeroFilled (k : Nat) (text : List Char) : List Char :=
  (splitMinus text).1 ++ List.replicate k '0' ++ (splitMinus text).2

theorem splitMinus_of_ne {text : List Char} (h : text.head? ≠ some '-') : splitMinus text = ([], text) := by
  unfold splitMinus
  split
  · exact absurd rfl h
  · rfl

theorem zeroFilled_minus (k : Nat) (text : List Char) :
    zeroFilled k ('-' :: text) = '-' :: (List.replicate k '0' ++ text) := rfl

theorem zeroFilled_of_ne {text : List Char} (h : text.head? ≠ some '-') (k : Nat) :
    zeroFilled k text = List.replicate k '0' ++ text := by
  rw [zeroFilled, splitMinus_of_ne h]
  rfl

theorem head?_zeros {text : List Char} (h : text.head? ≠ some '-') (k : Nat) :
    (List.replicate k '0' ++ text).head? ≠ some '-' := by
  cases k with
  | zero => exact h
  | succ k =>
    intro same
    cases same

theorem length_zeroFilled (k : Nat) (text : List Char) :
    (zeroFilled k text).length = text.length + k := by
  unfold zeroFilled splitMinus
  split <;> simp <;> omega

/-- Zeros in front of zeros are zeros. -/
theorem zeroFilled_zeroFilled (j k : Nat) (text : List Char) :
    zeroFilled j (zeroFilled k text) = zeroFilled (j + k) text := by
  by_cases minus : text.head? = some '-'
  · obtain ⟨rest, rfl⟩ := List.head?_eq_some_iff.mp minus
    rw [zeroFilled_minus, zeroFilled_minus, zeroFilled_minus, List.replicate_add, List.append_assoc]
  · rw [zeroFilled_of_ne minus, zeroFilled_of_ne (head?_zeros minus k), zeroFilled_of_ne minus,
      List.replicate_add, List.append_assoc]

theorem digitsValue_zeros (base k : Nat) (ds : List Char) :
    digitsValue base (List.replicate k '0' ++ ds) = digitsValue base ds := by
  induction k with
  | zero => rfl
  | succ k ih => exact ih

theorem isDigits_zeros {ds : List Char} (h : IsDigits ds) (k : Nat) : IsDigits (List.replicate k '0' ++ ds) where
  digits c hc := (List.mem_append.mp hc).elim (isDigit_of_mem_replicate c) (h.digits c)
  nonempty := List.append_ne_nil_of_right_ne_nil _ h.nonempty

/-- A row of digits has no sign. -/
theorem head?_ne_sign {ds : List Char} (h : ∀ c ∈ ds, isHexDigit c = true) (sign : Char)
    (hs : isHexDigit sign = false) : ds.head? ≠ some sign := by
  intro same
  have := h sign (List.mem_of_head? same)
  rw [hs] at this
  cases this

theorem zeroFilled_digits {ds : List Char} (h : ∀ c ∈ ds, isHexDigit c = true) (k : Nat) :
    zeroFilled k ds = List.replicate k '0' ++ ds :=
  zeroFilled_of_ne (head?_ne_sign h '-' (by decide)) k

theorem isHexDigit_of_isDigit {c : Char} (h : isDigit c = true) : isHexDigit c = true := by
  simp [isHexDigit, h]

theorem isHexDigit_of_mem {ds : List Char} (h : IsDigits ds) : ∀ c ∈ ds, isHexDigit c = true :=
  fun c hc => isHexDigit_of_isDigit (h.digits c hc)

theorem readInt?_digits {ds : List Char} (h : IsDigits ds) : readInt? ds = some (digitsValue 10 ds : Int) := by
  have unsigned : splitSign ds = (false, ds) := by
    unfold splitSign
    split
    · exact absurd rfl (head?_ne_sign (isHexDigit_of_mem h) '-' (by decide))
    · exact absurd rfl (head?_ne_sign (isHexDigit_of_mem h) '+' (by decide))
    · rfl
  have all : ds.all isDigit = true := List.all_eq_true.mpr h.digits
  have some : ds.isEmpty = false := List.isEmpty_eq_false_iff.mpr h.nonempty
  simp [readInt?, unsigned, all, some]

theorem readInt?_minus {ds : List Char} (h : IsDigits ds) :
    readInt? ('-' :: ds) = some (-(digitsValue 10 ds : Int)) := by
  have all : ds.all isDigit = true := List.all_eq_true.mpr h.digits
  have some : ds.isEmpty = false := List.isEmpty_eq_false_iff.mpr h.nonempty
  simp [readInt?, splitSign, all, some]

theorem readInt?_zeroFilled_decimalText (k : Nat) (n : Int) :
    readInt? (zeroFilled k (decimalText n)) = some n := by
  have digits := isDigits_toDigits n.natAbs
  have value : digitsValue 10 (List.replicate k '0' ++ Nat.toDigits 10 n.natAbs) = n.natAbs := by
    rw [digitsValue_zeros, digitsValue_toDigits]
  unfold decimalText
  split
  · show readInt? (zeroFilled k ('-' :: Nat.toDigits 10 n.natAbs)) = _
    rw [zeroFilled_minus, readInt?_minus (isDigits_zeros digits k), value]
    congr 1
    omega
  · rw [List.nil_append, zeroFilled_digits (isHexDigit_of_mem digits), readInt?_digits (isDigits_zeros digits k),
      value]
    congr 1
    omega

/-- A row of digits in base `base`. -/
theorem readNat?_digits {base : Nat} {ds : List Char} (nonempty : ds ≠ [])
    (h : ∀ c ∈ ds, isHexDigit c = true ∧ digitValue c < base) : readNat? base ds = some (digitsValue base ds) := by
  have unsigned := head?_ne_sign (fun c hc => (h c hc).1) '+' (by decide)
  have all : ds.all (fun c => isHexDigit c && digitValue c < base) = true := by
    simpa using h
  have some : ds.isEmpty = false := List.isEmpty_eq_false_iff.mpr nonempty
  unfold readNat?
  split
  · exact absurd rfl unsigned
  · simp [all, some]

theorem digitValue_lt_of_isDigit {c : Char} (h : isDigit c = true) : digitValue c < 10 := by
  simp only [digitValue, h, if_true]
  simp only [isDigit, Bool.and_eq_true, decide_eq_true_eq, Char.le_def, UInt32.le_iff_toNat_le] at h
  have : '9'.val.toNat = 57 := rfl
  have : '0'.toNat = 48 := rfl
  show c.val.toNat - '0'.toNat < 10
  omega

/-- The size that a row of digits writes, if it is one. -/
theorem readSize?_getD {ds : List Char} (h : ∀ c ∈ ds, isDigit c = true)
    (fits : digitsValue 10 ds < UInt64.size) : (readSize? ds).getD 0 = digitsValue 10 ds := by
  by_cases empty : ds = []
  · rw [empty]
    rfl
  · have read := readNat?_digits empty fun c hc =>
      ⟨isHexDigit_of_isDigit (h c hc), digitValue_lt_of_isDigit (h c hc)⟩
    rw [readSize?, read, Option.filter_some, if_pos (decide_eq_true fits)]
    rfl

theorem hexDigit_toDigits {n : Nat} {c : Char} (h : c ∈ Nat.toDigits 16 n) : isHexDigit c = true :=
  List.all_eq_true.mp (all_isHexDigit_toDigits n) c h

theorem hexDigit_zeros {k n : Nat} : ∀ c ∈ List.replicate k '0' ++ Nat.toDigits 16 n, isHexDigit c = true := by
  intro c hc
  obtain hc | hc := List.mem_append.mp hc
  · exact isHexDigit_of_isDigit (isDigit_of_mem_replicate c hc)
  · exact hexDigit_toDigits hc

theorem readNat?_zeros (k n : Nat) : readNat? 16 (List.replicate k '0' ++ Nat.toDigits 16 n) = some n := by
  have nonempty : List.replicate k '0' ++ Nat.toDigits 16 n ≠ [] :=
    List.append_ne_nil_of_right_ne_nil _ Nat.toDigits_ne_nil
  rw [readNat?_digits nonempty fun c hc => ⟨hexDigit_zeros c hc, Lexer.digitValue_hex_lt (hexDigit_zeros c hc)⟩,
    digitsValue_zeros, digitsValue_hex]

theorem ofNat_bits (n : Int32) : Int32.ofNat n.toUInt32.toNat = n := by
  apply Int32.toBitVec_inj.mp
  simp

/-- The texts of integers are read as the integers, also with more zeros in front. -/
theorem readInteger?_zeroFilled {c : Conversion} (h : c.isInteger = true) (n : Int32) (k : Nat) :
    readInteger? c (zeroFilled k (integerText c n)) = some n := by
  have bits : n.toUInt32.toNat < 4294967296 := n.toUInt32.toNat_lt
  cases c with
  | int =>
    have low := n.le_toInt
    have high := n.toInt_lt
    simp only [readInteger?, integerText, readInt?_zeroFilled_decimalText]
    rw [Option.filter_some, if_pos (by simp; omega), Option.map_some, Int32.ofInt_toInt]
  | unsigned =>
    have digits := isDigits_toDigits n.toUInt32.toNat
    simp only [readInteger?, integerText]
    rw [zeroFilled_digits (isHexDigit_of_mem digits), readInt?_digits (isDigits_zeros digits k), digitsValue_zeros,
      digitsValue_toDigits, Option.filter_some, if_pos (by simp; omega), Option.map_some]
    exact congrArg some (ofNat_bits n)
  | hex =>
    simp only [readInteger?, integerText, Text.hexDigits]
    rw [zeroFilled_digits fun _ => hexDigit_toDigits]
    -- the second letter of `0x` is no digit
    split
    · rename_i eq
      exact absurd (hexDigit_zeros 'x' (by rw [eq]; simp)) (by decide)
    · rename_i eq
      exact absurd (hexDigit_zeros 'X' (by rw [eq]; simp)) (by decide)
    · rw [readNat?_zeros, Option.filter_some, if_pos (decide_eq_true bits), Option.map_some, ofNat_bits]
  | char | float | exp | pointer => cases h

/-! Blanks -/

def Blank (cs : List Char) : Prop := ∀ c ∈ cs, Text.isBlank c = true

theorem Blank.append {a b : List Char} (ha : Blank a) (hb : Blank b) : Blank (a ++ b) :=
  fun c hc => (List.mem_append.mp hc).elim (ha c) (hb c)

theorem blank_nil : Blank [] := fun _ h => (nomatch h)

theorem blank_spaces (k : Nat) : Blank (List.replicate k ' ') := by
  intro c hc
  rw [List.eq_of_mem_replicate hc]
  rfl

theorem inWord_hexDigit {c : Char} (h : isHexDigit c = true) : inWord c = true := by
  simp only [isHexDigit, isDigit, Bool.or_eq_true, Bool.and_eq_true, decide_eq_true_eq, Char.le_def,
    UInt32.le_iff_toNat_le] at h
  have code : c.val.toNat = c.toNat := rfl
  have : '0'.val.toNat = 48 ∧ '9'.val.toNat = 57 ∧ 'a'.val.toNat = 97 ∧ 'f'.val.toNat = 102 ∧
    'A'.val.toNat = 65 ∧ 'F'.val.toNat = 70 := by decide
  simp only [inWord, Text.isBlank, Bool.not_eq_true', Bool.or_eq_false_iff, Bool.and_eq_false_iff,
    decide_eq_false_iff_not, beq_eq_false_iff_ne]
  omega

theorem inWord_zeroFilled {text : List Char} (h : ∀ c ∈ text, inWord c = true) (k : Nat) :
    ∀ c ∈ zeroFilled k text, inWord c = true := by
  have zeros : ∀ c ∈ List.replicate k '0', inWord c = true :=
    fun c hc => inWord_hexDigit (isHexDigit_of_isDigit (isDigit_of_mem_replicate c hc))
  intro c hc
  by_cases minus : text.head? = some '-'
  · obtain ⟨rest, rfl⟩ := List.head?_eq_some_iff.mp minus
    obtain rfl | hc := List.mem_cons.mp (zeroFilled_minus k rest ▸ hc)
    · rfl
    · exact (List.mem_append.mp hc).elim (zeros c) fun hc => h c (List.mem_cons_of_mem _ hc)
  · exact (List.mem_append.mp (zeroFilled_of_ne minus k ▸ hc)).elim (zeros c) (h c)

theorem inWord_integerText (c : Conversion) (n : Int32) : ∀ d ∈ integerText c n, inWord d = true := by
  have digits (k : Nat) : ∀ d ∈ Nat.toDigits 10 k, inWord d = true :=
    fun d hd => inWord_hexDigit (isHexDigit_of_mem (isDigits_toDigits k) d hd)
  intro d hd
  unfold integerText at hd
  split at hd
  · exact digits _ d hd
  · exact inWord_hexDigit (hexDigit_toDigits hd)
  · unfold decimalText at hd
    obtain hd | hd := List.mem_append.mp hd
    · split at hd
      · rw [List.mem_singleton.mp hd]
        rfl
      · cases hd
    · exact digits _ d hd

/-! Fields -/

theorem zeroFilled_zero (text : List Char) : zeroFilled 0 text = text := by
  unfold zeroFilled splitMinus
  split <;> rfl

theorem lowByte_lowByteChar (n : Int32) : lowByte (lowByteChar n) = n.toInt8 := by
  have code : (Char.ofNat (n.toUInt32.toNat % 256)).toNat = n.toUInt32.toNat % 256 := by
    have valid : (n.toUInt32.toNat % 256).isValidChar := .inl (by omega)
    rw [Char.ofNat, dif_pos valid]
    rfl
  rw [lowByte, lowByteChar, code]
  apply Int8.toBitVec_inj.mp
  show BitVec.ofNat 8 (n.toBitVec.toNat % 256) = BitVec.signExtend 8 n.toBitVec
  apply BitVec.eq_of_toNat_eq
  rw [BitVec.signExtend_eq_setWidth_of_le _ (by decide), BitVec.toNat_ofNat, BitVec.toNat_setWidth]
  omega

theorem readInteger?_nil {c : Conversion} (h : c.isInteger = true) : readInteger? c [] = none := by
  cases c with
  | int | unsigned | hex => rfl
  | char | float | exp | pointer => cases h

/-- A conversion of integers takes a whole word. -/
theorem Conversion.read_integer {c : Conversion} (h : c.isInteger = true) {word rest : List Char} {n : Int32}
    (hw : ∀ x ∈ word, inWord x = true) (hr : Stops inWord rest) (read : readInteger? c word = some n) :
    c.read (word ++ rest) = .ok (some (.int n, rest)) := by
  unfold Conversion.read
  rw [takeWhile_stops hw hr, dropWhile_stops hw hr]
  cases c with
  | int | unsigned | hex => simp only [read, Option.map_some]
  | char | float | exp | pointer => cases h

theorem stops_of_inWord {word : List Char} (h : ∀ c ∈ word, inWord c = true) : Stops Text.isBlank word := by
  intro c hc
  simpa [inWord] using h c (List.mem_of_head? hc)

/-- What comes of a text that has too many characters filled in to be made. -/
def unlessOver (count : Nat) (text : List Char) : Except Error (List Char) :=
  if maxBytes < count then .error .capacityOverflow else .ok text

theorem repeated_bind (c : Char) (count : Nat) (f : List Char → List Char) :
    (repeated c count >>= fun cs => pure (f cs)) = unlessOver count (f (List.replicate count c)) := by
  unfold repeated unlessOver
  split <;> rfl

theorem withMinDigits_eq (least : Option Nat) (text : List Char) : withMinDigits least text =
    unlessOver (least.getD 0 - (splitMinus text).2.length)
      (zeroFilled (least.getD 0 - (splitMinus text).2.length) text) :=
  repeated_bind '0' _ fun zeros => (splitMinus text).1 ++ zeros ++ (splitMinus text).2

namespace Directive

variable (d : Directive) (zeros : Bool) (body : List Char)

/-- A text filled up to the width of a directive, however wide that is. -/
def padded : List Char :=
  if d.leftAlign then body ++ List.replicate (d.width.getD 0 - body.length) ' '
  else if zeros then zeroFilled (d.width.getD 0 - body.length) body
  else List.replicate (d.width.getD 0 - body.length) ' ' ++ body

theorem pad_eq : d.pad zeros body = unlessOver (d.width.getD 0 - body.length) (d.padded zeros body) := by
  unfold pad padded
  split
  · exact repeated_bind ' ' _ fun blanks => body ++ blanks
  · split
    · exact repeated_bind '0' _ fun zeros => (splitMinus body).1 ++ zeros ++ (splitMinus body).2
    · exact repeated_bind ' ' _ fun blanks => blanks ++ body

theorem length_padded : (d.padded zeros body).length = max (d.width.getD 0) body.length := by
  have filled := length_zeroFilled (d.width.getD 0 - body.length) body
  have fill : body.length + (d.width.getD 0 - body.length) = max (d.width.getD 0) body.length := by omega
  unfold padded
  split
  · rw [List.length_append, List.length_replicate, fill]
  · split
    · exact filled.trans fill
    · rw [List.length_append, List.length_replicate, Nat.add_comm, fill]

/-- A field is one word between blanks, the text with or without more zeros. -/
theorem exists_word : ∃ before k after, d.padded zeros body = before ++ (zeroFilled k body ++ after) ∧
    Blank before ∧ Blank after ∧ (zeros = false → k = 0) := by
  unfold padded
  split
  · exact ⟨[], 0, _, by rw [zeroFilled_zero]; rfl, blank_nil, blank_spaces _, fun _ => rfl⟩
  · split
    · rename_i filled
      refine ⟨[], d.width.getD 0 - body.length, [], ?_, blank_nil, blank_nil, ?_⟩
      · rw [List.append_nil]
        rfl
      · intro unfilled
        rw [unfilled] at filled
        cases filled
    · refine ⟨List.replicate (d.width.getD 0 - body.length) ' ', 0, [], ?_, blank_spaces _, blank_nil,
        fun _ => rfl⟩
      rw [zeroFilled_zero, List.append_nil]

end Directive

/-- A directive that writes an integer or a character, its argument, and the blanks behind it. A character
must not be a blank, which reading would pass over. -/
structure Item where
  spelling : Directive.Spelling
  value : Value
  number : Int32
  gap : List Char
  holds : value.toInt? = some number
  fits : digitsValue 10 spelling.width < UInt64.size
  legible : spelling.conversion.isInteger = true ∨
    spelling.conversion = .char ∧ Text.isBlank (lowByteChar number) = false
  blank : Blank gap

namespace Item

variable (i : Item)

def zeros : Nat :=
  match i.spelling.conversion with
  | .char => 0
  | c => i.spelling.directive.precision.getD 0 - (splitMinus (integerText c i.number)).2.length

def unpadded : List Char :=
  match i.spelling.conversion with
  | .char => [lowByteChar i.number]
  | c => zeroFilled i.zeros (integerText c i.number)

def field : List Char :=
  i.spelling.directive.padded (i.spelling.directive.fillsWithZeros i.value) i.unpadded

/-- No more is filled in than a text can have. -/
def Holdable : Prop :=
  i.zeros ≤ maxBytes ∧ i.spelling.directive.width.getD 0 - i.unpadded.length ≤ maxBytes

instance : Decidable i.Holdable := inferInstanceAs (Decidable (_ ∧ _))

def result : Value :=
  match i.spelling.conversion with
  | .char => .char i.number.toInt8
  | _ => .int i.number

theorem body_eq : i.spelling.directive.body i.value = unlessOver i.zeros i.unpadded := by
  have same : i.spelling.directive.conversion = i.spelling.conversion := rfl
  have legible := i.legible
  unfold Directive.body unpadded zeros
  rw [same]
  cases hc : i.spelling.conversion with
  | int | unsigned | hex => simp only [i.holds, withMinDigits_eq]
  | char => simp only [i.holds, unlessOver, Nat.not_lt_zero, if_false]
  | float | exp | pointer =>
    rw [hc] at legible
    obtain integer | ⟨char, -⟩ := legible
    · cases integer
    · cases char

theorem field_eq : i.spelling.directive.field i.value =
    if i.Holdable then .ok i.field else .error .capacityOverflow := by
  rw [Directive.field, body_eq, unlessOver]
  by_cases digits : maxBytes < i.zeros
  · rw [if_pos digits, if_neg fun holdable => absurd digits (Nat.not_lt.mpr holdable.1)]
    rfl
  · rw [if_neg digits]
    show Directive.pad _ _ _ = _
    rw [Directive.pad_eq, unlessOver]
    by_cases width : maxBytes < i.spelling.directive.width.getD 0 - i.unpadded.length
    · rw [if_pos width, if_neg fun holdable => absurd width (Nat.not_lt.mpr holdable.2)]
    · rw [if_neg width, if_pos ⟨Nat.not_lt.mp digits, Nat.not_lt.mp width⟩]
      rfl

theorem length_field : i.field.length = max (digitsValue 10 i.spelling.width) i.unpadded.length := by
  rw [field, Directive.length_padded, ← readSize?_getD i.spelling.areDigits i.fits]
  rfl

theorem unpadded_of_isInteger (h : i.spelling.conversion.isInteger = true) :
    ∃ k, i.unpadded = zeroFilled k (integerText i.spelling.conversion i.number) := by
  unfold unpadded
  split
  · rename_i char
    rw [char] at h
    cases h
  · exact ⟨_, rfl⟩

theorem result_of_isInteger (h : i.spelling.conversion.isInteger = true) : i.result = .int i.number := by
  unfold result
  split
  · rename_i char
    rw [char] at h
    cases h
  · rfl

/-- The field is one word between blanks, and the conversion reads the argument from the word. -/
theorem exists_reading : ∃ before word after, i.field = before ++ (word ++ after) ∧ Blank before ∧
    Blank after ∧ word ≠ [] ∧ Stops Text.isBlank word ∧ ∀ rest, Stops inWord rest →
      i.spelling.conversion.read (word ++ rest) = .ok (some (i.result, rest)) := by
  obtain ⟨before, k, after, split, hb, ha, unfilled⟩ := i.spelling.directive.exists_word
    (i.spelling.directive.fillsWithZeros i.value) i.unpadded
  refine ⟨before, zeroFilled k i.unpadded, after, split, hb, ha, ?_⟩
  obtain integer | ⟨char, black⟩ := i.legible
  · obtain ⟨j, text⟩ := i.unpadded_of_isInteger integer
    have read := readInteger?_zeroFilled integer i.number (k + j)
    have word := inWord_zeroFilled (inWord_integerText i.spelling.conversion i.number) (k + j)
    rw [text, zeroFilled_zeroFilled, i.result_of_isInteger integer]
    refine ⟨?_, stops_of_inWord word, fun rest hr => Conversion.read_integer integer word hr read⟩
    intro empty
    rw [empty, readInteger?_nil integer] at read
    cases read
  · have zero : k = 0 := unfilled (by
      unfold Directive.fillsWithZeros
      have same : i.spelling.directive.conversion = .char := char
      simp [same, Conversion.isNumeric])
    have text : i.unpadded = [lowByteChar i.number] := by
      unfold unpadded
      rw [char]
    have result : i.result = .char i.number.toInt8 := by
      unfold Item.result
      rw [char]
    rw [zero, zeroFilled_zero, text, char, result]
    refine ⟨by simp, ?_, fun rest _ => ?_⟩
    · intro c hc
      cases hc
      exact black
    · rw [← lowByte_lowByteChar]
      rfl

def text : List Char := '%' :: (i.spelling.text ++ i.gap)

def pieces : List Piece := .directive i.spelling.directive :: i.gap.map .literal

end Item

/-- Templates of integers and characters; `lead` stands before the first directive. -/
def templateOf (lead : List Char) (items : List Item) : String :=
  String.ofList (lead ++ items.flatMap Item.text)

def written (lead : List Char) (items : List Item) : List Char :=
  lead ++ items.flatMap fun i => i.field ++ i.gap

variable {lead : List Char} {items : List Item}

theorem Blank.spells (h : Blank lead) {cs : List Char} {ps : List Piece} (hs : Spells cs ps) :
    Spells (lead ++ cs) (lead.map .literal ++ ps) := by
  induction lead with
  | nil => exact hs
  | cons c lead ih =>
    refine .literal ?_ (ih fun c hc => h c (List.mem_cons_of_mem _ hc))
    rintro rfl
    cases h '%' List.mem_cons_self

theorem spells_items (items : List Item) : Spells (items.flatMap Item.text) (items.flatMap Item.pieces) := by
  induction items with
  | nil => exact .nil
  | cons i items ih =>
    rw [List.flatMap_cons, List.flatMap_cons, Item.text, List.cons_append, List.append_assoc]
    exact .directive i.spelling (i.blank.spells ih)

theorem directives_literals (lead : List Char) : directives (lead.map .literal) = [] := by
  induction lead with
  | nil => rfl
  | cons c lead ih => exact ih

theorem directives_items (items : List Item) :
    directives (items.flatMap Item.pieces) = items.map (·.spelling.directive) := by
  induction items with
  | nil => rfl
  | cons i items ih =>
    rw [List.flatMap_cons, directives_append, ih]
    exact congrArg (i.spelling.directive :: · ++ _) (directives_literals i.gap)

theorem fill_literals (lead : List Char) (ps : List Piece) (vs : List Value) :
    fill (lead.map .literal ++ ps) vs = (fill ps vs).map (lead ++ ·) := by
  induction lead with
  | nil =>
    show fill ps vs = (fill ps vs).map id
    cases fill ps vs <;> rfl
  | cons c lead ih =>
    show (fill (lead.map .literal ++ ps) vs).map (c :: ·) = _
    rw [ih]
    cases fill ps vs <;> rfl

/-- The first field that is too long stops the output. -/
theorem fill_items (items : List Item) : fill (items.flatMap Item.pieces) (items.map (·.value)) =
    if ∀ i ∈ items, i.Holdable then .ok (items.flatMap fun i => i.field ++ i.gap)
    else .error .capacityOverflow := by
  induction items with
  | nil => rfl
  | cons i items ih =>
    show (i.spelling.directive.field i.value >>= fun field =>
      fill (i.gap.map .literal ++ items.flatMap Item.pieces) (items.map (·.value)) >>= fun rest =>
        .ok (field ++ rest)) = _
    rw [i.field_eq, fill_literals, ih, List.flatMap_cons, List.append_assoc]
    by_cases all : ∀ j ∈ i :: items, j.Holdable
    · obtain ⟨first, others⟩ := List.forall_mem_cons.mp all
      rw [if_pos all, if_pos first, if_pos others]
      rfl
    · rw [if_neg all]
      by_cases first : i.Holdable
      · rw [if_pos first, if_neg fun others => all (List.forall_mem_cons.mpr ⟨first, others⟩)]
        rfl
      · rw [if_neg first]
        rfl

theorem pieces_templateOf (h : Blank lead) : pieces (templateOf lead items).toList =
    .ok (lead.map .literal ++ items.flatMap Item.pieces) := by
  rw [templateOf, String.toList_ofList]
  exact (h.spells (spells_items items)).pieces_eq

theorem directives_templateOf : directives (lead.map .literal ++ items.flatMap Item.pieces) =
    items.map (·.spelling.directive) := by
  rw [directives_append, directives_literals, directives_items, List.nil_append]

theorem output_items (h : Blank lead) : output (templateOf lead items) (items.map (·.value)) =
    if ∀ i ∈ items, i.Holdable then .ok (String.ofList (written lead items))
    else .error .capacityOverflow := by
  have count : (directives (lead.map .literal ++ items.flatMap Item.pieces)).length =
      (items.map (·.value)).length := by
    rw [directives_templateOf, List.length_map, List.length_map]
  have filled := fill_literals lead (items.flatMap Item.pieces) (items.map (·.value))
  rw [fill_items] at filled
  unfold output
  rw [pieces_templateOf h]
  show (if _ ≠ _ then _ else _ : Except Error String) = _
  rw [if_neg (not_not_intro count)]
  show (fill _ _ >>= fun text => pure (String.ofList text)) = _
  rw [filled]
  split <;> rfl

/-- Behind a word the output goes on with a blank, or ends. -/
theorem stops_written (h : Blank lead) (parted : items ≠ [] → lead ≠ []) :
    Stops inWord (written lead items) := by
  have outside : ∀ c ∈ lead, inWord c = false := fun c hc => by simp [inWord, h c hc]
  cases lead with
  | nil =>
    have none : items = [] := Decidable.not_not.mp fun some => parted some rfl
    rw [none]
    intro c hc
    cases hc
  | cons b lead =>
    intro c hc
    cases hc
    exact outside b List.mem_cons_self

/-- Each conversion takes the word of its own field, and no word runs on into the next one. -/
theorem takes_written (items : List Item) (parted : items.IsChain fun i _ => i.gap ≠ []) (h : Blank lead) :
    ∃ rest, Takes (items.map (·.spelling.conversion)) (written lead items) (items.map Item.result) rest ∧
      Blank rest := by
  induction items generalizing lead with
  | nil =>
    refine ⟨lead, ?_, h⟩
    rw [written, List.flatMap_nil, List.append_nil]
    exact .done
  | cons i items ih =>
    obtain ⟨before, word, after, split, hb, ha, nonempty, black, reads⟩ := i.exists_reading
    have behind : Blank (after ++ i.gap) := ha.append i.blank
    have stops : Stops inWord (written (after ++ i.gap) items) := by
      refine stops_written behind fun some => ?_
      obtain ⟨j, more, rfl⟩ := List.exists_cons_of_ne_nil some
      exact List.append_ne_nil_of_right_ne_nil after (List.isChain_cons_cons.mp parted).1
    have input : (written lead (i :: items)).dropWhile Text.isBlank =
        word ++ written (after ++ i.gap) items := by
      have front : Stops Text.isBlank (word ++ written (after ++ i.gap) items) := by
        obtain ⟨c, more, rfl⟩ := List.exists_cons_of_ne_nil nonempty
        exact fun d hd => black d hd
      have parts : written lead (i :: items) = (lead ++ before) ++ (word ++ written (after ++ i.gap) items) := by
        simp only [written, List.flatMap_cons, split, List.append_assoc]
      rw [parts, dropWhile_stops (h.append hb) front]
    obtain ⟨rest, took, blank⟩ := ih parted.tail behind
    refine ⟨rest, .took ?_ (input ▸ reads _ stops) took, blank⟩
    rw [input]
    exact List.append_ne_nil_of_left_ne_nil nonempty _

end Stepwise.Format
