import Stepwise.Decimal.Numeral
import Stepwise.Value

/-! Templates of formatted output and input: literal characters and directives. One reading of a
template serves both directions. -/

namespace Stepwise.Format

inductive Conversion where
  | int
  | unsigned
  | hex
  | char
  | float
  | exp
  | pointer
deriving DecidableEq, Repr

namespace Conversion

def name : Conversion → String
  | int => "Int"
  | unsigned => "Unsigned"
  | hex => "Hex"
  | char => "Char"
  | float => "Float"
  | exp => "Exp"
  | pointer => "Pointer"

def isInteger : Conversion → Bool
  | int | unsigned | hex => true
  | _ => false

/-- The conversions of numbers; only their fields are filled with zeros. -/
def isNumeric : Conversion → Bool
  | char | pointer => false
  | _ => true

def ofLetter? : Char → Option Conversion
  | 'd' | 'i' => some int
  | 'u' => some unsigned
  | 'x' => some hex
  | 'c' => some char
  | 'f' => some float
  | 'e' => some exp
  | 'p' => some pointer
  | _ => none

end Conversion

inductive Error where
  | unsupported (letter : Char)
  /-- The template ends before the letter of a directive. -/
  | unfinished
  | argumentCount (wanted given : Nat)
  | wrongArgument (conversion : Conversion) (shape : String)
  /-- A directive is left without an argument, though as many were given as are wanted. -/
  | missingArgument (conversion : Conversion)
  | pointerInput
  /-- More characters are to be filled in than a text can have bytes. -/
  | capacityOverflow
deriving DecidableEq, Repr

def Conversion.wants : Conversion → String
  | int | unsigned | hex => "an integer"
  | char => "a character"
  | float | exp => "a floating value"
  | pointer => "a pointer"

def Error.message : Error → String
  | unsupported letter => s!"unsupported conversion '%{letter}'"
  | unfinished => "format ends in the middle of a directive"
  | argumentCount wanted given => s!"format expects {wanted} argument(s) but {given} given"
  | wrongArgument conversion shape =>
    conversion.name ++ " conversion expects " ++ conversion.wants ++ ", found " ++ shape
  | missingArgument conversion =>
    conversion.name ++ " conversion expects " ++ conversion.wants ++ ", found " ++
      Value.undefined.shape
  | pointerInput => "'%p' cannot be used for input"
  | capacityOverflow => "capacity overflow"

/-- One directive: a percent sign, flags, a width, a precision and a letter. -/
structure Directive where
  leftAlign : Bool
  zeroPad : Bool
  width : Option Nat
  precision : Option Nat
  conversion : Conversion
deriving DecidableEq, Repr

inductive Piece where
  | literal (c : Char)
  | directive (d : Directive)
deriving DecidableEq, Repr

/-- Widths and precisions are 64-bit numbers; a longer row of digits is none. -/
def readSize? (digits : List Char) : Option Nat :=
  (Decimal.readNat? 10 digits).filter (· < UInt64.size)

def isFlag (c : Char) : Bool := c == '-' || c == '0'

/-- Length letters, which change nothing. -/
def isLength (c : Char) : Bool := c == 'l' || c == 'h'

/-- The precision at the front of a text: a point and digits, where no digits mean 0. -/
def readPrecision : List Char → Option Nat × List Char
  | '.' :: rest =>
    (some ((readSize? (rest.takeWhile Decimal.isDigit)).getD 0), rest.dropWhile Decimal.isDigit)
  | cs => (none, cs)

def readDirective (cs : List Char) : Except Error (Directive × List Char) :=
  let flags := cs.takeWhile isFlag
  let sized := cs.dropWhile isFlag
  let (precision, rest) := readPrecision (sized.dropWhile Decimal.isDigit)
  match rest.dropWhile isLength with
  | [] => .error .unfinished
  | letter :: rest =>
    match Conversion.ofLetter? letter with
    | none => .error (.unsupported letter)
    | some conversion =>
      .ok (⟨flags.contains '-', flags.contains '0', readSize? (sized.takeWhile Decimal.isDigit),
        precision, conversion⟩, rest)

theorem length_dropWhile_le {α : Type} (p : α → Bool) (l : List α) :
    (l.dropWhile p).length ≤ l.length := (List.dropWhile_sublist p).length_le

theorem length_readPrecision_le (cs : List Char) : (readPrecision cs).2.length ≤ cs.length := by
  unfold readPrecision
  split
  · exact Nat.le_trans (length_dropWhile_le ..) (Nat.le_succ _)
  · exact Nat.le_refl _

/-- A directive takes at least its letter. -/
theorem length_of_readDirective {cs rest : List Char} {d : Directive}
    (h : readDirective cs = .ok (d, rest)) : rest.length < cs.length := by
  unfold readDirective at h
  simp only at h
  split at h
  · cases h
  · rename_i letter more shape
    split at h
    · cases h
    · cases h
      have h1 := length_dropWhile_le isFlag cs
      have h2 := length_dropWhile_le Decimal.isDigit (cs.dropWhile isFlag)
      have h3 := length_readPrecision_le ((cs.dropWhile isFlag).dropWhile Decimal.isDigit)
      have h4 := length_dropWhile_le isLength
        (readPrecision ((cs.dropWhile isFlag).dropWhile Decimal.isDigit)).2
      rw [shape, List.length_cons] at h4
      omega

/-- The pieces of a template. A doubled percent sign is a literal one. -/
def pieces (cs : List Char) : Except Error (List Piece) :=
  match cs with
  | [] => .ok []
  | '%' :: '%' :: rest => (pieces rest).map (.literal '%' :: ·)
  | '%' :: rest =>
    match h : readDirective rest with
    | .error e => .error e
    | .ok (d, after) =>
      have : after.length < rest.length := length_of_readDirective h
      (pieces after).map (.directive d :: ·)
  | c :: rest => (pieces rest).map (.literal c :: ·)
termination_by cs.length

def directives (ps : List Piece) : List Directive :=
  ps.filterMap fun
    | .directive d => some d
    | .literal _ => none

end Stepwise.Format
