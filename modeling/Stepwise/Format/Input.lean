import Stepwise.Format.Template
import Stepwise.Text.Blank

/-! Formatted input. Blanks part the input into words; a conversion takes the next word, or the next
character, and stays where it is when that does not fit. Literal characters of a template are
passed over. -/

namespace Stepwise.Format

def readInteger? (c : Conversion) (word : List Char) : Option Int32 :=
  match c with
  | .hex =>
    let digits := match word with
      | '0' :: 'x' :: rest | '0' :: 'X' :: rest => rest
      | _ => word
    ((Decimal.readNat? 16 digits).filter (· < UInt32.size)).map Int32.ofNat
  | .unsigned =>
    ((Decimal.readInt? word).filter fun n => -2147483648 ≤ n && n < 4294967296).map Int32.ofInt
  | _ => ((Decimal.readInt? word).filter fun n => -2147483648 ≤ n && n < 2147483648).map Int32.ofInt

def lowByte (c : Char) : Int8 := (UInt8.ofNat c.toNat).toInt8

def inWord (c : Char) : Bool := !Text.isBlank c

/-- Takes one value off an input that does not start with a blank. -/
def Conversion.read (c : Conversion) (input : List Char) :
    Except Error (Option (Value × List Char)) :=
  let word := input.takeWhile inWord
  let rest := input.dropWhile inWord
  match c with
  | .char => .ok (match input with
    | [] => none
    | x :: more => some (.char (lowByte x), more))
  | .float | .exp => .ok ((Decimal.readFloat? word).map fun x => (.float x, rest))
  | .pointer => .error .pointerInput
  | _ => .ok ((readInteger? c word).map fun n => (.int n, rest))

/-- The values that conversions take off an input until one does not fit, and the input behind
them. -/
def readAll : List Conversion → List Char → Except Error (List Value) × List Char
  | [], input => (.ok [], input)
  | c :: cs, input =>
    match input.dropWhile Text.isBlank with
    | [] => (.ok [], [])
    | input =>
      match c.read input with
      | .error e => (.error e, input)
      | .ok none => (.ok [], input)
      | .ok (some (v, rest)) =>
        let (more, rest) := readAll cs rest
        (more.map (v :: ·), rest)

structure Scan where
  conversions : List Conversion
  values : List Value
  /-- Whether the input had ended before the first conversion. -/
  exhausted : Bool
deriving DecidableEq, Repr

/-- The value of the act: how many values were read, or -1 at the end of the input. -/
def Scan.result (s : Scan) : Int32 :=
  if s.values.isEmpty && s.exhausted then -1 else Int32.ofNat s.values.length

/-- Formatted input: what it found, and the input that is left in any case. -/
def scan (template : String) (input : List Char) : Except Error Scan × List Char :=
  match pieces template.toList with
  | .error e => (.error e, input)
  | .ok ps =>
    let conversions := (directives ps).map (·.conversion)
    let (values, rest) := readAll conversions input
    (values.map fun vs => ⟨conversions, vs, !conversions.isEmpty && input.all Text.isBlank⟩, rest)

end Stepwise.Format
