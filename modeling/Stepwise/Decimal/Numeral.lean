import Stepwise.Decimal.Binary64

/-! Reading numbers. A numeral is cut off the front of a text as long as it goes, and its value is
the exact decimal rounded once. Whole texts are read as integers with an optional sign. -/

namespace Stepwise.Decimal

def isDigit (c : Char) : Bool := '0' ≤ c && c ≤ '9'

def isHexDigit (c : Char) : Bool :=
  isDigit c || ('a' ≤ c && c ≤ 'f') || ('A' ≤ c && c ≤ 'F')

def digitValue (c : Char) : Nat :=
  if isDigit c then c.toNat - '0'.toNat
  else if 'a' ≤ c then c.toNat - 'a'.toNat + 10
  else c.toNat - 'A'.toNat + 10

def digitsValue (base : Nat) (ds : List Char) : Nat :=
  ds.foldl (fun n c => base * n + digitValue c) 0

/-- Digits, then an optional point with more digits, then an optional exponent. -/
structure Numeral where
  whole : List Char
  fraction : Option (List Char)
  /-- Whether the exponent is negative, and its digits. -/
  exponent : Option (Bool × List Char)
deriving Repr

/-- An exponent at the front of a text: a letter `e`, an optional sign, and at least one digit. -/
def readExponent? : List Char → Option ((Bool × List Char) × List Char)
  | mark :: sign :: digit :: rest =>
    if mark = 'e' ∨ mark = 'E' then
      if isDigit sign then
        let more := digit :: rest
        some ((false, sign :: more.takeWhile isDigit), more.dropWhile isDigit)
      else if (sign = '+' ∨ sign = '-') ∧ isDigit digit then
        some ((sign = '-', digit :: rest.takeWhile isDigit), rest.dropWhile isDigit)
      else none
    else none
  | [mark, digit] =>
    if (mark = 'e' ∨ mark = 'E') ∧ isDigit digit then some ((false, [digit]), []) else none
  | _ => none

/-- The longest numeral at the front of a text and what follows it. -/
def Numeral.read (cs : List Char) : Numeral × List Char :=
  let whole := cs.takeWhile isDigit
  let (fraction, rest) := match cs.dropWhile isDigit with
    | '.' :: rest => (some (rest.takeWhile isDigit), rest.dropWhile isDigit)
    | rest => (none, rest)
  match readExponent? rest with
  | some (exponent, rest) => (⟨whole, fraction, some exponent⟩, rest)
  | none => (⟨whole, fraction, none⟩, rest)

def Numeral.isFloating (n : Numeral) : Bool := n.fraction.isSome || n.exponent.isSome

def Numeral.digits (n : Numeral) : List Char := n.whole ++ n.fraction.getD []

/-- The power of ten that the last of `digits` counts. -/
def Numeral.scale (n : Numeral) : Int :=
  let shift : Int := match n.exponent with
    | none => 0
    | some (negative, ds) => if negative then -(digitsValue 10 ds : Int) else digitsValue 10 ds
  shift - (n.fraction.getD []).length

def Numeral.toFloat (n : Numeral) (negative : Bool) : Float :=
  ofDecimal negative (digitsValue 10 n.digits) n.scale

/-- Takes an optional sign off a text; says whether it was a minus. -/
def splitSign : List Char → Bool × List Char
  | '-' :: rest => (true, rest)
  | '+' :: rest => (false, rest)
  | cs => (false, cs)

def readInt? (cs : List Char) : Option Int :=
  let (negative, ds) := splitSign cs
  if ds.isEmpty || !ds.all isDigit then none
  else some (if negative then -(digitsValue 10 ds : Int) else digitsValue 10 ds)

def readNat? (base : Nat) (cs : List Char) : Option Nat :=
  let ds := match cs with
    | '+' :: rest => rest
    | _ => cs
  if ds.isEmpty || !ds.all (fun c => isHexDigit c && digitValue c < base) then none
  else some (digitsValue base ds)

def lower (c : Char) : Char :=
  if 'A' ≤ c && c ≤ 'Z' then Char.ofNat (c.toNat + 32) else c

/-- A whole text as a double: a signed numeral with at least one digit before its exponent, or a
name of infinity or of no number, in any case of letters. -/
def readFloat? (cs : List Char) : Option Float :=
  let (negative, rest) := splitSign cs
  let name := String.ofList (rest.map lower)
  if name = "inf" ∨ name = "infinity" then
    some (Float.ofBits (if negative then 0xFFF0000000000000 else 0x7FF0000000000000))
  else if name = "nan" then some (Float.ofBits 0x7FF8000000000000)
  else match Numeral.read rest with
    | (n, []) => if n.digits.isEmpty then none else some (n.toFloat negative)
    | _ => none

end Stepwise.Decimal
