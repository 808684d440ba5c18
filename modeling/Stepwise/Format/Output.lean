import Stepwise.Decimal.Rounded
import Stepwise.Format.Template

/-! Formatted output: each directive of a template becomes the text of one argument, filled up to
its width. -/

namespace Stepwise.Format

def splitMinus : List Char → List Char × List Char
  | '-' :: rest => (['-'], rest)
  | cs => ([], cs)

def maxBytes : Nat := 9223372036854775807

/-- A character many times over. The number is looked at before anything is made. -/
def repeated (c : Char) (count : Nat) : Except Error (List Char) :=
  if maxBytes < count then .error .capacityOverflow else .ok (List.replicate count c)

/-- Zeros behind the sign, up to `least` digits. -/
def withMinDigits (least : Option Nat) (text : List Char) : Except Error (List Char) := do
  let (sign, magnitude) := splitMinus text
  let zeros ← repeated '0' (least.getD 0 - magnitude.length)
  return sign ++ zeros ++ magnitude

def decimalText (n : Int) : List Char :=
  (if n < 0 then ['-'] else []) ++ Nat.toDigits 10 n.natAbs

def integerText (c : Conversion) (n : Int32) : List Char :=
  match c with
  | .unsigned => Nat.toDigits 10 n.toUInt32.toNat
  | .hex => Text.hexDigits n.toUInt32.toNat
  | _ => decimalText n.toInt

def lowByteChar (n : Int32) : Char := Char.ofNat (n.toUInt32.toNat % 256)

/-- The text of an argument before it is filled up to the width. -/
def Directive.body (d : Directive) (v : Value) : Except Error (List Char) :=
  let wrong := .error (.wrongArgument d.conversion v.shape)
  match d.conversion, v with
  | .char, v =>
    match v.toInt? with
    | some n => .ok [lowByteChar n]
    | none => wrong
  | .float, .float x => .ok (Decimal.fixed (d.precision.getD 6) x).toList
  | .exp, .float x => .ok (Decimal.scientific (d.precision.getD 6) x).toList
  | .pointer, .address a =>
    .ok (if a = 0 then "(nil)".toList else '0' :: 'x' :: Text.hexDigits a.toNat)
  | .float, _ | .exp, _ | .pointer, _ => wrong
  | c, v =>
    match v.toInt? with
    | some n => withMinDigits d.precision (integerText c n)
    | none => wrong

def isFinite : Value → Bool
  | .float x => match Decimal.Binary64.ofFloat x with
    | .finite .. => true
    | _ => false
  | _ => true

/-- Whether a field is filled with zeros: a precision takes that away from an integer, and the
names of infinite values never have zeros. -/
def Directive.fillsWithZeros (d : Directive) (v : Value) : Bool :=
  d.zeroPad && d.conversion.isNumeric && !(d.conversion.isInteger && d.precision.isSome) &&
    isFinite v

def Directive.pad (d : Directive) (zeros : Bool) (body : List Char) : Except Error (List Char) := do
  let fill := d.width.getD 0 - body.length
  if d.leftAlign then return body ++ (← repeated ' ' fill)
  else if zeros then
    let (sign, rest) := splitMinus body
    return sign ++ (← repeated '0' fill) ++ rest
  else return (← repeated ' ' fill) ++ body

def Directive.field (d : Directive) (v : Value) : Except Error (List Char) :=
  (d.body v).bind (d.pad (d.fillsWithZeros v))

def fill : List Piece → List Value → Except Error (List Char)
  | [], _ => .ok []
  | .literal c :: ps, vs => (fill ps vs).map (c :: ·)
  | .directive d :: _, [] => .error (.missingArgument d.conversion)
  | .directive d :: ps, v :: vs => do
    let field ← d.field v
    let rest ← fill ps vs
    return field ++ rest

/-- Formatted output. The number of arguments is checked before any of them is looked at. -/
def output (template : String) (args : List Value) : Except Error String := do
  let ps ← pieces template.toList
  let wanted := (directives ps).length
  if wanted ≠ args.length then throw (.argumentCount wanted args.length)
  let text ← fill ps args
  return String.ofList text

end Stepwise.Format
