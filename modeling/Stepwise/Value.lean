import Stepwise.Decimal.Layout
import Stepwise.Program.Basic
import Stepwise.Text.Quoted

/-! Values: what one slot of memory holds. A value has a shape, and a type admits the values of one
shape; `Value.convert` is what a store or a cast does to reach it. -/

namespace Stepwise

/-- The number of one slot; no slot has number 0. -/
abbrev Address := UInt64

def addressText (a : Address) : String := "0x" ++ Text.paddedHex 8 a.toNat

inductive Value where
  | int (n : Int32)
  /-- `float` and `double` alike. -/
  | float (x : Float)
  | char (c : Int8)
  | address (a : Address)
  /-- What a slot holds that was never written. -/
  | undefined
deriving DecidableEq, Repr, Inhabited

namespace Value

def null : Value := address 0

def zero (t : CType) : Value :=
  if t.isPointer then null
  else match t.base with
    | .char => char 0
    | .float | .double => float 0
    | _ => int 0

def isDefined : Value → Bool
  | undefined => false
  | _ => true

def shape : Value → String
  | int _ => "int"
  | float _ => "floating"
  | char _ => "char"
  | address _ => "pointer"
  | undefined => "undefined"

/-- A value as an integer: characters are integers, floating values are not. -/
def toInt? : Value → Option Int32
  | int n => some n
  | char c => some c.toInt32
  | _ => none

def toFloat? : Value → Option Float
  | int n => some n.toFloat
  | char c => some c.toInt32.toFloat
  | float x => some x
  | _ => none

def toAddress? : Value → Option Address
  | address a => some a
  | _ => none

/-- Numbers other than zero and pointers to something are true. -/
def truth? : Value → Option Bool
  | int n => some (n != 0)
  | char c => some (c != 0)
  | float x => some (x != 0)
  | address a => some (a != 0)
  | undefined => none

def ofBool (b : Bool) : Value := int (if b then 1 else 0)

/-- A value as a type stores it, or `none` when the type cannot take it. Floating values are cut
toward zero and held within the range of `int`; integers wrap to `char`; `float` keeps single
precision; of the integers only the constant 0 becomes a pointer. -/
def convert (t : CType) (v : Value) : Option Value :=
  match v with
  | undefined => some undefined
  | _ =>
    if t.isPointer then
      match v with
      | address a => some (address a)
      | int n => if n = 0 then some null else none
      | _ => none
    else match t.base, v with
      | _, address _ => none
      | .int, float x => some (int x.toInt32)
      | .int, v => v.toInt?.map int
      | .char, float x => some (char x.toInt32.toInt8)
      | .char, v => v.toInt?.map fun n => char n.toInt8
      | .float, v => v.toFloat?.map fun x => float x.toFloat32.toFloat
      | .double, v => v.toFloat?.map float
      | .void, _ | .struct _, _ => none

/-- Whether a character shows as itself: the ASCII characters from blank to tilde. -/
def isGraphic (c : Int8) : Bool := 32 ≤ c.toInt && c.toInt ≤ 126

def text : Value → String
  | int n => toString n.toInt
  | float x => Decimal.Layout.plain.text x
  | char c =>
    if isGraphic c then String.ofList ['\'', Char.ofNat c.toInt.toNat, '\''] else toString c.toInt
  | address a => if a = 0 then "NULL" else addressText a
  | undefined => "?"

end Value

end Stepwise
