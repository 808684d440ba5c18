import Stepwise.Decimal.Shortest

/-! A double with a given number of places after the point. The exact binary value is rounded once,
and halfway goes to the even last digit. -/

namespace Stepwise.Decimal

def withPoint (places n : Nat) : List Char :=
  let ds := Nat.toDigits 10 n
  let ds := List.replicate (places + 1 - ds.length) '0' ++ ds
  let whole := ds.take (ds.length - places)
  if places = 0 then whole else whole ++ '.' :: ds.drop (ds.length - places)

def specialName : Binary64 → Option String
  | .nan => some "nan"
  | .infinite negative => some (if negative then "-inf" else "inf")
  | .finite .. => none

/-- `places` digits after the point and no exponent. -/
def fixed (places : Nat) (x : Float) : String :=
  match Binary64.ofFloat x with
  | .finite negative m e =>
    let (num, den) := scaled m e
    let n := roundHalfEven (num * Nat.pow 10 places) den
    String.ofList ((if negative then ['-'] else []) ++ withPoint places n)
  | special => (specialName special).getD ""

/-- The digits and the exponent of `num / den` with `places` digits after the first. -/
def scientificDigits (places num den : Nat) : Nat × Int :=
  if num = 0 then (0, 0)
  else
    let order := decimalOrder num den - 1
    let (a, b) := timesTen num den (places - order)
    let n := roundHalfEven a b
    if n = Nat.pow 10 (places + 1) then (Nat.pow 10 places, order + 1) else (n, order)

/-- One digit before the point, `places` after it, and an exponent of at least two digits that
always has a sign. -/
def scientific (places : Nat) (x : Float) : String :=
  match Binary64.ofFloat x with
  | .finite negative m e =>
    let (num, den) := scaled m e
    let (n, order) := scientificDigits places num den
    let exponent := Nat.toDigits 10 order.natAbs
    String.ofList ((if negative then ['-'] else []) ++ withPoint places n ++
      'e' :: (if order < 0 then '-' else '+') ::
        (List.replicate (2 - exponent.length) '0' ++ exponent))
  | special => (specialName special).getD ""

end Stepwise.Decimal
