import Stepwise.Decimal.Shortest

/-! The text of a double. The digits are the shortest that read back; a `Layout` says how they are
set out. -/

namespace Stepwise.Decimal

structure Layout where
  /-- Whether a number whose first digit has weight `10 ^ e` is written without an exponent. -/
  positional : Int → Bool
  /-- Whether a whole number written without an exponent ends in `.0`. -/
  wholeMark : Bool
  /-- Whether an exponent that is not negative has a plus sign. -/
  plusSign : Bool
  tie : Tie

def positionalText (wholeMark : Bool) (s : Scientific) : List Char :=
  let ds := Nat.toDigits 10 s.digits
  if 0 ≤ s.exponent then
    ds ++ List.replicate s.exponent.toNat '0' ++ (if wholeMark then ['.', '0'] else [])
  else
    let places := (-s.exponent).toNat
    if places < ds.length then ds.take (ds.length - places) ++ '.' :: ds.drop (ds.length - places)
    else '0' :: '.' :: (List.replicate (places - ds.length) '0' ++ ds)

/-- One digit before the point, then an exponent. -/
def exponentText (plusSign : Bool) (s : Scientific) : List Char :=
  let ds := Nat.toDigits 10 s.digits
  let e := s.exponent + (ds.length - 1)
  let mantissa := match ds with
    | d :: more@(_ :: _) => d :: '.' :: more
    | few => few
  let sign := if e < 0 then ['-'] else if plusSign then ['+'] else []
  mantissa ++ 'e' :: (sign ++ Nat.toDigits 10 e.natAbs)

def Layout.unsigned (l : Layout) (s : Scientific) : List Char :=
  let e := s.exponent + ((Nat.toDigits 10 s.digits).length - 1)
  if s.digits = 0 ∨ l.positional e then positionalText l.wholeMark s
  else exponentText l.plusSign s

def Layout.finiteText (l : Layout) (negative : Bool) (m : Nat) (e : Int) : List Char :=
  (if negative then ['-'] else []) ++ l.unsigned (shortest l.tie m e)

def Layout.text (l : Layout) (x : Float) : String :=
  match Binary64.ofFloat x with
  | .nan => "NaN"
  | .infinite true => "-inf"
  | .infinite false => "inf"
  | .finite negative m e => String.ofList (l.finiteText negative m e)

/-- Values as descriptions show them: never an exponent, and whole numbers without a point. -/
def Layout.plain : Layout := ⟨fun _ => true, false, false, .up⟩

/-- Floating literals: an exponent below `10 ^ (-4)` and from `10 ^ 16` on, and a point otherwise. -/
def Layout.literal : Layout := ⟨fun e => -4 ≤ e && e < 16, true, false, .up⟩

end Stepwise.Decimal
