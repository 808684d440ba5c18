import Stepwise.Decimal.Binary64

/-! The shortest decimal that reads back as a given double. Of the decimals inside the interval
that rounds to the double, the one with the fewest digits is taken, and of several the nearest. -/

namespace Stepwise.Decimal

structure Scientific where
  digits : Nat
  exponent : Int
deriving DecidableEq, Repr

inductive Tie where
  | up
  | even
deriving DecidableEq, Repr

/-- How often `num / den` must be multiplied by ten to reach one, searched up to `fuel` times. -/
def leadingZeros : Nat → Nat → Nat → Nat
  | 0, _, _ => 0
  | fuel + 1, num, den => if den ≤ num then 0 else leadingZeros fuel (num * 10) den + 1

/-- The decimal order of `num / den`: the `p` with `10 ^ (p - 1) ≤ num / den < 10 ^ p`. -/
def decimalOrder (num den : Nat) : Int :=
  if den ≤ num then (Nat.toDigits 10 (num / den)).length
  else 1 - leadingZeros 400 num den

def timesTen (num den : Nat) (k : Int) : Nat × Nat :=
  if 0 ≤ k then (num * Nat.pow 10 k.toNat, den) else (num, den * Nat.pow 10 (-k).toNat)

/-- The interval of numbers that round to `m * 2 ^ e`, all over the common denominator `den`. -/
structure Interval where
  low : Nat
  value : Nat
  high : Nat
  den : Nat
  closed : Bool

/-- Half a step to each side, a quarter step below a power of two; the ends belong to it when the
mantissa is even. -/
def Interval.around (m : Nat) (e : Int) : Interval :=
  let below := if m = leadBit ∧ -1074 < e then 4 * m - 1 else 4 * m - 2
  let (value, den) := scaled (4 * m) (e - 2)
  let (low, _) := scaled below (e - 2)
  let (high, _) := scaled (4 * m + 2) (e - 2)
  ⟨low, value, high, den, m % 2 = 0⟩

def Interval.contains (i : Interval) (n : Nat) (k : Int) : Bool :=
  let (n, d) := timesTen n 1 k
  let low := i.low * d
  let high := i.high * d
  let x := n * i.den
  if i.closed then low ≤ x && x ≤ high else low < x && x < high

/-- The point of the grid `10 ^ k` in the interval that is nearest to its value. -/
def Interval.pick? (tie : Tie) (i : Interval) (k : Int) : Option Nat :=
  let (num, den) := timesTen i.value i.den (-k)
  let under := num / den
  let rest := num % den
  match i.contains under k && under ≠ 0, i.contains (under + 1) k with
  | false, false => none
  | true, false => some under
  | false, true => some (under + 1)
  | true, true =>
    if 2 * rest < den then some under
    else if den < 2 * rest then some (under + 1)
    else match tie with
      | .up => some (under + 1)
      | .even => some (under + under % 2)

/-- Moves trailing zeros of the digits into the exponent, `fuel` of them at most. -/
def Scientific.strip : Nat → Scientific → Scientific
  | 0, s => s
  | fuel + 1, s =>
    if s.digits % 10 = 0 ∧ s.digits ≠ 0 then strip fuel ⟨s.digits / 10, s.exponent + 1⟩ else s

def Interval.search (tie : Tie) (i : Interval) (order : Int) : Nat → Nat → Scientific
  | 0, _ => ⟨0, 0⟩
  | fuel + 1, digits =>
    let k := order - digits
    match i.pick? tie k with
    | some n => Scientific.strip 20 ⟨n, k⟩
    | none => search tie i order fuel (digits + 1)

/-- The shortest decimal of `m * 2 ^ e`; seventeen digits always suffice. -/
def shortest (tie : Tie) (m : Nat) (e : Int) : Scientific :=
  if m = 0 then ⟨0, 0⟩
  else
    let i := Interval.around m e
    i.search tie (decimalOrder i.value i.den) 18 1

end Stepwise.Decimal
