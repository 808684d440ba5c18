/-! Doubles as exact numbers. A finite double is `m * 2 ^ e`; a positive fraction has one nearest
double, with ties going to the even mantissa. Everything is computed in `Nat`, from and to the bit
pattern. -/

namespace Stepwise.Decimal

/-- What a double stands for; `finite s m e` is `m * 2 ^ e`, negated when `s` holds. -/
inductive Binary64 where
  | nan
  | infinite (negative : Bool)
  | finite (negative : Bool) (mantissa : Nat) (exponent : Int)
deriving DecidableEq, Repr

def leadBit : Nat := 0x10000000000000

def signBit : Nat := 0x8000000000000000

def Binary64.ofBits (bits : UInt64) : Binary64 :=
  let n := bits.toNat
  let negative : Bool := signBit ≤ n
  let biased : Nat := n / leadBit % 2048
  let fraction : Nat := n % leadBit
  if biased = 2047 then
    if fraction = 0 then .infinite negative else .nan
  else if biased = 0 then .finite negative fraction (-1074)
  else .finite negative (leadBit + fraction) ((biased : Int) - 1075)

def Binary64.ofFloat (x : Float) : Binary64 := .ofBits x.toBits

/-- `m * 2 ^ e` as a fraction of naturals. -/
def scaled (m : Nat) (e : Int) : Nat × Nat :=
  if 0 ≤ e then (m * Nat.pow 2 e.toNat, 1) else (m, Nat.pow 2 (-e).toNat)

def roundHalfEven (num den : Nat) : Nat :=
  let q := num / den
  let r := num % den
  if 2 * r < den then q
  else if den < 2 * r then q + 1
  else q + q % 2

/-- The bit pattern of the double `m * 2 ^ e`, for `m ≤ 2 ^ 53` and either `2 ^ 52 ≤ m` or
`e = -1074`. A value beyond the largest double gives infinity. -/
def packBits (m : Nat) (e : Int) : Nat :=
  if m < leadBit then m
  else
    let (m, e) := if m = 2 * leadBit then (leadBit, e + 1) else (m, e)
    if 972 ≤ e then 2047 * leadBit
    else (e + 1075).toNat * leadBit + (m - leadBit)

def nearestBits (num den : Nat) : Nat :=
  if num = 0 then 0
  else
    -- `2 ^ (e + 52) ≤ num / den < 2 ^ (e + 54)`, unless the least exponent is reached
    let e : Int := max ((num.log2 : Int) - den.log2 - 53) (-1074)
    let fraction (e : Int) : Nat × Nat :=
      if 0 ≤ e then (num, den * Nat.pow 2 e.toNat) else (num * Nat.pow 2 (-e).toNat, den)
    let (n, d) := fraction e
    if n / d < 2 * leadBit then packBits (roundHalfEven n d) e
    else
      let (n, d) := fraction (e + 1)
      packBits (roundHalfEven n d) (e + 1)

def nearest (negative : Bool) (num den : Nat) : Float :=
  Float.ofBits (UInt64.ofNat ((if negative then signBit else 0) + nearestBits num den))

/-- The double nearest to `digits * 10 ^ exponent`. Far outside the range of doubles the answer is
infinity or zero without computing the power. -/
def ofDecimal (negative : Bool) (digits : Nat) (exponent : Int) : Float :=
  let length : Int := (Nat.toDigits 10 digits).length
  if digits = 0 ∨ exponent + length < -330 then nearest negative 0 1
  else if 330 < exponent + length then nearest negative (Nat.pow 10 330) 1
  else if 0 ≤ exponent then nearest negative (digits * Nat.pow 10 exponent.toNat) 1
  else nearest negative digits (Nat.pow 10 (-exponent).toNat)

end Stepwise.Decimal
