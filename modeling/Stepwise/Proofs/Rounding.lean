import Mathlib.Algebra.Order.Field.Power
import Mathlib.Algebra.Order.Ring.Rat
import Mathlib.Data.Rat.Cast.Order
import Mathlib.Tactic.FieldSimp
import Mathlib.Tactic.Linarith
import Mathlib.Tactic.NormNum
import Mathlib.Tactic.Positivity
import Mathlib.Tactic.Ring
import Stepwise.Decimal.Binary64

/-! Rounding to the nearest double. Every fraction at most half a step from a double, ties counted
by the even mantissa, has that double as its nearest one, whatever numerator and denominator it is
given by. -/

namespace Stepwise.Decimal

/-! Bit patterns -/

section

open Float.Model UnpackedFloat

theorem append_parts (b : BitVec 64) :
    (b.extractLsb' 63 1 ++ b.extractLsb' 52 11 ++ b.extractLsb' 0 52 : BitVec 64) = b := by
  ext i hi
  simp only [BitVec.getElem_append, BitVec.getElem_extractLsb']
  split
  next => simp [BitVec.getLsbD_eq_getElem hi]
  next =>
    split
    next =>
      have : 52 + (i - 52) = i := by omega
      simp [this, BitVec.getLsbD_eq_getElem hi]
    next =>
      have : 63 + (i - 52 - 11) = i := by omega
      simp [this, BitVec.getLsbD_eq_getElem hi]

theorem packComponents_unpack (b : BitVec Format.binary64.numBits) :
    packComponents .binary64 (.ofBitVec (unpackSign b)) (unpackExponent b) (unpackMantissa b) =
      b := by
  have sign : (Sign.ofBitVec (unpackSign b)).toBitVec = unpackSign b := by
    generalize unpackSign b = s
    revert s
    decide
  unfold packComponents
  rw [sign]
  exact append_parts b

theorem pack_finite (sign : Sign) (m : Nat) (e : Int) (pos : 0 < m) (biased : Nat)
    (weight : (e + 1075).toNat = biased) (small : biased + 1 < 2048) :
    UnpackedFloat.pack .binary64 (.finite sign m e pos) =
      packComponents .binary64 sign (if m.log2 = 52 then BitVec.ofNat 11 biased else 0#11)
        (BitVec.ofNat 52 m) := by
  have shift : (e + (Format.binary64.exponentBias : Int) + (52 : Nat)).toNat = biased := by
    have : Format.binary64.exponentBias = 1023 := by decide
    omega
  unfold UnpackedFloat.pack
  dsimp only
  rw [shift, if_neg (by omega), show Format.binary64.mantissaBits = 52 + 1 from rfl]
  simp only [Nat.add_right_cancel_iff]
  split
  next => rfl
  next => rfl

/-- A valid bit pattern is that of what it stands for. -/
theorem pack_unpack {b : BitVec Format.binary64.numBits} (valid : Format.binary64.Valid b) :
    UnpackedFloat.pack .binary64 (UnpackedFloat.unpack .binary64 b) = b := by
  have whole := packComponents_unpack b
  have bound : (unpackMantissa b).toNat < 2 ^ 52 := (unpackMantissa b).isLt
  have bias : Format.binary64.exponentBias = 1023 := by decide
  unfold UnpackedFloat.unpack
  dsimp only
  by_cases special : unpackExponent b = -BitVec.ofNat _ 1
  · rw [if_pos special]
    by_cases zero : unpackMantissa b = BitVec.ofNat _ 0
    · rw [if_pos zero]
      rw [special, zero] at whole
      exact whole
    · rw [if_neg zero]
      exact (valid.eq_packedNaN special zero).symm
  · rw [if_neg special]
    by_cases subnormal : unpackExponent b = BitVec.ofNat _ 0
    · rw [if_pos subnormal]
      by_cases zero : unpackMantissa b = BitVec.ofNat _ 0
      · rw [dif_pos zero]
        rw [subnormal, zero] at whole
        exact whole
      · rw [dif_neg zero]
        have positive : (unpackMantissa b).toNat ≠ 0 := fun h => zero (BitVec.eq_of_toNat_eq h)
        have short : (unpackMantissa b).toNat.log2 < 52 := (Nat.log2_lt positive).mpr bound
        rw [pack_finite _ _ _ _ 1 (by rw [subnormal, bias]; rfl) (by decide), if_neg (by omega),
          BitVec.ofNat_toNat, BitVec.setWidth_eq, ← subnormal]
        exact whole
    · rw [if_neg subnormal]
      have small : (unpackExponent b).toNat + 1 < 2048 := by
        have below : (unpackExponent b).toNat < 2048 := (unpackExponent b).isLt
        have : (unpackExponent b).toNat ≠ 2047 := fun h => special (BitVec.eq_of_toNat_eq h)
        omega
      have lead : (1#1 ++ unpackMantissa b).toNat = 2 ^ 52 + (unpackMantissa b).toNat := by
        rw [BitVec.toNat_append, ← Nat.shiftLeft_add_eq_or_of_lt bound]
        rfl
      have full : (2 ^ 52 + (unpackMantissa b).toNat).log2 = 52 := by
        rw [Nat.log2_eq_iff (by omega)]
        omega
      rw [pack_finite _ _ _ _ (unpackExponent b).toNat (by rw [bias]; omega) small]
      simp only [lead]
      rw [if_pos full, BitVec.ofNat_toNat, BitVec.setWidth_eq]
      have mantissa : BitVec.ofNat 52 (2 ^ 52 + (unpackMantissa b).toNat) = unpackMantissa b := by
        apply BitVec.eq_of_toNat_eq
        rw [BitVec.toNat_ofNat, Nat.add_mod_left, Nat.mod_eq_of_lt bound]
      rw [mantissa]
      exact whole

theorem model_ext {a b : Float.Model} (h : a.toBits = b.toBits) : a = b := by
  cases a
  cases b
  cases h
  rfl

/-- A double is that of its bit pattern. -/
theorem ofBits_toBits (x : Float) : Float.ofBits x.toBits = x := by
  obtain ⟨⟨bits, valid⟩⟩ := x
  apply congrArg Float.ofModel
  apply model_ext
  exact congrArg UInt64.ofBitVec (pack_unpack valid)

/-- A bit pattern is that of its double unless its exponent is the one that no number has. -/
theorem toBits_ofBits {bits : UInt64} (finite : bits.toNat / leadBit % 2048 ≠ 2047) :
    (Float.ofBits bits).toBits = bits := by
  have exponent : (@unpackExponent .binary64 bits.toBitVec).toNat =
      bits.toNat / leadBit % 2048 := by
    show (bits.toBitVec.toNat >>> 52) % 2 ^ 11 = _
    rw [Nat.shiftRight_eq_div_pow]
    rfl
  have valid : Format.binary64.Valid bits.toBitVec := by
    refine ⟨fun special => ?_⟩
    rw [special] at exponent
    exact absurd exponent.symm finite
  exact congrArg UInt64.ofBitVec (pack_unpack valid)

end

/-! Fractions -/

/-- Mantissa and exponent as a bit pattern holds them: the mantissa is as long as it can be, unless
the exponent is the least. -/
structure Canonical (m : Nat) (e : Int) : Prop where
  short : m < 2 * leadBit
  least : -1074 ≤ e
  most : e ≤ 971
  lead : leadBit ≤ m ∨ e = -1074

theorem packBits_short {m : Nat} {e : Int} (h : m < leadBit) : packBits m e = m := if_pos h

theorem packBits_full {m : Nat} {e : Int} (lead : leadBit ≤ m) (short : m < 2 * leadBit)
    (most : e ≤ 971) : packBits m e = (e + 1075).toNat * leadBit + (m - leadBit) := by
  have whole : m ≠ 2 * leadBit := by omega
  unfold packBits
  rw [if_neg (by omega)]
  simp only [if_neg whole]
  rw [if_neg (by omega)]

/-- A mantissa that rounding made one bit longer is that of the next exponent. -/
theorem packBits_carry (e : Int) : packBits (2 * leadBit) e = packBits leadBit (e + 1) := by
  have whole : leadBit ≠ 2 * leadBit := by decide
  unfold packBits
  rw [if_neg (show ¬2 * leadBit < leadBit by decide), if_neg (show ¬leadBit < leadBit by decide)]
  simp only [if_neg whole]
  rfl

theorem ofBits_finite {bits : UInt64} {negative : Bool} {m : Nat} {e : Int}
    (h : Binary64.ofBits bits = .finite negative m e) :
    Canonical m e ∧ bits.toNat = (if negative then signBit else 0) + packBits m e := by
  have bound := bits.toNat_lt
  have fraction : bits.toNat % leadBit < leadBit := Nat.mod_lt _ (by decide)
  have parts : bits.toNat = (if signBit ≤ bits.toNat then signBit else 0) +
      (bits.toNat / leadBit % 2048 * leadBit + bits.toNat % leadBit) := by
    split
    next =>
      simp only [leadBit, signBit] at *
      omega
    next =>
      simp only [leadBit, signBit] at *
      omega
  unfold Binary64.ofBits at h
  simp only at h
  split at h
  next => split at h <;> cases h
  next notSpecial =>
    split at h
    next subnormal =>
      cases h
      refine ⟨⟨by omega, by decide, by decide, .inr rfl⟩, ?_⟩
      rw [packBits_short fraction]
      simpa [subnormal] using parts
    next normal =>
      cases h
      have short : leadBit + bits.toNat % leadBit < 2 * leadBit := by omega
      have biased : ((bits.toNat / leadBit % 2048 : Nat) - 1075 + 1075 : Int).toNat =
          bits.toNat / leadBit % 2048 := by omega
      refine ⟨⟨short, by omega, by omega, .inl (by omega)⟩, ?_⟩
      rw [packBits_full (by omega) short (by omega), biased, Nat.add_sub_cancel_left]
      simpa using parts

/-- A fraction at most half a step from `m` rounds to `m`; half a step away `m` has to be even. -/
theorem roundHalfEven_eq {num den m : Nat} (pos : 0 < den) (low : (m : ℚ) - 1 / 2 ≤ num / den)
    (high : (num / den : ℚ) ≤ m + 1 / 2)
    (odd : m % 2 = 1 → (m : ℚ) - 1 / 2 < num / den ∧ (num / den : ℚ) < m + 1 / 2) :
    roundHalfEven num den = m := by
  have pos' : (0 : ℚ) < den := by exact_mod_cast pos
  have low : 2 * m * den ≤ 2 * num + den := by
    rw [sub_le_iff_le_add, ← sub_le_iff_le_add, le_div_iff₀ pos'] at low
    exact_mod_cast (show (2 * m * den : ℚ) ≤ 2 * num + den by linarith)
  have high : 2 * num ≤ 2 * m * den + den := by
    rw [div_le_iff₀ pos'] at high
    exact_mod_cast (show (2 * num : ℚ) ≤ 2 * m * den + den by linarith)
  have odd : m % 2 = 1 → 2 * m * den < 2 * num + den ∧ 2 * num < 2 * m * den + den := by
    intro h
    obtain ⟨low, high⟩ := odd h
    rw [lt_div_iff₀ pos'] at low
    rw [div_lt_iff₀ pos'] at high
    constructor
    · exact_mod_cast (show (2 * m * den : ℚ) < 2 * num + den by linarith)
    · exact_mod_cast (show (2 * num : ℚ) < 2 * m * den + den by linarith)
  have split := Nat.div_add_mod num den
  have rest := Nat.mod_lt num pos
  unfold roundHalfEven
  simp only
  generalize num / den = q at *
  generalize num % den = r at *
  subst split
  -- the quotient is `m` or one less
  have atMost : q ≤ m := by
    by_contra h
    nlinarith
  have atLeast : m ≤ q + 1 := by
    by_contra h
    nlinarith
  rcases Nat.lt_or_eq_of_le atMost with less | rfl
  · obtain rfl : m = q + 1 := by omega
    have far : den ≤ 2 * r := by linarith
    have farther : (q + 1) % 2 = 1 → den < 2 * r := fun h => by linarith [(odd h).1]
    rw [if_neg (by omega)]
    split <;> omega
  · have near : 2 * r ≤ den := by linarith
    have nearer : q % 2 = 1 → 2 * r < den := fun h => by linarith [(odd h).2]
    rw [if_neg (show ¬den < 2 * r by omega)]
    split <;> omega

def atScale (num den : Nat) (e : Int) : Nat × Nat :=
  if 0 ≤ e then (num, den * Nat.pow 2 e.toNat) else (num * Nat.pow 2 (-e).toNat, den)

theorem atScale_den_pos (num : Nat) {den : Nat} (pos : 0 < den) (e : Int) :
    0 < (atScale num den e).2 := by
  unfold atScale
  split
  next => exact Nat.mul_pos pos (Nat.pow_pos (by decide))
  next => exact pos

theorem atScale_value (num den : Nat) (e : Int) :
    ((atScale num den e).1 / (atScale num den e).2 : ℚ) = num / den / 2 ^ e := by
  unfold atScale
  split
  next nonneg =>
    obtain ⟨k, rfl⟩ := Int.eq_ofNat_of_zero_le nonneg
    simp [Nat.pow_eq, div_div]
  next neg =>
    obtain ⟨k, hk⟩ := Int.eq_ofNat_of_zero_le (show 0 ≤ -e by omega)
    obtain rfl : e = -(k : ℤ) := by omega
    simp [Nat.pow_eq]
    ring

theorem div_lt_two_pow {num den : Nat} (pos : 0 < num) (pos' : 0 < den) :
    (num / den : ℚ) < 2 ^ ((num.log2 : Int) - den.log2 + 1) := by
  have above : (num : ℚ) < 2 ^ (num.log2 + 1) := by exact_mod_cast Nat.lt_log2_self
  have below : (2 : ℚ) ^ den.log2 ≤ den := by exact_mod_cast Nat.log2_self_le pos'.ne'
  calc (num / den : ℚ) ≤ num / 2 ^ den.log2 := by gcongr
    _ < 2 ^ (num.log2 + 1) / 2 ^ den.log2 := by gcongr
    _ = 2 ^ ((num.log2 : Int) - den.log2 + 1) := by
      rw [← zpow_natCast, ← zpow_natCast, ← zpow_sub₀ (by norm_num)]
      congr 1
      push_cast
      ring

theorem two_pow_lt_div {num den : Nat} (pos : 0 < num) (pos' : 0 < den) :
    (2 : ℚ) ^ ((num.log2 : Int) - den.log2 - 1) < num / den := by
  have above : (den : ℚ) < 2 ^ (den.log2 + 1) := by exact_mod_cast Nat.lt_log2_self
  have below : (2 : ℚ) ^ num.log2 ≤ num := by exact_mod_cast Nat.log2_self_le pos.ne'
  calc (2 : ℚ) ^ ((num.log2 : Int) - den.log2 - 1) = 2 ^ num.log2 / 2 ^ (den.log2 + 1) := by
        rw [← zpow_natCast, ← zpow_natCast, ← zpow_sub₀ (by norm_num)]
        congr 1
        push_cast
        ring
    _ < 2 ^ num.log2 / den := by gcongr
    _ ≤ num / den := by gcongr

theorem leadBit_mul (e : Int) : (leadBit * 2 ^ e : ℚ) = 2 ^ (e + 52) := by
  rw [zpow_add₀ (by norm_num), mul_comm]
  norm_num [leadBit]

/-- Rounding in terms of `atScale`. -/
theorem nearestBits_eq {num : Nat} (den : Nat) (pos : 0 < num) {e : Int}
    (he : e = max ((num.log2 : Int) - den.log2 - 53) (-1074)) :
    nearestBits num den =
      if (atScale num den e).1 / (atScale num den e).2 < 2 * leadBit then
        packBits (roundHalfEven (atScale num den e).1 (atScale num den e).2) e
      else
        packBits (roundHalfEven (atScale num den (e + 1)).1 (atScale num den (e + 1)).2)
          (e + 1) := by
  rw [he, nearestBits, if_neg pos.ne']
  rfl

/-- The exponent of the nearest double leaves 53 bits before the point, fewer only if it is the
least. -/
theorem nearestBits_scale {num den : Nat} (pos : 0 < num) (pos' : 0 < den) :
    ∃ e : Int, nearestBits num den =
        packBits (roundHalfEven (atScale num den e).1 (atScale num den e).2) e ∧ -1074 ≤ e ∧
      (num / den / 2 ^ e : ℚ) < 2 * leadBit ∧ (leadBit ≤ (num / den / 2 ^ e : ℚ) ∨ e = -1074) := by
  have upper := div_lt_two_pow pos pos'
  have lower := two_pow_lt_div pos pos'
  obtain ⟨e, he⟩ : ∃ e, e = max ((num.log2 : Int) - den.log2 - 53) (-1074) := ⟨_, rfl⟩
  have scale_pos : (0 : ℚ) < 2 ^ e := by positivity
  have next : (2 : ℚ) ^ (e + 1) = 2 ^ e * 2 := zpow_add_one₀ (by norm_num) e
  have quotient := atScale_value num den e
  have den_pos : (0 : ℚ) < (atScale num den e).2 := by exact_mod_cast atScale_den_pos num pos' e
  rw [nearestBits_eq den pos he]
  split
  next fits =>
    refine ⟨e, rfl, by omega, ?_, ?_⟩
    · rw [Nat.div_lt_iff_lt_mul (atScale_den_pos num pos' e)] at fits
      rw [← quotient, div_lt_iff₀ den_pos]
      exact_mod_cast fits
    · rcases Int.lt_or_le ((num.log2 : Int) - den.log2 - 53) (-1074) with least | more
      · exact .inr (by omega)
      · left
        rw [le_div_iff₀ scale_pos, leadBit_mul, show e + 52 = num.log2 - den.log2 - 1 by omega]
        exact lower.le
  next exceeds =>
    rw [Nat.div_lt_iff_lt_mul (atScale_den_pos num pos' e), Nat.not_lt] at exceeds
    refine ⟨e + 1, rfl, by omega, ?_, .inl ?_⟩
    · rw [div_lt_iff₀ (by positivity), mul_assoc, leadBit_mul]
      calc (num / den : ℚ) < 2 ^ ((num.log2 : Int) - den.log2 + 1) := upper
        _ ≤ 2 ^ (e + 1 + 52 + 1) := zpow_le_zpow_right₀ (by norm_num) (by omega)
        _ = 2 * 2 ^ (e + 1 + 52) := by rw [zpow_add_one₀ (by norm_num), mul_comm]
    · have exceeds : (2 * leadBit : ℚ) ≤ num / den / 2 ^ e := by
        rw [← quotient, le_div_iff₀ den_pos]
        exact_mod_cast exceeds
      rw [next, ← div_div]
      linarith

/-- A number that rounds to `m * 2 ^ e`: at most half a step away, a quarter below a power of two
where the steps get smaller; at just that distance the mantissa has to be even. -/
structure Rounds (m : Nat) (e : Int) (x : ℚ) : Prop where
  low : m - 1 / 2 ≤ x / 2 ^ e
  high : x / 2 ^ e ≤ m + 1 / 2
  odd : m % 2 = 1 → m - 1 / 2 < x / 2 ^ e ∧ x / 2 ^ e < m + 1 / 2
  power : m = leadBit → -1074 < e → m - 1 / 4 ≤ x / 2 ^ e

theorem div_two_pow_add (x : ℚ) (e : Int) (j : Nat) :
    x / 2 ^ e = x / 2 ^ (e + j) * 2 ^ j := by
  rw [zpow_add₀ (by norm_num), zpow_natCast]
  field_simp

/-- A number that rounds to a double has the scale of the double, or it lies just below a power of
two that is the double. -/
theorem Rounds.scale {m : Nat} {e e' : Int} {x : ℚ} (h : Rounds m e x) (c : Canonical m e)
    (least : -1074 ≤ e') (fits : x / 2 ^ e' < 2 * leadBit)
    (lead : leadBit ≤ x / 2 ^ e' ∨ e' = -1074) : e' = e ∨ e' + 1 = e ∧ m = leadBit := by
  have low := h.low
  have high := h.high
  have big : (1 : ℚ) ≤ leadBit := by norm_num [leadBit]
  rcases lt_trichotomy e' e with less | same | greater
  · have full : leadBit ≤ m := c.lead.resolve_right (by omega)
    have full' : (leadBit : ℚ) ≤ m := by exact_mod_cast full
    obtain ⟨j, rfl⟩ : ∃ j : Nat, e = e' + (j + 1 : Nat) := ⟨(e - e' - 1).toNat, by omega⟩
    rw [div_two_pow_add x e' (j + 1), pow_succ] at fits
    generalize x / 2 ^ (e' + (j + 1 : Nat)) = y at *
    cases j with
    | zero =>
      have : (m : ℚ) < leadBit + 1 := by linarith
      have : m < leadBit + 1 := by exact_mod_cast this
      exact .inr ⟨rfl, by omega⟩
    | succ j =>
      have : (1 : ℚ) ≤ 2 ^ j := one_le_pow₀ (by norm_num)
      rw [pow_succ] at fits
      nlinarith
  · exact .inl same
  · obtain ⟨j, rfl⟩ : ∃ j : Nat, e' = e + (j + 1 : Nat) := ⟨(e' - e - 1).toNat, by omega⟩
    have lead := lead.resolve_right (by have := c.least; omega)
    have short : (m + 1 : ℚ) ≤ 2 * leadBit := by exact_mod_cast c.short
    have : (1 : ℚ) ≤ 2 ^ j := one_le_pow₀ (by norm_num)
    rw [div_two_pow_add x e (j + 1), pow_succ] at high
    nlinarith

/-- Every fraction that rounds to a double has it as its nearest one. -/
theorem nearestBits_of_rounds {num den m : Nat} {e : Int} (pos' : 0 < den) (positive : 0 < m)
    (c : Canonical m e) (h : Rounds m e (num / den)) : nearestBits num den = packBits m e := by
  have pos : 0 < num := by
    by_contra none
    obtain rfl : num = 0 := by omega
    have one : (1 : ℚ) ≤ m := by exact_mod_cast positive
    have low := h.low
    norm_num at low
    linarith
  obtain ⟨e', bits, least, fits, lead⟩ := nearestBits_scale pos pos'
  have value := atScale_value num den e'
  have den_pos := atScale_den_pos num pos' e'
  rw [bits]
  obtain rfl | ⟨rfl, rfl⟩ := h.scale c least fits lead
  · rw [roundHalfEven_eq den_pos]
    · rw [value]
      exact h.low
    · rw [value]
      exact h.high
    · rw [value]
      exact h.odd
  · have near := h.power rfl (by omega)
    have double := div_two_pow_add (num / den) e' 1
    rw [Nat.cast_one] at double
    rw [roundHalfEven_eq (m := 2 * leadBit) den_pos, packBits_carry]
    · rw [value, double]
      push_cast
      linarith
    · rw [value]
      push_cast
      linarith
    · intro odd
      exact absurd odd (by decide)

def assemble (negative : Bool) (m : Nat) (e : Int) : Float :=
  Float.ofBits (UInt64.ofNat ((if negative then signBit else 0) + packBits m e))

theorem nearest_of_rounds {num den m : Nat} {e : Int} (negative : Bool) (pos' : 0 < den)
    (positive : 0 < m) (c : Canonical m e) (h : Rounds m e (num / den)) :
    nearest negative num den = assemble negative m e := by
  rw [nearest, assemble, nearestBits_of_rounds pos' positive c h]

/-- The length of a row of digits gives the size of the number. -/
theorem toDigits_length_bounds {n : Nat} (pos : 0 < n) :
    (10 : ℚ) ^ ((Nat.toDigits 10 n).length - 1 : Int) ≤ n ∧
      (n : ℚ) < 10 ^ ((Nat.toDigits 10 n).length : Int) := by
  have len := Nat.length_toDigits_pos (b := 10) (n := n)
  obtain ⟨k, hk⟩ : ∃ k, (Nat.toDigits 10 n).length = k + 1 :=
    ⟨_, (Nat.succ_pred_eq_of_pos len).symm⟩
  have upper : n < 10 ^ (k + 1) := (Nat.length_toDigits_le_iff (by decide) (by omega)).mp hk.le
  have lower : 10 ^ k ≤ n := by
    by_contra less
    rcases Nat.eq_zero_or_pos k with rfl | positive
    · omega
    · have := (Nat.length_toDigits_le_iff (by decide) positive).mpr (Nat.lt_of_not_le less)
      omega
  rw [hk]
  constructor
  · simp only [Nat.cast_add, Nat.cast_one, add_sub_cancel_right, zpow_natCast]
    exact_mod_cast lower
  · rw [zpow_natCast]
    exact_mod_cast upper

theorem Rounds.bounds {m : Nat} {e : Int} {x : ℚ} (h : Rounds m e x) (positive : 0 < m)
    (c : Canonical m e) : (2 : ℚ) ^ (-1075 : Int) ≤ x ∧ x < (2 : ℚ) ^ (1024 : Int) := by
  have one : (1 : ℚ) ≤ m := by exact_mod_cast positive
  have short : (m + 1 : ℚ) ≤ 2 * leadBit := by exact_mod_cast c.short
  have scale_pos : (0 : ℚ) < 2 ^ e := by positivity
  have low := h.low
  have high := h.high
  constructor
  · calc (2 : ℚ) ^ (-1075 : Int) ≤ 2 ^ (e - 1) :=
          zpow_le_zpow_right₀ (by norm_num) (by have := c.least; omega)
      _ = 1 / 2 * 2 ^ e := by rw [zpow_sub_one₀ (by norm_num)]; ring
      _ ≤ x / 2 ^ e * 2 ^ e := mul_le_mul_of_nonneg_right (by linarith) scale_pos.le
      _ = x := by field_simp
  · calc x = x / 2 ^ e * 2 ^ e := by field_simp
      _ < 2 * leadBit * 2 ^ e := mul_lt_mul_of_pos_right (by linarith) scale_pos
      _ = 2 ^ (e + 52 + 1) := by
        rw [mul_assoc, leadBit_mul, zpow_add_one₀ (by norm_num), mul_comm]
      _ ≤ (2 : ℚ) ^ (1024 : Int) := zpow_le_zpow_right₀ (by norm_num) (by have := c.most; omega)

/-- Numbers of more than 330 decimal orders lie outside the range of doubles. -/
theorem two_pow_le_ten_pow : (2 : ℚ) ^ (1075 : Int) ≤ 10 ^ (330 : Int) :=
  calc (2 : ℚ) ^ (1075 : Int) = (2 ^ 43) ^ 25 := by rw [← pow_mul]; rfl
    _ ≤ (10 ^ 13) ^ 25 := pow_le_pow_left₀ (by norm_num) (by norm_num) 25
    _ = 10 ^ (325 : Int) := by rw [← pow_mul]; rfl
    _ ≤ 10 ^ (330 : Int) := zpow_le_zpow_right₀ (by norm_num) (by norm_num)

theorem ofDecimal_of_rounds {digits m : Nat} {k e : Int} (negative : Bool) (positive : 0 < m)
    (c : Canonical m e) (h : Rounds m e (digits * 10 ^ k)) :
    ofDecimal negative digits k = assemble negative m e := by
  obtain ⟨atLeast, atMost⟩ := h.bounds positive c
  have some_digit : 0 < digits := by
    by_contra none
    obtain rfl : digits = 0 := by omega
    have : (0 : ℚ) < 2 ^ (-1075 : Int) := by positivity
    rw [Nat.cast_zero, zero_mul] at atLeast
    linarith
  obtain ⟨lower, upper⟩ := toDigits_length_bounds some_digit
  have ten_pos : (0 : ℚ) < 10 ^ k := by positivity
  unfold ofDecimal
  simp only
  rw [if_neg, if_neg]
  · split
    next nonneg =>
      obtain ⟨j, rfl⟩ := Int.eq_ofNat_of_zero_le nonneg
      apply nearest_of_rounds negative (by decide) positive c
      simpa [Nat.pow_eq] using h
    next neg =>
      obtain ⟨j, hj⟩ := Int.eq_ofNat_of_zero_le (show 0 ≤ -k by omega)
      obtain rfl : k = -(j : ℤ) := by omega
      apply nearest_of_rounds negative (Nat.pow_pos (by decide)) positive c
      simpa [Nat.pow_eq, div_eq_mul_inv] using h
  · intro above
    have : (2 : ℚ) ^ (1024 : Int) ≤ digits * 10 ^ k :=
      calc (2 : ℚ) ^ (1024 : Int) ≤ 2 ^ (1075 : Int) :=
            zpow_le_zpow_right₀ (by norm_num) (by norm_num)
        _ ≤ 10 ^ (330 : Int) := two_pow_le_ten_pow
        _ ≤ 10 ^ ((Nat.toDigits 10 digits).length - 1 + k) :=
          zpow_le_zpow_right₀ (by norm_num) (by omega)
        _ ≤ digits * 10 ^ k := by
          rw [zpow_add₀ (by norm_num)]
          gcongr
    linarith
  · rintro (none | below)
    · omega
    · have : digits * 10 ^ k < (2 : ℚ) ^ (-1075 : Int) :=
        calc (digits * 10 ^ k : ℚ) < 10 ^ ((Nat.toDigits 10 digits).length + k) := by
              rw [zpow_add₀ (by norm_num)]
              gcongr
          _ ≤ 10 ^ (-330 : Int) := zpow_le_zpow_right₀ (by norm_num) (by omega)
          _ ≤ (2 : ℚ) ^ (-1075 : Int) := by
            rw [zpow_neg, zpow_neg]
            exact inv_anti₀ (by positivity) two_pow_le_ten_pow
      linarith

end Stepwise.Decimal
