import Stepwise.Decimal.Shortest
import Stepwise.Proofs.Rounding

/-! The shortest decimal of a double rounds to it: the search only picks decimals in the interval of
the double, and the grid with eighteen digits is too fine to miss it. -/

namespace Stepwise.Decimal

theorem scaled_den_pos (m : Nat) (e : Int) : 0 < (scaled m e).2 := by
  unfold scaled
  split
  next => exact Nat.one_pos
  next => exact Nat.pow_pos (by decide)

theorem scaled_value (m : Nat) (e : Int) :
    ((scaled m e).1 / (scaled m e).2 : ℚ) = m * 2 ^ e := by
  unfold scaled
  split
  next nonneg =>
    obtain ⟨k, rfl⟩ := Int.eq_ofNat_of_zero_le nonneg
    simp [Nat.pow_eq]
  next neg =>
    obtain ⟨k, hk⟩ := Int.eq_ofNat_of_zero_le (show 0 ≤ -e by omega)
    obtain rfl : e = -(k : ℤ) := by omega
    simp [Nat.pow_eq, div_eq_mul_inv]

/-- The denominator depends on the exponent alone. -/
theorem scaled_den_eq (m n : Nat) (e : Int) : (scaled m e).2 = (scaled n e).2 := by
  unfold scaled
  split
  next => rfl
  next => rfl

theorem timesTen_den_pos (num : Nat) {den : Nat} (pos : 0 < den) (k : Int) :
    0 < (timesTen num den k).2 := by
  unfold timesTen
  split
  next => exact pos
  next => exact Nat.mul_pos pos (Nat.pow_pos (by decide))

theorem timesTen_value (num den : Nat) (k : Int) :
    ((timesTen num den k).1 / (timesTen num den k).2 : ℚ) = num / den * 10 ^ k := by
  unfold timesTen
  split
  next nonneg =>
    obtain ⟨j, rfl⟩ := Int.eq_ofNat_of_zero_le nonneg
    simp [Nat.pow_eq]
    ring
  next neg =>
    obtain ⟨j, hj⟩ := Int.eq_ofNat_of_zero_le (show 0 ≤ -k by omega)
    obtain rfl : k = -(j : ℤ) := by omega
    simp [Nat.pow_eq]
    ring

namespace Interval

/-- The least number of quarter steps that rounds to `m * 2 ^ e`. -/
def below (m : Nat) (e : Int) : Nat :=
  if m = leadBit ∧ -1074 < e then 4 * m - 1 else 4 * m - 2

theorem around_den_pos (m : Nat) (e : Int) : 0 < (around m e).den := scaled_den_pos _ _

theorem around_value (m : Nat) (e : Int) :
    ((around m e).value / (around m e).den : ℚ) = m * 2 ^ e := by
  have h := scaled_value (4 * m) (e - 2)
  show ((scaled (4 * m) (e - 2)).1 / (scaled (4 * m) (e - 2)).2 : ℚ) = _
  rw [h, zpow_sub₀ (by norm_num)]
  push_cast
  ring

theorem around_low (m : Nat) (e : Int) :
    ((around m e).low / (around m e).den : ℚ) = below m e / 4 * 2 ^ e := by
  have h := scaled_value (below m e) (e - 2)
  show ((scaled (below m e) (e - 2)).1 / (scaled (4 * m) (e - 2)).2 : ℚ) = _
  rw [scaled_den_eq _ (below m e), h, zpow_sub₀ (by norm_num)]
  push_cast
  ring

theorem around_high (m : Nat) (e : Int) :
    ((around m e).high / (around m e).den : ℚ) = (m + 1 / 2) * 2 ^ e := by
  have h := scaled_value (4 * m + 2) (e - 2)
  show ((scaled (4 * m + 2) (e - 2)).1 / (scaled (4 * m) (e - 2)).2 : ℚ) = _
  rw [scaled_den_eq _ (4 * m + 2), h, zpow_sub₀ (by norm_num)]
  push_cast
  ring

theorem contains_iff {i : Interval} (pos : 0 < i.den) (n : Nat) (k : Int) :
    i.contains n k = true ↔
      (i.low / i.den : ℚ) ≤ n * 10 ^ k ∧ (n * 10 ^ k : ℚ) ≤ i.high / i.den ∧
        (i.closed = false →
          (i.low / i.den : ℚ) < n * 10 ^ k ∧ (n * 10 ^ k : ℚ) < i.high / i.den) := by
  have value := timesTen_value n 1 k
  have den_pos := timesTen_den_pos n Nat.one_pos k
  rw [Nat.cast_one, div_one] at value
  rw [← value]
  unfold contains
  simp only
  generalize (timesTen n 1 k).1 = x at *
  generalize (timesTen n 1 k).2 = d at *
  rw [div_le_div_iff₀ (by exact_mod_cast pos) (by exact_mod_cast den_pos),
    div_le_div_iff₀ (by exact_mod_cast den_pos) (by exact_mod_cast pos),
    div_lt_div_iff₀ (by exact_mod_cast pos) (by exact_mod_cast den_pos),
    div_lt_div_iff₀ (by exact_mod_cast den_pos) (by exact_mod_cast pos)]
  norm_cast
  cases i.closed with
  | true => simp
  | false =>
    simp
    omega

/-- What lies in the interval of a double rounds to it. -/
theorem rounds_of_contains {m n : Nat} {e k : Int} (positive : 0 < m)
    (h : (around m e).contains n k = true) : Rounds m e (n * 10 ^ k) := by
  have scale_pos : (0 : ℚ) < 2 ^ e := by positivity
  obtain ⟨low, high, strict⟩ := (contains_iff (around_den_pos m e) n k).mp h
  rw [around_low, around_high] at *
  rw [← le_div_iff₀ scale_pos] at low
  rw [← div_le_iff₀ scale_pos] at high
  rw [← lt_div_iff₀ scale_pos, ← div_lt_iff₀ scale_pos] at strict
  have half : 4 * m ≤ below m e + 2 := by
    unfold below
    split <;> omega
  have half' : (4 * m : ℚ) ≤ below m e + 2 := by exact_mod_cast half
  refine ⟨by linarith, high, fun odd => ?_, fun power steps => ?_⟩
  · obtain ⟨low, high⟩ := strict (decide_eq_false (by omega))
    exact ⟨by linarith, high⟩
  · have quarter : 4 * m ≤ below m e + 1 := by
      rw [below, if_pos ⟨power, steps⟩]
      omega
    have quarter' : (4 * m : ℚ) ≤ below m e + 1 := by exact_mod_cast quarter
    linarith

/-- A decimal above the value by less than half a step lies in the interval. -/
theorem contains_above {m n : Nat} {e k : Int} (above : (m * 2 ^ e : ℚ) < n * 10 ^ k)
    (near : (n * 10 ^ k : ℚ) < (m + 1 / 2) * 2 ^ e) : (around m e).contains n k = true := by
  have le : below m e ≤ 4 * m := by
    unfold below
    split <;> omega
  have le' : (below m e : ℚ) ≤ 4 * m := by exact_mod_cast le
  have scale_pos : (0 : ℚ) < 2 ^ e := by positivity
  have low : (below m e / 4 * 2 ^ e : ℚ) < n * 10 ^ k :=
    lt_of_le_of_lt (mul_le_mul_of_nonneg_right (by linarith) scale_pos.le) above
  rw [contains_iff (around_den_pos m e), around_low, around_high]
  exact ⟨low.le, near.le, fun _ => ⟨low, near⟩⟩

/-- A picked point lies in the interval and is not zero. -/
theorem contains_of_pick? {tie : Tie} {i : Interval} {k : Int} {n : Nat}
    (h : i.pick? tie k = some n) : i.contains n k = true ∧ n ≠ 0 := by
  unfold pick? at h
  simp only at h
  generalize (timesTen i.value i.den (-k)).1 / (timesTen i.value i.den (-k)).2 = under at h
  have parity : under + under % 2 = under ∨ under + under % 2 = under + 1 := by omega
  split at h
  next => cases h
  next left _ =>
    cases h
    simpa using left
  next _ right =>
    cases h
    exact ⟨right, by omega⟩
  next left right =>
    have left : i.contains under k = true ∧ under ≠ 0 := by simpa using left
    have right : i.contains (under + 1) k = true ∧ under + 1 ≠ 0 := ⟨right, by omega⟩
    split at h
    next => cases h; exact left
    next =>
      split at h
      next => cases h; exact right
      next =>
        split at h
        next => cases h; exact right
        next =>
          cases h
          rcases parity with same | more
          · rwa [same]
          · rwa [more]

/-- On a grid finer than half a step some point is picked. -/
theorem pick?_isSome (tie : Tie) {m : Nat} {e k : Int} (fine : (10 : ℚ) ^ k < 1 / 2 * 2 ^ e) :
    ((around m e).pick? tie k).isSome = true := by
  have ten_pos : (0 : ℚ) < 10 ^ k := by positivity
  have den_pos := timesTen_den_pos (around m e).value (around_den_pos m e) (-k)
  have value := timesTen_value (around m e).value (around m e).den (-k)
  rw [around_value, zpow_neg] at value
  unfold pick?
  simp only
  generalize hn : (timesTen (around m e).value (around m e).den (-k)).1 = num at *
  generalize hd : (timesTen (around m e).value (around m e).den (-k)).2 = den at *
  have right : (around m e).contains (num / den + 1) k = true := by
    have floor : (num / den : Nat) * den ≤ num := Nat.div_mul_le_self num den
    have above : num < (num / den + 1) * den := by
      rw [← Nat.div_lt_iff_lt_mul den_pos]
      omega
    generalize num / den = under at *
    have den_pos' : (0 : ℚ) < den := by exact_mod_cast den_pos
    have floor : (under : ℚ) ≤ num / den := by
      rw [le_div_iff₀ den_pos']
      exact_mod_cast floor
    have above : (num / den : ℚ) < (under + 1 : Nat) := by
      rw [div_lt_iff₀ den_pos']
      exact_mod_cast above
    rw [value, ← div_eq_mul_inv] at floor above
    rw [div_lt_iff₀ ten_pos] at above
    rw [le_div_iff₀ ten_pos] at floor
    apply contains_above above
    push_cast
    linarith
  rw [right]
  split
  next _ h => cases h
  next _ h => cases h
  next => rfl
  next =>
    split
    next => rfl
    next =>
      split
      next => rfl
      next =>
        split
        next => rfl
        next => rfl

/-- If one of the grids has a point to pick, the search ends at a picked point. -/
theorem search_eq {tie : Tie} {i : Interval} {order : Int} (fuel : Nat) {digits last : Nat}
    (least : digits ≤ last) (most : last < digits + fuel)
    (found : (i.pick? tie (order - last)).isSome = true) :
    ∃ n k, i.pick? tie k = some n ∧
      i.search tie order fuel digits = Scientific.strip 20 ⟨n, k⟩ := by
  induction fuel generalizing digits with
  | zero => omega
  | succ fuel ih =>
    rw [search]
    split
    next n picked => exact ⟨n, _, picked, rfl⟩
    next none =>
      have more : digits ≠ last := by
        rintro rfl
        rw [none] at found
        cases found
      exact ih (by omega) (by omega)

end Interval

/-- Moving zeros keeps the number. -/
theorem Scientific.strip_value (fuel : Nat) (s : Scientific) :
    ((strip fuel s).digits * 10 ^ (strip fuel s).exponent : ℚ) = s.digits * 10 ^ s.exponent := by
  induction fuel generalizing s with
  | zero => rfl
  | succ fuel ih =>
    rw [strip]
    split
    next h =>
      have tens : s.digits = s.digits / 10 * 10 := by omega
      rw [ih, zpow_add_one₀ (by norm_num)]
      conv_rhs => rw [tens]
      push_cast
      ring
    next => rfl

theorem Scientific.strip_ne_zero (fuel : Nat) {s : Scientific} (h : s.digits ≠ 0) :
    (strip fuel s).digits ≠ 0 := by
  induction fuel generalizing s with
  | zero => exact h
  | succ fuel ih =>
    rw [strip]
    split
    next tens => exact ih (s := ⟨_, _⟩) (by simp only; omega)
    next => exact h

theorem le_leadingZeros {num den : Nat} (fuel : Nat) (h : den ≤ num * 10 ^ fuel) :
    den ≤ num * 10 ^ leadingZeros fuel num den := by
  induction fuel generalizing num with
  | zero => exact h
  | succ fuel ih =>
    rw [leadingZeros]
    split
    next le => simpa using le
    next =>
      rw [pow_succ', ← mul_assoc]
      exact ih (by rwa [pow_succ', ← mul_assoc] at h)

/-- The decimal order is not too large. -/
theorem ten_pow_decimalOrder_le {num den : Nat} (pos' : 0 < den)
    (h : den ≤ num * 10 ^ 400) : (10 : ℚ) ^ (decimalOrder num den - 1) ≤ num / den := by
  have den_pos : (0 : ℚ) < den := by exact_mod_cast pos'
  unfold decimalOrder
  split
  next large =>
    have some_digit : 0 < num / den := Nat.div_pos large pos'
    calc (10 : ℚ) ^ ((Nat.toDigits 10 (num / den)).length - 1 : Int) ≤ (num / den : Nat) :=
          (toDigits_length_bounds some_digit).1
      _ ≤ num / den := by
        rw [le_div_iff₀ den_pos]
        exact_mod_cast Nat.div_mul_le_self num den
  next small =>
    have enough := le_leadingZeros 400 h
    generalize leadingZeros 400 num den = zeros at *
    rw [le_div_iff₀ den_pos, show (1 - (zeros : Int) - 1) = -zeros by ring, zpow_neg, zpow_natCast,
      inv_mul_le_iff₀ (by positivity), mul_comm]
    exact_mod_cast enough

/-- The grid with eighteen digits is finer than half a step. -/
theorem ten_pow_lt_half {m : Nat} {e order : Int} (short : m < 2 * leadBit)
    (h : (10 : ℚ) ^ (order - 1) ≤ m * 2 ^ e) : (10 : ℚ) ^ (order - 18) < 1 / 2 * 2 ^ e := by
  have short : (m : ℚ) < 2 * leadBit := by exact_mod_cast short
  have scale_pos : (0 : ℚ) < 2 ^ e := by positivity
  calc (10 : ℚ) ^ (order - 18) = 10 ^ (order - 1) / 10 ^ (17 : Int) := by
        rw [← zpow_sub₀ (by norm_num)]
        congr 1
        ring
    _ ≤ m * 2 ^ e / 10 ^ (17 : Int) := by gcongr
    _ < 2 * leadBit * 2 ^ e / 10 ^ (17 : Int) := by gcongr
    _ = 2 * leadBit / 10 ^ (17 : Int) * 2 ^ e := by ring
    _ < 1 / 2 * 2 ^ e := mul_lt_mul_of_pos_right (by norm_num [leadBit]) scale_pos

/-- The shortest decimal of a double is not zero and rounds to the double. -/
theorem shortest_rounds (tie : Tie) {m : Nat} {e : Int} (positive : 0 < m) (c : Canonical m e) :
    (shortest tie m e).digits ≠ 0 ∧
      Rounds m e ((shortest tie m e).digits * 10 ^ (shortest tie m e).exponent) := by
  have value := Interval.around_value m e
  have den_pos := Interval.around_den_pos m e
  have den_pos' : (0 : ℚ) < (Interval.around m e).den := by exact_mod_cast den_pos
  have enough : (Interval.around m e).den ≤ (Interval.around m e).value * 10 ^ 400 := by
    have one : (1 : ℚ) ≤ m := by exact_mod_cast positive
    have : (1 : ℚ) ≤ (Interval.around m e).value / (Interval.around m e).den * 10 ^ 400 := by
      rw [value]
      calc (1 : ℚ) ≤ 2 ^ (-1075 : Int) * 2 ^ (1075 : Int) := by
            rw [← zpow_add₀ (by norm_num)]
            rfl
        _ ≤ 2 ^ e * 10 ^ (400 : Int) := by
          gcongr
          · norm_num
          · have := c.least
            omega
          · exact two_pow_le_ten_pow.trans (zpow_le_zpow_right₀ (by norm_num) (by norm_num))
        _ ≤ m * 2 ^ e * 10 ^ 400 := by
          rw [mul_assoc]
          exact le_mul_of_one_le_left (by positivity) one
    rw [div_mul_eq_mul_div, le_div_iff₀ den_pos', one_mul] at this
    exact_mod_cast this
  have order := ten_pow_decimalOrder_le den_pos enough
  rw [value] at order
  have found := Interval.pick?_isSome tie (m := m) (ten_pow_lt_half c.short order)
  obtain ⟨n, k, picked, search⟩ :=
    Interval.search_eq 18 (show 1 ≤ 18 by decide) (by decide) found
  obtain ⟨contained, nonzero⟩ := Interval.contains_of_pick? picked
  have shortest : shortest tie m e = Scientific.strip 20 ⟨n, k⟩ := by
    rw [shortest, if_neg positive.ne']
    exact search
  rw [shortest, Scientific.strip_value]
  exact ⟨Scientific.strip_ne_zero 20 nonzero, Interval.rounds_of_contains positive contained⟩

end Stepwise.Decimal
