import CallCost.Binary64.Numeral
import CallCost.Proofs.CorrectRounding
import Mathlib.Algebra.Order.Field.Power
import Mathlib.Tactic.NormNum

/-!
The numbers for decimals and for whole numbers of any size. A decimal is rounded correctly also
where its leading place alone decides for zero or infinity.
-/

namespace CallCost

namespace Binary64

/-- A whole number of any size and either sign is rounded correctly. -/
theorem isNumberFor_natCast_iff {negative : Bool} {n : ℕ} {x : Binary64} :
    IsNumberFor negative n x ↔ x = .ofInt (if negative then -n else n) := by
  rcases Nat.eq_zero_or_pos n with rfl | pos
  · have zero : IsNearest ((0 : ℕ) * unitsPerOne) 0 := by
      rw [Nat.cast_zero, zero_mul]
      exact isNearest_zero le_rfl (by norm_num)
    have integer : (if negative then -((0 : ℕ) : ℤ) else (0 : ℕ)) = 0 := by
      cases negative <;> rfl
    rw [zero.isNumberFor_iff, ofCount_zero, integer, ← ofNat_zero]
    rfl
  · have one_pos : 0 < unitsPerOne := twoPow_pos _
    have units_pos : 0 < n * unitsPerOne := Nat.mul_pos pos one_pos
    have sign : decide ((if negative then -(n : ℤ) else n) * unitsPerOne < 0) = negative := by
      cases negative
      · exact decide_eq_false (by simp only [Bool.false_eq_true, if_false]; omega)
      · exact decide_eq_true (by simp only [if_true]; rw [neg_mul]; omega)
    have magnitude : ((if negative then -(n : ℤ) else n) * unitsPerOne).natAbs =
        n * unitsPerOne := by
      cases negative <;> simp [Int.natAbs_mul]
    rw [ofInt, nearest_eq, sign, magnitude, isNumberFor_ofQuotient_iff Nat.one_pos]
    rw [Nat.cast_one, div_one, Nat.cast_mul]

theorem isNumberFor_ofNat_iff {n : ℕ} {x : Binary64} :
    IsNumberFor false n x ↔ x = .ofNat n :=
  isNumberFor_natCast_iff

end Binary64

namespace Decimal

open Binary64

/-- What a decimal stands for. -/
def value (d : Decimal) : ℚ :=
  d.digits * 10 ^ d.exponent

theorem cast_tenPow (k : ℕ) : (tenPow k : ℚ) = 10 ^ k := by
  rw [tenPow]
  exact Nat.cast_pow 10 k

theorem tenPow_pos (k : ℕ) : 0 < tenPow k :=
  Nat.pow_pos (by decide)

theorem zpow_eq_tenPow_div (e : ℤ) : (10 : ℚ) ^ e = tenPow e.toNat / tenPow (-e).toNat := by
  rw [cast_tenPow, cast_tenPow]
  rcases Int.le_total 0 e with nonneg | nonpos
  · obtain ⟨k, rfl⟩ := Int.eq_ofNat_of_zero_le nonneg
    simp
  · obtain ⟨k, same⟩ := Int.eq_ofNat_of_zero_le (Int.neg_nonneg_of_nonpos nonpos)
    obtain rfl : e = -k := by omega
    simp

/-! ### The leading place -/

theorem lt_pow_digitCount (n : ℕ) : n < 10 ^ digitCount n :=
  (Nat.length_toDigits_le_iff (by decide) Nat.length_toDigits_pos).1 le_rfl

theorem pow_digitCount_le {n : ℕ} (ne : n ≠ 0) : 10 ^ digitCount n ≤ n * 10 := by
  have pos : 0 < digitCount n := Nat.length_toDigits_pos
  obtain ⟨k, count⟩ := Nat.exists_eq_succ_of_ne_zero pos.ne'
  rw [count, pow_succ]
  apply Nat.mul_le_mul_right
  rcases Nat.eq_zero_or_pos k with rfl | more
  · exact Nat.one_le_iff_ne_zero.2 ne
  · apply Nat.le_of_not_lt
    intro below
    have fewer := (Nat.length_toDigits_le_iff (by decide) more).2 below
    rw [← digitCount, count] at fewer
    omega

theorem value_nonneg (d : Decimal) : 0 ≤ d.value := by
  rw [value]
  positivity

theorem value_mul_tenPow_lt_one {d : Decimal} {k : ℕ}
    (low : digitCount d.digits + d.exponent ≤ -k) : d.value * tenPow k < 1 := by
  have below : d.value < 10 ^ (digitCount d.digits + d.exponent) := by
    rw [value, zpow_add₀ (by norm_num), zpow_natCast]
    exact mul_lt_mul_of_pos_right (by exact_mod_cast lt_pow_digitCount d.digits) (by positivity)
  have power : d.value < 10 ^ (-k : ℤ) :=
    below.trans_le (zpow_le_zpow_right₀ (by norm_num) low)
  rwa [zpow_neg, zpow_natCast, ← cast_tenPow, ← one_div,
    lt_div_iff₀ (Nat.cast_pos.2 (tenPow_pos k))] at power

theorem tenPow_le_value {d : Decimal} {k : ℕ} (ne : d.digits ≠ 0)
    (high : k < digitCount d.digits + d.exponent) : tenPow k ≤ d.value := by
  have above : 10 ^ (digitCount d.digits + d.exponent - 1) ≤ d.value := by
    rw [value, zpow_sub_one₀ (by norm_num), zpow_add₀ (by norm_num), zpow_natCast, mul_right_comm]
    apply mul_le_mul_of_nonneg_right _ (by positivity)
    rw [mul_inv_le_iff₀ (by norm_num)]
    exact_mod_cast pow_digitCount_le ne
  rw [cast_tenPow, ← zpow_natCast]
  exact (zpow_le_zpow_right₀ (by norm_num) (by omega)).trans above

/-! ### The nearest number -/

theorem isNearest_zero_of_place_le {d : Decimal} (low : digitCount d.digits + d.exponent ≤ -324) :
    IsNearest (d.value * unitsPerOne) 0 := by
  have units : (2 * unitsPerOne : ℚ) ≤ tenPow 324 := by
    exact_mod_cast (by decide +kernel : 2 * unitsPerOne ≤ tenPow 324)
  apply isNearest_zero (mul_nonneg d.value_nonneg (Nat.cast_nonneg _))
  calc 2 * (d.value * unitsPerOne) = d.value * (2 * unitsPerOne) := by ring
    _ ≤ d.value * tenPow 324 := mul_le_mul_of_nonneg_left units d.value_nonneg
    _ < 1 := value_mul_tenPow_lt_one low

theorem isNearest_overflow_of_le_place {d : Decimal} (ne : d.digits ≠ 0)
    (high : 310 ≤ digitCount d.digits + d.exponent) :
    IsNearest (d.value * unitsPerOne) overflow := by
  have units : (overflow : ℚ) ≤ tenPow 309 * unitsPerOne := by
    exact_mod_cast (by decide +kernel : overflow ≤ tenPow 309 * unitsPerOne)
  apply isNearest_overflow
  calc (overflow : ℚ) ≤ tenPow 309 * unitsPerOne := units
    _ ≤ d.value * unitsPerOne :=
      mul_le_mul_of_nonneg_right (tenPow_le_value ne (by omega)) (Nat.cast_nonneg _)

/-- Reading a decimal gives the number for it. -/
theorem isNumberFor_value_iff {negative : Bool} {d : Decimal} {x : Binary64} :
    IsNumberFor negative d.value x ↔ x = d.toBinary64 negative := by
  rw [toBinary64]
  by_cases none_ : d.digits = 0
  · have zero : IsNearest (d.value * unitsPerOne) 0 := by
      rw [value, none_, Nat.cast_zero, zero_mul, zero_mul]
      exact isNearest_zero le_rfl (by norm_num)
    rw [if_pos none_, zero.isNumberFor_iff, ofCount_zero]
  · rw [if_neg none_]
    dsimp only
    split
    · rename_i low
      rw [(isNearest_zero_of_place_le low).isNumberFor_iff, ofCount_zero]
    · split
      · rename_i high
        rw [(isNearest_overflow_of_le_place none_ high).isNumberFor_iff, ofCount_overflow]
      · apply isNumberFor_ofQuotient_iff (tenPow_pos _)
        rw [value, zpow_eq_tenPow_div]
        push_cast
        ring

/-- A decimal without an exponent is read as the number for the whole number in its digits. -/
theorem toBinary64_natural (n : ℕ) : toBinary64 false ⟨n, 0⟩ = .ofNat n := by
  have value : value ⟨n, 0⟩ = n := by
    rw [Decimal.value, zpow_zero, mul_one]
  have number : IsNumberFor false (Decimal.value ⟨n, 0⟩) (.ofNat n) := by
    rw [value]
    exact isNumberFor_ofNat_iff.2 rfl
  exact (isNumberFor_value_iff.1 number).symm

end Decimal
end CallCost
