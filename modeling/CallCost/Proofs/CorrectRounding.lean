import CallCost.Proofs.RoundedSums
import Mathlib.Algebra.Order.Field.Rat
import Mathlib.Algebra.Ring.Parity
import Mathlib.Data.Nat.Cast.Order.Field
import Mathlib.Tactic.FieldSimp
import Mathlib.Tactic.Linarith
import Mathlib.Tactic.Ring

/-!
Correct rounding. A magnitude goes to the nearest count of units with at most 53 significant bits,
on a tie to the one whose significand is even, and to infinity where that count is the overflow.
This fixes one number for every magnitude, and rounding a quotient finds it.
-/

namespace CallCost.Binary64

theorem twoPow_eq_pow (k : ℕ) : twoPow k = 2 ^ k :=
  twoPow_eq k

/-! ### Significands -/

/-- A count and its significand. It has at most 53 bits, and fewer only where the last of them
stands in the last place of the format. -/
def HasSignificand (count significand : ℕ) : Prop :=
  ∃ place, count = significand * 2 ^ place ∧ significand < 2 ^ 53 ∧
    (place = 0 ∨ 2 ^ 52 ≤ significand)

theorem lastPlace_eq {s place : ℕ} (few : s < 2 ^ 53) (full : place = 0 ∨ 2 ^ 52 ≤ s) :
    lastPlace (s * 2 ^ place) = place := by
  have upper : lastPlace (s * 2 ^ place) ≤ place := by
    rw [← twoPow_eq_pow]
    exact lastPlace_mul_twoPow_le (by rwa [twoPow_eq_pow])
  rcases full with rfl | full
  · exact Nat.le_zero.1 upper
  · have bits : 2 ^ (52 + place) ≤ s * 2 ^ place := by
      rw [pow_add]
      exact Nat.mul_le_mul_right _ full
    have leading : 52 + place ≤ (s * 2 ^ place).log2 := by
      refine (Nat.le_log2 ?_).2 bits
      exact Nat.ne_of_gt (Nat.lt_of_lt_of_le (Nat.two_pow_pos _) bits)
    rw [lastPlace] at upper ⊢
    omega

theorem hasSignificand_iff {count s : ℕ} :
    HasSignificand count s ↔
      2 ^ lastPlace count ∣ count ∧ s = count / 2 ^ lastPlace count := by
  constructor
  · rintro ⟨place, rfl, few, full⟩
    rw [lastPlace_eq few full]
    exact ⟨Nat.dvd_mul_left _ _, (Nat.mul_div_cancel _ (Nat.two_pow_pos _)).symm⟩
  · rintro ⟨whole, rfl⟩
    refine ⟨lastPlace count, (Nat.div_mul_cancel whole).symm, ?_, ?_⟩
    · have below := lt_twoPow_lastPlace count
      rw [twoPow_eq_pow, pow_add] at below
      exact (Nat.div_lt_iff_lt_mul (Nat.two_pow_pos _)).2 below
    · rcases Nat.eq_zero_or_pos (lastPlace count) with bottom | above
      · exact .inl bottom
      · have large := twoPow_le_of_lastPlace_pos above
        rw [twoPow_eq_pow, pow_add] at large
        exact .inr ((Nat.le_div_iff_mul_le (Nat.two_pow_pos _)).2 large)

theorem HasSignificand.unique {count s t : ℕ} (hs : HasSignificand count s)
    (ht : HasSignificand count t) : s = t :=
  (hasSignificand_iff.1 hs).2.trans (hasSignificand_iff.1 ht).2.symm

theorem hasSignificand_overflow : HasSignificand overflow (2 ^ 52) := by
  refine ⟨972 + fractionPlaces, ?_, by norm_num, .inr le_rfl⟩
  rw [overflow, twoPow_eq_pow, ← pow_add]
  congr 1

/-- Behind a count with an even significand comes one with an odd significand, and no count of the
format lies between. -/
theorem HasSignificand.exists_next {m n s t : ℕ} (hs : HasSignificand m s)
    (ht : HasSignificand n t) (even : Even s) (lt : m < n) :
    ∃ next, HasSignificand next (s + 1) ∧ m < next ∧ next ≤ n := by
  obtain ⟨place, rfl, few, full⟩ := hs
  have unit_pos : 0 < 2 ^ place := Nat.two_pow_pos _
  have fits : s + 1 < 2 ^ 53 := by
    obtain ⟨half, rfl⟩ := even
    omega
  refine ⟨(s + 1) * 2 ^ place, ⟨place, rfl, fits, full.imp_right (by omega)⟩, ?_, ?_⟩
  · exact Nat.mul_lt_mul_of_pos_right (Nat.lt_succ_self s) unit_pos
  · have coarser : place ≤ lastPlace n := by
      have monotone := lastPlace_le (Nat.le_of_lt lt)
      rwa [lastPlace_eq few full] at monotone
    obtain ⟨k, rfl⟩ := Nat.dvd_trans (pow_dvd_pow 2 coarser) (hasSignificand_iff.1 ht).1
    rw [Nat.mul_comm _ k] at lt ⊢
    exact Nat.mul_le_mul_right _ (Nat.lt_of_mul_lt_mul_right lt)

/-! ### The nearest whole number -/

theorem cast_div_eq_add {num den : ℕ} (pos : 0 < den) :
    (num / den : ℚ) = (num / den : ℕ) + (num % den : ℕ) / den := by
  have den_ne : (den : ℚ) ≠ 0 := Nat.cast_ne_zero.2 pos.ne'
  rw [eq_comm, add_comm, div_add' _ _ _ den_ne, div_left_inj' den_ne]
  exact_mod_cast Nat.mod_add_div' num den

/-- The nearest whole number is at most a half away, and even where it is just a half. -/
theorem divNearest_near (num : ℕ) {den : ℕ} (pos : 0 < den) :
    2 * |(num / den : ℚ) - divNearest num den| < 1 ∨
      2 * |(num / den : ℚ) - divNearest num den| = 1 ∧ Even (divNearest num den) := by
  have den_pos : (0 : ℚ) < den := Nat.cast_pos.2 pos
  have rest_lt : num % den < den := Nat.mod_lt _ pos
  have fraction_nonneg : (0 : ℚ) ≤ (num % den : ℕ) / den := by positivity
  have fraction_lt : ((num % den : ℕ) / den : ℚ) < 1 := by
    rw [div_lt_one den_pos]
    exact_mod_cast rest_lt
  rw [cast_div_eq_add pos, divNearest]
  split
  · rename_i down
    rw [add_sub_cancel_left, abs_of_nonneg fraction_nonneg, ← mul_div_assoc, div_lt_one den_pos,
      div_eq_one_iff_eq den_pos.ne']
    rcases down with below | ⟨half, even⟩
    · exact .inl (by exact_mod_cast below)
    · exact .inr ⟨by exact_mod_cast half, Nat.even_iff.2 even⟩
  · rename_i up
    have half_le : den ≤ 2 * (num % den) := by omega
    have distance : ((num / den : ℕ) + (num % den : ℕ) / den : ℚ) - ((num / den + 1 : ℕ) : ℚ) =
        -(1 - (num % den : ℕ) / den) := by
      push_cast
      ring
    rw [distance, abs_neg, abs_of_pos (by linarith)]
    rcases Nat.lt_or_eq_of_le half_le with above | half
    · have above_half : (1 : ℚ) < 2 * ((num % den : ℕ) / den) := by
        rw [← mul_div_assoc, one_lt_div den_pos]
        exact_mod_cast above
      exact .inl (by linarith)
    · have just_half : (2 * ((num % den : ℕ) / den) : ℚ) = 1 := by
        rw [← mul_div_assoc, div_eq_one_iff_eq den_pos.ne']
        exact_mod_cast half.symm
      refine .inr ⟨by linarith, ?_⟩
      rw [Nat.even_iff]
      omega

/-- Another whole number is farther away, or it is as near and the chosen one is even. -/
theorem abs_sub_divNearest {num den k : ℕ} (pos : 0 < den) (other : k ≠ divNearest num den) :
    |(num / den : ℚ) - divNearest num den| < |(num / den : ℚ) - k| ∨
      |(num / den : ℚ) - divNearest num den| = |(num / den : ℚ) - k| ∧
        Even (divNearest num den) := by
  have apart : (1 : ℚ) ≤ |(divNearest num den : ℚ) - k| := by
    have ne : (divNearest num den - k : ℤ) ≠ 0 := by omega
    exact_mod_cast Int.one_le_abs ne
  have triangle : |(divNearest num den : ℚ) - k| ≤
      |(num / den : ℚ) - divNearest num den| + |(num / den : ℚ) - k| := by
    rw [abs_sub_comm (num / den : ℚ) (divNearest num den)]
    exact abs_sub_le _ _ _
  rcases divNearest_near num pos with near | ⟨half, even⟩
  · exact .inl (by linarith)
  · have no_farther : |(num / den : ℚ) - divNearest num den| ≤ |(num / den : ℚ) - k| := by
      linarith
    exact (lt_or_eq_of_le no_farther).imp_right fun tie => ⟨tie, even⟩

theorem abs_sub_divNearest_le {num den : ℕ} (pos : 0 < den) (k : ℕ) :
    |(num / den : ℚ) - divNearest num den| ≤ |(num / den : ℚ) - k| := by
  by_cases same : k = divNearest num den
  · rw [same]
  · rcases abs_sub_divNearest pos same with closer | ⟨tie, _⟩
    · exact closer.le
    · exact tie.le

/-! ### Rounding a quotient -/

/-- Rounding keeps at most 53 bits. It changes the nearest multiple of the last place only where
that carries, and then the significand is even. -/
theorem hasSignificand_round (num : ℕ) {den : ℕ} (pos : 0 < den) :
    ∃ s, HasSignificand (round num den) s ∧
      (Even (divNearest num (den * twoPow (lastPlace (num / den)))) → Even s) := by
  have low := @twoPow_le_of_lastPlace_pos (num / den)
  have high := lt_twoPow_lastPlace (num / den)
  rw [round]
  simp only [twoPow_eq_pow] at low high ⊢
  generalize lastPlace (num / den) = place at low high ⊢
  have scale_pos : 0 < den * 2 ^ place := Nat.mul_pos pos (Nat.two_pow_pos _)
  have at_most : divNearest num (den * 2 ^ place) ≤ 2 ^ 53 := by
    apply divNearest_le scale_pos
    calc num ≤ 2 ^ (53 + place) * den := Nat.le_of_lt ((Nat.div_lt_iff_lt_mul pos).1 high)
      _ = 2 ^ 53 * (den * 2 ^ place) := by ring
  have full : place = 0 ∨ 2 ^ 52 ≤ divNearest num (den * 2 ^ place) := by
    rcases Nat.eq_zero_or_pos place with bottom | above
    · exact .inl bottom
    · refine .inr (le_divNearest scale_pos ?_)
      calc 2 ^ 52 * (den * 2 ^ place) = 2 ^ (52 + place) * den := by ring
        _ ≤ num := (Nat.le_div_iff_mul_le pos).1 (low above)
  rcases Nat.lt_or_eq_of_le at_most with fits | carry
  · exact ⟨_, ⟨place, rfl, fits, full⟩, id⟩
  · rw [carry]
    refine ⟨2 ^ 52, ⟨place + 1, by ring, by norm_num, .inr le_rfl⟩, fun _ => ?_⟩
    exact ⟨2 ^ 51, by norm_num⟩

theorem abs_sub_mul_pow {num den : ℕ} (pos : 0 < den) (place k : ℕ) :
    |(num / den : ℚ) - (k * 2 ^ place : ℕ)| =
      2 ^ place * |(num / (den * 2 ^ place : ℕ) : ℚ) - k| := by
  have den_ne : (den : ℚ) ≠ 0 := Nat.cast_ne_zero.2 pos.ne'
  have unit_pos : (0 : ℚ) < 2 ^ place := by positivity
  have scaled : (num / den : ℚ) - (k * 2 ^ place : ℕ) =
      2 ^ place * ((num / (den * 2 ^ place : ℕ) : ℚ) - k) := by
    push_cast
    field_simp
  rw [scaled, abs_mul, abs_of_pos unit_pos]

/-- A count on a finer grid lies below a power of two. The quotient is not below that power and so
is no farther from its rounding than from the power. -/
theorem abs_sub_round_of_finer {num den other : ℕ} (pos : 0 < den)
    (finer : lastPlace other < lastPlace (num / den)) :
    |(num / den : ℚ) - round num den| < |(num / den : ℚ) - other| := by
  have below := lt_twoPow_lastPlace other
  have low := twoPow_le_of_lastPlace_pos (Nat.zero_lt_of_lt finer)
  rw [round]
  simp only [twoPow_eq_pow] at below low ⊢
  generalize lastPlace (num / den) = place at finer low ⊢
  have scale_pos : 0 < den * 2 ^ place := Nat.mul_pos pos (Nat.two_pow_pos _)
  have between : other < 2 ^ 52 * 2 ^ place := by
    rw [← pow_add]
    exact Nat.lt_of_lt_of_le below (Nat.pow_le_pow_right (by decide) (by omega))
  have reached : ((2 ^ 52 * 2 ^ place : ℕ) : ℚ) ≤ num / den := by
    rw [← pow_add]
    exact (Nat.cast_le.2 low).trans Nat.cast_div_le
  have nearer : |(num / den : ℚ) - (divNearest num (den * 2 ^ place) * 2 ^ place : ℕ)| ≤
      |(num / den : ℚ) - (2 ^ 52 * 2 ^ place : ℕ)| := by
    rw [abs_sub_mul_pow pos, abs_sub_mul_pow pos]
    exact mul_le_mul_of_nonneg_left (abs_sub_divNearest_le scale_pos _) (by positivity)
  have other_lt : (other : ℚ) < (2 ^ 52 * 2 ^ place : ℕ) := Nat.cast_lt.2 between
  refine lt_of_le_of_lt nearer ?_
  generalize ((2 ^ 52 * 2 ^ place : ℕ) : ℚ) = power at reached other_lt ⊢
  rw [abs_of_nonneg (by linarith), abs_of_nonneg (by linarith)]
  linarith

/-- Of the counts with at most 53 bits none is nearer than the rounded one, however large it is. -/
theorem abs_sub_round {num den other : ℕ} (pos : 0 < den) (format : ∃ s, HasSignificand other s)
    (ne : other ≠ round num den) :
    |(num / den : ℚ) - round num den| < |(num / den : ℚ) - other| ∨
      |(num / den : ℚ) - round num den| = |(num / den : ℚ) - other| ∧
        Even (divNearest num (den * twoPow (lastPlace (num / den)))) := by
  rcases Nat.lt_or_ge (lastPlace other) (lastPlace (num / den)) with finer | coarser
  · exact .inl (abs_sub_round_of_finer pos finer)
  · obtain ⟨s, split⟩ := format
    have whole := (hasSignificand_iff.1 split).1
    rw [round] at ne ⊢
    simp only [twoPow_eq_pow] at ne ⊢
    generalize lastPlace (num / den) = place at coarser ne ⊢
    have unit_pos : (0 : ℚ) < 2 ^ place := by positivity
    obtain ⟨k, rfl⟩ := Nat.dvd_trans (pow_dvd_pow 2 coarser) whole
    rw [Nat.mul_comm _ k] at ne ⊢
    rw [abs_sub_mul_pow pos, abs_sub_mul_pow pos, mul_lt_mul_iff_of_pos_left unit_pos,
      mul_right_inj' unit_pos.ne']
    apply abs_sub_divNearest (Nat.mul_pos pos (Nat.two_pow_pos _))
    rintro rfl
    exact ne rfl

theorem abs_sub_round_le (num : ℕ) {den other : ℕ} (pos : 0 < den)
    (format : ∃ s, HasSignificand other s) :
    |(num / den : ℚ) - round num den| ≤ |(num / den : ℚ) - other| := by
  by_cases same : other = round num den
  · rw [same]
  · rcases abs_sub_round pos format same with closer | ⟨tie, _⟩
    · exact closer.le
    · exact tie.le

/-! ### The nearest count -/

/-- The counts of the finite numbers, and the overflow for all that lies beyond them. -/
def IsTarget (count : ℕ) : Prop :=
  (∃ s, HasSignificand count s) ∧ count ≤ overflow

/-- The count that an amount of units is rounded to: the nearest, and of two that are as near the
one with the even significand. -/
structure IsNearest (x : ℚ) (count : ℕ) : Prop where
  target : IsTarget count
  nearest : ∀ other, IsTarget other → |x - count| ≤ |x - other|
  even : ∀ other, IsTarget other → other ≠ count → |x - count| = |x - other| →
    ∃ s, HasSignificand count s ∧ Even s

/-- Two nearest counts would stand next to each other and both have an even significand. -/
theorem IsNearest.eq_of_le {x : ℚ} {m n : ℕ} (hm : IsNearest x m) (hn : IsNearest x n)
    (le : m ≤ n) : m = n := by
  by_contra ne
  have tie : |x - m| = |x - n| :=
    le_antisymm (hm.nearest n hn.target) (hn.nearest m hm.target)
  have m_lt : (m : ℚ) < n := Nat.cast_lt.2 (Nat.lt_of_le_of_ne le ne)
  have middle : x - m = n - x := by
    rcases abs_eq_abs.1 tie with same | opposite
    · linarith
    · linarith
  obtain ⟨s, hs, s_even⟩ := hm.even n hn.target (Ne.symm ne) tie
  obtain ⟨t, ht, t_even⟩ := hn.even m hm.target ne tie.symm
  obtain ⟨next, hnext, above, next_le⟩ := hs.exists_next ht s_even (Nat.lt_of_le_of_ne le ne)
  rcases Nat.lt_or_eq_of_le next_le with between | rfl
  · have nearest := hm.nearest next ⟨⟨_, hnext⟩, Nat.le_trans next_le hn.target.2⟩
    have m_lt_next : (m : ℚ) < next := Nat.cast_lt.2 above
    have next_lt : (next : ℚ) < n := Nat.cast_lt.2 between
    rw [abs_of_pos (by linarith)] at nearest
    rcases abs_cases (x - next) with ⟨same, _⟩ | ⟨same, _⟩
    · linarith
    · linarith
  · rw [ht.unique hnext, Nat.even_add_one] at t_even
    exact t_even s_even

theorem IsNearest.unique {x : ℚ} {m n : ℕ} (hm : IsNearest x m) (hn : IsNearest x n) : m = n :=
  (Nat.le_total m n).elim (hm.eq_of_le hn) fun le => (hn.eq_of_le hm le).symm

/-- What is below half a unit is rounded to nothing. -/
theorem isNearest_zero {x : ℚ} (nonneg : 0 ≤ x) (small : 2 * x < 1) : IsNearest x 0 := by
  have farther (other : ℕ) (ne : other ≠ 0) : |x - (0 : ℕ)| < |x - other| := by
    have one_le : (1 : ℚ) ≤ other := Nat.one_le_cast.2 (Nat.one_le_iff_ne_zero.2 ne)
    rw [Nat.cast_zero, sub_zero, abs_of_nonneg nonneg, abs_of_neg (by linarith)]
    linarith
  refine ⟨⟨⟨0, 0, by simp⟩, Nat.zero_le _⟩, fun other _ => ?_, fun other _ ne tie => ?_⟩
  · by_cases same : other = 0
    · rw [same]
    · exact (farther other same).le
  · exact absurd tie (farther other ne).ne

/-- What lies beyond the finite numbers is rounded to the overflow. -/
theorem isNearest_overflow {x : ℚ} (large : overflow ≤ x) : IsNearest x overflow := by
  refine ⟨⟨⟨_, hasSignificand_overflow⟩, le_rfl⟩, fun other target => ?_, fun _ _ _ _ => ?_⟩
  · have other_le : (other : ℚ) ≤ overflow := Nat.cast_le.2 target.2
    rw [abs_of_nonneg (by linarith), abs_of_nonneg (by linarith)]
    linarith
  · exact ⟨_, hasSignificand_overflow, 2 ^ 51, by norm_num⟩

/-- Rounding a quotient gives the nearest count, where all that is too large goes to the
overflow. -/
theorem isNearest_round {num den : ℕ} (pos : 0 < den) :
    IsNearest (num / den) (min (round num den) overflow) := by
  obtain ⟨s, split, even⟩ := hasSignificand_round num pos
  rcases Nat.lt_or_ge overflow (round num den) with beyond | fits
  · rw [Nat.min_eq_right (Nat.le_of_lt beyond)]
    apply isNearest_overflow
    by_contra below
    -- From below, the overflow would be nearer than what lies beyond it.
    have beyond_cast : (overflow : ℚ) < round num den := Nat.cast_lt.2 beyond
    have overflow_near := abs_sub_round_le num pos ⟨_, hasSignificand_overflow⟩
    rw [abs_of_neg (by linarith), abs_of_neg (by linarith)] at overflow_near
    linarith
  · rw [Nat.min_eq_left fits]
    refine ⟨⟨⟨s, split⟩, fits⟩, fun other target => abs_sub_round_le num pos target.1,
      fun other target ne tie => ?_⟩
    rcases abs_sub_round pos target.1 ne with closer | ⟨_, tie_even⟩
    · exact absurd tie closer.ne
    · exact ⟨s, split, even tie_even⟩

/-! ### The number for a magnitude -/

/-- The number with a sign and a count of units, where the overflow stands for infinity. -/
def ofCount (negative : Bool) (count : ℕ) : Binary64 :=
  if overflow ≤ count then .infinite negative
  else .finite (if negative then -count else count)

theorem ofCount_zero (negative : Bool) : ofCount negative 0 = 0 := by
  have finite_ : ¬overflow ≤ 0 := Nat.not_le.2 (twoPow_pos _)
  rw [ofCount, if_neg finite_]
  cases negative <;> rfl

theorem ofCount_overflow (negative : Bool) : ofCount negative overflow = .infinite negative :=
  if_pos le_rfl

theorem ofQuotient_eq (negative : Bool) (num den : ℕ) :
    ofQuotient negative num den = ofCount negative (min (round num den) overflow) := by
  rcases Nat.le_total overflow (round num den) with beyond | fits
  · rw [Nat.min_eq_right beyond, ofCount_overflow]
    exact if_pos beyond
  · rw [Nat.min_eq_left fits]
    rfl

/-- The number with the given sign whose magnitude is nearest to an amount of ones. -/
def IsNumberFor (negative : Bool) (magnitude : ℚ) (x : Binary64) : Prop :=
  ∃ count, IsNearest (magnitude * unitsPerOne) count ∧ x = ofCount negative count

theorem IsNearest.isNumberFor_iff {negative : Bool} {magnitude : ℚ} {count : ℕ} {x : Binary64}
    (nearest : IsNearest (magnitude * unitsPerOne) count) :
    IsNumberFor negative magnitude x ↔ x = ofCount negative count := by
  constructor
  · rintro ⟨other, other_nearest, rfl⟩
    rw [other_nearest.unique nearest]
  · rintro rfl
    exact ⟨count, nearest, rfl⟩

/-- The number for a quotient is the one that rounding finds, and no other. -/
theorem isNumberFor_ofQuotient_iff {negative : Bool} {magnitude : ℚ} {num den : ℕ} {x : Binary64}
    (pos : 0 < den) (exact_ : magnitude * unitsPerOne = num / den) :
    IsNumberFor negative magnitude x ↔ x = ofQuotient negative num den := by
  have nearest : IsNearest (magnitude * unitsPerOne) _ := exact_ ▸ isNearest_round pos
  rw [nearest.isNumberFor_iff, ofQuotient_eq]

end CallCost.Binary64
