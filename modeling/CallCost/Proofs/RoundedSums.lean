import CallCost.Proofs.WholeNumbers

/-!
Sums of whole numbers beyond the exact range. Rounding keeps a whole number whole and does not
pass a number of the format that bounds the exact result, so a sum of fewer than 2^53 safe counts
is a whole number and stays far below the overflow. A sum of any numbers is in the format once it
has been rounded, and adding nothing does not change it.
-/

namespace CallCost.Binary64

/-- A whole number from zero up, of any size. -/
def IsWhole (x : Binary64) : Prop :=
  ∃ n : Nat, x = .finite (n * unitsPerOne)

theorem isWhole_ofNat {n : Nat} (h : n ≤ maxSafe) : (ofNat n).IsWhole :=
  ⟨n, ofNat_eq h⟩

theorem divNearest_le {num den bound : Nat} (pos : 0 < den) (h : num ≤ bound * den) :
    divNearest num den ≤ bound := by
  have quotient : num / den ≤ bound := Nat.div_le_of_le_mul (by rwa [Nat.mul_comm])
  rw [divNearest]
  split
  · exact quotient
  · rename_i up
    -- A quotient that is rounded up leaves a remainder, so it is not the bound itself.
    have below : num / den ≠ bound := by
      intro same
      have whole := Nat.div_add_mod num den
      rw [same, Nat.mul_comm] at whole
      have none_left : num % den = 0 := by omega
      rw [none_left] at up
      omega
    omega

theorem lastPlace_le {a b : Nat} (h : a ≤ b) : lastPlace a ≤ lastPlace b := by
  rcases Nat.eq_zero_or_pos a with rfl | ha
  · exact Nat.zero_le _
  · have hb : b ≠ 0 := by omega
    have below : b < twoPow (b.log2 + 1) := (log2_lt_iff hb).1 (Nat.lt_succ_self _)
    have := (log2_lt_iff (Nat.ne_of_gt ha)).2 (Nat.lt_of_le_of_lt h below)
    rw [lastPlace, lastPlace]
    omega

theorem round_le {a b : Nat} (h : a ≤ b) (exact_ : twoPow (lastPlace b) ∣ b) : round a 1 ≤ b := by
  obtain ⟨q, hq⟩ := Nat.dvd_trans (twoPow_dvd (lastPlace_le h)) exact_
  rw [Nat.mul_comm] at hq
  simp only [round, Nat.div_one, Nat.one_mul]
  rw [hq] at h ⊢
  exact Nat.mul_le_mul_right _ (divNearest_le (twoPow_pos _) h)

theorem le_divNearest {num den bound : Nat} (pos : 0 < den) (h : bound * den ≤ num) :
    bound ≤ divNearest num den := by
  have quotient : bound ≤ num / den := (Nat.le_div_iff_mul_le pos).2 h
  rw [divNearest]
  split
  · exact quotient
  · exact Nat.le_succ_of_le quotient

/-- The last place of a number is within 53 places of its first. -/
theorem twoPow_le_of_lastPlace_pos {n : Nat} (h : 0 < lastPlace n) :
    twoPow (52 + lastPlace n) ≤ n := by
  rw [lastPlace] at h ⊢
  have ne : n ≠ 0 := by
    rintro rfl
    exact absurd h (by decide)
  have same : 52 + (n.log2 - 52) = n.log2 := by omega
  rw [same, twoPow_eq]
  exact Nat.log2_self_le ne

theorem lt_twoPow_lastPlace (n : Nat) : n < twoPow (53 + lastPlace n) := by
  rcases Nat.eq_zero_or_pos n with rfl | pos
  · exact twoPow_pos _
  · apply (log2_lt_iff (Nat.ne_of_gt pos)).1
    rw [lastPlace]
    omega

theorem le_round {a b : Nat} (h : a ≤ b) (exact_ : twoPow (lastPlace a) ∣ a) : a ≤ round b 1 := by
  simp only [round, Nat.div_one, Nat.one_mul]
  rcases Nat.lt_or_eq_of_le (lastPlace_le h) with coarser | same
  · -- Then a power of two lies between the two numbers.
    have below : a < twoPow 52 * twoPow (lastPlace b) := by
      rw [← twoPow_add]
      exact Nat.lt_of_lt_of_le (lt_twoPow_lastPlace a) (twoPow_le (by omega))
    have above : twoPow 52 * twoPow (lastPlace b) ≤ b := by
      rw [← twoPow_add]
      exact twoPow_le_of_lastPlace_pos (Nat.zero_lt_of_lt coarser)
    exact Nat.le_trans (Nat.le_of_lt below)
      (Nat.mul_le_mul_right _ (le_divNearest (twoPow_pos _) above))
  · obtain ⟨q, hq⟩ := exact_
    rw [same, Nat.mul_comm] at hq
    rw [hq] at h ⊢
    exact Nat.mul_le_mul_right _ (le_divNearest (twoPow_pos _) h)

theorem dvd_round {n place : Nat} (h : twoPow place ∣ n) : twoPow place ∣ round n 1 := by
  rcases Nat.le_total (lastPlace n) place with fine | coarse
  · rwa [round_of_dvd (Nat.dvd_trans (twoPow_dvd fine) h)]
  · simp only [round, Nat.div_one]
    exact Nat.dvd_trans (twoPow_dvd coarse) (Nat.dvd_mul_left _ _)

/-- The places of a bound on sums: as many as counts have, twice, for their number and size. -/
theorem lt_overflow {terms : Nat} (few : terms ≤ maxSafe) :
    terms * twoPow (53 + fractionPlaces) < overflow := by
  have below : terms * twoPow (53 + fractionPlaces) <
      twoPow 53 * twoPow (53 + fractionPlaces) :=
    Nat.mul_lt_mul_of_pos_right (Nat.lt_of_le_of_lt few maxSafe_lt) (twoPow_pos _)
  rw [← twoPow_add] at below
  exact Nat.lt_of_lt_of_le below (twoPow_le (by omega))

/-- A whole number below a multiple of 2^53 stays whole and below it when it is rounded. -/
theorem nearest_whole {n terms : Nat} (few : terms ≤ maxSafe) (h : n ≤ terms * twoPow 53) :
    ∃ m : Nat, nearest (n * unitsPerOne) = .finite (m * unitsPerOne) ∧ m ≤ terms * twoPow 53 := by
  have units : (n * unitsPerOne : Int) = (n * unitsPerOne : Nat) := rfl
  have bound : n * unitsPerOne ≤ terms * twoPow (53 + fractionPlaces) := by
    rw [twoPow_add, ← Nat.mul_assoc]
    exact Nat.mul_le_mul_right _ h
  have exact_ : twoPow (lastPlace (terms * twoPow (53 + fractionPlaces))) ∣
      terms * twoPow (53 + fractionPlaces) :=
    Nat.dvd_trans (twoPow_dvd (lastPlace_mul_twoPow_le (Nat.lt_of_le_of_lt few maxSafe_lt)))
      (Nat.dvd_mul_left _ _)
  have rounded := round_le bound exact_
  obtain ⟨m, hm⟩ : unitsPerOne ∣ round (n * unitsPerOne) 1 := dvd_round (Nat.dvd_mul_left _ _)
  rw [Nat.mul_comm unitsPerOne] at hm
  have finite_ : ¬overflow ≤ round (n * unitsPerOne) 1 :=
    Nat.not_le.2 (Nat.lt_of_le_of_lt rounded (lt_overflow few))
  refine ⟨m, ?_, ?_⟩
  · have positive : ¬((n * unitsPerOne : Nat) : Int) < 0 := Int.not_lt.2 (Int.natCast_nonneg _)
    rw [units, nearest_eq, Int.natAbs_natCast, ofQuotient]
    simp only [finite_, if_false, positive, decide_false, Bool.false_eq_true]
    rw [hm, Int.natCast_mul]
  · rw [hm, twoPow_add, ← Nat.mul_assoc] at rounded
    exact Nat.le_of_mul_le_mul_right rounded (twoPow_pos _)

/-- However a sum of safe counts is rounded on the way, it is a whole number. -/
theorem AddsUp.isWhole {ns : List Nat} {x : Binary64} (h : AddsUp ns x)
    (safe : ∀ n ∈ ns, n ≤ maxSafe) (few : ns.length ≤ maxSafe) : x.IsWhole := by
  have bounded : ∃ n : Nat, x = .finite (n * unitsPerOne) ∧ n ≤ ns.length * twoPow 53 := by
    induction h with
    | one n =>
        have small := safe n (List.mem_singleton_self n)
        refine ⟨n, ofNat_eq small, ?_⟩
        rw [List.length_singleton, Nat.one_mul]
        exact Nat.le_of_lt (Nat.lt_of_le_of_lt small maxSafe_lt)
    | @add ms ns x y _ _ ihx ihy =>
        rw [List.length_append] at few ⊢
        obtain ⟨m, rfl, hm⟩ := ihx (fun k hk => safe k (List.mem_append_left _ hk)) (by omega)
        obtain ⟨n, rfl, hn⟩ := ihy (fun k hk => safe k (List.mem_append_right _ hk)) (by omega)
        have sum : Binary64.finite (m * unitsPerOne) + .finite (n * unitsPerOne) =
            nearest ((m + n : Nat) * unitsPerOne) := by
          rw [Int.natCast_add, Int.add_mul]
          rfl
        rw [sum]
        apply nearest_whole few
        rw [Nat.add_mul]
        exact Nat.add_le_add hm hn
  obtain ⟨n, whole, _⟩ := bounded
  exact ⟨n, whole⟩

/-! ### What needs no rounding -/

theorem dvd_lastPlace_round (n : Nat) : twoPow (lastPlace (round n 1)) ∣ round n 1 := by
  have few : divNearest n (twoPow (lastPlace n)) ≤ twoPow 53 := by
    apply divNearest_le (twoPow_pos _)
    rw [← twoPow_add]
    exact Nat.le_of_lt (lt_twoPow_lastPlace n)
  simp only [round, Nat.div_one, Nat.one_mul]
  rcases Nat.lt_or_eq_of_le few with fits | carry
  · exact Nat.dvd_trans (twoPow_dvd (lastPlace_mul_twoPow_le fits)) (Nat.dvd_mul_left _ _)
  · -- Rounding up has carried into a power of two, which is a single bit.
    have one : 1 < twoPow 53 := by decide
    rw [carry, ← twoPow_add, ← Nat.one_mul (twoPow (53 + lastPlace n))]
    exact Nat.dvd_trans (twoPow_dvd (lastPlace_mul_twoPow_le one)) (Nat.dvd_mul_left _ _)

/-- A whole number above the safe ones is not rounded to a safe one. -/
theorem isSafe_ofNat_iff {n : Nat} : (ofNat n).IsSafe ↔ n ≤ maxSafe := by
  refine ⟨fun ⟨safe, same⟩ => ?_, isSafe_ofNat⟩
  apply Nat.le_of_not_lt
  intro large
  generalize (ofNat n).whole = m at safe same
  have two_pow : twoPow 53 = maxSafe + 1 := by decide
  have bound : twoPow 53 * unitsPerOne ≤ n * unitsPerOne :=
    Nat.mul_le_mul_right _ (two_pow ▸ large)
  have power : twoPow (lastPlace (twoPow 53 * unitsPerOne)) ∣ twoPow 53 * unitsPerOne := by
    rw [unitsPerOne, ← twoPow_add, ← Nat.one_mul (twoPow (53 + fractionPlaces))]
    exact Nat.dvd_trans (twoPow_dvd (lastPlace_mul_twoPow_le (by decide)))
      (Nat.dvd_mul_left _ _)
  have above := le_round bound power
  -- The number is rounded to no less than this power of two, and its whole part lies below it.
  have positive : decide (((n * unitsPerOne : Nat) : Int) < 0) = false :=
    decide_eq_false (Int.not_lt.2 (Int.natCast_nonneg _))
  have units : ofNat n = ofQuotient false (n * unitsPerOne) 1 := by
    rw [← positive]
    exact nearest_eq ((n * unitsPerOne : Nat) : Int)
  rw [ofNat_eq safe, units, ofQuotient] at same
  split at same
  · cases same
  · rw [if_neg Bool.false_ne_true, finite.injEq] at same
    have rounded : round (n * unitsPerOne) 1 = m * unitsPerOne := Int.natCast_inj.1 same
    rw [rounded] at above
    have small := Nat.le_of_mul_le_mul_right above (twoPow_pos _)
    omega

/-- A finite number has at most 53 significant bits and does not overflow. -/
def InFormat : Binary64 → Prop
  | .finite units => isExact units.natAbs = true
  | _ => True

theorem inFormat_nearest (units : Int) : (nearest units).InFormat := by
  rw [nearest]
  split
  · rename_i exact_
    exact exact_
  · rw [ofQuotient]
    split
    · exact True.intro
    · rename_i room
      have magnitude : (if decide (units < 0) then -(round units.natAbs 1 : Int)
          else round units.natAbs 1).natAbs = round units.natAbs 1 := by
        split
        · rw [Int.natAbs_neg, Int.natAbs_natCast]
        · exact Int.natAbs_natCast _
      rw [InFormat, magnitude, isExact, decide_eq_true_eq]
      exact ⟨Nat.mod_eq_zero_of_dvd (dvd_lastPlace_round _), Nat.not_le.1 room⟩

theorem inFormat_add (x y : Binary64) : (x + y).InFormat := by
  cases x with
  | finite a =>
      cases y with
      | finite b => exact inFormat_nearest (a + b)
      | infinite _ | nan => exact True.intro
  | infinite s =>
      cases y with
      | infinite t =>
          change (if s = t then infinite s else nan).InFormat
          split <;> exact True.intro
      | finite _ | nan => exact True.intro
  | nan => cases y <;> exact True.intro

theorem InFormat.add_zero {x : Binary64} (h : x.InFormat) : x + 0 = x := by
  cases x with
  | finite units =>
      have exact_ : isExact units.natAbs = true := h
      change nearest (units + 0) = _
      rw [Int.add_zero, nearest, if_pos exact_]
  | infinite _ | nan => rfl

end CallCost.Binary64
