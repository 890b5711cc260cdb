import CallCost.CallTree.Totals
import CallCost.Proofs.RoundedSums

/-!
What a node costs apart from its children. Rounding never passes a number of the format, from
above or from below. So the difference is finite even where the sum over the children overflows,
and it is the exact difference of whole numbers, cut off at zero, even where that sum is rounded.
-/

namespace CallCost

namespace Binary64

theorem dvd_of_isExact {n : Nat} (h : isExact n = true) : twoPow (lastPlace n) ∣ n := by
  simp only [isExact, decide_eq_true_eq] at h
  exact Nat.dvd_of_mod_eq_zero h.1

theorem lt_overflow_of_isExact {n : Nat} (h : isExact n = true) : n < overflow := by
  simp only [isExact, decide_eq_true_eq] at h
  exact h.2

theorem nearest_natCast (n : Nat) :
    nearest n = if overflow ≤ round n 1 then .infinite false else .finite (round n 1) := by
  have positive : decide ((n : Int) < 0) = false :=
    decide_eq_false (Int.not_lt.2 (Int.natCast_nonneg n))
  rw [nearest_eq, positive, Int.natAbs_natCast]
  rfl

/-- A finite number that is not below zero. -/
def IsAmount (x : Binary64) : Prop :=
  ∃ units : Nat, isExact units = true ∧ x = .finite units

theorem IsAmount.finite {x : Binary64} (h : x.IsAmount) : ∃ units : Nat, x = .finite units :=
  h.imp fun _ => And.right

theorem IsSafe.isAmount {x : Binary64} (h : x.IsSafe) : x.IsAmount := by
  refine ⟨x.whole * unitsPerOne, isExact_mul_unitsPerOne h.1, ?_⟩
  exact h.2.trans (ofNat_eq h.1)

/-- The number is infinite or has at least so many units. -/
def AtLeast (bound : Nat) (x : Binary64) : Prop :=
  x = .infinite false ∨ ∃ units : Nat, bound ≤ units ∧ x = .finite units

theorem AtLeast.mono {a b : Nat} {x : Binary64} (h : x.AtLeast b) (le : a ≤ b) : x.AtLeast a :=
  h.imp_right fun ⟨units, hu, same⟩ => ⟨units, Nat.le_trans le hu, same⟩

theorem IsAmount.atLeast {x : Binary64} (h : x.IsAmount) : x.AtLeast 0 := by
  obtain ⟨units, _, rfl⟩ := h
  exact .inr ⟨units, Nat.zero_le _, rfl⟩

theorem atLeast_nearest {bound n : Nat} (h : bound ≤ n) (exact_ : isExact bound = true) :
    AtLeast bound (nearest n) := by
  rw [nearest_natCast]
  split
  · exact .inl rfl
  · exact .inr ⟨_, le_round h (dvd_of_isExact exact_), rfl⟩

/-- What is added to a number does not take it below a bound in the format. -/
theorem AtLeast.add {bound : Nat} {x y : Binary64} (hx : x.AtLeast bound) (hy : y.AtLeast 0)
    (exact_ : isExact bound = true) : AtLeast bound (x + y) := by
  obtain rfl | ⟨m, hm, rfl⟩ := hx
  · obtain rfl | ⟨n, _, rfl⟩ := hy
    · exact .inl rfl
    · exact .inl rfl
  · obtain rfl | ⟨n, _, rfl⟩ := hy
    · exact .inl rfl
    · exact atLeast_nearest (Nat.le_add_right_of_le hm) exact_

theorem maximum_zero_nearest {units : Int} (h : units ≤ 0) : maximum 0 (nearest units) = 0 := by
  rcases Int.lt_or_eq_of_le h with negative | rfl
  · rw [nearest_eq, decide_eq_true negative, ofQuotient]
    split
    · rfl
    · change (if lt (.finite 0) (.finite (-_)) then _ else _) = _
      rw [if_neg]
      simp [lt]
  · decide +kernel

/-- A number that is not above another leaves nothing. -/
theorem maximum_zero_sub {bound : Nat} {x y : Binary64} (hx : x = .finite bound)
    (hy : y.AtLeast bound) : maximum 0 (x - y) = 0 := by
  subst hx
  obtain rfl | ⟨n, hn, rfl⟩ := hy
  · rfl
  · exact maximum_zero_nearest (by omega)

theorem maximum_zero_finite (units : Nat) : maximum 0 (.finite units) = .finite units := by
  change (if lt (.finite 0) (.finite units) then _ else _) = _
  split
  · rfl
  · rename_i h
    simp only [lt, decide_eq_true_eq] at h
    exact congrArg Binary64.finite (by omega)

/-- The difference of an amount and anything that is not below zero is finite. -/
theorem IsAmount.maximum_sub {x y : Binary64} (hx : x.IsAmount) (hy : y.AtLeast 0) :
    ∃ units : Nat, maximum 0 (x - y) = .finite units := by
  obtain ⟨m, exact_, rfl⟩ := hx
  obtain rfl | ⟨n, _, rfl⟩ := hy
  · exact ⟨0, rfl⟩
  · rcases Nat.le_total m n with small | large
    · exact ⟨0, maximum_zero_sub rfl (.inr ⟨n, small, rfl⟩)⟩
    · have difference : (.finite m - .finite n : Binary64) = nearest (m - n : Nat) := by
        change nearest (m + -n) = _
        congr 1
        omega
      have room : ¬overflow ≤ round (m - n) 1 := Nat.not_le.2 <|
        Nat.lt_of_le_of_lt (round_le (Nat.sub_le m n) (dvd_of_isExact exact_))
          (lt_overflow_of_isExact exact_)
      rw [difference, nearest_natCast, if_neg room]
      exact ⟨_, maximum_zero_finite _⟩

/-- A difference of safe whole numbers, cut off at zero. -/
theorem maximum_sub_ofNat {m n : Nat} (hm : m ≤ maxSafe) (hn : n ≤ maxSafe) :
    maximum 0 (ofNat m - ofNat n) = ofNat (m - n) := by
  rcases Nat.le_total m n with small | large
  · have units : m * unitsPerOne ≤ n * unitsPerOne := Nat.mul_le_mul_right _ small
    rw [maximum_zero_sub (ofNat_eq hm) (.inr ⟨_, units, ofNat_eq hn⟩),
      Nat.sub_eq_zero_of_le small, ofNat_zero]
  · have units : ((m - n : Nat) * unitsPerOne : Int) = m * unitsPerOne + -(n * unitsPerOne) := by
      rw [Int.natCast_sub large, Int.sub_mul, Int.sub_eq_add_neg]
    have difference : ofNat m - ofNat n = ofNat (m - n) := by
      rw [ofNat_eq hm, ofNat_eq hn, ofNat, ofInt, units]
      rfl
    rw [difference, ofNat_eq (Nat.le_trans (Nat.sub_le m n) hm)]
    exact maximum_zero_finite _

theorem atLeast_ofNat {n : Nat} (large : maxSafe ≤ n) :
    AtLeast (maxSafe * unitsPerOne) (ofNat n) :=
  atLeast_nearest (Nat.mul_le_mul_right _ large) (isExact_mul_unitsPerOne (Nat.le_refl _))

theorem IsSafe.ofNat_add {x : Binary64} (h : x.IsSafe) {n : Nat} (safe : n ≤ maxSafe) :
    ofNat n + x = ofNat (n + x.whole) := by
  rw [← Binary64.ofNat_add safe h.1, ← h.2]

end Binary64

open Binary64

namespace Forest

/-- The whole cycles of the roots. -/
def cycleSum : Forest → Nat
  | nil => 0
  | cons _ _ cycles _ siblings => cycles.whole + siblings.cycleSum

theorem atLeast_cyclesFrom {bound : Nat} (exact_ : isExact bound = true) {f : Forest}
    (amounts : ∀ n ∈ f.nodes, n.cycles.IsAmount) {sum : Binary64} (h : sum.AtLeast bound) :
    (f.cyclesFrom sum).AtLeast bound := by
  induction f generalizing sum with
  | nil => exact h
  | cons label calls cycles children siblings _ ih =>
      obtain ⟨here, later⟩ := List.forall_mem_cons.1 amounts
      exact ih later (h.add here.atLeast exact_)

theorem cyclesFrom_eq {f : Forest} (safe : ∀ n ∈ f.nodes, n.cycles.IsSafe) (sum : Nat)
    (room : sum + f.cycleSum ≤ maxSafe) :
    f.cyclesFrom (.ofNat sum) = .ofNat (sum + f.cycleSum) := by
  induction f generalizing sum with
  | nil => rfl
  | cons label calls cycles children siblings _ ih =>
      obtain ⟨here, later⟩ := List.forall_mem_cons.1 safe
      rw [cycleSum, ← Nat.add_assoc] at room ⊢
      rw [cyclesFrom, here.ofNat_add (by omega), ih later _ room]

/-- A sum that passes the largest safe number is rounded and stays above it. -/
theorem atLeast_cyclesFrom_of_large {f : Forest} (safe : ∀ n ∈ f.nodes, n.cycles.IsSafe)
    {sum : Nat} (small : sum ≤ maxSafe) (large : maxSafe ≤ sum + f.cycleSum) :
    (f.cyclesFrom (.ofNat sum)).AtLeast (maxSafe * unitsPerOne) := by
  induction f generalizing sum with
  | nil => exact atLeast_ofNat large
  | cons label calls cycles children siblings _ ih =>
      obtain ⟨here, later⟩ := List.forall_mem_cons.1 safe
      rw [cycleSum, ← Nat.add_assoc] at large
      rw [cyclesFrom, here.ofNat_add small]
      rcases Nat.le_total (sum + cycles.whole) maxSafe with still | beyond
      · exact ih later still large
      · exact atLeast_cyclesFrom (isExact_mul_unitsPerOne (Nat.le_refl _))
          (fun n hn => (later n hn).isAmount) (atLeast_ofNat beyond)

end Forest

namespace Node

/-- The numbers that a node carries are amounts. -/
structure HasAmounts (n : Node) : Prop where
  calls : n.calls.IsAmount
  cycles : n.cycles.IsAmount

/-- The numbers that a node carries are safe whole numbers. -/
structure HasSafe (n : Node) : Prop where
  calls : n.calls.IsSafe
  cycles : n.cycles.IsSafe

instance (n : Node) : Decidable n.HasSafe :=
  decidable_of_iff ((n.calls.whole ≤ maxSafe ∧ n.calls = ofNat n.calls.whole) ∧
      n.cycles.whole ≤ maxSafe ∧ n.cycles = ofNat n.cycles.whole)
    ⟨fun h => ⟨h.1, h.2⟩, fun h => ⟨h.calls, h.cycles⟩⟩

theorem HasSafe.hasAmounts {n : Node} (h : n.HasSafe) : n.HasAmounts :=
  ⟨h.calls.isAmount, h.cycles.isAmount⟩

theorem selfCycles_finite {n : Node} (own : n.cycles.IsAmount)
    (below : ∀ child ∈ n.children.nodes, child.cycles.IsAmount) :
    ∃ units : Nat, n.selfCycles = .finite units :=
  own.maximum_sub (Forest.atLeast_cyclesFrom (by decide) below (.inr ⟨0, Nat.le_refl 0, rfl⟩))

/-- The own cost of whole numbers is exact, and nothing where the children cost more. -/
theorem selfCycles_eq {n : Node} (own : n.cycles.IsSafe)
    (below : ∀ child ∈ n.children.nodes, child.cycles.IsSafe) :
    n.selfCycles = .ofNat (n.cycles.whole - n.children.cycleSum) := by
  rcases Nat.le_total n.children.cycleSum maxSafe with small | large
  · have sum := Forest.cyclesFrom_eq below 0 (by omega)
    rw [ofNat_zero, Nat.zero_add] at sum
    rw [selfCycles, sum, ← maximum_sub_ofNat own.1 small, ← own.2]
  · have sum := Forest.atLeast_cyclesFrom_of_large below (Nat.zero_le _) (by omega)
    have own_le : n.cycles.whole * unitsPerOne ≤ maxSafe * unitsPerOne :=
      Nat.mul_le_mul_right _ own.1
    rw [ofNat_zero] at sum
    rw [selfCycles, maximum_zero_sub (own.2.trans (ofNat_eq own.1)) (sum.mono own_le),
      Nat.sub_eq_zero_of_le (Nat.le_trans own.1 large), ofNat_zero]

theorem isSafe_selfCycles {n : Node} (own : n.cycles.IsSafe)
    (below : ∀ child ∈ n.children.nodes, child.cycles.IsSafe) : n.selfCycles.IsSafe := by
  rw [selfCycles_eq own below]
  exact isSafe_ofNat (Nat.le_trans (Nat.sub_le _ _) own.1)

end Node
end CallCost
