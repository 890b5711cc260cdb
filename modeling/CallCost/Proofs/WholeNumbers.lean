import CallCost.Binary64.Basic
import Mathlib.Algebra.GroupWithZero.Nat

/-!
Whole numbers among the numbers of the format. Sums of safe whole numbers are exact up to the
largest safe one. Further up every addition rounds, so that the value of a sum depends on its
brackets; `AddsUp` says which terms a number is the sum of without fixing the brackets.
-/

namespace CallCost.Binary64

theorem ofNat_eq {n : Nat} (h : n ≤ maxSafe) : ofNat n = .finite (n * unitsPerOne) :=
  ofInt_eq (n := n) h

theorem ofNat_zero : ofNat 0 = 0 := by
  rw [ofNat_eq (Nat.zero_le _)]
  exact congrArg Binary64.finite (Int.zero_mul _)

theorem ofNat_add {m n : Nat} (hm : m ≤ maxSafe) (hn : n ≤ maxSafe) :
    ofNat m + ofNat n = ofNat (m + n) := by
  rw [ofNat_eq hm, ofNat_eq hn]
  change nearest (m * unitsPerOne + n * unitsPerOne) = nearest ((m + n : Nat) * unitsPerOne)
  rw [Int.natCast_add, Int.add_mul]

theorem zero_add_ofNat {n : Nat} (h : n ≤ maxSafe) : 0 + ofNat n = ofNat n := by
  rw [← ofNat_zero, ofNat_add (Nat.zero_le _) h, Nat.zero_add]

/-- The whole part of a finite number, where a number below zero counts as zero. -/
def whole : Binary64 → Nat
  | .finite units => (units / unitsPerOne).toNat
  | _ => 0

theorem whole_ofNat {n : Nat} (h : n ≤ maxSafe) : (ofNat n).whole = n := by
  have hne : (unitsPerOne : Int) ≠ 0 := by
    have := twoPow_pos fractionPlaces
    change (twoPow fractionPlaces : Int) ≠ 0
    omega
  rw [ofNat_eq h, whole, Int.mul_ediv_cancel _ hne, Int.toNat_natCast]

/-- A whole number from zero up to the largest safe one. -/
def IsSafe (x : Binary64) : Prop :=
  x.whole ≤ maxSafe ∧ x = ofNat x.whole

theorem isSafe_ofNat {n : Nat} (h : n ≤ maxSafe) : (ofNat n).IsSafe := by
  rw [IsSafe, whole_ofNat h]
  exact ⟨h, rfl⟩

theorem whole_add {x y : Binary64} (hx : x.IsSafe) (hy : y.IsSafe)
    (h : x.whole + y.whole ≤ maxSafe) : (x + y).whole = x.whole + y.whole := by
  have sum : x + y = ofNat (x.whole + y.whole) := by
    rw [← ofNat_add hx.1 hy.1, ← hx.2, ← hy.2]
  rw [sum, whole_ofNat h]

theorem isSafe_add {x y : Binary64} (hx : x.IsSafe) (hy : y.IsSafe)
    (h : x.whole + y.whole ≤ maxSafe) : (x + y).IsSafe := by
  rw [hx.2, hy.2, ofNat_add hx.1 hy.1]
  exact isSafe_ofNat h

/-- The number is a sum of the given whole numbers in the given order, however the additions are
bracketed. -/
inductive AddsUp : List Nat → Binary64 → Prop where
  | one (n : Nat) : AddsUp [n] (ofNat n)
  | add {ms ns : List Nat} {x y : Binary64} (first : AddsUp ms x) (second : AddsUp ns y) :
      AddsUp (ms ++ ns) (x + y)

/-- A sum that is safe is exact, as all sums on the way to it are safe too. -/
theorem AddsUp.eq_ofNat {ns : List Nat} {x : Binary64} (h : AddsUp ns x)
    (safe : ns.sum ≤ maxSafe) : x = ofNat ns.sum := by
  induction h with
  | one n => simp only [List.sum_cons, List.sum_nil, Nat.add_zero]
  | @add ms ns x y _ _ ihx ihy =>
      rw [List.sum_append] at safe ⊢
      rw [ihx (by omega), ihy (by omega), ofNat_add (by omega) (by omega)]

end CallCost.Binary64
