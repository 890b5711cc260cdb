/-!
Numbers of the binary64 format as exact values. A finite number is a whole count of the least
positive one; zero has no sign, as no answer can tell two zeros apart. Every operation takes the
exact result and rounds it once, to the nearest number and on a tie to the even one.
-/

namespace CallCost

/-- A power of two. -/
def twoPow (k : Nat) : Nat :=
  Nat.shiftLeft 1 k

theorem twoPow_eq (k : Nat) : twoPow k = Nat.pow 2 k :=
  Nat.one_shiftLeft k

theorem twoPow_pos (k : Nat) : 0 < twoPow k := by
  rw [twoPow_eq]
  exact Nat.two_pow_pos k

theorem twoPow_add (j k : Nat) : twoPow (j + k) = twoPow j * twoPow k := by
  simp only [twoPow_eq]
  exact Nat.pow_add 2 j k

theorem twoPow_le {j k : Nat} (h : j ≤ k) : twoPow j ≤ twoPow k := by
  simp only [twoPow_eq]
  exact Nat.pow_le_pow_right (by decide) h

theorem twoPow_dvd {j k : Nat} (h : j ≤ k) : twoPow j ∣ twoPow k := by
  simp only [twoPow_eq]
  exact Nat.pow_dvd_pow 2 h

theorem log2_lt_iff {n k : Nat} (h : n ≠ 0) : n.log2 < k ↔ n < twoPow k := by
  rw [twoPow_eq]
  exact Nat.log2_lt h

inductive Binary64 where
  | finite (units : Int)
  | infinite (negative : Bool)
  | nan
  deriving DecidableEq

namespace Binary64

/-- The binary places below one. -/
def fractionPlaces : Nat := 1074

/-- One, counted in least positive numbers. -/
def unitsPerOne : Nat := twoPow fractionPlaces

/-- The least count beyond the finite numbers. -/
def overflow : Nat := twoPow (1024 + fractionPlaces)

/-- The whole number nearest to `num / den`, the even one on a tie. -/
def divNearest (num den : Nat) : Nat :=
  let quotient := num / den
  let twice := 2 * (num % den)
  if twice < den ∨ (twice = den ∧ quotient % 2 = 0) then quotient else quotient + 1

/-- The place of the last of the 53 significant bits of a whole number. -/
def lastPlace (n : Nat) : Nat :=
  n.log2 - 52

/-- The nearest count to `num / den` that has at most 53 significant bits. -/
def round (num den : Nat) : Nat :=
  let place := lastPlace (num / den)
  divNearest num (den * twoPow place) * twoPow place

/-- The number nearest to `num / den` units. -/
def ofQuotient (negative : Bool) (num den : Nat) : Binary64 :=
  let units := round num den
  if overflow ≤ units then .infinite negative
  else .finite (if negative then -units else units)

/-- Whether a count is a finite number as it is: at most 53 significant bits, and no overflow. -/
def isExact (count : Nat) : Bool :=
  count % twoPow (lastPlace count) = 0 ∧ count < overflow

/-- The number nearest to a whole count of units. -/
def nearest (units : Int) : Binary64 :=
  if isExact units.natAbs then .finite units else ofQuotient (units < 0) units.natAbs 1

def ofInt (n : Int) : Binary64 :=
  nearest (n * unitsPerOne)

def ofNat (n : Nat) : Binary64 :=
  ofInt n

instance : Zero Binary64 := ⟨.finite 0⟩

protected def add : Binary64 → Binary64 → Binary64
  | .finite a, .finite b => nearest (a + b)
  | .nan, _ | _, .nan => .nan
  | .infinite s, .infinite t => if s = t then .infinite s else .nan
  | .infinite s, .finite _ | .finite _, .infinite s => .infinite s

instance : Add Binary64 := ⟨Binary64.add⟩

protected def neg : Binary64 → Binary64
  | .finite a => .finite (-a)
  | .infinite s => .infinite !s
  | .nan => .nan

instance : Neg Binary64 := ⟨Binary64.neg⟩

instance : Sub Binary64 := ⟨fun a b => a + -b⟩

/-- Strictly below; no number is below `nan` or above it. -/
def lt : Binary64 → Binary64 → Bool
  | .finite a, .finite b => a < b
  | .infinite s, .finite _ => s
  | .finite _, .infinite s => !s
  | .infinite s, .infinite t => s && !t
  | .nan, _ | _, .nan => false

/-- The larger of two numbers, and `nan` if either is. -/
def maximum (a b : Binary64) : Binary64 :=
  if a = .nan ∨ b = .nan then .nan else if a.lt b then b else a

/-- The smaller of two numbers, and `nan` if either is. -/
def minimum (a b : Binary64) : Binary64 :=
  if a = .nan ∨ b = .nan then .nan else if b.lt a then b else a

/-- The greatest whole number that is not above. -/
def floor : Binary64 → Binary64
  | .finite a => .finite (a.fdiv unitsPerOne * unitsPerOne)
  | a => a

/-- A finite whole number as an integer. -/
def toInt? : Binary64 → Option Int
  | .finite a => if a.fmod unitsPerOne = 0 then some (a.fdiv unitsPerOne) else none
  | _ => none

/-- The largest whole number up to which every whole number is in the format and stands for no
other. -/
def maxSafe : Nat := 9007199254740991

theorem divNearest_mul (q den : Nat) (h : 0 < den) : divNearest (q * den) den = q := by
  simp [divNearest, Nat.mul_div_cancel _ h, h]

theorem round_of_dvd {n : Nat} (h : twoPow (lastPlace n) ∣ n) : round n 1 = n := by
  obtain ⟨q, hq⟩ := h
  have hp := twoPow_pos (lastPlace n)
  simp only [round, Nat.div_one, Nat.one_mul]
  generalize twoPow (lastPlace n) = step at *
  subst hq
  rw [Nat.mul_comm step q, divNearest_mul q step hp]

theorem maxSafe_lt : maxSafe < twoPow 53 := by
  decide

theorem lastPlace_mul_twoPow_le {n k : Nat} (h : n < twoPow 53) :
    lastPlace (n * twoPow k) ≤ k := by
  unfold lastPlace
  rcases Nat.eq_zero_or_pos n with rfl | hn
  · simp
  · have hm : n * twoPow k < twoPow (53 + k) := by
      rw [twoPow_add]
      exact Nat.mul_lt_mul_of_pos_right h (twoPow_pos k)
    have hne : n * twoPow k ≠ 0 := by
      have := Nat.mul_pos hn (twoPow_pos k)
      omega
    have := (log2_lt_iff hne).2 hm
    omega

/-- Whole counts of safe numbers are in the format. -/
theorem isExact_mul_unitsPerOne {n : Nat} (h : n ≤ maxSafe) :
    isExact (n * unitsPerOne) = true := by
  have h53 : n < twoPow 53 := Nat.lt_of_le_of_lt h maxSafe_lt
  have hd : twoPow (lastPlace (n * unitsPerOne)) ∣ n * unitsPerOne :=
    Nat.dvd_trans (twoPow_dvd (lastPlace_mul_twoPow_le h53)) (Nat.dvd_mul_left _ _)
  have h1 : n * unitsPerOne < twoPow 53 * unitsPerOne :=
    Nat.mul_lt_mul_of_pos_right h53 (twoPow_pos _)
  have h2 : twoPow 53 * unitsPerOne ≤ overflow := by
    rw [overflow, unitsPerOne, ← twoPow_add]
    exact twoPow_le (by omega)
  simp only [isExact, decide_eq_true_eq]
  exact ⟨Nat.mod_eq_zero_of_dvd hd, Nat.lt_of_lt_of_le h1 h2⟩

/-- A count in the format is nearest to itself, as rounding it would find too. -/
theorem nearest_eq (units : Int) : nearest units = ofQuotient (units < 0) units.natAbs 1 := by
  unfold nearest
  split
  · rename_i h
    simp only [isExact, decide_eq_true_eq] at h
    simp only [ofQuotient, round_of_dvd (Nat.dvd_of_mod_eq_zero h.1), Nat.not_le.2 h.2, if_false]
    split <;> rename_i hn <;> simp only [decide_eq_true_eq] at hn <;> congr 1 <;> omega
  · rfl

/-- Safe whole numbers are in the format. -/
theorem ofInt_eq {n : Int} (h : n.natAbs ≤ maxSafe) : ofInt n = .finite (n * unitsPerOne) := by
  have ha : (n * unitsPerOne : Int).natAbs = n.natAbs * unitsPerOne := by
    rw [Int.natAbs_mul, Int.natAbs_natCast]
  simp only [ofInt, nearest, ha, isExact_mul_unitsPerOne h, if_true]

end Binary64
end CallCost
