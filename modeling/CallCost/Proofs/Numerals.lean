import CallCost.Binary64.Numeral
import CallCost.Binary64.Text
import CallCost.Proofs.WholeNumbers

/-!
The texts of safe whole numbers: their decimal digits, without a needless zero in front, which
read back to the number.
-/

namespace CallCost

theorem isDigit_of_mem_toDigits {n : Nat} {c : Char} (h : c ∈ Nat.toDigits 10 n) :
    c.isDigit = true :=
  Nat.isDigit_of_mem_toDigits (by decide) (by decide) h

theorem not_mem_toDigits {c : Char} (h : c.isDigit = false) (n : Nat) : c ∉ Nat.toDigits 10 n :=
  fun hc => by simp [isDigit_of_mem_toDigits hc] at h

/-- No number but zero is written with a zero in front. -/
theorem zero_of_head?_toDigits {n : Nat} (h : (Nat.toDigits 10 n).head? = some '0') : n = 0 := by
  induction n using Nat.strongRecOn with
  | ind n ih =>
      rw [Nat.toDigits_eq_if (by decide)] at h
      split at h
      · simpa using h
      · rename_i large
        obtain ⟨first, rest, digits⟩ :=
          List.exists_cons_of_ne_nil (Nat.toDigits_ne_nil (n := n / 10) (b := 10))
        have zero : n / 10 = 0 := ih (n / 10) (by omega) (by simpa [digits] using h)
        omega

/-- A number is written with a digit in front. -/
theorem exists_toDigits_eq_cons (n : Nat) :
    ∃ c digits, Nat.toDigits 10 n = c :: digits ∧ c.isDigit = true := by
  obtain ⟨c, digits, text⟩ := List.exists_cons_of_ne_nil (Nat.toDigits_ne_nil (n := n) (b := 10))
  exact ⟨c, digits, text, isDigit_of_mem_toDigits (n := n) (by simp [text])⟩

namespace Binary64

theorem toList_text_ofNat {n : Nat} (safe : n ≤ maxSafe) :
    (ofNat n).text.toList = Nat.toDigits 10 n := by
  have units : (n * unitsPerOne : Int) = (n * unitsPerOne : Nat) := rfl
  have positive : ¬((n * unitsPerOne : Nat) : Int) < 0 := Int.not_lt.2 (Int.natCast_nonneg _)
  have one : 0 < unitsPerOne := twoPow_pos _
  rw [ofNat_eq safe, units, text, if_neg positive, String.toList_ofList, Int.natAbs_natCast,
    magnitudeText, Nat.mul_div_cancel _ one, if_pos ⟨Nat.mul_mod_left n _, safe⟩]

theorem IsSafe.toList_text {x : Binary64} (h : x.IsSafe) :
    x.text.toList = Nat.toDigits 10 x.whole := by
  rw [← toList_text_ofNat h.1, ← h.2]

theorem IsSafe.eq_of_toDigits_eq {x y : Binary64} (hx : x.IsSafe) (hy : y.IsSafe)
    (h : Nat.toDigits 10 x.whole = Nat.toDigits 10 y.whole) : x = y := by
  have wholes := congrArg (Nat.ofDigitChars 10 · 0) h
  simp only [Nat.ofDigitChars_ten_toDigits] at wholes
  rw [hx.2, hy.2, wholes]

theorem text_ofNat {n : Nat} (safe : n ≤ maxSafe) : (ofNat n).text = toString n := by
  rw [Nat.toString_eq_ofList_toDigits, ← toList_text_ofNat safe, String.ofList_toList]

end Binary64

namespace Decimal

theorem ofDigits_toDigits (n : Nat) : ofDigits (Nat.toDigits 10 n) [] 0 = ⟨n, 0⟩ := by
  simp [ofDigits, Nat.ofDigitChars_ten_toDigits]

end Decimal
end CallCost
