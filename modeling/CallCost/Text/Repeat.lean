import CallCost.Limits
import CallCost.Text.Units

/-!
A text a number of times over. A number below zero is refused, and so is a result that would be
too long for a text.
-/

namespace CallCost.Text

/-- The empty text is not copied, however often it is to stand there. -/
def repeated (count : Nat) (text : String) : String :=
  if text = "" then "" else String.join (List.replicate count text)

theorem repeated_eq (count : Nat) (text : String) :
    repeated count text = String.join (List.replicate count text) := by
  unfold repeated
  split
  · rename_i h
    subst h
    induction count with
    | zero => rfl
    | succ count ih =>
        rw [List.replicate_succ, String.join_cons, ← ih]
        rfl
  · rfl

theorem units_repeated (count : Nat) (text : String) :
    units (repeated count text).toList = count * units text.toList := by
  rw [repeated_eq]
  induction count with
  | zero => simp [units]
  | succ count ih =>
      rw [List.replicate_succ, String.join_cons, String.toList_append, units_append, ih,
        Nat.succ_mul, Nat.add_comm]

/-- Repeats a text in front of `following` units of other text. -/
def repeat? (limits : Limits) (count : Int) (text : String) (following : Nat) :
    Except RangeError String :=
  if count < 0 then .error (.negativeCount count)
  else if limits.textUnits < count.toNat * units text.toList + following then .error .textTooLong
  else .ok (repeated count.toNat text)

end CallCost.Text
