/-!
The length of a text in 16-bit units: a character of the basic plane is one unit and every other
character is two. A text is a sequence of whole characters here and in all that follows, so half
of a character, a lone surrogate, stands in no text.
-/

namespace CallCost.Text

def unitWidth (c : Char) : Nat :=
  if c.toNat < 0x10000 then 1 else 2

def units (text : List Char) : Nat :=
  text.foldl (fun count c => count + unitWidth c) 0

/-- The units of lines of the given lengths, each with a line end. -/
def endedUnits (lengths : List Nat) : Nat :=
  lengths.foldr (fun length after => length + 1 + after) 0

/-- The first units of a text. Half of a character is the replacement character. -/
def takeUnits : Nat → List Char → List Char
  | _, [] => []
  | count, c :: rest =>
      if unitWidth c ≤ count then c :: takeUnits (count - unitWidth c) rest
      else if count = 0 then []
      else ['\uFFFD']

theorem foldl_unitWidth (text : List Char) (count : Nat) :
    text.foldl (fun count c => count + unitWidth c) count = count + units text := by
  induction text generalizing count with
  | nil => rfl
  | cons c rest ih =>
      change rest.foldl _ (count + unitWidth c) = count + rest.foldl _ (0 + unitWidth c)
      rw [ih, ih, Nat.zero_add, Nat.add_assoc]

theorem units_append (text after : List Char) :
    units (text ++ after) = units text + units after := by
  rw [units, List.foldl_append, foldl_unitWidth, foldl_unitWidth, Nat.zero_add]

theorem units_replicate (count : Nat) (c : Char) :
    units (List.replicate count c) = count * unitWidth c := by
  induction count with
  | zero => exact (Nat.zero_mul _).symm
  | succ count ih =>
      rw [List.replicate_succ', units_append, ih, Nat.succ_mul]
      exact congrArg _ (Nat.zero_add _)

theorem endedUnits_cons (length : Nat) (lengths : List Nat) :
    endedUnits (length :: lengths) = length + 1 + endedUnits lengths := rfl

/-- Every line is shorter than all of them together. -/
theorem lt_endedUnits_of_mem {length : Nat} {lengths : List Nat} (h : length ∈ lengths) :
    length < endedUnits lengths := by
  induction lengths with
  | nil => cases h
  | cons other rest ih =>
      rw [endedUnits_cons]
      cases h with
      | head => omega
      | tail _ h =>
          have within := ih h
          omega

end CallCost.Text
