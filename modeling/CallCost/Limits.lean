import CallCost.Binary64.Text

/-!
What the host of a program sets bounds to: how long a text can be and how many arguments a call
can have. What lies out of range is refused with an error.
-/

namespace CallCost

inductive RangeError where
  | negativeCount (count : Int)
  | textTooLong
  | tooManyArguments
  deriving DecidableEq

namespace RangeError

def name (_ : RangeError) : String :=
  "RangeError"

def message : RangeError → String
  | negativeCount count => "Invalid count value: " ++ (Binary64.ofInt count).text
  | textTooLong => "Invalid string length"
  | tooManyArguments => "Maximum call stack size exceeded"

end RangeError

/-- The bounds of a host. Memory is not among them: whatever is in range has room. -/
structure Limits where
  /-- The most units that a text can have. -/
  textUnits : Nat := 536870888
  /-- The most arguments that a call can have. They take room on the stack, so this depends on the
  size of the stack and on what lies on it. -/
  arguments : Nat := 125517

end CallCost
