import CallCost.Json.Basic

/-!
The order in which the fields of an object are listed: first those whose name is an index, from
the least to the greatest, then all others as they stand.
-/

namespace CallCost.Json

/-- The least number that is no index. -/
def maxIndex : Nat := 4294967295

/-- The index that a name is the plain numeral of. -/
def index? (name : String) : Option Nat :=
  let digits := name.toList
  let n := Nat.ofDigitChars 10 digits 0
  let plain := digits.length ≤ 10 ∧ digits.all Char.isDigit ∧ Nat.toDigits 10 n = digits
  if plain ∧ n < maxIndex then some n else none

def indicesFirst (fields : List (String × Json)) : List (String × Json) :=
  let indexed := fields.filterMap fun field => (index? field.1).map fun n => (n, field)
  (indexed.mergeSort fun a b => a.1 ≤ b.1).map (·.2) ++
    fields.filter fun field => (index? field.1).isNone

mutual

/-- The same value with the fields of all objects in the order in which they are listed. -/
def listed : Json → Json
  | array items => array (listedItems items)
  | object fields => object (indicesFirst (listedFields fields))
  | value => value

def listedItems : List Json → List Json
  | [] => []
  | item :: rest => listed item :: listedItems rest

def listedFields : List (String × Json) → List (String × Json)
  | [] => []
  | (name, value) :: rest => (name, listed value) :: listedFields rest

end

end CallCost.Json
