import CallCost.Binary64.Decimal

/-!
The shortest decimal that reads back to a number. The decimals that read back to a number lie
between the midpoints to its two neighbours, the midpoints included when the last significant
bit is even. Of the grids with one, two and more digits the first that has a point in there is
taken; of two points on it the nearer one, and on a tie the even one.
-/

namespace CallCost.Binary64

/-- The decimals that read back to a number, in quarters of a unit. -/
structure Interval where
  low : Nat
  high : Nat
  closed : Bool

/-- The interval of a positive count of units. The gap below a power of two is half the gap
above it, except at the bottom of the format, where all gaps are one unit. -/
def interval (units : Nat) : Interval :=
  let gap := twoPow (lastPlace units)
  let narrow := 1 < gap ∧ units = twoPow 52 * gap
  { low := 4 * units - (if narrow then gap else 2 * gap)
    high := 4 * units + 2 * gap
    closed := units / gap % 2 = 0 }

/-- Whether a decimal lies in an interval. Both sides are scaled to whole numbers. -/
def Interval.contains (i : Interval) (d : Decimal) : Bool :=
  let value := 4 * (d.digits * tenPow d.exponent.toNat * unitsPerOne)
  let scale := tenPow (-d.exponent).toNat
  if i.closed then i.low * scale ≤ value && value ≤ i.high * scale
  else i.low * scale < value && value < i.high * scale

/-- The least `k` with a value below `10 ^ k`, for a positive count of units. -/
def leadingPlace (units : Nat) : Int :=
  if unitsPerOne ≤ units then Decimal.digitCount (units / unitsPerOne)
  else
    match (List.range 325).find? fun j => unitsPerOne ≤ units * tenPow j with
    | some j => 1 - j
    | none => -324

/-- The nearest decimal with the given exponent that lies in the interval, if any does. Only
the two points next to the value can be nearest. -/
def nearestOnGrid? (units : Nat) (exponent : Int) : Option Decimal :=
  let num := units * tenPow (-exponent).toNat
  let den := unitsPerOne * tenPow exponent.toNat
  let below : Decimal := ⟨num / den, exponent⟩
  let above : Decimal := ⟨num / den + 1, exponent⟩
  match (interval units).contains below, (interval units).contains above with
  | true, true => some (if divNearest num den = below.digits then below else above)
  | true, false => some below
  | false, true => some above
  | false, false => none

/-- The same value without trailing zeros among the digits. -/
def dropZeros : Nat → Decimal → Decimal
  | 0, d => d
  | fuel + 1, d =>
      if d.digits % 10 = 0 then dropZeros fuel ⟨d.digits / 10, d.exponent + 1⟩ else d

/-- The shortest decimal for a positive count of units. Seventeen digits always suffice; the
exact value stands in where they would not. -/
def shortest (units : Nat) : Decimal :=
  let place := leadingPlace units
  let found := (List.range 17).findSome? fun (n : Nat) =>
    nearestOnGrid? units (place - (n + 1 : Nat))
  let exact : Decimal := ⟨units * Nat.pow 5 fractionPlaces, -fractionPlaces⟩
  let d := found.getD exact
  dropZeros (Decimal.digitCount d.digits) d

end CallCost.Binary64
