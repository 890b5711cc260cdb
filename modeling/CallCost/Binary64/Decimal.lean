import CallCost.Binary64.Basic

/-!
Decimal numerals and the numbers of the format nearest to them. The leading place of a numeral
decides at once for zero or infinity when the numeral lies far outside the format, so a huge
exponent is never raised to a power.
-/

namespace CallCost

/-- A power of ten. -/
def tenPow (k : Nat) : Nat :=
  Nat.pow 10 k

/-- The value `digits * 10 ^ exponent`. -/
structure Decimal where
  digits : Nat
  exponent : Int
  deriving DecidableEq

namespace Decimal

/-- The least place `k` with `digits < 10 ^ k`, where `digits` is not zero. -/
def digitCount (digits : Nat) : Nat :=
  (Nat.toDigits 10 digits).length

/-- The number nearest to a decimal. Every positive value below `10 ^ -324` is nearest to zero
and every value from `10 ^ 309` on lies beyond the finite numbers. -/
def toBinary64 (negative : Bool) (d : Decimal) : Binary64 :=
  if d.digits = 0 then 0
  else
    let place := digitCount d.digits + d.exponent
    if place ≤ -324 then 0
    else if 310 ≤ place then .infinite negative
    else
      .ofQuotient negative (d.digits * tenPow d.exponent.toNat * Binary64.unitsPerOne)
        (tenPow (-d.exponent).toNat)

end Decimal
end CallCost
