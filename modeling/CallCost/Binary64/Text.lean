import CallCost.Binary64.Shortest

/-!
The text of a number. Whole numbers of up to 53 bits are written out; every other finite number
is written with its shortest decimal, positionally from `10 ^ -6` up to below `10 ^ 21` and else
with a signed exponent.
-/

namespace CallCost

namespace Decimal

/-- Writes a positive decimal whose digits end in no zero. -/
def text (d : Decimal) : List Char :=
  let digits := Nat.toDigits 10 d.digits
  let count := digits.length
  let point := count + d.exponent
  if 0 ≤ d.exponent ∧ point ≤ 21 then digits ++ List.replicate d.exponent.toNat '0'
  else if 0 < point ∧ point ≤ 21 then
    digits.take point.toNat ++ '.' :: digits.drop point.toNat
  else if -6 < point ∧ point ≤ 0 then
    '0' :: '.' :: (List.replicate (-point).toNat '0' ++ digits)
  else
    let exponent := point - 1
    let tail := 'e' :: (if exponent < 0 then '-' else '+') :: Nat.toDigits 10 exponent.natAbs
    match digits with
    | [] => tail
    | [digit] => digit :: tail
    | digit :: rest => digit :: '.' :: rest ++ tail

end Decimal

namespace Binary64

/-- The text of a count of units, without its sign. -/
def magnitudeText (units : Nat) : List Char :=
  if units % unitsPerOne = 0 ∧ units / unitsPerOne ≤ maxSafe then
    Nat.toDigits 10 (units / unitsPerOne)
  else (shortest units).text

def text : Binary64 → String
  | .nan => "NaN"
  | .infinite false => "Infinity"
  | .infinite true => "-Infinity"
  | .finite units =>
      String.ofList (if units < 0 then '-' :: magnitudeText units.natAbs
        else magnitudeText units.natAbs)

end Binary64
end CallCost
