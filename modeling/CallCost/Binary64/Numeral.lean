import CallCost.Binary64.Decimal

/-!
The parts of a numeral as text. The grammars that are built of them differ in what may be left
out and in what may follow.
-/

namespace CallCost

/-- The value of a digit below sixteen, in either case. -/
def digitValue? (c : Char) : Option Nat :=
  if c.isDigit then some (c.toNat - '0'.toNat)
  else if 'a' ≤ c ∧ c ≤ 'f' then some (c.toNat - 'a'.toNat + 10)
  else if 'A' ≤ c ∧ c ≤ 'F' then some (c.toNat - 'A'.toNat + 10)
  else none

/-- The value of digits in a base of at most sixteen, if each lies below the base. -/
def digitsValue? (base : Nat) (digits : List Char) : Option Nat :=
  digits.foldlM (fun value c => do
    let digit ← digitValue? c
    guard (digit < base)
    some (value * base + digit)) 0

/-- Reads an optional exponent: the mark in either case, an optional sign and at least one
digit. A mark with no digits after it is refused. -/
def readExponent? : List Char → Option (Int × List Char)
  | mark :: rest =>
      if mark = 'e' ∨ mark = 'E' then
        let (negative, rest) : Bool × List Char :=
          match rest with
          | '-' :: rest => (true, rest)
          | '+' :: rest => (false, rest)
          | rest => (false, rest)
        let digits := rest.takeWhile Char.isDigit
        let size : Int := Nat.ofDigitChars 10 digits 0
        if digits = [] then none
        else some (if negative then -size else size, rest.dropWhile Char.isDigit)
      else some (0, mark :: rest)
  | [] => some (0, [])

/-- The decimal with the given digits before and after the point. -/
def Decimal.ofDigits (whole fraction : List Char) (exponent : Int) : Decimal :=
  ⟨Nat.ofDigitChars 10 (whole ++ fraction) 0, exponent - fraction.length⟩

end CallCost
