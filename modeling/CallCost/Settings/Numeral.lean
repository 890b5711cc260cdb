import CallCost.Binary64.Numeral

/-!
Numerals in settings: decimal ones with an optional sign, point and exponent, the word for
infinity, and whole numbers in base sixteen, eight or two behind their mark and without a sign.
-/

namespace CallCost.Settings

/-- A whole number in a base: one digit or more, each below the base. -/
def readBase? (base : Nat) (digits : List Char) : Option Binary64 := do
  guard (digits ≠ [])
  some (.ofNat (← digitsValue? base digits))

/-- A decimal numeral without its sign. A digit must stand before or after the point. -/
def readDecimal? (negative : Bool) (text : List Char) : Option Binary64 := do
  let whole := text.takeWhile Char.isDigit
  let (fraction, rest) :=
    match text.dropWhile Char.isDigit with
    | '.' :: rest => (rest.takeWhile Char.isDigit, rest.dropWhile Char.isDigit)
    | rest => ([], rest)
  guard (whole ≠ [] ∨ fraction ≠ [])
  let (exponent, rest) ← readExponent? rest
  guard (rest = [])
  some ((Decimal.ofDigits whole fraction exponent).toBinary64 negative)

def readUnsigned? (negative : Bool) (text : List Char) : Option Binary64 :=
  if text = "Infinity".toList then some (.infinite negative) else readDecimal? negative text

/-- The number that a text without white space around it stands for. -/
def readNumeral? : List Char → Option Binary64
  | '0' :: mark :: digits =>
      if mark = 'x' ∨ mark = 'X' then readBase? 16 digits
      else if mark = 'o' ∨ mark = 'O' then readBase? 8 digits
      else if mark = 'b' ∨ mark = 'B' then readBase? 2 digits
      else readUnsigned? false ('0' :: mark :: digits)
  | '-' :: rest => readUnsigned? true rest
  | '+' :: rest => readUnsigned? false rest
  | text => readUnsigned? false text

end CallCost.Settings
