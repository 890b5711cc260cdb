import CallCost.Binary64.Text
import CallCost.Text.Blank

/-!
The cycle count after a close marker: decimal digits, where commas may stand anywhere and a unit
of letters may follow. Counts above the safe whole numbers are refused, whatever their length.
-/

namespace CallCost

/-- The error of a malformed cycle count: the number of its line and the text after the marker. -/
structure MalformedCycleCountError where
  line : Binary64
  payload : String
  deriving DecidableEq

namespace MalformedCycleCountError

def name (_ : MalformedCycleCountError) : String :=
  "MalformedCycleCountError"

def code (_ : MalformedCycleCountError) : String :=
  "MalformedCycleCount"

def message (e : MalformedCycleCountError) : String :=
  "Malformed cycle count at line " ++ e.line.text ++ ": \"" ++ e.payload ++ "\""

end MalformedCycleCountError

/-- The reason why a close marker is refused, on whatever line it stands: the text after it. -/
structure MalformedCycleCount where
  payload : String
  deriving DecidableEq

def MalformedCycleCount.onLine (line : Binary64) (e : MalformedCycleCount) :
    MalformedCycleCountError :=
  ⟨line, e.payload⟩

namespace CycleCount

/-- Takes off the letters at the end of a text and the white space before them. A text that
ends in no letter stays as it is. -/
def dropUnit (text : List Char) : List Char :=
  let reversed := text.reverse
  if reversed.head?.any Char.isAlpha then
    ((reversed.dropWhile Char.isAlpha).dropWhile Text.isBlank).reverse
  else text

/-- The value of a numeral of digits alone, if it is safe. More than sixteen digits after the
leading zeros are never safe. -/
def readDigits? (digits : List Char) : Option Nat :=
  let significant := digits.dropWhile (· = '0')
  if digits = [] ∨ digits.any (!·.isDigit) ∨ 16 < significant.length then none
  else
    let value := Nat.ofDigitChars 10 significant 0
    if value ≤ Binary64.maxSafe then some value else none

/-- The count in a payload that has no white space around it. -/
def read? (payload : List Char) : Option Nat :=
  readDigits? (Text.trim (dropUnit (payload.filter (· ≠ ','))))

/-- The count in the text after a close marker. A refusal carries that text trimmed, with its
commas. -/
def parse (payload : List Char) : Except MalformedCycleCount Nat :=
  let trimmed := Text.trim payload
  match read? trimmed with
  | some cycles => .ok cycles
  | none => .error ⟨String.ofList trimmed⟩

/-- The count in the text after a close marker that stands on the given line. -/
def parseAt (line : Binary64) (payload : List Char) : Except MalformedCycleCountError Nat :=
  (parse payload).mapError (·.onLine line)

end CycleCount
end CallCost
