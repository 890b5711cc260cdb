import CallCost.Binary64.Numeral
import CallCost.Json.Basic
import CallCost.Text.Units

/-!
Reading a JSON value from its text, by the grammar of the format and nothing beyond it. Half of
a surrogate pair that stands alone is read as the replacement character. A refusal names the
place in the text and shows what stands around it.
-/

namespace CallCost.Json

/-- Why a text is no JSON value. A refusal keeps the text from its place on. -/
inductive ReadError where
  | ended
  | unexpected (c : Char) (rest : List Char)
  /-- A minus sign without a digit after it. -/
  | noDigit (rest : List Char)
  deriving DecidableEq

namespace ReadError

/-- The refusal of a text at its start. -/
def here : List Char → ReadError
  | [] => ended
  | c :: rest => unexpected c rest

/-- The units that are shown on each side of a place. -/
def contextWidth : Nat := 10

/-- What stands around a place. A text of at most two contexts is shown whole. -/
def context (before rest : List Char) : String :=
  let shown := (Text.takeUnits contextWidth before.reverse).reverse ++
    Text.takeUnits contextWidth rest
  if Text.units before + Text.units rest ≤ 2 * contextWidth then
    "\"" ++ String.ofList (before ++ rest) ++ "\""
  else
    (if contextWidth ≤ Text.units before then "..." else "") ++ "\"" ++ String.ofList shown ++
      "\"" ++ if contextWidth < Text.units rest then "..." else ""

/-- The message of a refusal of the given text. -/
def message (text : List Char) : ReadError → String
  | ended => "Unexpected end of JSON input"
  | unexpected c rest =>
      let before := text.take (text.length - (rest.length + 1))
      "Unexpected token '" ++ c.toString ++ "', " ++ context before (c :: rest) ++
        " is not valid JSON"
  | noDigit rest =>
      let before := text.take (text.length - rest.length)
      let line := before.count '\n' + 1
      let column := Text.units (before.reverse.takeWhile (· ≠ '\n')) + 1
      "No number after minus sign in JSON at position " ++ toString (Text.units before) ++
        " (line " ++ toString line ++ " column " ++ toString column ++ ")"

end ReadError

def skipBlank (text : List Char) : List Char :=
  text.dropWhile fun c => c = ' ' || c = '\t' || c = '\n' || c = '\r'

/-- The character behind a backslash and one letter. -/
def unescape? : Char → Option Char
  | '"' => some '"'
  | '\\' => some '\\'
  | '/' => some '/'
  | 'b' => some '\x08'
  | 'f' => some '\x0C'
  | 'n' => some '\n'
  | 'r' => some '\r'
  | 't' => some '\t'
  | _ => none

def unit? (a b c d : Char) : Option Nat := do
  let a ← digitValue? a
  let b ← digitValue? b
  let c ← digitValue? c
  let d ← digitValue? d
  some (((a * 16 + b) * 16 + c) * 16 + d)

/-- Adds the replacement character for a first half that no second half follows. -/
def settle (high : Option Nat) (done : List Char) : List Char :=
  match high with
  | none => done
  | some _ => '\uFFFD' :: done

/-- Adds a 16-bit unit to the characters read so far, newest in front: the first half of a pair
waits for the second. -/
def addUnit (high : Option Nat) (done : List Char) (unit : Nat) : Option Nat × List Char :=
  if 0xD800 ≤ unit ∧ unit ≤ 0xDBFF then (some unit, settle high done)
  else if 0xDC00 ≤ unit ∧ unit ≤ 0xDFFF then
    match high with
    | some first =>
        (none, Char.ofNat (0x10000 + (first - 0xD800) * 0x400 + (unit - 0xDC00)) :: done)
    | none => (none, '\uFFFD' :: done)
  else (none, Char.ofNat unit :: settle high done)

/-- Reads up to the closing quote. -/
def readString (high : Option Nat) (done : List Char) :
    List Char → Except ReadError (String × List Char)
  | [] => .error .ended
  | '"' :: rest => .ok (String.ofList (settle high done).reverse, rest)
  | '\\' :: 'u' :: a :: b :: c :: d :: rest =>
      match unit? a b c d with
      | none => .error (.here (a :: b :: c :: d :: rest))
      | some unit =>
          let (high, done) := addUnit high done unit
          readString high done rest
  | '\\' :: letter :: rest =>
      match unescape? letter with
      | none => .error (.unexpected letter rest)
      | some c => readString none (c :: settle high done) rest
  | c :: rest =>
      if c = '\\' ∨ c.toNat < 0x20 then .error (.unexpected c rest)
      else readString none (c :: settle high done) rest

/-- Reads a numeral without its sign: no needless leading zero, and a digit on each side of a
point. -/
def readNumber? (negative : Bool) (text : List Char) : Option (Binary64 × List Char) := do
  let whole := text.takeWhile Char.isDigit
  let rest := text.dropWhile Char.isDigit
  guard (whole ≠ [] ∧ (whole.head? = some '0' → whole.length = 1))
  let (fraction, rest) ←
    match rest with
    | '.' :: rest =>
        let fraction := rest.takeWhile Char.isDigit
        if fraction = [] then none else some (fraction, rest.dropWhile Char.isDigit)
    | _ => some ([], rest)
  let (exponent, rest) ← readExponent? rest
  some ((Decimal.ofDigits whole fraction exponent).toBinary64 negative, rest)

/-- Reads a numeral, the only kind of value that no letter of its own announces. -/
def readNumber : List Char → Except ReadError (Json × List Char)
  | '-' :: rest =>
      match readNumber? true rest with
      | some (n, rest) => .ok (.number n, rest)
      | none => .error (if rest.head?.any Char.isDigit then .here rest else .noDigit rest)
  | text =>
      match readNumber? false text with
      | some (n, rest) => .ok (.number n, rest)
      | none => .error (.here text)

mutual

/-- Reads one value. The fuel bounds the number of steps. -/
def readValue : Nat → List Char → Except ReadError (Json × List Char)
  | 0, text => .error (.here text)
  | fuel + 1, text =>
      match skipBlank text with
      | '"' :: rest => (readString none [] rest).map fun (s, rest) => (.string s, rest)
      | '[' :: rest =>
          match skipBlank rest with
          | ']' :: rest => .ok (.array [], rest)
          | rest => (readItems fuel [] rest).map fun (items, rest) => (.array items, rest)
      | '\x7b' :: rest =>
          match skipBlank rest with
          | '\x7d' :: rest => .ok (.object [], rest)
          | rest => (readFields fuel [] rest).map fun (fields, rest) => (.object fields, rest)
      | 'n' :: 'u' :: 'l' :: 'l' :: rest => .ok (.null, rest)
      | 't' :: 'r' :: 'u' :: 'e' :: rest => .ok (.bool true, rest)
      | 'f' :: 'a' :: 'l' :: 's' :: 'e' :: rest => .ok (.bool false, rest)
      | rest => readNumber rest

/-- Reads the items of an array up to its end, the newest item in front of those done. -/
def readItems : Nat → List Json → List Char → Except ReadError (List Json × List Char)
  | 0, _, text => .error (.here text)
  | fuel + 1, done, text =>
      match readValue fuel text with
      | .error e => .error e
      | .ok (item, rest) =>
          match skipBlank rest with
          | ',' :: rest => readItems fuel (item :: done) rest
          | ']' :: rest => .ok ((item :: done).reverse, rest)
          | rest => .error (.here rest)

/-- Reads the fields of an object up to its end, the newest field in front of those done. -/
def readFields : Nat → List (String × Json) → List Char →
    Except ReadError (List (String × Json) × List Char)
  | 0, _, text => .error (.here text)
  | fuel + 1, done, text =>
      match skipBlank text with
      | '"' :: rest =>
          match readString none [] rest with
          | .error e => .error e
          | .ok (name, rest) =>
              match skipBlank rest with
              | ':' :: rest =>
                  match readValue fuel rest with
                  | .error e => .error e
                  | .ok (value, rest) =>
                      match skipBlank rest with
                      | ',' :: rest => readFields fuel ((name, value) :: done) rest
                      | '\x7d' :: rest => .ok (((name, value) :: done).reverse, rest)
                      | rest => .error (.here rest)
              | rest => .error (.here rest)
      | rest => .error (.here rest)

end

/-- The value that a whole text stands for. Every step takes at least half a character, so the
fuel is never the reason to refuse. -/
def read (text : String) : Except ReadError Json :=
  match readValue (2 * text.length + 2) text.toList with
  | .error e => .error e
  | .ok (value, rest) =>
      match skipBlank rest with
      | [] => .ok value
      | rest => .error (.here rest)

end CallCost.Json
