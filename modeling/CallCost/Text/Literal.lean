import CallCost.Text.Search
import CallCost.Text.Units

/-!
A text as a quoted literal. It stands between single quotes or, if it has some itself, between
double quotes or backticks, whichever it is free of; the backslash and all control characters
are escaped. A long text is written as a sum of its lines.
-/

namespace CallCost.Text

/-- The quote around a text. Backticks also need a text without a dollar and an opening brace
after it. -/
def literalQuote (text : List Char) : Char :=
  let backtick := Char.ofNat 0x60
  if '\'' ∉ text then '\''
  else if '"' ∉ text then '"'
  else if backtick ∉ text ∧ after? ['$', '\x7b'] text = none then backtick
  else '\''

def literalChar (quote c : Char) : List Char :=
  if c = quote ∨ c = '\\' then ['\\', c]
  else if c = '\x08' then ['\\', 'b']
  else if c = '\t' then ['\\', 't']
  else if c = '\n' then ['\\', 'n']
  else if c = '\x0C' then ['\\', 'f']
  else if c = '\r' then ['\\', 'r']
  else if c.toNat < 0x20 ∨ (0x7F ≤ c.toNat ∧ c.toNat ≤ 0x9F) then
    ['\\', 'x', (Nat.digitChar (c.toNat / 16)).toUpper, (Nat.digitChar (c.toNat % 16)).toUpper]
  else [c]

def quoted (text : List Char) : List Char :=
  let quote := literalQuote text
  quote :: (text.flatMap (literalChar quote) ++ [quote])

/-- The pieces of a text, each up to a line feed and with it. -/
def piecesWithBreaks : List Char → List (List Char)
  | [] => []
  | c :: rest =>
      match c, piecesWithBreaks rest with
      | '\n', pieces => ['\n'] :: pieces
      | c, [] => [[c]]
      | c, piece :: pieces => (c :: piece) :: pieces

/-- The literal of a text; one of more than 76 units is written piece by piece. -/
def literal (text : List Char) : List Char :=
  if units text ≤ 76 then quoted text
  else [' ', '+', '\n', ' ', ' '].intercalate ((piecesWithBreaks text).map quoted)

/-- The literal of the first 10000 units of a text, cut short after 128 units of its own. -/
def literalStart (text : List Char) : String :=
  let literal := literal (takeUnits 10000 text)
  String.ofList (if 128 < units literal then takeUnits 128 literal ++ ['.', '.', '.'] else literal)

end CallCost.Text
