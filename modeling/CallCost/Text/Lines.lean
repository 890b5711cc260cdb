/-!
Lines of a text. A text is cut at its line feeds; what stands after the last line feed is a line
only if it is not empty. The two readings differ in the carriage return: `lines` takes off one
that stands right before a line feed and keeps every other, `linesAtAnyBreak` ends a line at
each of them and counts a carriage return with the line feed after it as one line end.
-/

namespace CallCost.Text

/-- Takes one carriage return off the end of a line. -/
def dropReturn (line : List Char) : List Char :=
  if line.getLast? = some '\r' then line.dropLast else line

/-- The pieces between separators, where the last piece is left out if it is empty. -/
def terminated (endOfLine : List Char → List Char) (pieces : List (List Char)) :
    List (List Char) :=
  pieces.dropLast.map endOfLine ++ (pieces.getLast?.filter (· ≠ [])).toList

/-- The lines of a text whose lines end at a line feed, with or without a carriage return. -/
def lines (text : List Char) : List (List Char) :=
  terminated dropReturn (text.splitOn '\n')

/-- Writes every line end as a single line feed: a carriage return becomes one, and a line feed
right after a carriage return belongs to it. -/
def unifyBreaks (text : List Char) : List Char :=
  ((' ' :: text).zip text).filterMap fun (previous, c) =>
    if c = '\r' then some '\n'
    else if c = '\n' ∧ previous = '\r' then none
    else some c

/-- The lines of a text whose lines end at a line feed, a carriage return, or the two together. -/
def linesAtAnyBreak (text : List Char) : List (List Char) :=
  terminated id ((unifyBreaks text).splitOn '\n')

end CallCost.Text
