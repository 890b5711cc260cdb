import CallCost.Text.Search
import CallCost.Trace.CycleCount

/-!
The markers of a trace. A line that holds the opening glyph opens a span whose label is the
trimmed text after the glyph; else a line that holds the closing glyph closes a span with the
cycle count after it; every other line says nothing. What stands before a glyph is ignored.
-/

namespace CallCost

structure Glyphs where
  opening : String := "┌╴"
  closing : String := "└╴"

inductive Marker where
  | opened (label : String)
  | closed (cycles : Nat)
  | ignored
  deriving DecidableEq

/-- What a line says. -/
def Marker.ofLine (glyphs : Glyphs) (line : String) : Except MalformedCycleCount Marker :=
  let text := line.toList
  match Text.after? glyphs.opening.toList text with
  | some label => .ok (.opened (String.ofList (Text.trim label)))
  | none =>
      match Text.after? glyphs.closing.toList text with
      | some payload => (CycleCount.parse payload).map .closed
      | none => .ok .ignored

/-- What a line of the given number says. The number is only for the error. -/
def Marker.ofLineAt (glyphs : Glyphs) (number : Binary64) (line : String) :
    Except MalformedCycleCountError Marker :=
  (ofLine glyphs line).mapError (·.onLine number)

end CallCost
