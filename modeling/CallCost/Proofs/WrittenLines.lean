import CallCost.Proofs.LineEnds
import CallCost.Proofs.ScanSteps

/-!
Lines written with their ends and read back. Each line may end in a line feed or in a carriage
return and a line feed, where the line feed alone does not follow a carriage return, and the last
line may have no end. Reading gives back the lines, whatever ends were chosen, and every text is
written in this way from the lines that are read from it.
-/

namespace CallCost
namespace Text

inductive LineEnd where
  | feed
  | returnFeed
  deriving DecidableEq

def LineEnd.text : LineEnd → List Char
  | feed => ['\n']
  | returnFeed => ['\r', '\n']

/-- A line and the end it is given. A line feed alone would take a carriage return in front of it
into the line end. -/
structure EndedLine where
  line : List Char
  ending : LineEnd
  free : '\n' ∉ line
  apart : ending = .feed → line.getLast? ≠ some '\r'

def EndedLine.text (l : EndedLine) : List Char :=
  l.line ++ l.ending.text

/-- Lines with their ends, and behind them what has no end. This is one more line unless it is
empty. -/
structure WrittenLines where
  ended : List EndedLine
  unended : List Char
  free : '\n' ∉ unended

namespace WrittenLines

def text (w : WrittenLines) : List Char :=
  w.ended.flatMap EndedLine.text ++ w.unended

def lines (w : WrittenLines) : List (List Char) :=
  w.ended.map EndedLine.line ++ if w.unended = [] then [] else [w.unended]

end WrittenLines

theorem dropReturn_append_return (line : List Char) : dropReturn (line ++ ['\r']) = line := by
  rw [dropReturn, if_pos List.getLast?_concat, List.dropLast_concat]

theorem dropReturn_eq_self {line : List Char} (h : line.getLast? ≠ some '\r') :
    dropReturn line = line :=
  if_neg h

theorem lines_ended_append (l : EndedLine) (rest : List Char) :
    lines (l.text ++ rest) = l.line :: lines rest := by
  obtain ⟨line, ending, free, apart⟩ := l
  cases ending with
  | feed =>
      have read := lines_append_break free rest
      rw [dropReturn_eq_self (apart rfl)] at read
      simpa [EndedLine.text, LineEnd.text] using read
  | returnFeed =>
      have free' : '\n' ∉ line ++ ['\r'] := by simpa using free
      have read := lines_append_break free' rest
      rw [dropReturn_append_return] at read
      simpa [EndedLine.text, LineEnd.text] using read

theorem WrittenLines.lines_text (w : WrittenLines) : Text.lines w.text = w.lines := by
  obtain ⟨ended, unended, free⟩ := w
  rw [text, lines]
  induction ended with
  | nil => exact lines_of_not_mem free
  | cons l rest ih =>
      rw [List.flatMap_cons, List.append_assoc, lines_ended_append, ih]
      rfl

/-- The line end that a line feed completes is the longest one. -/
theorem exists_ended {line : List Char} (free : '\n' ∉ line) :
    ∃ l : EndedLine, l.text = line ++ ['\n'] ∧ l.line = dropReturn line := by
  by_cases last : line.getLast? = some '\r'
  · obtain ⟨front, rfl⟩ := List.getLast?_eq_some_iff.1 last
    have free' : '\n' ∉ front := fun h => free (List.mem_append_left _ h)
    exact ⟨⟨front, .returnFeed, free', nofun⟩, by simp [EndedLine.text, LineEnd.text],
      (dropReturn_append_return front).symm⟩
  · exact ⟨⟨line, .feed, free, fun _ => last⟩, rfl, (dropReturn_eq_self last).symm⟩

theorem exists_written (text : List Char) :
    ∃ w : WrittenLines, w.text = text ∧ w.lines = lines text := by
  induction text using line_induction with
  | last line free => exact ⟨⟨[], line, free⟩, rfl, (lines_of_not_mem free).symm⟩
  | line line rest free ih =>
      obtain ⟨l, written, same⟩ := exists_ended free
      obtain ⟨⟨ended, unended, free'⟩, rfl, later⟩ := ih
      refine ⟨⟨l :: ended, unended, free'⟩, ?_, ?_⟩
      · simp only [WrittenLines.text, List.flatMap_cons, written, List.append_assoc,
          List.cons_append, List.nil_append]
      · rw [lines_append_break free, ← same, ← later]
        rfl

/-- Puts a carriage return in front of each line feed. -/
def withReturns (text : List Char) : List Char :=
  text.flatMap fun c => if c = '\n' then LineEnd.returnFeed.text else [c]

theorem withReturns_eq_self {line : List Char} (free : '\n' ∉ line) : withReturns line = line := by
  induction line with
  | nil => rfl
  | cons c line ih =>
      rw [List.mem_cons, not_or] at free
      rw [withReturns, List.flatMap_cons, if_neg (Ne.symm free.1), ← withReturns, ih free.2]
      rfl

theorem lines_withReturns {text : List Char} (clean : '\r' ∉ text) :
    lines (withReturns text) = lines text := by
  induction text using line_induction with
  | last line free => rw [withReturns_eq_self free]
  | line line rest free ih =>
      simp only [List.mem_append, List.mem_cons, not_or] at clean
      have last : line.getLast? ≠ some '\r' := fun h => clean.1 (List.mem_of_getLast? h)
      have ended := lines_ended_append ⟨line, .returnFeed, free, nofun⟩ (withReturns rest)
      have written : withReturns (line ++ '\n' :: rest) =
          line ++ LineEnd.returnFeed.text ++ withReturns rest := by
        rw [withReturns, List.flatMap_append, ← withReturns, withReturns_eq_self free,
          List.flatMap_cons, if_pos rfl, ← withReturns, List.append_assoc]
      rw [written, lines_append_break free, dropReturn_eq_self last, ← ih clean.2.2]
      exact ended

end Text

/-- A trace is counted line by line. -/
theorem Profile.exists_ofLines_length (o : ScanOptions) {lines : List String}
    (sound : ∀ line ∈ lines, ¬o.glyphs.Malformed line) :
    ∃ p, ofLines o lines = .ok p ∧ p.stats.lines = lines.length := by
  refine ⟨_, ofLines_eq o lines sound, ?_⟩
  change (Scan.finish _).stats.lines = _
  rw [Scan.stats_finish, Scan.lines_after]
  exact Nat.zero_add _

/-- Lines are read back from a text whatever ends they are written with, and every text is written
with ends from the lines that are read from it. A pass over the text counts just these lines, and
it does not matter to its result whether line feeds have carriage returns in front of them. -/
theorem traceLines_written :
    (∀ w : Text.WrittenLines, Text.lines w.text = w.lines) ∧
      (∀ text, ∃ w : Text.WrittenLines, w.text = text ∧ w.lines = Text.lines text) ∧
      (∀ (o : ScanOptions) (w : Text.WrittenLines),
        (∀ line ∈ w.lines, ¬o.glyphs.Malformed (String.ofList line)) →
          ∃ p, Profile.ofLines o (traceLines (String.ofList w.text)) = .ok p ∧
            p.stats.lines = w.lines.length) ∧
      ∀ (o : ScanOptions) (text : String), '\r' ∉ text.toList →
        Profile.ofLines o (traceLines (String.ofList (Text.withReturns text.toList))) =
          Profile.ofLines o (traceLines text) := by
  refine ⟨Text.WrittenLines.lines_text, Text.exists_written, fun o w sound => ?_,
    fun o text clean => ?_⟩
  · have read : traceLines (String.ofList w.text) = w.lines.map String.ofList := by
      rw [traceLines, String.toList_ofList, w.lines_text]
    have sound' : ∀ line ∈ w.lines.map String.ofList, ¬o.glyphs.Malformed line :=
      List.forall_mem_map.2 sound
    obtain ⟨p, complete, counted⟩ := Profile.exists_ofLines_length o sound'
    rw [List.length_map] at counted
    exact ⟨p, read ▸ complete, counted⟩
  · rw [traceLines, String.toList_ofList, Text.lines_withReturns clean, ← traceLines]

/-- Both ends, a blank line, a line that ends in a carriage return of its own and a last line
without an end. -/
theorem traceLines_written_mixed_ends :
    let w : Text.WrittenLines :=
      { ended :=
          [⟨"┌╴A".toList, .returnFeed, by decide, nofun⟩, ⟨[], .feed, by decide, by decide⟩,
            ⟨"note\r".toList, .returnFeed, by decide, nofun⟩]
        unended := "└╴5".toList
        free := by decide }
    let o : ScanOptions := { topLevelLabel := "A" }
    let text := "┌╴A\n\n└╴5\n"
    w.text = "┌╴A\r\n\nnote\r\r\n└╴5".toList ∧
      Text.lines w.text = ["┌╴A".toList, [], "note\r".toList, "└╴5".toList] ∧
      (∀ line ∈ w.lines, ¬o.glyphs.Malformed (String.ofList line)) ∧
      (∃ p, Profile.ofLines o (traceLines (String.ofList w.text)) = .ok p ∧ p.stats.lines = 4) ∧
      '\r' ∉ text.toList ∧
      Profile.ofLines o (traceLines "┌╴A\r\n\r\n└╴5\r\n") =
        Profile.ofLines o (traceLines text) := by
  intro w o text
  obtain ⟨readBack, -, counted, returned⟩ := traceLines_written
  have sound : ∀ line ∈ w.lines, ¬o.glyphs.Malformed (String.ofList line) := by decide +kernel
  have clean : '\r' ∉ text.toList := by decide +kernel
  have written : String.ofList (Text.withReturns text.toList) = "┌╴A\r\n\r\n└╴5\r\n" := by
    decide +kernel
  exact ⟨by decide +kernel, (readBack w).trans (by decide +kernel), sound, counted o w sound, clean,
    written ▸ returned o text clean⟩

end CallCost
