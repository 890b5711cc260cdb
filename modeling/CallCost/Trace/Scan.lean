import CallCost.CallTree.Merge
import CallCost.Text.Lines
import CallCost.Trace.Issue
import CallCost.Trace.Marker

/-!
One pass over the lines of a trace. Spans match by position: a close marker ends the innermost
open span, whose node is then merged into the span around it or, at the outermost level, becomes
a root. A section is a span at the outermost level with the top-level label; every other span
there is skipped, with strict sections up to the close that balances it.
-/

namespace CallCost

structure ScanOptions where
  topLevelLabel : String
  glyphs : Glyphs := {}
  strictSections : Bool := false

structure Stats where
  lines : Nat := 0
  opens : Nat := 0
  closes : Nat := 0
  unmatchedCloses : Nat := 0
  skippedOpens : Nat := 0
  unclosedAtEnd : Nat := 0
  deriving DecidableEq

/-- A span that is not closed yet: what is merged below it so far, and its opening line. -/
structure OpenSpan where
  node : Node
  line : Nat
  deriving DecidableEq

/-- A pass part way through. The innermost open span is in front. -/
structure Scan where
  stats : Stats := {}
  spans : List OpenSpan := []
  /-- The depth inside a skipped section; it stays zero unless sections are strict. -/
  skipDepth : Nat := 0
  /-- The closed sections, the last one in front. -/
  sections : List Node := []
  issues : List Issue := []
  deriving DecidableEq

/-- A close marker that stops a pass, with the number of its line counted from one. -/
structure MalformedLine where
  line : Nat
  cause : MalformedCycleCount
  deriving DecidableEq

def MalformedLine.error (e : MalformedLine) : MalformedCycleCountError :=
  e.cause.onLine (.ofNat e.line)

def MalformedLine.message (e : MalformedLine) : String :=
  e.error.message

/-- What a finished pass gives. -/
structure Profile where
  roots : Forest
  stats : Stats
  issues : List Issue
  deriving DecidableEq

namespace Scan

/-- The number of issues that are kept; the statistics count all of them. -/
def maxIssues : Nat := 100

def note (s : Scan) (line : Nat) (anomaly : Anomaly) : Scan :=
  if s.issues.length < maxIssues then { s with issues := s.issues ++ [⟨line, anomaly⟩] } else s

/-- Passes an open marker. -/
def openSpan (o : ScanOptions) (s : Scan) (label : String) : Scan :=
  let line := s.stats.lines
  let s := { s with stats.opens := s.stats.opens + 1 }
  if 0 < s.skipDepth then
    { s with
      skipDepth := s.skipDepth + 1
      stats.skippedOpens := s.stats.skippedOpens + 1 }
  else if s.spans = [] ∧ label ≠ o.topLevelLabel then
    let s := { s with
      skipDepth := if o.strictSections then 1 else s.skipDepth
      stats.skippedOpens := s.stats.skippedOpens + 1 }
    s.note line (.openSkipped label o.topLevelLabel)
  else { s with spans := ⟨.opened label, line⟩ :: s.spans }

/-- Puts a closed node where it belongs: below the innermost open span, else with the closed
sections. -/
def settle (s : Scan) (n : Node) : Scan :=
  match s.spans with
  | [] => { s with sections := n :: s.sections }
  | parent :: outer =>
      let node := { parent.node with children := parent.node.children.add n }
      { s with spans := { parent with node } :: outer }

/-- Passes a close marker. -/
def closeSpan (s : Scan) (cycles : Nat) : Scan :=
  let line := s.stats.lines
  let s := { s with stats.closes := s.stats.closes + 1 }
  if 0 < s.skipDepth then { s with skipDepth := s.skipDepth - 1 }
  else
    match s.spans with
    | [] =>
        let s := { s with stats.unmatchedCloses := s.stats.unmatchedCloses + 1 }
        s.note line .closeUnmatched
    | innermost :: outer =>
        let node := { innermost.node with
          calls := innermost.node.calls + .ofNat 1
          cycles := innermost.node.cycles + .ofNat cycles }
        settle { s with spans := outer } node

def pass (o : ScanOptions) (s : Scan) : Marker → Scan
  | .opened label => s.openSpan o label
  | .closed cycles => s.closeSpan cycles
  | .ignored => s

/-- Takes the next line. A malformed close marker is reported and changes nothing but the
number of lines. -/
def push (o : ScanOptions) (s : Scan) (line : String) : Scan × Option MalformedLine :=
  let s := { s with stats.lines := s.stats.lines + 1 }
  match Marker.ofLine o.glyphs line with
  | .error cause => (s, some ⟨s.stats.lines, cause⟩)
  | .ok marker => (s.pass o marker, none)

/-- A line is reported with the error that its marker has under the number of the line. -/
theorem error_push_iff (o : ScanOptions) (s : Scan) (line : String)
    (e : MalformedCycleCountError) :
    (s.push o line).2.map MalformedLine.error = some e ↔
      Marker.ofLineAt o.glyphs (.ofNat (s.stats.lines + 1)) line = .error e := by
  simp only [push, Marker.ofLineAt]
  cases Marker.ofLine o.glyphs line with
  | error cause =>
      exact ⟨fun h => congrArg Except.error (Option.some.inj h),
        fun h => congrArg some (Except.error.inj h)⟩
  | ok marker => exact iff_of_false nofun nofun

theorem stats_note (s : Scan) (line : Nat) (anomaly : Anomaly) :
    (s.note line anomaly).stats = s.stats := by
  unfold note
  split <;> rfl

theorem stats_settle (s : Scan) (n : Node) : (s.settle n).stats = s.stats := by
  unfold settle
  split <;> rfl

theorem lines_openSpan (o : ScanOptions) (s : Scan) (label : String) :
    (s.openSpan o label).stats.lines = s.stats.lines := by
  unfold openSpan
  simp only
  split
  · rfl
  · split
    · rw [stats_note]
    · rfl

theorem lines_closeSpan (s : Scan) (cycles : Nat) :
    (s.closeSpan cycles).stats.lines = s.stats.lines := by
  unfold closeSpan
  simp only
  split
  · rfl
  · split
    · rw [stats_note]
    · rw [stats_settle]

/-- Every line is counted, a malformed one too. -/
theorem lines_push (o : ScanOptions) (s : Scan) (line : String) :
    (s.push o line).1.stats.lines = s.stats.lines + 1 := by
  unfold push
  simp only
  split
  · rfl
  · rename_i marker _
    cases marker with
    | opened label => exact lines_openSpan o _ label
    | closed cycles => exact lines_closeSpan _ cycles
    | ignored => rfl

/-- Takes lines up to the first malformed close marker. -/
def pushAll (o : ScanOptions) (s : Scan) : List String → Except MalformedLine Scan
  | [] => .ok s
  | line :: rest =>
      match s.push o line with
      | (_, some malformed) => .error malformed
      | (s, none) => s.pushAll o rest

/-- Ends a pass. Open spans are dropped with all that is merged below them, each with an issue
from the outermost inwards. -/
def finish (s : Scan) : Scan :=
  let s := { s with stats.unclosedAtEnd := s.spans.length }
  let s := s.spans.reverse.foldl (fun s span => s.note span.line (.openUnclosed span.node.label)) s
  { s with spans := [] }

/-- The closed sections in the order in which they were closed. -/
def roots (s : Scan) : Forest :=
  .ofNodes s.sections.reverse

def profile (s : Scan) : Profile :=
  ⟨s.roots, s.stats, s.issues⟩

end Scan

/-- The call-cost forest of a trace, with what was counted and noted on the way. -/
def Profile.ofLines (o : ScanOptions) (lines : List String) : Except MalformedLine Profile :=
  (Scan.pushAll o {} lines).map fun s => s.finish.profile

/-- The lines of a trace that is one text. -/
def traceLines (text : String) : List String :=
  (Text.lines text.toList).map String.ofList

end CallCost
