import CallCost.CallTree.Stored
import CallCost.Trace.Scan

/-!
A pass over a trace on the trees as they are stored. It goes the way of the plain pass, from which
it differs in the trees alone.
-/

namespace CallCost

/-- A span that is not closed yet, with what is stored below it so far. -/
structure StoredSpan where
  node : StoredNode
  line : Nat
  deriving DecidableEq

def StoredSpan.plain (span : StoredSpan) : OpenSpan :=
  ⟨span.node.plain, span.line⟩

/-- A pass part way through. The innermost open span and the last closed section are in front. -/
structure StoredScan where
  stats : Stats := {}
  spans : List StoredSpan := []
  skipDepth : Nat := 0
  sections : List StoredNode := []
  issues : List Issue := []
  deriving DecidableEq

namespace StoredScan

/-- The pass without the keys of its trees. -/
def plain (s : StoredScan) : Scan where
  stats := s.stats
  spans := s.spans.map StoredSpan.plain
  skipDepth := s.skipDepth
  sections := s.sections.map StoredNode.plain
  issues := s.issues

def note (s : StoredScan) (line : Nat) (anomaly : Anomaly) : StoredScan :=
  if s.issues.length < Scan.maxIssues then { s with issues := s.issues ++ [⟨line, anomaly⟩] }
  else s

def openSpan (o : ScanOptions) (s : StoredScan) (label : String) : StoredScan :=
  let line := s.stats.lines
  let s := { s with stats.opens := s.stats.opens + 1 }
  if 0 < s.skipDepth then
    { s with
      skipDepth := s.skipDepth + 1
      stats.skippedOpens := s.stats.skippedOpens + 1 }
  else if s.spans = [] ∧ label ≠ o.topLevelLabel then
    let s := { s with
      skipDepth := if o.strictSections then 1 else s.skipDepth
      stats.skippedOpens := s.stats.skippedOpens + 1 }
    s.note line (.openSkipped label o.topLevelLabel)
  else { s with spans := ⟨.opened label, line⟩ :: s.spans }

/-- Puts a closed node where it belongs: among the children of the innermost open span under its own
label, else with the closed sections. -/
def settle (s : StoredScan) (n : StoredNode) : StoredScan :=
  match s.spans with
  | [] => { s with sections := n :: s.sections }
  | parent :: outer =>
      let node := { parent.node with children := parent.node.children.add n }
      { s with spans := { parent with node } :: outer }

def closeSpan (s : StoredScan) (cycles : Nat) : StoredScan :=
  let line := s.stats.lines
  let s := { s with stats.closes := s.stats.closes + 1 }
  if 0 < s.skipDepth then { s with skipDepth := s.skipDepth - 1 }
  else
    match s.spans with
    | [] =>
        let s := { s with stats.unmatchedCloses := s.stats.unmatchedCloses + 1 }
        s.note line .closeUnmatched
    | innermost :: outer =>
        let node := { innermost.node with
          calls := innermost.node.calls + .ofNat 1
          cycles := innermost.node.cycles + .ofNat cycles }
        settle { s with spans := outer } node

def pass (o : ScanOptions) (s : StoredScan) : Marker → StoredScan
  | .opened label => s.openSpan o label
  | .closed cycles => s.closeSpan cycles
  | .ignored => s

/-- Takes the next line. -/
def push (o : ScanOptions) (s : StoredScan) (line : String) :
    StoredScan × Option MalformedLine :=
  let s := { s with stats.lines := s.stats.lines + 1 }
  match Marker.ofLine o.glyphs line with
  | .error cause => (s, some ⟨s.stats.lines, cause⟩)
  | .ok marker => (s.pass o marker, none)

/-- Ends a pass; it may still go on. -/
def finish (s : StoredScan) : StoredScan :=
  let s := { s with stats.unclosedAtEnd := s.spans.length }
  let s := s.spans.reverse.foldl (fun s span => s.note span.line (.openUnclosed span.node.label)) s
  { s with spans := [] }

end StoredScan
end CallCost
