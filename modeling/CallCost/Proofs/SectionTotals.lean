import CallCost.Proofs.Sections
import CallCost.Proofs.SpanTallies
import Mathlib.Data.List.Forall2

/-!
The roots of a profile are the tallies of the complete sections of the trace. The spans of a
section are read off its lines; what the pass holds in the middle of a section is one tally for
each open span, of the spans completed directly in it so far.
-/

namespace CallCost
open Binary64 (AddsUp)

namespace Marker

/-- The path of the innermost open span after a marker. -/
def pathAfter (path : List String) : Marker → List String
  | opened label => path ++ [label]
  | closed _ => path.dropLast
  | ignored => path

/-- The span that a marker completes. -/
def spans (path : List String) : Marker → List Span
  | closed cycles => [⟨path, cycles⟩]
  | _ => []

end Marker

namespace Glyphs

variable (glyphs : Glyphs)

def pathAfter (path : List String) (lines : List String) : List String :=
  lines.foldl (fun path line => (glyphs.read line).pathAfter path) path

/-- The spans that lines complete, in order, where the innermost open span has the given path. -/
def spansFrom (path : List String) : List String → List Span
  | [] => []
  | line :: rest =>
      (glyphs.read line).spans path ++ spansFrom ((glyphs.read line).pathAfter path) rest

theorem spansFrom_append (path xs ys : List String) :
    glyphs.spansFrom path (xs ++ ys) =
      glyphs.spansFrom path xs ++ glyphs.spansFrom (glyphs.pathAfter path xs) ys := by
  induction xs generalizing path with
  | nil => rfl
  | cons line rest ih =>
      rw [List.cons_append, spansFrom, spansFrom, ih, List.append_assoc]
      rfl

theorem spansFrom_concat (path lines : List String) (line : String) :
    glyphs.spansFrom path (lines ++ [line]) =
      glyphs.spansFrom path lines ++
        (glyphs.read line).spans (glyphs.pathAfter path lines) := by
  rw [spansFrom_append, spansFrom, spansFrom, List.append_nil]

theorem pathAfter_concat (path lines : List String) (line : String) :
    glyphs.pathAfter path (lines ++ [line]) =
      (glyphs.read line).pathAfter (glyphs.pathAfter path lines) :=
  List.foldl_concat ..

end Glyphs

theorem Glyphs.length_spansFrom_le (glyphs : Glyphs) (path lines : List String) :
    (glyphs.spansFrom path lines).length ≤ lines.length := by
  induction lines generalizing path with
  | nil => exact Nat.le_refl 0
  | cons line rest ih =>
      have own : ((glyphs.read line).spans path).length ≤ 1 := by
        cases glyphs.read line with
        | closed cycles => exact Nat.le_refl 1
        | opened | ignored => exact Nat.zero_le 1
      have later := ih ((glyphs.read line).pathAfter path)
      rw [spansFrom, List.length_append, List.length_cons]
      omega

/-- The labels of the open spans, the outermost in front. -/
def openPath (spans : List OpenSpan) : List String :=
  (spans.map (·.node.label)).reverse

theorem openPath_cons (span : OpenSpan) (outer : List OpenSpan) :
    openPath (span :: outer) = openPath outer ++ [span.node.label] :=
  List.reverse_cons

/-- The open spans hold the tallies of the completed ones. -/
inductive Progress : List OpenSpan → List Span → Prop where
  | nil : Progress [] []
  | cons {span : OpenSpan} {outer : List OpenSpan} {done below : List Span}
      (outside : Progress outer done) (calls : span.node.calls = 0) (cycles : span.node.cycles = 0)
      (tallies : span.node.children.Tallies below) :
      Progress (span :: outer) (done ++ below.map (Span.inside (openPath (span :: outer))))

theorem Node.counts_closed {n : Node} {cycles : Nat} (hcalls : n.calls = 0)
    (hcycles : n.cycles = 0) (safe : cycles ≤ Binary64.maxSafe) (path : List String) :
    (n.closed cycles).Counts [⟨path, cycles⟩] := by
  rw [Node.Counts, calls_closed hcalls, cycles_closed hcycles safe]
  exact ⟨.one 1, .one cycles⟩

theorem Progress.openSpan {spans : List OpenSpan} {done : List Span} (h : Progress spans done)
    (label : String) (line : Nat) : Progress (⟨.opened label, line⟩ :: spans) done := by
  have opened : Progress (⟨.opened label, line⟩ :: spans) _ :=
    .cons h rfl rfl Forest.tallies_nil
  rwa [List.map_nil, List.append_nil] at opened

theorem Progress.closeSection {span : OpenSpan} {done : List Span} {cycles : Nat}
    (h : Progress [span] done) (safe : cycles ≤ Binary64.maxSafe) :
    (span.node.closed cycles).toForest.Tallies (done ++ [⟨openPath [span], cycles⟩]) := by
  cases h with
  | cons outside hcalls hcycles tallies =>
      cases outside
      exact Forest.tallies_toForest tallies (Node.counts_closed hcalls hcycles safe _)

theorem Progress.closeInner {span parent : OpenSpan} {outer : List OpenSpan} {done : List Span}
    {cycles : Nat} (h : Progress (span :: parent :: outer) done)
    (safe : cycles ≤ Binary64.maxSafe) (line : Nat) :
    Progress (⟨parent.node.adopt (span.node.closed cycles), line⟩ :: outer)
      (done ++ [⟨openPath (span :: parent :: outer), cycles⟩]) := by
  cases h with
  | @cons _ _ _ below outside hcalls hcycles tallies =>
      cases outside with
      | @cons _ _ done beside outside parentCalls parentCycles parentTallies =>
          have whole := Forest.tallies_toForest (n := span.node.closed cycles) tallies
            (Node.counts_closed hcalls hcycles safe _)
          have merged := parentTallies.merge whole
          rw [Forest.merge_toForest] at merged
          have all : Progress (⟨parent.node.adopt (span.node.closed cycles), line⟩ :: outer) _ :=
            .cons outside parentCalls parentCycles merged
          have path : openPath (⟨parent.node.adopt (span.node.closed cycles), line⟩ :: outer) =
            openPath (parent :: outer) := rfl
          rw [path, List.map_append, List.map_append, List.map_map, Span.inside_comp] at all
          rw [openPath_cons span, List.append_assoc, List.append_assoc]
          exact all

/-- What a pass holds while it takes the lines of a section: the open spans with their tallies,
and once the last of them is closed the tally of the section as its newest root. -/
structure InSection (glyphs : Glyphs) (before : List Node) (s : Scan) (taken : List String) :
    Prop where
  inside : s.spans ≠ [] → Progress s.spans (glyphs.spansFrom [] taken) ∧
    openPath s.spans = glyphs.pathAfter [] taken ∧ s.sections = before
  ended : s.spans = [] → ∃ root : Node,
    s.sections = root :: before ∧ root.toForest.Tallies (glyphs.spansFrom [] taken)

theorem InSection.step {o : ScanOptions} {before : List Node} {s t : Scan}
    {taken : List String} {line : String} (h : InSection o.glyphs before s taken)
    (awake : s.skipDepth = 0) (inside : s.spans ≠ [])
    (step : Scan.Step o s (o.glyphs.read line) t) :
    InSection o.glyphs before t (taken ++ [line]) := by
  obtain ⟨progress, path, sections⟩ := h.inside inside
  have spans := o.glyphs.spansFrom_concat [] taken line
  have after := o.glyphs.pathAfter_concat [] taken line
  rw [← path] at spans after
  cases said : o.glyphs.read line with
  | ignored =>
      rw [said] at step spans after
      cases step with
      | ignored =>
          simp only [Marker.spans, List.append_nil] at spans
          refine ⟨fun _ => ⟨?_, after.symm, sections⟩, fun e => absurd e inside⟩
          rwa [spans]
  | opened label =>
      rw [said] at step spans after
      simp only [Marker.spans, List.append_nil] at spans
      cases step with
      | openDeeper _ skipping => exact absurd awake (Nat.ne_of_gt skipping)
      | openSkipped _ _ outside => exact absurd outside inside
      | openSpan =>
          refine ⟨fun _ => ⟨?_, ?_, sections⟩, fun e => absurd e (List.cons_ne_nil _ _)⟩
          · rw [spans]
            exact progress.openSpan ..
          · rw [after]
            exact openPath_cons ..
  | closed cycles =>
      have safe := Glyphs.read_closed_le said
      rw [said] at step spans after
      cases step with
      | closeDeeper _ skipping => exact absurd awake (Nat.ne_of_gt skipping)
      | closeUnmatched _ _ outside => exact absurd outside inside
      | closeSection _ span _ single =>
          rw [single] at progress spans
          refine ⟨fun e => absurd rfl e, fun _ => ⟨_, congrArg _ sections, ?_⟩⟩
          rw [spans]
          exact progress.closeSection safe
      | closeInner _ span parent outer _ nested =>
          rw [nested] at progress spans after
          refine ⟨fun _ => ⟨?_, ?_, sections⟩, fun e => absurd e (List.cons_ne_nil _ _)⟩
          · rw [spans]
            exact progress.closeInner safe _
          · rw [after, openPath_cons span]
            exact (List.dropLast_concat ..).symm

namespace Scan

theorem section_run {o : ScanOptions} {s : Scan} {first : String} {inside : List String}
    (idle : s.Idle) (opens : o.glyphs.read first = .opened o.topLevelLabel)
    (stays : o.glyphs.StaysOpen 1 inside) :
    InSection o.glyphs s.sections (s.after o (first :: inside)) (first :: inside) ∧
      (s.after o (first :: inside)).skipDepth = 0 ∧
      (s.after o (first :: inside)).spans.length = o.glyphs.depthAfter 1 inside := by
  obtain ⟨spans, awake, sections⟩ := idle_opens idle opens
  have start : InSection o.glyphs s.sections (s.push o first).1 [first] := by
    refine ⟨fun _ => ⟨?_, ?_, sections⟩, fun ended => ?_⟩
    · rw [spans, Glyphs.spansFrom, opens]
      exact Progress.nil.openSpan ..
    · rw [spans, Glyphs.pathAfter, List.foldl_cons, opens]
      rfl
    · rw [spans] at ended
      cases ended
  have one : (s.push o first).1.spans.length = 1 := congrArg List.length spans
  have run := inside_induction (motive := InSection o.glyphs s.sections)
    (fun _ _ _ _ awake inside h step _ => h.step awake inside step) _ start awake inside
    (by rwa [one])
  rwa [one] at run

/-- Each complete section adds a root that is the tally of its spans. -/
theorem sections_after {o : ScanOptions} {lines : List String} {segs : List Segment}
    (h : Segmented o lines segs) {s : Scan} (idle : s.Idle) :
    ∃ roots : List Node, (s.after o lines).sections = roots.reverse ++ s.sections ∧
      List.Forall₂ (fun root (section_ : List String) =>
        root.toForest.Tallies (o.glyphs.spansFrom [] section_))
        roots (segs.filterMap Segment.complete?) := by
  induction h generalizing s with
  | nil => exact ⟨[], rfl, .nil⟩
  | outside dropped rest ih =>
      obtain ⟨idle, sections⟩ := idle_outside idle dropped
      obtain ⟨roots, later, tallies⟩ := ih idle
      exact ⟨roots, by rw [after_cons, later, sections], tallies⟩
  | @complete first inside after segs opens stays balanced rest ih =>
      obtain ⟨run, awake, depth⟩ := section_run idle opens stays
      rw [balanced] at depth
      have ended := List.eq_nil_of_length_eq_zero depth
      obtain ⟨root, sections, tallies⟩ := run.ended ended
      obtain ⟨roots, later, others⟩ := ih ⟨ended, awake⟩
      refine ⟨root :: roots, ?_, .cons tallies others⟩
      rw [← List.cons_append, after_append, later, sections, List.reverse_cons,
        List.append_assoc]
      rfl
  | unfinished opens stays unbalanced =>
      obtain ⟨run, _, depth⟩ := section_run idle opens stays
      rw [← depth] at unbalanced
      obtain ⟨_, _, sections⟩ := run.inside (List.ne_nil_of_length_pos unbalanced)
      exact ⟨[], sections, .nil⟩
  | @skipped first label inside after segs strict opens other stays balanced rest ih =>
      obtain ⟨skips, depth⟩ := skipped_section idle strict opens other stays
      rw [balanced] at depth
      obtain ⟨roots, later, tallies⟩ := ih ⟨skips.spans.trans idle.1, depth⟩
      refine ⟨roots, ?_, tallies⟩
      rw [← List.cons_append, after_append, later, skips.sections]
  | @skippedToEnd first label inside strict opens other stays unbalanced =>
      exact ⟨[], (skipped_section idle strict opens other stays).1.sections, .nil⟩

end Scan

/-- The tree below a root is what one gets by adding up spans label path by label path. -/
structure Node.Aggregates (root : Node) (spans : List Span) : Prop where
  occurs : ∀ path, (root.toForest.at? path).isSome ↔ ∃ s ∈ spans, s.path = path
  calls : ∀ path n, root.toForest.at? path = some n →
    n.calls = .ofNat (spansAt path spans).length
  /-- The cycles are the sum of all the counts, rounded if it is not safe. -/
  cycles : ∀ path n, root.toForest.at? path = some n →
    AddsUp ((spansAt path spans).map Span.cycles) n.cycles
  exactCycles : ∀ path n, root.toForest.at? path = some n →
    ((spansAt path spans).map Span.cycles).sum ≤ Binary64.maxSafe →
      n.cycles = .ofNat ((spansAt path spans).map Span.cycles).sum
  order : ∀ path n, root.toForest.at? path = some n →
    n.children.labels = (labelsBelow path spans).eraseDups

theorem Forest.Tallies.aggregates {root : Node} {spans : List Span}
    (h : root.toForest.Tallies spans) (few : spans.length ≤ Binary64.maxSafe) :
    root.Aggregates spans where
  occurs := fun path => by
    rw [← Option.ne_none_iff_isSome, ne_eq, h.at?_eq_none, spansAt, List.filter_eq_nil_iff]
    simp only [decide_eq_true_eq, not_forall, not_not, exists_prop]
  calls := fun path n hn =>
    (h.counts path n hn).calls_eq (Nat.le_trans (length_spansAt_le path spans) few)
  cycles := fun path n hn => (h.counts path n hn).2
  exactCycles := fun path n hn => (h.counts path n hn).2.eq_ofNat
  order := fun path n hn => by
    rw [← under_of_at? hn, h.order]

/-- The roots of a finished pass are the tallies of the complete sections. -/
theorem Scan.roots_tally (o : ScanOptions) (lines : List String) :
    List.Forall₂ (fun root (section_ : List String) =>
      root.toForest.Tallies (o.glyphs.spansFrom [] section_))
      (after o {} lines).finish.profile.roots.nodes (completeSections o lines) := by
  obtain ⟨roots, sections, tallies⟩ := sections_after (segmented o lines) (s := {}) ⟨rfl, rfl⟩
  have nodes : (after o {} lines).finish.profile.roots.nodes = roots := by
    rw [profile, roots_finish, Scan.roots, Forest.nodes_ofNodes, sections, List.append_nil,
      List.reverse_reverse]
  rwa [nodes]

/-- A trace without malformed lines gives one root for each complete section, in order, and each
root aggregates the spans of its section. -/
theorem ofLines_aggregates (o : ScanOptions) (lines : List String)
    (few : lines.length ≤ Binary64.maxSafe) (sound : ∀ line ∈ lines, ¬o.glyphs.Malformed line) :
    ∃ p, Profile.ofLines o lines = .ok p ∧
      List.Forall₂ (fun root section_ => root.Aggregates (o.glyphs.spansFrom [] section_))
        p.roots.nodes (completeSections o lines) := by
  obtain ⟨same, each⟩ := List.forall₂_iff_zip.1 (Scan.roots_tally o lines)
  refine ⟨_, Profile.ofLines_eq o lines sound, List.forall₂_iff_zip.2 ⟨same, ?_⟩⟩
  intro root section_ pair
  have short := length_le_of_mem_completeSections (List.of_mem_zip pair).2
  have spans := o.glyphs.length_spansFrom_le [] section_
  exact (each pair).aggregates (by omega)

theorem ofLines_aggregates_recursive_section :
    let o : ScanOptions := { topLevelLabel := "A", strictSections := true }
    let lines := ["┌╴B", "┌╴A", "└╴9", "└╴9", "┌╴A", "│ ┌╴A", "│ └╴2 cycles", "│ ┌╴B", "│ └╴3",
      "│ ┌╴A", "│ └╴1,000", "└╴1,005 cycles", "└╴7", "┌╴A"]
    lines.length ≤ Binary64.maxSafe ∧ (∀ line ∈ lines, ¬o.glyphs.Malformed line) ∧
      ∃ p, Profile.ofLines o lines = .ok p ∧
        List.Forall₂ (fun root section_ => root.Aggregates (o.glyphs.spansFrom [] section_))
          p.roots.nodes (completeSections o lines) :=
  ⟨by decide, by decide +kernel, ofLines_aggregates _ _ (by decide) (by decide +kernel)⟩

end CallCost
