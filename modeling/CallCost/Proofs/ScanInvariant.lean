import CallCost.Proofs.MarkerLines
import CallCost.Proofs.RoundedSums
import CallCost.Proofs.SectionTotals

/-!
What holds of a pass at every moment, whatever lines it takes and however often it is ended and
goes on. The trees come from the tallies: every node below a root or an open span stands for
completed spans, of which there are no more than lines, so its calls are exact and its cycles are
a whole number even where their sum is rounded.
-/

namespace CallCost

/-- What can be done to a pass: it takes a line or is ended. It may go on after its end. -/
inductive Action where
  | line (text : String)
  | finish

def Action.isLine : Action → Bool
  | line _ => true
  | finish => false

/-- What a line can say: labels are trimmed and counts are safe. -/
structure Marker.Readable (marker : Marker) : Prop where
  label : ∀ label, marker = .opened label → Text.IsTrimmed label
  cycles : ∀ cycles, marker = .closed cycles → cycles ≤ Binary64.maxSafe

theorem Glyphs.readable (glyphs : Glyphs) (line : String) : (glyphs.read line).Readable where
  label := by
    intro label h
    rw [Glyphs.read] at h
    split at h
    · rename_i marker said
      subst h
      rw [Marker.ofLine] at said
      split at said
      · cases said
        exact Text.isTrimmed_trim _
      · split at said
        · rename_i payload _
          cases parsed : CycleCount.parse payload <;> rw [parsed] at said <;> cases said
        · cases said
    · cases h
  cycles := fun _ h => Glyphs.read_closed_le h

/-- The node of one or more completed spans. -/
structure Node.Merged (n : Node) : Prop where
  called : ∃ calls, 1 ≤ calls ∧ calls ≤ Binary64.maxSafe ∧ n.calls = .ofNat calls
  cycles : n.cycles.IsWhole
  label : Text.IsTrimmed n.label

/-- The forest below a root or an open span. -/
structure Forest.Sound (f : Forest) : Prop where
  distinct : f.Distinct
  nodes : f.Each Node.Merged

/-- A root is one span with the top-level label. -/
structure Node.IsRoot (topLevelLabel : String) (root : Node) : Prop where
  label : root.label = topLevelLabel
  trimmed : Text.IsTrimmed root.label
  calls : root.calls = .ofNat 1
  cycles : root.cycles.IsWhole
  below : root.children.Sound

/-- A span that is open counts nothing itself. -/
structure OpenSpan.IsFresh (span : OpenSpan) : Prop where
  trimmed : Text.IsTrimmed span.node.label
  calls : span.node.calls = 0
  cycles : span.node.cycles = 0
  below : span.node.children.Sound

def Anomaly.label? : Anomaly → Option String
  | openSkipped label _ | openUnclosed label => some label
  | closeUnmatched => none

/-- A completed span of a trace. -/
structure Span.Readable (s : Span) : Prop where
  labels : ∀ label ∈ s.path, Text.IsTrimmed label
  cycles : s.cycles ≤ Binary64.maxSafe

theorem Forest.Tallies.sound {f : Forest} {spans : List Span} (h : f.Tallies spans)
    (few : spans.length ≤ Binary64.maxSafe) (readable : ∀ s ∈ spans, s.Readable) : f.Sound where
  distinct := h.distinct
  nodes := by
    apply each_of_at? h.distinct
    intro path n found
    have some_ : spansAt path spans ≠ [] := by
      rw [ne_eq, ← h.at?_eq_none, found]
      exact Option.some_ne_none n
    have here : ∀ s ∈ spansAt path spans, s ∈ spans ∧ s.path = path := fun s hs => by
      rwa [spansAt, List.mem_filter, decide_eq_true_iff] at hs
    have fits : (spansAt path spans).length ≤ Binary64.maxSafe :=
      Nat.le_trans (length_spansAt_le path spans) few
    have counts := h.counts path n found
    refine ⟨⟨_, List.length_pos_of_ne_nil some_, fits, counts.calls_eq fits⟩, ?_, ?_⟩
    · apply counts.2.isWhole
      · intro count hc
        obtain ⟨s, hs, rfl⟩ := List.mem_map.1 hc
        exact (readable s (here s hs).1).cycles
      · rwa [List.length_map]
    · obtain ⟨s, hs⟩ := List.exists_mem_of_ne_nil _ some_
      apply (readable s (here s hs).1).labels
      obtain ⟨front, own, _⟩ := path_of_at? found
      rw [(here s hs).2, own]
      exact List.mem_append_right _ (List.mem_singleton_self _)

/-- What is merged below the open spans so far. -/
theorem Progress.sound {spans : List OpenSpan} {done : List Span} (h : Progress spans done)
    (few : done.length ≤ Binary64.maxSafe) (readable : ∀ s ∈ done, s.Readable) :
    ∀ span ∈ spans,
      span.node.calls = 0 ∧ span.node.cycles = 0 ∧ span.node.children.Sound := by
  induction h with
  | nil => exact fun _ h => absurd h List.not_mem_nil
  | @cons span outer done below outside calls cycles tallies ih =>
      rw [List.length_append, List.length_map] at few
      rw [List.forall_mem_append] at readable
      refine List.forall_mem_cons.2 ⟨⟨calls, cycles, tallies.sound (by omega) fun s hs => ?_⟩,
        ih (by omega) readable.1⟩
      obtain ⟨labels, safe⟩ := readable.2 _ (List.mem_map_of_mem hs)
      exact ⟨fun label hl => labels label (List.mem_append_right _ hl), safe⟩

namespace Scan

def act (o : ScanOptions) (s : Scan) : Action → Scan
  | .line text => (s.push o text).1
  | .finish => s.finish

def perform (o : ScanOptions) (s : Scan) (actions : List Action) : Scan :=
  actions.foldl (act o) s

theorem lines_perform (o : ScanOptions) (s : Scan) (actions : List Action) :
    (s.perform o actions).stats.lines = s.stats.lines + actions.countP Action.isLine := by
  induction actions generalizing s with
  | nil => rfl
  | cons action rest ih =>
      change ((s.act o action).perform o rest).stats.lines = _
      rw [ih, List.countP_cons]
      cases action with
      | line text =>
          rw [act, lines_push, Action.isLine, if_pos rfl]
          omega
      | finish =>
          rw [act, stats_finish]
          rfl

/-- What every line and every end keep holds whatever is done to a pass. -/
theorem perform_induction {o : ScanOptions} {motive : Scan → Prop}
    (keeps : ∀ s marker t, marker.Readable → motive s → Step o s marker t → motive t)
    (ends : ∀ s, motive s → motive s.finish) {s : Scan} (start : motive s)
    (actions : List Action) : motive (s.perform o actions) := by
  induction actions generalizing s with
  | nil => exact start
  | cons action rest ih =>
      apply ih (s := s.act o action)
      cases action with
      | line text => exact keeps s _ _ (o.glyphs.readable text) start (step_push o s text)
      | finish => exact ends s start

/-- A pass is either inside a section, with the span of the section outermost, or skips a section,
or is between sections. -/
structure Levels (o : ScanOptions) (s : Scan) : Prop where
  strict : 0 < s.skipDepth → o.strictSections = true
  skipping : 0 < s.skipDepth → s.spans = []
  outermost : ∀ label, (s.spans.map (·.node.label)).getLast? = some label →
    label = o.topLevelLabel

theorem Levels.step {o : ScanOptions} {s t : Scan} {marker : Marker} (h : Levels o s)
    (step : Step o s marker t) : Levels o t := by
  obtain ⟨strict, skipping, outermost⟩ := h
  cases step with
  | ignored => exact ⟨strict, skipping, outermost⟩
  | openDeeper label deep => exact ⟨fun _ => strict deep, fun _ => skipping deep, outermost⟩
  | openSkipped label awake outside other =>
      rw [note_eq]
      refine ⟨fun deep => ?_, fun _ => outside, outermost⟩
      by_contra loose
      rw [if_neg loose] at deep
      exact Nat.lt_irrefl 0 deep
  | openSpan label awake wanted =>
      refine ⟨strict, fun deep => absurd awake (Nat.ne_of_gt deep), fun l hl => ?_⟩
      cases inside : s.spans with
      | nil =>
          rw [inside] at hl
          cases hl
          exact wanted inside
      | cons span outer =>
          rw [inside] at hl outermost
          rw [List.map_cons, List.map_cons, List.getLast?_cons_cons] at hl
          exact outermost l hl
  | closeDeeper cycles deep => exact ⟨fun _ => strict deep, fun _ => skipping deep, outermost⟩
  | closeUnmatched cycles awake outside =>
      rw [note_eq]
      exact ⟨strict, fun _ => outside, outermost⟩
  | closeSection => exact ⟨strict, fun _ => rfl, fun _ h => by cases h⟩
  | closeInner cycles span parent outer awake inside =>
      refine ⟨strict, fun deep => absurd awake (Nat.ne_of_gt deep), fun l hl => ?_⟩
      apply outermost
      rw [inside, List.map_cons, List.map_cons, List.getLast?_cons_cons]
      exact hl

/-- Spans open from the outermost inwards, each in a line of its own. -/
structure Ordered (s : Scan) : Prop where
  order : (s.spans.map OpenSpan.line).Pairwise (· > ·)
  range : ∀ line ∈ s.spans.map OpenSpan.line, 1 ≤ line ∧ line ≤ s.stats.lines

theorem Ordered.step {o : ScanOptions} {s t : Scan} {marker : Marker} (h : Ordered s)
    (step : Step o s marker t) : Ordered t := by
  obtain ⟨order, range⟩ := h
  have later : ∀ line ∈ s.spans.map OpenSpan.line, 1 ≤ line ∧ line ≤ s.stats.lines + 1 :=
    fun line hl => (range line hl).imp_right Nat.le_succ_of_le
  cases step with
  | ignored | openDeeper | closeDeeper => exact ⟨order, later⟩
  | openSkipped | closeUnmatched =>
      rw [note_eq]
      exact ⟨order, later⟩
  | openSpan label =>
      refine ⟨List.pairwise_cons.2 ⟨fun line hl => ?_, order⟩, List.forall_mem_cons.2 ⟨?_, later⟩⟩
      · exact Nat.lt_succ_of_le (range line hl).2
      · exact ⟨Nat.succ_pos _, Nat.le_refl _⟩
  | closeSection => exact ⟨.nil, fun _ h => absurd h List.not_mem_nil⟩
  | closeInner cycles span parent outer _ inside =>
      rw [inside] at order later
      exact ⟨(List.pairwise_cons.1 order).2, (List.forall_mem_cons.1 later).2⟩

/-- The labels of the open spans and of the issues are trimmed, and the issues are few. -/
structure Labelled (s : Scan) : Prop where
  spans : ∀ label ∈ s.spans.map (·.node.label), Text.IsTrimmed label
  issues : ∀ issue ∈ s.issues, ∀ label, issue.anomaly.label? = some label → Text.IsTrimmed label
  few : s.issues.length ≤ maxIssues

theorem Labelled.note {s : Scan} (h : Labelled s) (line : Nat) {anomaly : Anomaly}
    (trimmed : ∀ label, anomaly.label? = some label → Text.IsTrimmed label) :
    Labelled (s.note line anomaly) := by
  refine ⟨?_, fun issue hi => ?_, length_issues_note_le h.few line anomaly⟩
  · rw [spans_note]
    exact h.spans
  · rw [issues_note h.few] at hi
    rcases List.mem_append.1 (List.mem_of_mem_take hi) with old | new
    · exact h.issues issue old
    · rw [List.mem_singleton.1 new]
      exact trimmed

theorem Labelled.step {o : ScanOptions} {s t : Scan} {marker : Marker} (h : Labelled s)
    (readable : marker.Readable) (step : Step o s marker t) : Labelled t := by
  cases step with
  | ignored | openDeeper | closeDeeper => exact ⟨h.spans, h.issues, h.few⟩
  | openSkipped label =>
      apply Labelled.note
      · exact ⟨h.spans, h.issues, h.few⟩
      · intro l hl
        cases hl
        exact readable.label label rfl
  | openSpan label =>
      exact ⟨List.forall_mem_cons.2 ⟨readable.label label rfl, h.spans⟩, h.issues, h.few⟩
  | closeUnmatched =>
      apply Labelled.note
      · exact ⟨h.spans, h.issues, h.few⟩
      · intro l hl
        cases hl
  | closeSection => exact ⟨fun _ h => absurd h List.not_mem_nil, h.issues, h.few⟩
  | closeInner cycles span parent outer _ inside =>
      have labels := h.spans
      rw [inside] at labels
      exact ⟨(List.forall_mem_cons.1 labels).2, h.issues, h.few⟩

theorem Labelled.finish {s : Scan} (h : Labelled s) : Labelled s.finish := by
  refine ⟨?_, fun issue hi => ?_, length_issues_finish_le h.few⟩
  · rw [finish_eq]
    exact fun _ h => absurd h List.not_mem_nil
  · rw [issues_finish h.few] at hi
    rcases List.mem_append.1 (List.mem_of_mem_take hi) with old | new
    · exact h.issues issue old
    · obtain ⟨span, hs, rfl⟩ := List.mem_map.1 new
      intro label hl
      cases hl
      exact h.spans _ (List.mem_map_of_mem (List.mem_reverse.1 hs))

/-- What is below the open spans is the tally of the spans completed in the section so far, and
the roots are sound. -/
structure Grown (o : ScanOptions) (s : Scan) : Prop where
  progress : ∃ done, Progress s.spans done ∧ done.length ≤ s.stats.lines ∧
    ∀ span ∈ done, span.Readable
  roots : ∀ root ∈ s.sections, root.IsRoot o.topLevelLabel

theorem Grown.step {o : ScanOptions} {s t : Scan} {marker : Marker} (h : Grown o s)
    (levels : Levels o s) (labelled : Labelled s) (readable : marker.Readable)
    (step : Step o s marker t) (room : t.stats.lines ≤ Binary64.maxSafe) : Grown o t := by
  obtain ⟨⟨done, progress, few, clean⟩, roots⟩ := h
  rw [step.lines] at room
  have later : done.length ≤ s.stats.lines + 1 := Nat.le_succ_of_le few
  cases step with
  | ignored | openDeeper | closeDeeper => exact ⟨⟨done, progress, later, clean⟩, roots⟩
  | openSkipped | closeUnmatched =>
      rw [note_eq]
      exact ⟨⟨done, progress, later, clean⟩, roots⟩
  | openSpan label => exact ⟨⟨done, progress.openSpan .., later, clean⟩, roots⟩
  | closeSection cycles span _ inside =>
      refine ⟨⟨[], .nil, Nat.zero_le _, fun _ h => absurd h List.not_mem_nil⟩,
        List.forall_mem_cons.2 ⟨?_, roots⟩⟩
      rw [inside] at progress
      obtain ⟨calls, cost, below⟩ := progress.sound (by omega) clean span
        (List.mem_singleton_self span)
      have safe := readable.cycles cycles rfl
      refine ⟨?_, ?_, ?_, ?_, below⟩
      · exact levels.outermost _ (by rw [inside]; rfl)
      · exact labelled.spans _ (by rw [inside]; exact List.mem_singleton_self _)
      · exact Node.calls_closed calls cycles
      · rw [Node.cycles_closed cost safe]
        exact Binary64.isWhole_ofNat safe
  | closeInner cycles span parent outer _ inside =>
      have safe := readable.cycles cycles rfl
      have labels := labelled.spans
      rw [inside] at progress labels
      refine ⟨⟨_, progress.closeInner safe parent.line, ?_, ?_⟩, roots⟩
      · rw [List.length_append]
        exact Nat.succ_le_succ few
      · refine List.forall_mem_append.2 ⟨clean, List.forall_mem_singleton.2 ⟨?_, safe⟩⟩
        intro label hl
        exact labels label (List.mem_reverse.1 hl)

/-- The induction goes through for these together. The trees are exact only as long as there are
few lines. -/
structure Kept (o : ScanOptions) (s : Scan) : Prop where
  levels : Levels o s
  ordered : Ordered s
  labelled : Labelled s
  grown : s.stats.lines ≤ Binary64.maxSafe → Grown o s

theorem kept_start (o : ScanOptions) : Kept o {} where
  levels := ⟨fun h => absurd h (Nat.lt_irrefl 0), fun _ => rfl, fun _ h => by cases h⟩
  ordered := ⟨.nil, fun _ h => absurd h List.not_mem_nil⟩
  labelled := ⟨fun _ h => absurd h List.not_mem_nil, fun _ h => absurd h List.not_mem_nil,
    Nat.zero_le _⟩
  grown := fun _ => ⟨⟨[], .nil, Nat.zero_le _, fun _ h => absurd h List.not_mem_nil⟩,
    fun _ h => absurd h List.not_mem_nil⟩

theorem Kept.step {o : ScanOptions} {s t : Scan} {marker : Marker} (h : Kept o s)
    (readable : marker.Readable) (step : Step o s marker t) : Kept o t where
  levels := h.levels.step step
  ordered := h.ordered.step step
  labelled := h.labelled.step readable step
  grown := fun room => by
    have earlier : s.stats.lines ≤ Binary64.maxSafe := by
      rw [step.lines] at room
      exact Nat.le_of_succ_le room
    exact (h.grown earlier).step h.levels h.labelled readable step room

theorem Kept.finish {o : ScanOptions} {s : Scan} (h : Kept o s) : Kept o s.finish where
  levels := by
    rw [finish_eq]
    exact ⟨h.levels.strict, fun _ => rfl, fun _ h => by cases h⟩
  ordered := by
    rw [finish_eq]
    exact ⟨.nil, fun _ h => absurd h List.not_mem_nil⟩
  labelled := h.labelled.finish
  grown := fun room => by
    rw [stats_finish] at room
    rw [finish_eq]
    exact ⟨⟨[], .nil, Nat.zero_le _, fun _ h => absurd h List.not_mem_nil⟩, (h.grown room).roots⟩

/-- What holds of a pass at every moment. -/
structure Sound (o : ScanOptions) (s : Scan) : Prop where
  strict : 0 < s.skipDepth → o.strictSections = true
  skipping : 0 < s.skipDepth → s.spans = []
  outermost : ∀ span, s.spans.getLast? = some span → span.node.label = o.topLevelLabel
  /-- From the outermost span inwards. -/
  lineOrder : (s.spans.reverse.map OpenSpan.line).Pairwise (· < ·)
  lineRange : ∀ span ∈ s.spans, 1 ≤ span.line ∧ span.line ≤ s.stats.lines
  spans : ∀ span ∈ s.spans, span.IsFresh
  roots : ∀ root ∈ s.roots.nodes, root.IsRoot o.topLevelLabel
  issueLabels : ∀ issue ∈ s.issues, ∀ label, issue.anomaly.label? = some label →
    Text.IsTrimmed label
  fewIssues : s.issues.length ≤ maxIssues

theorem Kept.sound {o : ScanOptions} {s : Scan} (h : Kept o s)
    (few : s.stats.lines ≤ Binary64.maxSafe) : Sound o s where
  strict := h.levels.strict
  skipping := h.levels.skipping
  outermost := fun span last => h.levels.outermost _ (by rw [List.getLast?_map, last]; rfl)
  lineOrder := by
    rw [List.map_reverse, List.pairwise_reverse]
    exact h.ordered.order
  lineRange := fun span hs => h.ordered.range _ (List.mem_map_of_mem hs)
  spans := fun span hs => by
    obtain ⟨done, progress, short, readable⟩ := (h.grown few).progress
    obtain ⟨calls, cycles, below⟩ := progress.sound (Nat.le_trans short few) readable span hs
    exact ⟨h.labelled.spans _ (List.mem_map_of_mem hs), calls, cycles, below⟩
  roots := fun root hr => by
    rw [Scan.roots, Forest.nodes_ofNodes, List.mem_reverse] at hr
    exact (h.grown few).roots root hr
  issueLabels := h.labelled.issues
  fewIssues := h.labelled.few

/-- After any lines, malformed ones included, and any ends the pass is sound. -/
theorem sound_after (o : ScanOptions) (actions : List Action)
    (few : actions.countP Action.isLine ≤ Binary64.maxSafe) : Sound o (perform o {} actions) := by
  have kept : Kept o (perform o {} actions) :=
    perform_induction (fun _ _ _ readable h step => h.step readable step)
      (fun _ h => h.finish) (kept_start o) actions
  apply kept.sound
  rw [lines_perform, Nat.zero_add]
  exact few

end Scan
end CallCost
