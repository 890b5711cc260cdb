import CallCost.Proofs.WholeNumbers
import CallCost.Trace.Scan

/-!
What one line can do to a pass. A line is read as its marker, where a malformed close marker
reads as no marker at all; `Step` then has one case for each way on. Everything that is proved
about runs starts from this inversion and never opens `push` again.
-/

namespace CallCost

/-- A close marker without a cycle count. -/
def Glyphs.Malformed (glyphs : Glyphs) (line : String) : Prop :=
  ∃ cause, Marker.ofLine glyphs line = .error cause

instance (glyphs : Glyphs) (line : String) : Decidable (glyphs.Malformed line) :=
  match h : Marker.ofLine glyphs line with
  | .error cause => isTrue ⟨cause, h⟩
  | .ok marker => isFalse fun ⟨cause, hc⟩ => by
      rw [h] at hc
      cases hc

/-- What a line does to a pass that goes on after malformed lines. -/
def Glyphs.read (glyphs : Glyphs) (line : String) : Marker :=
  match Marker.ofLine glyphs line with
  | .ok marker => marker
  | .error _ => .ignored

theorem Glyphs.read_eq {glyphs : Glyphs} {line : String} {marker : Marker}
    (h : Marker.ofLine glyphs line = .ok marker) : glyphs.read line = marker := by
  rw [Glyphs.read, h]

theorem CycleCount.parse_le {payload : List Char} {cycles : Nat}
    (h : CycleCount.parse payload = .ok cycles) : cycles ≤ Binary64.maxSafe := by
  simp only [CycleCount.parse] at h
  split at h
  · rename_i read
    cases h
    simp only [CycleCount.read?, CycleCount.readDigits?] at read
    split at read
    · cases read
    · split at read
      · rename_i safe
        cases read
        exact safe
      · cases read
  · cases h

theorem Glyphs.read_closed_le {glyphs : Glyphs} {line : String} {cycles : Nat}
    (h : glyphs.read line = .closed cycles) : cycles ≤ Binary64.maxSafe := by
  rw [Glyphs.read] at h
  split at h
  · rename_i marker said
    subst h
    rw [Marker.ofLine] at said
    split at said
    · cases said
    · split at said
      · rename_i payload _
        cases parsed : CycleCount.parse payload with
        | error cause => rw [parsed] at said; cases said
        | ok count =>
            rw [parsed] at said
            cases said
            exact CycleCount.parse_le parsed
      · cases said
  · cases h

namespace Node

/-- The node of an open span once a close marker counts it. -/
def closed (n : Node) (cycles : Nat) : Node :=
  { n with calls := n.calls + .ofNat 1, cycles := n.cycles + .ofNat cycles }

theorem calls_closed {n : Node} (fresh : n.calls = 0) (cycles : Nat) :
    (n.closed cycles).calls = .ofNat 1 := by
  rw [closed, fresh, Binary64.zero_add_ofNat (by decide)]

theorem cycles_closed {n : Node} (fresh : n.cycles = 0) {cycles : Nat}
    (safe : cycles ≤ Binary64.maxSafe) : (n.closed cycles).cycles = .ofNat cycles := by
  rw [closed, fresh, Binary64.zero_add_ofNat safe]

/-- A node with one more completed node merged below it. -/
def adopt (parent child : Node) : Node :=
  { parent with children := parent.children.add child }

end Node

/-- The issue of a span that is open at the end. -/
def OpenSpan.unclosed (span : OpenSpan) : Issue :=
  ⟨span.line, .openUnclosed span.node.label⟩

namespace Scan

/-- The pass after some lines. Malformed ones count as lines and the pass goes on. -/
def after (o : ScanOptions) (s : Scan) (lines : List String) : Scan :=
  lines.foldl (fun s line => (s.push o line).1) s

theorem after_cons (o : ScanOptions) (s : Scan) (line : String) (rest : List String) :
    s.after o (line :: rest) = (s.push o line).1.after o rest := rfl

theorem after_append (o : ScanOptions) (s : Scan) (xs ys : List String) :
    s.after o (xs ++ ys) = (s.after o xs).after o ys :=
  List.foldl_append

theorem note_eq (s : Scan) (line : Nat) (anomaly : Anomaly) :
    s.note line anomaly = { s with issues := (s.note line anomaly).issues } := by
  rw [note]
  split <;> rfl

theorem spans_note (s : Scan) (line : Nat) (anomaly : Anomaly) :
    (s.note line anomaly).spans = s.spans := by
  rw [note_eq]

theorem sections_note (s : Scan) (line : Nat) (anomaly : Anomaly) :
    (s.note line anomaly).sections = s.sections := by
  rw [note_eq]

theorem skipDepth_note (s : Scan) (line : Nat) (anomaly : Anomaly) :
    (s.note line anomaly).skipDepth = s.skipDepth := by
  rw [note_eq]

theorem take_take_append {α : Type} (n : Nat) (xs ys : List α) :
    (xs.take n ++ ys).take n = (xs ++ ys).take n := by
  have left : n - min n xs.length = n - xs.length := by omega
  rw [List.take_append, List.take_append, List.take_take, List.length_take, Nat.min_self, left]

/-- Only the first issues are kept, in the order in which they are noted. -/
theorem issues_note {s : Scan} (few : s.issues.length ≤ maxIssues) (line : Nat)
    (anomaly : Anomaly) :
    (s.note line anomaly).issues = (s.issues ++ [(⟨line, anomaly⟩ : Issue)]).take maxIssues := by
  rw [note]
  split
  · rename_i room
    rw [List.take_of_length_le]
    rw [List.length_append, List.length_singleton]
    exact room
  · rename_i full
    rw [List.take_append_of_le_length (Nat.not_lt.1 full), List.take_of_length_le few]

theorem length_issues_note_le {s : Scan} (few : s.issues.length ≤ maxIssues) (line : Nat)
    (anomaly : Anomaly) : (s.note line anomaly).issues.length ≤ maxIssues := by
  rw [issues_note few]
  exact List.length_take_le _ _

/-- The ways in which a pass takes a line, by what the line says. -/
inductive Step (o : ScanOptions) (s : Scan) : Marker → Scan → Prop where
  | ignored : Step o s .ignored { s with stats.lines := s.stats.lines + 1 }
  | openDeeper (label : String) (skipping : 0 < s.skipDepth) :
      Step o s (.opened label) { s with
        stats.lines := s.stats.lines + 1
        stats.opens := s.stats.opens + 1
        stats.skippedOpens := s.stats.skippedOpens + 1
        skipDepth := s.skipDepth + 1 }
  | openSkipped (label : String) (awake : s.skipDepth = 0) (outside : s.spans = [])
      (other : label ≠ o.topLevelLabel) :
      Step o s (.opened label) (note { s with
        stats.lines := s.stats.lines + 1
        stats.opens := s.stats.opens + 1
        stats.skippedOpens := s.stats.skippedOpens + 1
        skipDepth := if o.strictSections then 1 else 0 }
        (s.stats.lines + 1) (.openSkipped label o.topLevelLabel))
  | openSpan (label : String) (awake : s.skipDepth = 0)
      (wanted : s.spans = [] → label = o.topLevelLabel) :
      Step o s (.opened label) { s with
        stats.lines := s.stats.lines + 1
        stats.opens := s.stats.opens + 1
        spans := ⟨.opened label, s.stats.lines + 1⟩ :: s.spans }
  | closeDeeper (cycles : Nat) (skipping : 0 < s.skipDepth) :
      Step o s (.closed cycles) { s with
        stats.lines := s.stats.lines + 1
        stats.closes := s.stats.closes + 1
        skipDepth := s.skipDepth - 1 }
  | closeUnmatched (cycles : Nat) (awake : s.skipDepth = 0) (outside : s.spans = []) :
      Step o s (.closed cycles) (note { s with
        stats.lines := s.stats.lines + 1
        stats.closes := s.stats.closes + 1
        stats.unmatchedCloses := s.stats.unmatchedCloses + 1 }
        (s.stats.lines + 1) .closeUnmatched)
  | closeSection (cycles : Nat) (span : OpenSpan) (awake : s.skipDepth = 0)
      (inside : s.spans = [span]) :
      Step o s (.closed cycles) { s with
        stats.lines := s.stats.lines + 1
        stats.closes := s.stats.closes + 1
        spans := []
        sections := span.node.closed cycles :: s.sections }
  | closeInner (cycles : Nat) (span parent : OpenSpan) (outer : List OpenSpan)
      (awake : s.skipDepth = 0) (inside : s.spans = span :: parent :: outer) :
      Step o s (.closed cycles) { s with
        stats.lines := s.stats.lines + 1
        stats.closes := s.stats.closes + 1
        spans := ⟨parent.node.adopt (span.node.closed cycles), parent.line⟩ :: outer }

theorem step_openSpan (o : ScanOptions) (s : Scan) (label : String) :
    Step o s (.opened label)
      (openSpan o { s with stats.lines := s.stats.lines + 1 } label) := by
  rw [Scan.openSpan]
  by_cases skipping : 0 < s.skipDepth
  · rw [if_pos skipping]
    exact .openDeeper label skipping
  · have awake : s.skipDepth = 0 := by omega
    rw [if_neg skipping]
    by_cases h : s.spans = [] ∧ label ≠ o.topLevelLabel
    · rw [if_pos h]
      simp only [awake]
      exact .openSkipped label awake h.1 h.2
    · rw [if_neg h]
      exact .openSpan label awake fun outside =>
        Decidable.byContradiction fun other => h ⟨outside, other⟩

theorem step_closeSpan (o : ScanOptions) (s : Scan) (cycles : Nat) :
    Step o s (.closed cycles)
      (closeSpan { s with stats.lines := s.stats.lines + 1 } cycles) := by
  rw [closeSpan]
  by_cases skipping : 0 < s.skipDepth
  · rw [if_pos skipping]
    exact .closeDeeper cycles skipping
  · have awake : s.skipDepth = 0 := by omega
    rw [if_neg skipping]
    obtain ⟨stats, spans, skipDepth, sections, issues⟩ := s
    cases spans with
    | nil => exact .closeUnmatched cycles awake rfl
    | cons span outer =>
        cases outer with
        | nil => exact .closeSection cycles span awake rfl
        | cons parent outer => exact .closeInner cycles span parent outer awake rfl

theorem step_push (o : ScanOptions) (s : Scan) (line : String) :
    Step o s (o.glyphs.read line) (s.push o line).1 := by
  rw [push, Glyphs.read]
  cases Marker.ofLine o.glyphs line with
  | error cause => exact .ignored
  | ok marker =>
      cases marker with
      | opened label => exact step_openSpan o s label
      | closed cycles => exact step_closeSpan o s cycles
      | ignored => exact .ignored

def entered (s : Scan) (label : String) : Scan :=
  { s with
    stats.lines := s.stats.lines + 1
    stats.opens := s.stats.opens + 1
    spans := ⟨.opened label, s.stats.lines + 1⟩ :: s.spans }

section Lines

variable {o : ScanOptions} {s : Scan} {line : String}

theorem push_opened {label : String} (said : o.glyphs.read line = .opened label)
    (awake : s.skipDepth = 0) (wanted : s.spans = [] → label = o.topLevelLabel) :
    (s.push o line).1 = s.entered label := by
  have step := step_push o s line
  rw [said] at step
  generalize (s.push o line).1 = t at step ⊢
  cases step with
  | openDeeper _ skipping => exact absurd awake (Nat.ne_of_gt skipping)
  | openSkipped _ _ outside other => exact absurd (wanted outside) other
  | openSpan => rfl

theorem push_closed_section {cycles : Nat} {span : OpenSpan}
    (said : o.glyphs.read line = .closed cycles) (awake : s.skipDepth = 0)
    (inside : s.spans = [span]) :
    (s.push o line).1 = { s with
      stats.lines := s.stats.lines + 1
      stats.closes := s.stats.closes + 1
      spans := []
      sections := span.node.closed cycles :: s.sections } := by
  have step := step_push o s line
  rw [said] at step
  generalize (s.push o line).1 = t at step ⊢
  cases step with
  | closeDeeper _ skipping => exact absurd awake (Nat.ne_of_gt skipping)
  | closeUnmatched _ _ outside =>
      rw [inside] at outside
      cases outside
  | closeSection _ span' _ single =>
      rw [inside] at single
      cases single
      rfl
  | closeInner _ span' parent outer _ nested =>
      rw [inside] at nested
      cases nested

theorem push_closed_inner {cycles : Nat} {span parent : OpenSpan} {outer : List OpenSpan}
    (said : o.glyphs.read line = .closed cycles) (awake : s.skipDepth = 0)
    (inside : s.spans = span :: parent :: outer) :
    (s.push o line).1 = { s with
      stats.lines := s.stats.lines + 1
      stats.closes := s.stats.closes + 1
      spans := ⟨parent.node.adopt (span.node.closed cycles), parent.line⟩ :: outer } := by
  have step := step_push o s line
  rw [said] at step
  generalize (s.push o line).1 = t at step ⊢
  cases step with
  | closeDeeper _ skipping => exact absurd awake (Nat.ne_of_gt skipping)
  | closeUnmatched _ _ outside =>
      rw [inside] at outside
      cases outside
  | closeSection _ span' _ single =>
      rw [inside] at single
      cases single
  | closeInner _ span' parent' outer' _ nested =>
      rw [inside] at nested
      cases nested
      rfl

end Lines

theorem lines_after (o : ScanOptions) (s : Scan) (lines : List String) :
    (s.after o lines).stats.lines = s.stats.lines + lines.length := by
  induction lines generalizing s with
  | nil => rfl
  | cons line rest ih =>
      rw [after_cons, ih, lines_push, List.length_cons]
      omega

theorem Step.lines {o : ScanOptions} {s t : Scan} {marker : Marker} (step : Step o s marker t) :
    t.stats.lines = s.stats.lines + 1 := by
  cases step with
  | openSkipped | closeUnmatched => rw [stats_note]
  | _ => rfl

theorem Step.unclosedAtEnd {o : ScanOptions} {s t : Scan} {marker : Marker}
    (step : Step o s marker t) : t.stats.unclosedAtEnd = s.stats.unclosedAtEnd := by
  cases step with
  | openSkipped | closeUnmatched => rw [stats_note]
  | _ => rfl

theorem Step.length_issues_le {o : ScanOptions} {s t : Scan} {marker : Marker}
    (step : Step o s marker t) (few : s.issues.length ≤ maxIssues) :
    t.issues.length ≤ maxIssues := by
  cases step with
  | openSkipped | closeUnmatched =>
      apply length_issues_note_le
      exact few
  | _ => exact few

/-- A marker leaves no choice. -/
theorem Step.deterministic {o : ScanOptions} {s t u : Scan} {marker : Marker}
    (ht : Step o s marker t) (hu : Step o s marker u) : t = u := by
  cases ht with
  | ignored => cases hu with | ignored => rfl
  | openDeeper label skipping =>
      cases hu with
      | openDeeper => rfl
      | openSkipped _ awake | openSpan _ awake => exact absurd awake (Nat.ne_of_gt skipping)
  | openSkipped label awake outside other =>
      cases hu with
      | openDeeper _ skipping => exact absurd awake (Nat.ne_of_gt skipping)
      | openSkipped => rfl
      | openSpan _ _ wanted => exact absurd (wanted outside) other
  | openSpan label awake wanted =>
      cases hu with
      | openDeeper _ skipping => exact absurd awake (Nat.ne_of_gt skipping)
      | openSkipped _ _ outside other => exact absurd (wanted outside) other
      | openSpan => rfl
  | closeDeeper cycles skipping =>
      cases hu with
      | closeDeeper => rfl
      | closeUnmatched _ awake | closeSection _ _ awake | closeInner _ _ _ _ awake =>
          exact absurd awake (Nat.ne_of_gt skipping)
  | closeUnmatched cycles awake outside =>
      cases hu with
      | closeDeeper _ skipping => exact absurd awake (Nat.ne_of_gt skipping)
      | closeUnmatched => rfl
      | closeSection _ _ _ inside | closeInner _ _ _ _ _ inside =>
          rw [outside] at inside
          cases inside
  | closeSection cycles span awake inside =>
      cases hu with
      | closeDeeper _ skipping => exact absurd awake (Nat.ne_of_gt skipping)
      | closeUnmatched _ _ outside => rw [inside] at outside; cases outside
      | closeSection _ span' _ inside' => rw [inside] at inside'; cases inside'; rfl
      | closeInner _ _ _ _ _ inside' => rw [inside] at inside'; cases inside'
  | closeInner cycles span parent outer awake inside =>
      cases hu with
      | closeDeeper _ skipping => exact absurd awake (Nat.ne_of_gt skipping)
      | closeUnmatched _ _ outside => rw [inside] at outside; cases outside
      | closeSection _ _ _ inside' => rw [inside] at inside'; cases inside'
      | closeInner _ _ _ _ _ inside' => rw [inside] at inside'; cases inside'; rfl

theorem Step.push_eq {o : ScanOptions} {s t : Scan} {line : String}
    (step : Step o s (o.glyphs.read line) t) : (s.push o line).1 = t :=
  (step_push o s line).deterministic step

/-- What every line keeps holds after every run. -/
theorem after_induction {o : ScanOptions} {motive : Scan → Prop}
    (keeps : ∀ s marker t, motive s → Step o s marker t → motive t)
    {s : Scan} (start : motive s) (lines : List String) : motive (s.after o lines) := by
  induction lines generalizing s with
  | nil => exact start
  | cons line rest ih => exact ih (keeps s _ _ start (step_push o s line))

theorem length_issues_after_le (o : ScanOptions) (lines : List String) :
    (after o {} lines).issues.length ≤ maxIssues :=
  after_induction (motive := fun s => s.issues.length ≤ maxIssues)
    (fun _ _ _ few step => step.length_issues_le few) (Nat.zero_le _) lines

theorem pushAll_eq (o : ScanOptions) (s : Scan) (lines : List String)
    (sound : ∀ line ∈ lines, ¬o.glyphs.Malformed line) :
    s.pushAll o lines = .ok (s.after o lines) := by
  induction lines generalizing s with
  | nil => rfl
  | cons line rest ih =>
      have rest_sound := ih (s.push o line).1 fun l hl => sound l (List.mem_cons_of_mem _ hl)
      rw [pushAll, after_cons, ← rest_sound]
      cases h : Marker.ofLine o.glyphs line with
      | error cause => exact absurd ⟨cause, h⟩ (sound line List.mem_cons_self)
      | ok marker => simp only [push, h]

/-- The end of a pass drops the open spans, counts them and adds issues; it changes no section. -/
theorem finish_eq (s : Scan) :
    s.finish = { s with
      stats.unclosedAtEnd := s.spans.length
      spans := []
      issues := s.finish.issues } := by
  have noted (spans : List OpenSpan) (t : Scan) :
      spans.foldl (fun t span => t.note span.line (.openUnclosed span.node.label)) t =
        { t with issues := (spans.foldl
          (fun t span => t.note span.line (.openUnclosed span.node.label)) t).issues } := by
    induction spans generalizing t with
    | nil => rfl
    | cons span rest ih =>
        rw [List.foldl_cons, ih, note_eq]
  rw [finish, noted]

theorem issues_finish {s : Scan} (few : s.issues.length ≤ maxIssues) :
    s.finish.issues = (s.issues ++ s.spans.reverse.map OpenSpan.unclosed).take maxIssues := by
  have noted (spans : List OpenSpan) (t : Scan) (few : t.issues.length ≤ maxIssues) :
      (spans.foldl (fun t span => t.note span.line (.openUnclosed span.node.label)) t).issues =
        (t.issues ++ spans.map OpenSpan.unclosed).take maxIssues := by
    induction spans generalizing t with
    | nil => rw [List.map_nil, List.append_nil, List.take_of_length_le few, List.foldl_nil]
    | cons span rest ih =>
        have first := issues_note few span.line (.openUnclosed span.node.label)
        have still : (t.note span.line (.openUnclosed span.node.label)).issues.length ≤
            maxIssues := by
          rw [first]
          exact List.length_take_le _ _
        rw [List.foldl_cons, ih _ still, first, take_take_append, List.append_assoc]
        rfl
  exact noted s.spans.reverse _ few

theorem length_issues_finish_le {s : Scan} (few : s.issues.length ≤ maxIssues) :
    s.finish.issues.length ≤ maxIssues := by
  rw [issues_finish few]
  exact List.length_take_le _ _

theorem roots_finish (s : Scan) : s.finish.roots = s.roots := by
  rw [finish_eq]
  rfl

theorem stats_finish (s : Scan) :
    s.finish.stats = { s.stats with unclosedAtEnd := s.spans.length } := by
  rw [finish_eq]

end Scan

theorem Profile.ofLines_eq (o : ScanOptions) (lines : List String)
    (sound : ∀ line ∈ lines, ¬o.glyphs.Malformed line) :
    Profile.ofLines o lines = .ok (Scan.after o {} lines).finish.profile := by
  rw [Profile.ofLines, Scan.pushAll_eq o {} lines sound]
  rfl

end CallCost
