import CallCost.Proofs.UnclosedSpans

/-!
The issues of a finished pass. A marker that is met between sections and does not start one is an
anomaly, and so is an open marker of an unfinished section that no close marker balances. The
issues are these anomalies in order, as many as are kept; the statistics count all of them.
-/

namespace CallCost

/-- What is wrong with a marker that is met between sections. -/
def Marker.anomaly? (o : ScanOptions) : Marker → Option Anomaly
  | opened label =>
      if label = o.topLevelLabel then none else some (.openSkipped label o.topLevelLabel)
  | closed _ => some .closeUnmatched
  | ignored => none

/-- The number of issues with a code. -/
def recorded (code : String) (issues : List Issue) : Nat :=
  issues.countP fun issue => issue.anomaly.code = code

theorem recorded_append (code : String) (xs ys : List Issue) :
    recorded code (xs ++ ys) = recorded code xs + recorded code ys :=
  List.countP_append

namespace Segment

def isSkipped : Segment → Bool
  | skipped .. => true
  | _ => false

/-- The issue of the first line of a segment if it does not start a section. -/
def met (o : ScanOptions) (number : Nat) : Segment → List Issue
  | outside line | skipped line _ =>
      (((o.glyphs.read line).anomaly? o).map (Issue.mk number)).toList
  | complete .. | unfinished .. => []

end Segment

/-- The issues of the markers between the sections of a trace, in the order of the lines. -/
def metIssues (o : ScanOptions) (lines : List String) : List Issue :=
  Segment.numbered (Segment.met o) 1 (segments o lines)

namespace Scan

instance (s : Scan) : Decidable s.Idle :=
  inferInstanceAs (Decidable (s.spans = [] ∧ s.skipDepth = 0))

/-- The issue of a marker on the next line: only between sections can there be one. -/
def issue? (o : ScanOptions) (s : Scan) (marker : Marker) : Option Issue :=
  if s.Idle then (marker.anomaly? o).map (Issue.mk (s.stats.lines + 1)) else none

/-- The issues of the markers that a pass meets with nothing open and nothing being skipped. -/
def issuesMet (o : ScanOptions) (s : Scan) : List String → List Issue
  | [] => []
  | line :: rest => (s.issue? o (o.glyphs.read line)).toList ++ (s.push o line).1.issuesMet o rest

theorem issuesMet_append (o : ScanOptions) (s : Scan) (xs ys : List String) :
    s.issuesMet o (xs ++ ys) = s.issuesMet o xs ++ (s.after o xs).issuesMet o ys := by
  induction xs generalizing s with
  | nil => rfl
  | cons line rest ih => simp only [List.cons_append, issuesMet, ih, after_cons, List.append_assoc]

/-! ### Issues and statistics -/

/-- A pass that has gone on from another has noted the given issues and counted them. Where
sections are not strict, an open marker is skipped only between sections. -/
structure Noted (o : ScanOptions) (s t : Scan) (met : List Issue) : Prop where
  issues : t.issues = (s.issues ++ met).take maxIssues
  unmatched : t.stats.unmatchedCloses = s.stats.unmatchedCloses + recorded "close.unmatched" met
  skipped : o.strictSections = false → s.skipDepth = 0 → t.skipDepth = 0 ∧
    t.stats.skippedOpens = s.stats.skippedOpens + recorded "open.skipped" met

section Run

variable {o : ScanOptions} {s t u : Scan}

theorem Noted.trans {xs ys : List Issue} (h : Noted o s t xs) (k : Noted o t u ys) :
    Noted o s u (xs ++ ys) where
  issues := by rw [k.issues, h.issues, take_take_append, List.append_assoc]
  unmatched := by rw [k.unmatched, h.unmatched, recorded_append, Nat.add_assoc]
  skipped := fun loose awake => by
    obtain ⟨awake, first⟩ := h.skipped loose awake
    obtain ⟨awake, second⟩ := k.skipped loose awake
    exact ⟨awake, by rw [second, first, recorded_append, Nat.add_assoc]⟩

theorem issue?_of_idle (idle : s.Idle) (marker : Marker) :
    s.issue? o marker = (marker.anomaly? o).map (Issue.mk (s.stats.lines + 1)) :=
  if_pos idle

theorem issue?_of_not_idle (busy : ¬s.Idle) (marker : Marker) : s.issue? o marker = none :=
  if_neg busy

theorem Step.noted {marker : Marker} (step : Step o s marker t)
    (few : s.issues.length ≤ maxIssues) : Noted o s t (s.issue? o marker).toList := by
  have quiet : s.issues = (s.issues ++ []).take maxIssues := by
    rw [List.append_nil, List.take_of_length_le few]
  have within (inside : s.spans ≠ []) : s.issue? o marker = none :=
    issue?_of_not_idle (fun idle => inside idle.1) marker
  have none_deep (skipping : 0 < s.skipDepth) : s.issue? o marker = none :=
    issue?_of_not_idle (fun idle => Nat.ne_of_gt skipping idle.2) marker
  cases step with
  | ignored =>
      have none_here : s.issue? o .ignored = none := by simp [issue?, Marker.anomaly?]
      rw [none_here]
      exact ⟨quiet, rfl, fun _ awake => ⟨awake, rfl⟩⟩
  | openDeeper _ skipping | closeDeeper _ skipping =>
      rw [none_deep skipping]
      exact ⟨quiet, rfl, fun _ awake => absurd awake (Nat.ne_of_gt skipping)⟩
  | openSkipped label awake outside other =>
      rw [issue?_of_idle ⟨outside, awake⟩, Marker.anomaly?, if_neg other]
      refine ⟨?_, ?_, fun loose _ => ⟨?_, ?_⟩⟩
      · rw [issues_note]
        · rfl
        · exact few
      · rw [stats_note]
        rfl
      · rw [skipDepth_note]
        simp [loose]
      · rw [stats_note]
        rfl
  | openSpan label awake wanted =>
      have none_here : s.issue? o (.opened label) = none := by
        by_cases outside : s.spans = []
        · simp [issue?, Marker.anomaly?, wanted outside]
        · exact within outside
      rw [none_here]
      exact ⟨quiet, rfl, fun _ awake => ⟨awake, rfl⟩⟩
  | closeUnmatched cycles awake outside =>
      rw [issue?_of_idle ⟨outside, awake⟩]
      refine ⟨?_, ?_, fun _ _ => ⟨?_, ?_⟩⟩
      · rw [issues_note]
        · rfl
        · exact few
      · rw [stats_note]
        rfl
      · rw [skipDepth_note]
        exact awake
      · rw [stats_note]
        rfl
  | closeSection _ _ _ inside | closeInner _ _ _ _ _ inside =>
      rw [within (by simp [inside])]
      exact ⟨quiet, rfl, fun _ awake => ⟨awake, rfl⟩⟩

/-- A pass notes what it meets between sections and nothing else. -/
theorem noted_after (few : s.issues.length ≤ maxIssues) (lines : List String) :
    Noted o s (s.after o lines) (s.issuesMet o lines) := by
  induction lines generalizing s with
  | nil =>
      refine ⟨?_, rfl, fun _ awake => ⟨awake, rfl⟩⟩
      rw [issuesMet, List.append_nil, List.take_of_length_le few]
      rfl
  | cons line rest ih =>
      have step := step_push o s line
      exact (step.noted few).trans (ih (step.length_issues_le few))

/-! ### The order of the lines -/

theorem of_issue? {marker : Marker} {issue : Issue} (h : s.issue? o marker = some issue) :
    issue.line = s.stats.lines + 1 ∧ issue.anomaly.code ≠ "open.unclosed" := by
  rw [issue?] at h
  split at h
  · obtain ⟨anomaly, wrong, rfl⟩ := Option.map_eq_some_iff.1 h
    refine ⟨rfl, ?_⟩
    cases marker with
    | opened label =>
        rw [Marker.anomaly?] at wrong
        split at wrong <;> cases wrong
        simp [Anomaly.code]
    | closed cycles => cases wrong; simp [Anomaly.code]
    | ignored => cases wrong
  · cases h

/-- An issue that is met names a line to come, and no open span. -/
theorem mem_issuesMet {issue : Issue} {lines : List String} (h : issue ∈ s.issuesMet o lines) :
    s.stats.lines < issue.line ∧ issue.anomaly.code ≠ "open.unclosed" := by
  induction lines generalizing s with
  | nil => exact absurd h List.not_mem_nil
  | cons line rest ih =>
      rcases List.mem_append.1 h with here | later
      · obtain ⟨own, code⟩ := of_issue? (Option.mem_toList.1 here)
        exact ⟨by omega, code⟩
      · obtain ⟨behind, code⟩ := ih later
        rw [lines_push] at behind
        exact ⟨Nat.lt_of_succ_lt behind, code⟩

theorem pairwise_issuesMet (lines : List String) :
    ((s.issuesMet o lines).map Issue.line).Pairwise (· < ·) := by
  induction lines generalizing s with
  | nil => exact .nil
  | cons line rest ih =>
      rw [issuesMet]
      cases here : s.issue? o (o.glyphs.read line) with
      | none => exact ih
      | some issue =>
          refine List.pairwise_cons.2 ⟨?_, ih⟩
          simp only [List.mem_map, forall_exists_index, and_imp, forall_apply_eq_imp_iff₂]
          intro later mem
          have behind := (mem_issuesMet mem).1
          rwa [lines_push, ← (of_issue? here).1] at behind

/-! ### Between the sections -/

/-- No line of a section is met between sections. -/
theorem issuesMet_inside (awake : s.skipDepth = 0) (lines : List String)
    (stays : o.glyphs.StaysOpen s.spans.length lines) : s.issuesMet o lines = [] := by
  induction lines generalizing s with
  | nil => rfl
  | cons line rest ih =>
      obtain ⟨inside, later⟩ := stays
      obtain ⟨still, depth⟩ := depth_push_inside awake inside line
      have busy : ¬s.Idle := fun idle => List.ne_nil_of_length_pos inside idle.1
      rw [issuesMet, issue?_of_not_idle busy]
      exact ih still (by rwa [depth])

/-- No line of a skipped section is met between sections. -/
theorem issuesMet_skipped (lines : List String) (stays : o.glyphs.StaysOpen s.skipDepth lines) :
    s.issuesMet o lines = [] := by
  induction lines generalizing s with
  | nil => rfl
  | cons line rest ih =>
      obtain ⟨skipping, later⟩ := stays
      have depth : (s.push o line).1.skipDepth = (o.glyphs.read line).depthAfter s.skipDepth :=
        (skipped_after [line] ⟨skipping, trivial⟩).2
      have busy : ¬s.Idle := fun idle => Nat.ne_of_gt skipping idle.2
      rw [issuesMet, issue?_of_not_idle busy]
      exact ih (by rwa [depth])

theorem issuesMet_section (idle : s.Idle) {first : String} {inside : List String}
    (opens : o.glyphs.read first = .opened o.topLevelLabel) (stays : o.glyphs.StaysOpen 1 inside) :
    s.issuesMet o (first :: inside) = [] := by
  obtain ⟨spans, awake, -⟩ := idle_opens idle opens
  have one : (s.push o first).1.spans.length = 1 := congrArg List.length spans
  rw [issuesMet, issue?_of_idle idle, opens, Marker.anomaly?, if_pos rfl,
    issuesMet_inside awake inside (by rwa [one])]
  rfl

theorem issuesMet_skippedSection (idle : s.Idle) (strict : o.strictSections = true)
    {first label : String} {inside : List String} (opens : o.glyphs.read first = .opened label)
    (other : label ≠ o.topLevelLabel) (stays : o.glyphs.StaysOpen 1 inside) :
    s.issuesMet o (first :: inside) =
      Segment.met o (s.stats.lines + 1) (.skipped first inside) := by
  have one := (idle_skips idle strict opens other).2
  rw [issuesMet, issue?_of_idle idle, issuesMet_skipped inside (by rwa [one]), List.append_nil]
  rfl

/-- What a pass meets with nothing open and nothing being skipped stands between the sections. -/
theorem issuesMet_eq {lines : List String} {segs : List Segment} (h : Segmented o lines segs)
    (idle : s.Idle) :
    s.issuesMet o lines = Segment.numbered (Segment.met o) (s.stats.lines + 1) segs := by
  induction h generalizing s with
  | nil => rfl
  | @outside line after segs dropped rest ih =>
      rw [issuesMet, issue?_of_idle idle, ih (idle_outside idle dropped).1, lines_push]
      rfl
  | @complete first inside after segs opens stays balanced rest ih =>
      obtain ⟨-, awake, depth⟩ := section_run idle opens stays
      rw [balanced] at depth
      have ended : (s.after o (first :: inside)).Idle :=
        ⟨List.eq_nil_of_length_eq_zero depth, awake⟩
      rw [← List.cons_append, issuesMet_append, issuesMet_section idle opens stays, ih ended,
        lines_after, Nat.add_right_comm]
      rfl
  | unfinished opens stays unbalanced => exact issuesMet_section idle opens stays
  | @skipped first label inside after segs strict opens other stays balanced rest ih =>
      obtain ⟨skips, depth⟩ := skipped_section idle strict opens other stays
      rw [balanced] at depth
      rw [← List.cons_append, issuesMet_append,
        issuesMet_skippedSection idle strict opens other stays,
        ih ⟨skips.spans.trans idle.1, depth⟩, lines_after, Nat.add_right_comm]
      rfl
  | skippedToEnd strict opens other stays unbalanced =>
      rw [issuesMet_skippedSection idle strict opens other stays, Segment.numbered,
        Segment.numbered, List.append_nil]

theorem recorded_skipped {lines : List String} {segs : List Segment} (h : Segmented o lines segs)
    (strict : o.strictSections = true) (number : Nat) :
    recorded "open.skipped" (Segment.numbered (Segment.met o) number segs) =
      segs.countP Segment.isSkipped := by
  induction h generalizing number with
  | nil => rfl
  | @outside line after segs dropped rest ih =>
      rw [Segment.numbered, recorded_append, ih,
        List.countP_cons_of_neg (by simp [Segment.isSkipped])]
      have closes : recorded "open.skipped" (Segment.met o number (.outside line)) = 0 := by
        rw [Segment.met]
        cases said : o.glyphs.read line with
        | opened label => exact absurd strict (Bool.eq_false_iff.1 (dropped label said).2)
        | closed cycles => rfl
        | ignored => rfl
      rw [closes, Nat.zero_add]
  | complete opens stays balanced rest ih =>
      rw [Segment.numbered, recorded_append, ih,
        List.countP_cons_of_neg (by simp [Segment.isSkipped])]
      exact Nat.zero_add _
  | unfinished opens stays unbalanced => rfl
  | @skipped first label inside after segs _ opens other stays balanced rest ih =>
      rw [Segment.numbered, recorded_append, ih, List.countP_cons_of_pos rfl, Segment.met, opens,
        Marker.anomaly?, if_neg other]
      exact Nat.add_comm 1 _
  | skippedToEnd _ opens other stays unbalanced =>
      rw [Segment.numbered, recorded_append, Segment.met, opens, Marker.anomaly?, if_neg other]
      rfl

end Run

/-! ### A finished pass -/

theorem recorded_issuesMet (o : ScanOptions) (lines : List String) :
    recorded "open.unclosed" (issuesMet o {} lines) = 0 := by
  simp only [recorded, List.countP_eq_zero, decide_eq_true_eq]
  exact fun _ mem => (mem_issuesMet mem).2

theorem recorded_unclosed (code : String) (spans : List OpenSpan) :
    recorded code (spans.map OpenSpan.unclosed) =
      if code = "open.unclosed" then spans.length else 0 := by
  induction spans with
  | nil => simp [recorded]
  | cons span outer ih =>
      rw [List.map_cons, recorded, List.countP_cons, ← recorded, ih]
      by_cases same : code = "open.unclosed"
      · simp [same, OpenSpan.unclosed, Anomaly.code]
      · simp [same, OpenSpan.unclosed, Anomaly.code, Ne.symm same]

/-- The issues of a finished pass are the anomalies of the trace, as many as are kept: first those
that are met between sections, then the spans of an unfinished section that no close marker
balances, the outermost first. The statistics count all of them. -/
theorem issues_finish_after (o : ScanOptions) (lines : List String) :
    let s := (after o {} lines).finish
    let met := issuesMet o {} lines
    let unclosed := unclosedIssues o lines
    let all := met ++ unclosed
    s.issues = all.take maxIssues ∧ met = metIssues o lines ∧
      (met.map Issue.line).Pairwise (· < ·) ∧ (unclosed.map Issue.line).Pairwise (· < ·) ∧
      s.stats.unclosedAtEnd = recorded "open.unclosed" all ∧
      s.stats.unmatchedCloses = recorded "close.unmatched" all ∧
      (o.strictSections = false → s.stats.skippedOpens = recorded "open.skipped" all) ∧
      (o.strictSections = true →
        (segments o lines).countP Segment.isSkipped = recorded "open.skipped" all) := by
  intro s met unclosed all
  have split := segmented o lines
  have between : met = metIssues o lines := issuesMet_eq split ⟨rfl, rfl⟩
  have spans : unclosed = (after o {} lines).spans.reverse.map OpenSpan.unclosed :=
    (unclosed_eq (s := {}) split ⟨rfl, rfl⟩).symm
  obtain ⟨issues, unmatched, skipped⟩ := noted_after (o := o) (s := {}) (Nat.zero_le _) lines
  have none_unclosed := recorded_issuesMet o lines
  have counts (code : String) : recorded code all = recorded code met +
      if code = "open.unclosed" then (after o {} lines).spans.length else 0 := by
    rw [recorded_append, spans, recorded_unclosed, List.length_reverse]
  refine ⟨?_, between, pairwise_issuesMet lines, ?_, ?_, ?_, fun loose => ?_, fun strict => ?_⟩
  · rw [issues_finish (length_issues_after_le o lines), issues, ← spans]
    exact take_take_append maxIssues met unclosed
  · rw [spans]
    exact pairwise_unclosed o lines
  · rw [counts, none_unclosed, stats_finish]
    simp
  · rw [counts, stats_finish, unmatched]
    simp [met]
  · rw [counts, stats_finish, (skipped loose rfl).2]
    simp [met]
  · rw [counts, between, metIssues, recorded_skipped split strict]
    simp

/-- A skipped section with an open marker inside, an unmatched and a malformed close marker, and a
section that ends in the middle of a call. Where sections are not strict, the open marker inside
and one more close marker are met between sections. -/
theorem issues_finish_after_unfinished :
    let o : ScanOptions := { topLevelLabel := "A" }
    let strict : ScanOptions := { o with strictSections := true }
    let lines := ["┌╴B", "┌╴C", "└╴1", "└╴x", "└╴2", "└╴3", "┌╴A", "┌╴D", "└╴4", "┌╴A", "┌╴E"]
    let all := [⟨1, .openSkipped "B" "A"⟩, ⟨6, .closeUnmatched⟩, ⟨7, .openUnclosed "A"⟩,
      ⟨10, .openUnclosed "A"⟩, ⟨11, .openUnclosed "E"⟩]
    issuesMet strict {} lines ++ unclosedIssues strict lines = all ∧
      (after strict {} lines).finish.issues = all ∧
      (segments strict lines).countP Segment.isSkipped = 1 ∧
      (after o {} lines).finish.stats.skippedOpens = 2 := by
  intro o strict lines all
  have anomalies : issuesMet strict {} lines ++ unclosedIssues strict lines = all := by
    decide +kernel
  obtain ⟨issues, -, -, -, -, -, -, sections⟩ := issues_finish_after strict lines
  obtain ⟨-, -, -, -, -, -, loose, -⟩ := issues_finish_after o lines
  have dropped : recorded "open.skipped" (issuesMet o {} lines ++ unclosedIssues o lines) = 2 := by
    decide +kernel
  rw [anomalies] at issues sections
  exact ⟨anomalies, issues, sections rfl, (loose rfl).trans dropped⟩

end Scan
end CallCost
