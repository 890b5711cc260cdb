import CallCost.Proofs.ScanInvariant

/-!
The spans that are open at the end of a trace, said of the lines alone: they are the open markers
of the unfinished section that no close marker in the rest of the trace balances. A pass keeps them
with the innermost in front, so what the lines to come leave open of them is said with the depth
of each.
-/

namespace CallCost

namespace Glyphs

variable (glyphs : Glyphs)

/-- The issue of an open marker that no close marker in the lines behind it balances. -/
def unclosed? (number : Nat) (rest : List String) : Marker → Option Issue
  | .opened label =>
      if glyphs.balance 1 rest = none then some ⟨number, .openUnclosed label⟩ else none
  | .closed _ | .ignored => none

/-- The issues of such open markers, where the first line has the given number. -/
def unclosedFrom : Nat → List String → List Issue
  | _, [] => []
  | number, line :: rest =>
      (glyphs.unclosed? number rest (glyphs.read line)).toList ++ unclosedFrom (number + 1) rest

/-- Of what is open in front of some lines, innermost first, what is still open behind them. The
innermost has the given depth. -/
def stillOpen (lines : List String) : Nat → List Issue → List Issue
  | _, [] => []
  | depth, issue :: outer =>
      if glyphs.balance depth lines = none then issue :: stillOpen lines (depth + 1) outer
      else stillOpen lines (depth + 1) outer

variable {glyphs}

theorem stillOpen_nil (depth : Nat) (opened : List Issue) :
    glyphs.stillOpen [] (depth + 1) opened = opened := by
  induction opened generalizing depth with
  | nil => rfl
  | cons issue outer ih =>
      rw [stillOpen, if_pos (by rw [balance]), ih]

theorem stillOpen_zero (lines : List String) (issue : Issue) (outer : List Issue) :
    glyphs.stillOpen lines 0 (issue :: outer) = glyphs.stillOpen lines 1 outer := by
  rw [stillOpen, if_neg (by rw [balance]; simp)]

theorem stillOpen_cons (line : String) (rest : List String) (depth : Nat) (opened : List Issue) :
    glyphs.stillOpen (line :: rest) (depth + 1) opened =
      glyphs.stillOpen rest ((glyphs.read line).depthAfter (depth + 1)) opened := by
  induction opened generalizing depth with
  | nil => rfl
  | cons issue outer ih =>
      have deeper : (glyphs.read line).depthAfter (depth + 1 + 1) =
          (glyphs.read line).depthAfter (depth + 1) + 1 := by
        cases glyphs.read line <;> rfl
      simp only [stillOpen, balance, Option.map_eq_none_iff, ih, deeper]

end Glyphs

namespace Segment

def unclosed (o : ScanOptions) (number : Nat) : Segment → List Issue
  | unfinished first inside => o.glyphs.unclosedFrom number (first :: inside)
  | _ => []

/-- The issues of segments one after the other, each with the number of its first line. -/
def numbered (issues : Nat → Segment → List Issue) : Nat → List Segment → List Issue
  | _, [] => []
  | number, segment :: rest =>
      issues number segment ++ numbered issues (number + segment.lines.length) rest

end Segment

/-- The issues of the open markers without a balancing close marker in the section that is
unfinished at the end of a trace. -/
def unclosedIssues (o : ScanOptions) (lines : List String) : List Issue :=
  Segment.numbered (Segment.unclosed o) 1 (segments o lines)

namespace Scan

variable {o : ScanOptions} {s : Scan}

/-- Inside a section the number of open spans is the depth. -/
theorem depth_push_inside (awake : s.skipDepth = 0) (inside : 0 < s.spans.length) (line : String) :
    (s.push o line).1.skipDepth = 0 ∧
      (s.push o line).1.spans.length = (o.glyphs.read line).depthAfter s.spans.length :=
  (inside_induction (motive := fun _ _ => True) (fun _ _ _ _ _ _ _ _ _ => trivial) [] trivial
    awake [line] ⟨inside, trivial⟩).2

theorem Step.stillOpen {t : Scan} {marker : Marker} (step : Step o s marker t)
    (awake : s.skipDepth = 0) (inside : s.spans ≠ []) (rest : List String) :
    o.glyphs.stillOpen rest 1 (t.spans.map OpenSpan.unclosed) =
      (o.glyphs.unclosed? (s.stats.lines + 1) rest marker).toList ++
        o.glyphs.stillOpen rest (marker.depthAfter 1) (s.spans.map OpenSpan.unclosed) := by
  cases step with
  | ignored => rfl
  | openDeeper _ skipping | closeDeeper _ skipping => exact absurd awake (Nat.ne_of_gt skipping)
  | openSkipped _ _ outside | closeUnmatched _ _ outside => exact absurd outside inside
  | openSpan label =>
      simp only [List.map_cons, Glyphs.stillOpen, Glyphs.unclosed?]
      split <;> rfl
  | closeSection cycles span _ single =>
      rw [single]
      exact (Glyphs.stillOpen_zero rest _ _).symm
  | closeInner cycles span parent outer _ nested =>
      rw [nested]
      exact (Glyphs.stillOpen_zero rest _ _).symm

/-- The spans that are open behind some lines of a section, innermost first: those that the lines
open and do not close, and in front of them those that were open and are not closed. -/
theorem unclosed_after (awake : s.skipDepth = 0) (lines : List String)
    (stays : o.glyphs.StaysOpen s.spans.length lines) :
    (s.after o lines).spans.map OpenSpan.unclosed =
      (o.glyphs.unclosedFrom (s.stats.lines + 1) lines).reverse ++
        o.glyphs.stillOpen lines 1 (s.spans.map OpenSpan.unclosed) := by
  induction lines generalizing s with
  | nil => exact (Glyphs.stillOpen_nil 0 _).symm
  | cons line rest ih =>
      obtain ⟨inside, later⟩ := stays
      obtain ⟨still, depth⟩ := depth_push_inside awake inside line
      have step := (step_push o s line).stillOpen awake (List.ne_nil_of_length_pos inside) rest
      have one (issue : Option Issue) : issue.toList.reverse = issue.toList := by
        cases issue <;> rfl
      rw [after_cons, ih still (by rwa [depth]), step, lines_push, Glyphs.stillOpen_cons,
        Glyphs.unclosedFrom, List.reverse_append, one, List.append_assoc]

theorem unclosed_section (idle : s.Idle) {first : String} {inside : List String}
    (opens : o.glyphs.read first = .opened o.topLevelLabel) (stays : o.glyphs.StaysOpen 1 inside) :
    (s.after o (first :: inside)).spans.reverse.map OpenSpan.unclosed =
      o.glyphs.unclosedFrom (s.stats.lines + 1) (first :: inside) := by
  obtain ⟨spans, awake, -⟩ := idle_opens idle opens
  have run := unclosed_after awake inside (by rwa [spans])
  rw [spans, lines_push] at run
  rw [after_cons, List.map_reverse, run, Glyphs.unclosedFrom, opens, Glyphs.unclosed?]
  simp only [List.map_cons, List.map_nil, Glyphs.stillOpen]
  split <;> simp [OpenSpan.unclosed, Node.opened]

/-- The spans that are open at the end of a trace are those of its unfinished section that no
close marker balances. -/
theorem unclosed_eq {lines : List String} {segs : List Segment} (h : Segmented o lines segs)
    (idle : s.Idle) : (s.after o lines).spans.reverse.map OpenSpan.unclosed =
      Segment.numbered (Segment.unclosed o) (s.stats.lines + 1) segs := by
  induction h generalizing s with
  | nil =>
      rw [after, List.foldl_nil, idle.1]
      rfl
  | @outside line after segs dropped rest ih =>
      rw [after_cons, ih (idle_outside idle dropped).1, lines_push]
      rfl
  | @complete first inside after segs opens stays balanced rest ih =>
      obtain ⟨-, awake, depth⟩ := section_run idle opens stays
      rw [balanced] at depth
      have ended : (s.after o (first :: inside)).Idle :=
        ⟨List.eq_nil_of_length_eq_zero depth, awake⟩
      rw [← List.cons_append, after_append, ih ended, lines_after, Nat.add_right_comm]
      rfl
  | unfinished opens stays unbalanced =>
      rw [unclosed_section idle opens stays]
      exact (List.append_nil _).symm
  | @skipped first label inside after segs strict opens other stays balanced rest ih =>
      obtain ⟨skips, depth⟩ := skipped_section idle strict opens other stays
      rw [balanced] at depth
      rw [← List.cons_append, after_append, ih ⟨skips.spans.trans idle.1, depth⟩, lines_after,
        Nat.add_right_comm]
      rfl
  | skippedToEnd strict opens other stays unbalanced =>
      have skips := (skipped_section idle strict opens other stays).1
      rw [skips.spans, idle.1]
      rfl

theorem pairwise_unclosed (o : ScanOptions) (lines : List String) :
    (((after o {} lines).spans.reverse.map OpenSpan.unclosed).map Issue.line).Pairwise (· < ·) := by
  have ordered : Ordered (after o {} lines) :=
    after_induction (fun _ _ _ h step => h.step step) (kept_start o).ordered lines
  rw [List.map_map, List.map_reverse, List.pairwise_reverse]
  exact ordered.order

end Scan
end CallCost
