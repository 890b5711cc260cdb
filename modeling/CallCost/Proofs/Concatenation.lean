import CallCost.Proofs.Sections
import CallCost.Proofs.Siblings

/-!
A trace that is two traces one after the other. Where the first leaves nothing open, the pass over
the second starts afresh: it is the pass over the second alone, put on top of what the first has
left, with its line numbers counted on.
-/

namespace CallCost

/-- Statistics of two parts of a trace. -/
instance : Add Stats where
  add a b :=
    { lines := a.lines + b.lines
      opens := a.opens + b.opens
      closes := a.closes + b.closes
      unmatchedCloses := a.unmatchedCloses + b.unmatchedCloses
      skippedOpens := a.skippedOpens + b.skippedOpens
      unclosedAtEnd := a.unclosedAtEnd + b.unclosedAtEnd }

/-- The issue in a trace with more lines in front. -/
def Issue.later (lines : Nat) (issue : Issue) : Issue :=
  { issue with line := lines + issue.line }

def OpenSpan.later (lines : Nat) (span : OpenSpan) : OpenSpan :=
  { span with line := lines + span.line }

namespace Scan

/-- A pass that started afresh, as it is if it started after the lines of another pass. -/
def onto (base s : Scan) : Scan where
  stats := base.stats + s.stats
  spans := s.spans.map (OpenSpan.later base.stats.lines)
  skipDepth := s.skipDepth
  sections := s.sections ++ base.sections
  issues := (base.issues ++ s.issues.map (Issue.later base.stats.lines)).take maxIssues

theorem length_issues_onto_le (base s : Scan) : (base.onto s).issues.length ≤ maxIssues :=
  List.length_take_le _ _

/-- Cutting the later part beforehand makes no difference. -/
theorem take_append_take {α : Type} (n : Nat) (xs ys : List α) :
    (xs ++ ys.take n).take n = (xs ++ ys).take n := by
  have left : min (n - xs.length) n = n - xs.length := by omega
  rw [List.take_append, List.take_append, List.take_take, left]

/-- The issues that come after those of a pass, noted before or after it is put on another. -/
theorem issues_onto_append (base s : Scan) (new : List Issue) :
    ((base.onto s).issues ++ new.map (Issue.later base.stats.lines)).take maxIssues =
      (base.issues ++
        ((s.issues ++ new).take maxIssues).map (Issue.later base.stats.lines)).take maxIssues := by
  rw [onto, take_take_append, List.append_assoc, ← List.map_append, List.map_take,
    take_append_take]

theorem onto_note (base : Scan) {s : Scan} (few : s.issues.length ≤ maxIssues) (line : Nat)
    (anomaly : Anomaly) :
    base.onto (s.note line anomaly) = (base.onto s).note (base.stats.lines + line) anomaly := by
  have issues := issues_onto_append base s [⟨line, anomaly⟩]
  rw [← issues_note few] at issues
  rw [note_eq s, note_eq (base.onto s), issues_note (length_issues_onto_le base s)]
  unfold onto
  congr 1
  exact issues.symm

theorem Step.onto {o : ScanOptions} {s t : Scan} {marker : Marker} (step : Step o s marker t)
    (few : s.issues.length ≤ maxIssues) (base : Scan) :
    Step o (base.onto s) marker (base.onto t) := by
  cases step with
  | ignored => exact .ignored
  | openDeeper label skipping => exact .openDeeper label skipping
  | openSkipped label awake outside other =>
      rw [onto_note]
      · exact .openSkipped label awake (List.map_eq_nil_iff.2 outside) other
      · exact few
  | openSpan label awake wanted =>
      exact .openSpan label awake fun outside => wanted (List.map_eq_nil_iff.1 outside)
  | closeDeeper cycles skipping => exact .closeDeeper cycles skipping
  | closeUnmatched cycles awake outside =>
      rw [onto_note]
      · exact .closeUnmatched cycles awake (List.map_eq_nil_iff.2 outside)
      · exact few
  | closeSection cycles span awake inside =>
      exact .closeSection cycles (span.later base.stats.lines) awake (congrArg _ inside)
  | closeInner cycles span parent outer awake inside =>
      exact .closeInner cycles (span.later base.stats.lines) (parent.later base.stats.lines)
        (outer.map (OpenSpan.later base.stats.lines)) awake (congrArg _ inside)

theorem after_onto (o : ScanOptions) (base : Scan) {s : Scan}
    (few : s.issues.length ≤ maxIssues) (lines : List String) :
    (base.onto s).after o lines = base.onto (s.after o lines) := by
  induction lines generalizing s with
  | nil => rfl
  | cons line rest ih =>
      have step := step_push o s line
      rw [after_cons, after_cons, (step.onto few base).push_eq]
      exact ih (step.length_issues_le few)

theorem finish_onto {base s : Scan} (started : base.stats.unclosedAtEnd = 0)
    (few : s.issues.length ≤ maxIssues) : (base.onto s).finish = base.onto s.finish := by
  have same : (base.onto s).spans.reverse.map OpenSpan.unclosed =
      (s.spans.reverse.map OpenSpan.unclosed).map (Issue.later base.stats.lines) := by
    simp only [onto, List.map_reverse, List.map_map]
    rfl
  have issues : (base.onto s).finish.issues = (base.onto s.finish).issues := by
    rw [issues_finish (length_issues_onto_le base s), same, issues_onto_append,
      ← issues_finish few]
    rfl
  have unclosed : (base.onto s).spans.length = base.stats.unclosedAtEnd + s.spans.length := by
    rw [started, Nat.zero_add]
    exact List.length_map _
  rw [finish_eq (base.onto s), issues, unclosed, finish_eq s]
  rfl

/-- A pass with nothing open goes on like a fresh one. -/
theorem Idle.eq_onto {s : Scan} (idle : s.Idle) (few : s.issues.length ≤ maxIssues) :
    s = s.onto {} := by
  obtain ⟨stats, spans, skipDepth, sections, issues⟩ := s
  obtain ⟨rfl, rfl⟩ := idle
  simp only [onto, List.map_nil, List.append_nil, List.nil_append, List.take_of_length_le few]
  rfl

theorem Idle.finish_eq {s : Scan} (idle : s.Idle) (few : s.issues.length ≤ maxIssues)
    (started : s.stats.unclosedAtEnd = 0) : s.finish = s := by
  have again := finish_onto started (s := {}) (Nat.zero_le _)
  change (s.onto {}).finish = s.onto {} at again
  rwa [← idle.eq_onto few] at again

theorem profile_onto (base s : Scan) :
    (base.onto s).profile = {
      roots := base.roots ++ s.roots
      stats := base.stats + s.stats
      issues := (base.issues ++ s.issues.map (Issue.later base.stats.lines)).take maxIssues } := by
  have roots : (base.onto s).roots = base.roots ++ s.roots := by
    rw [Scan.roots, onto, List.reverse_append, Forest.ofNodes_append]
    rfl
  rw [profile, roots]
  rfl

end Scan

/-- The parts of a trace are parsed independently if nothing is open or skipped in between. -/
theorem ofLines_append (o : ScanOptions) (xs ys : List String)
    (sound : ∀ line ∈ xs ++ ys, ¬o.glyphs.Malformed line) (apart : (Scan.after o {} xs).Idle) :
    ∃ p q, Profile.ofLines o xs = .ok p ∧ Profile.ofLines o ys = .ok q ∧
      Profile.ofLines o (xs ++ ys) = .ok {
        roots := p.roots ++ q.roots
        stats := p.stats + q.stats
        issues := (p.issues ++ q.issues.map (Issue.later xs.length)).take Scan.maxIssues } := by
  have left := Profile.ofLines_eq o xs fun line h => sound line (List.mem_append_left _ h)
  have right := Profile.ofLines_eq o ys fun line h => sound line (List.mem_append_right _ h)
  refine ⟨_, _, left, right, ?_⟩
  have few := Scan.length_issues_after_le o
  have started : (Scan.after o {} xs).stats.unclosedAtEnd = 0 :=
    Scan.after_induction (motive := fun s => s.stats.unclosedAtEnd = 0)
      (fun _ _ _ h step => step.unclosedAtEnd.trans h) rfl xs
  have lines : xs.length = (Scan.after o {} xs).stats.lines := by
    rw [Scan.lines_after, Nat.zero_add]
  have both : Scan.after o {} (xs ++ ys) = (Scan.after o {} xs).onto (Scan.after o {} ys) := by
    rw [Scan.after_append, ← Scan.after_onto o _ (s := {}) (Nat.zero_le _),
      ← apart.eq_onto (few xs)]
  rw [Profile.ofLines_eq o _ sound, both, Scan.finish_onto started (few ys),
    apart.finish_eq (few xs) started, Scan.profile_onto, lines]
  rfl

theorem ofLines_append_capped_issues :
    let o : ScanOptions := { topLevelLabel := "A", strictSections := true }
    let xs := ["┌╴A", "│ ┌╴B", "│ └╴3", "└╴5", "┌╴C", "└╴1"] ++ List.replicate 60 "└╴2"
    let ys := List.replicate 60 "└╴7" ++ ["┌╴A", "└╴1", "┌╴A", "┌╴D"]
    (∀ line ∈ xs ++ ys, ¬o.glyphs.Malformed line) ∧ (Scan.after o {} xs).Idle ∧
      ∃ p q, Profile.ofLines o xs = .ok p ∧ Profile.ofLines o ys = .ok q ∧
        Profile.ofLines o (xs ++ ys) = .ok {
          roots := p.roots ++ q.roots
          stats := p.stats + q.stats
          issues := (p.issues ++ q.issues.map (Issue.later xs.length)).take Scan.maxIssues } := by
  intro o xs ys
  have sound : ∀ line ∈ xs ++ ys, ¬o.glyphs.Malformed line := by decide +kernel
  have apart : (Scan.after o {} xs).Idle := by
    constructor <;> decide +kernel
  exact ⟨sound, apart, ofLines_append o xs ys sound apart⟩

end CallCost
