import CallCost.Proofs.MalformedLines

/-!
Lines that say nothing. A pass that goes on after a malformed close marker counts that line, as it
counts a line without a glyph, and takes nothing from it. So lines of both kinds can be put in
anywhere: the pass is the same but for the numbers of the lines that it names.
-/

namespace CallCost

/-- There is no glyph on the line, or a close marker without a count. -/
def Glyphs.Silent (glyphs : Glyphs) (line : String) : Prop :=
  ¬glyphs.opening.toList <:+: line.toList ∧ ¬glyphs.closing.toList <:+: line.toList ∨
    ∃ payload, glyphs.Refuses line payload

theorem Marker.ofLine_eq_ignored_iff {glyphs : Glyphs} {line : String} :
    ofLine glyphs line = .ok .ignored ↔
      ¬glyphs.opening.toList <:+: line.toList ∧ ¬glyphs.closing.toList <:+: line.toList := by
  rw [← Text.after?_eq_none_iff, ← Text.after?_eq_none_iff, ofLine]
  cases Text.after? glyphs.opening.toList line.toList with
  | some label => simp
  | none =>
      cases Text.after? glyphs.closing.toList line.toList with
      | some payload =>
          cases parsed : CycleCount.parse payload <;> simp [parsed, Except.map]
      | none => simp

theorem Glyphs.silent_iff {glyphs : Glyphs} {line : String} :
    glyphs.Silent line ↔ glyphs.read line = .ignored := by
  rw [Silent, ← malformed_iff, ← Marker.ofLine_eq_ignored_iff, Malformed, Glyphs.read]
  cases Marker.ofLine glyphs line with
  | error cause => simp
  | ok marker => simp

instance (glyphs : Glyphs) (line : String) : Decidable (glyphs.Silent line) :=
  decidable_of_iff _ glyphs.silent_iff.symm

/-- A line of a trace, and whether it was put in later. -/
structure TraceLine where
  text : String
  added : Bool
  deriving DecidableEq

/-- The lines that were there before any were put in. -/
def keptLines (lines : List TraceLine) : List TraceLine :=
  lines.filter fun l => !l.added

/-- The number of a line among all lines, by its number before any were put in. -/
def newNumber : List TraceLine → Nat → Nat
  | _, 0 => 0
  | [], n + 1 => n + 1
  | l :: rest, n + 1 => if l.added then newNumber rest (n + 1) + 1 else newNumber rest n + 1

theorem newNumber_zero (lines : List TraceLine) : newNumber lines 0 = 0 := by
  cases lines <;> rfl

/-- A kept line keeps its place: the lines in front of it are those counted before and those put
in between them. -/
theorem newNumber_eq {line : TraceLine} (kept : line.added = false)
    (before after : List TraceLine) :
    newNumber (before ++ line :: after) ((keptLines before).length + 1) = before.length + 1 := by
  induction before with
  | nil => simp [keptLines, newNumber, newNumber_zero, kept]
  | cons first before ih =>
      cases added : first.added <;> simpa [keptLines, newNumber, added] using ih

def OpenSpan.renumbered (number : Nat → Nat) (span : OpenSpan) : OpenSpan :=
  { span with line := number span.line }

def Issue.renumbered (number : Nat → Nat) (issue : Issue) : Issue :=
  { issue with line := number issue.line }

namespace Scan

/-- The same pass with other line numbers and with more lines counted. -/
def renumbered (number : Nat → Nat) (more : Nat) (s : Scan) : Scan :=
  { s with
    stats.lines := more + s.stats.lines
    spans := s.spans.map (OpenSpan.renumbered number)
    issues := s.issues.map (Issue.renumbered number) }

section Renumbering

variable (number : Nat → Nat) (more : Nat)

theorem renumbered_note (s : Scan) (line : Nat) (anomaly : Anomaly) :
    (s.note line anomaly).renumbered number more =
      (s.renumbered number more).note (number line) anomaly := by
  have length : (s.renumbered number more).issues.length = s.issues.length := List.length_map _
  rw [note, note, length]
  split
  · simp [renumbered, Issue.renumbered]
  · rfl

theorem renumbered_unclosed (spans : List OpenSpan) (s : Scan) :
    (spans.map (OpenSpan.renumbered number)).foldl
        (fun s span => s.note span.line (.openUnclosed span.node.label))
        (s.renumbered number more) =
      (spans.foldl (fun s span => s.note span.line (.openUnclosed span.node.label)) s).renumbered
        number more := by
  induction spans generalizing s with
  | nil => rfl
  | cons span rest ih =>
      rw [List.map_cons, List.foldl_cons, List.foldl_cons, ← ih, renumbered_note]
      rfl

theorem renumbered_finish (s : Scan) :
    (s.renumbered number more).finish = s.finish.renumbered number more := by
  have ended := renumbered_unclosed number more s.spans.reverse
    { s with stats.unclosedAtEnd := s.spans.length }
  have start : ({ s with stats.unclosedAtEnd := s.spans.length } : Scan).renumbered number more =
      { s.renumbered number more with
        stats.unclosedAtEnd := (s.renumbered number more).spans.length } := by
    simp [renumbered]
  rw [start, List.map_reverse] at ended
  rw [finish, finish]
  exact congrArg (fun t : Scan => { t with spans := [] }) ended

theorem Step.renumbered {o : ScanOptions} {s t : Scan} {marker : Marker} {number : Nat → Nat}
    {more : Nat} (step : Step o s marker t)
    (here : number (s.stats.lines + 1) = more + s.stats.lines + 1) :
    Step o (s.renumbered number more) marker (t.renumbered number more) := by
  cases step with
  | ignored => exact .ignored
  | openDeeper label skipping => exact .openDeeper label skipping
  | openSkipped label awake outside other =>
      rw [renumbered_note, here]
      exact .openSkipped label awake (List.map_eq_nil_iff.2 outside) other
  | openSpan label awake wanted =>
      change Step o _ _ { s.renumbered number more with
        stats.lines := more + s.stats.lines + 1
        stats.opens := s.stats.opens + 1
        spans := ⟨.opened label, number (s.stats.lines + 1)⟩ :: (s.renumbered number more).spans }
      rw [here]
      exact .openSpan label awake fun outside => wanted (List.map_eq_nil_iff.1 outside)
  | closeDeeper cycles skipping => exact .closeDeeper cycles skipping
  | closeUnmatched cycles awake outside =>
      rw [renumbered_note, here]
      exact .closeUnmatched cycles awake (List.map_eq_nil_iff.2 outside)
  | closeSection cycles span awake inside =>
      exact .closeSection cycles (span.renumbered number) awake (congrArg _ inside)
  | closeInner cycles span parent outer awake inside =>
      exact .closeInner cycles (span.renumbered number) (parent.renumbered number)
        (outer.map (OpenSpan.renumbered number)) awake (congrArg _ inside)

end Renumbering

theorem push_silent {o : ScanOptions} {s : Scan} {line : String} (h : o.glyphs.Silent line) :
    (s.push o line).1 = { s with stats.lines := s.stats.lines + 1 } := by
  have step := step_push o s line
  rw [Glyphs.silent_iff.1 h] at step
  exact step.deterministic .ignored

/-- A pass over lines some of which were put in follows the pass over the others. Its lines are
renumbered by what is put in among the lines still to come. -/
theorem after_renumbered (o : ScanOptions) (number : Nat → Nat) (lines : List TraceLine)
    (silent : ∀ l ∈ lines, l.added = true → o.glyphs.Silent l.text) (more : Nat) (s : Scan)
    (numbered : ∀ n, number (s.stats.lines + (n + 1)) =
      more + s.stats.lines + newNumber lines (n + 1)) :
    (s.renumbered number more).after o (lines.map TraceLine.text) =
      (s.after o ((keptLines lines).map TraceLine.text)).renumbered number
        (more + lines.countP TraceLine.added) := by
  induction lines generalizing more s with
  | nil => rfl
  | cons line rest ih =>
      obtain ⟨first, later⟩ := List.forall_mem_cons.1 silent
      rw [List.map_cons, after_cons]
      cases added : line.added with
      | true =>
          have counted : ((s.renumbered number more).push o line.text).1 =
              s.renumbered number (more + 1) := by
            rw [push_silent (first added)]
            simp only [renumbered, Nat.add_right_comm]
          have still (n : Nat) : number (s.stats.lines + (n + 1)) =
              more + 1 + s.stats.lines + newNumber rest (n + 1) := by
            rw [numbered, newNumber, if_pos added]
            omega
          have count : more + (line :: rest).countP TraceLine.added =
              more + 1 + rest.countP TraceLine.added := by
            rw [List.countP_cons_of_pos added]
            omega
          have kept : keptLines (line :: rest) = keptLines rest := by simp [keptLines, added]
          rw [counted, ih later (more + 1) s still, kept, count]
      | false =>
          have here : number (s.stats.lines + 1) = more + s.stats.lines + 1 := by
            rw [numbered 0, newNumber, newNumber_zero]
            simp [added]
          have step := step_push o s line.text
          have next (n : Nat) : number ((s.push o line.text).1.stats.lines + (n + 1)) =
              more + (s.push o line.text).1.stats.lines + newNumber rest (n + 1) := by
            have moved := numbered (n + 1)
            rw [newNumber, added] at moved
            rw [lines_push, Nat.add_right_comm, Nat.add_assoc _ (n + 1), moved]
            simp only [Bool.false_eq_true, if_false]
            omega
          have kept : keptLines (line :: rest) = line :: keptLines rest := by
            simp [keptLines, added]
          have count : (line :: rest).countP TraceLine.added = rest.countP TraceLine.added :=
            List.countP_cons_of_neg (by simp [added])
          rw [(step.renumbered here).push_eq, ih later more _ next, kept, count]
          rfl

/-- Silent lines that are put in leave no trace: the pass over all lines is the pass over the
others, with the added lines counted and with each line named by its new number. -/
theorem after_silent_lines (o : ScanOptions) (lines : List TraceLine)
    (silent : ∀ l ∈ lines, l.added = true → o.glyphs.Silent l.text) :
    let s := after o {} ((keptLines lines).map TraceLine.text)
    let t := after o {} (lines.map TraceLine.text)
    let more := lines.countP TraceLine.added
    t = s.renumbered (newNumber lines) more ∧
      t.finish = s.finish.renumbered (newNumber lines) more ∧
      ∀ before line rest, lines = before ++ line :: rest → line.added = false →
        newNumber lines ((keptLines before).length + 1) = before.length + 1 := by
  intro s t more
  have same : t = s.renumbered (newNumber lines) more := by
    have run := after_renumbered o (newNumber lines) lines silent 0 {} (by simp)
    rwa [Nat.zero_add] at run
  refine ⟨same, ?_, ?_⟩
  · rw [same, renumbered_finish]
  · rintro before line rest rfl kept
    exact newNumber_eq kept before rest

theorem after_silent_lines_between_markers :
    let o : ScanOptions := { topLevelLabel := "A", strictSections := true }
    let lines : List TraceLine :=
      [⟨"└╴x", true⟩, ⟨"┌╴B", false⟩, ⟨"└╴1", false⟩, ⟨"", true⟩, ⟨"└╴2", false⟩, ⟨"└╴,", false⟩,
        ⟨"┌╴A", false⟩, ⟨"└╴9007199254740992", true⟩, ⟨"note", true⟩, ⟨"┌╴C", false⟩]
    let s := after o {} ((keptLines lines).map TraceLine.text)
    let t := after o {} (lines.map TraceLine.text)
    let more := lines.countP TraceLine.added
    (∀ l ∈ lines, l.added = true → o.glyphs.Silent l.text) ∧
      t = s.renumbered (newNumber lines) more ∧
      t.finish = s.finish.renumbered (newNumber lines) more ∧
      newNumber lines 6 = 10 := by
  intro o lines s t more
  have silent : ∀ l ∈ lines, l.added = true → o.glyphs.Silent l.text := by
    decide +kernel
  obtain ⟨same, finished, numbers⟩ := after_silent_lines o lines silent
  exact ⟨silent, same, finished, numbers (lines.take 9) _ [] rfl rfl⟩

end Scan
end CallCost
