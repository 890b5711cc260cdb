import CallCost.Proofs.Sections

/-!
Strict sections are the same as cutting the skipped sections out of the trace beforehand. The two
passes run in step: they hold the same nodes and differ only in line numbers and in what is
counted and noted about skipped sections.
-/

namespace CallCost

/-- The lines that are left of a segment when skipped sections are cut out. -/
def Segment.kept : Segment → List String
  | skipped _ _ => []
  | segment => segment.lines

def cutSkipped (o : ScanOptions) (lines : List String) : List String :=
  (segments { o with strictSections := true } lines).flatMap Segment.kept

namespace Scan

/-- The second pass holds what the first does and has never skipped anything. -/
structure InStep (s t : Scan) : Prop where
  sections : s.sections = t.sections
  nodes : s.spans.map OpenSpan.node = t.spans.map OpenSpan.node
  unmatched : s.stats.unmatchedCloses = t.stats.unmatchedCloses
  awake : t.skipDepth = 0
  quiet : t.stats.skippedOpens = 0

theorem InStep.spans_eq_nil {s t : Scan} (h : InStep s t) : s.spans = [] ↔ t.spans = [] := by
  rw [← List.map_eq_nil_iff (f := OpenSpan.node), h.nodes, List.map_eq_nil_iff]

theorem InStep.step {o o' : ScanOptions} {s t s' t' : Scan} {marker : Marker}
    (same : o'.topLevelLabel = o.topLevelLabel) (h : InStep s t) (awake : s.skipDepth = 0)
    (wanted : s.spans = [] → ∀ label, marker = .opened label → label = o.topLevelLabel)
    (hs : Step o s marker s') (ht : Step o' t marker t') : InStep s' t' := by
  obtain ⟨sections, nodes, unmatched, awake', quiet⟩ := h
  have empty := InStep.spans_eq_nil ⟨sections, nodes, unmatched, awake', quiet⟩
  -- Both passes have equally many open spans, which rules out every pair of unlike steps.
  cases hs with
  | ignored =>
      cases ht with
      | ignored => exact ⟨sections, nodes, unmatched, awake', quiet⟩
  | openDeeper _ skipping => exact absurd awake (Nat.ne_of_gt skipping)
  | openSkipped label _ outside other => exact absurd (wanted outside label rfl) other
  | openSpan label =>
      cases ht with
      | openDeeper _ skipping => exact absurd awake' (Nat.ne_of_gt skipping)
      | openSkipped _ _ outside other =>
          exact absurd (same ▸ wanted (empty.2 outside) label rfl) other
      | openSpan => exact ⟨sections, congrArg (Node.opened label :: ·) nodes, unmatched, awake',
          quiet⟩
  | closeDeeper _ skipping => exact absurd awake (Nat.ne_of_gt skipping)
  | closeUnmatched cycles _ outside =>
      cases ht with
      | closeDeeper _ skipping => exact absurd awake' (Nat.ne_of_gt skipping)
      | closeUnmatched =>
          refine ⟨?_, ?_, ?_, ?_, ?_⟩
          · rw [sections_note, sections_note]
            exact sections
          · rw [spans_note, spans_note]
            exact nodes
          · rw [stats_note, stats_note]
            exact congrArg (· + 1) unmatched
          · rw [skipDepth_note]
            exact awake'
          · rw [stats_note]
            exact quiet
      | closeSection _ span _ single => rw [outside, single] at nodes; cases nodes
      | closeInner _ span parent outer _ nested => rw [outside, nested] at nodes; cases nodes
  | closeSection cycles span _ single =>
      cases ht with
      | closeDeeper _ skipping => exact absurd awake' (Nat.ne_of_gt skipping)
      | closeUnmatched _ _ outside => rw [outside, single] at nodes; cases nodes
      | closeSection _ span' _ single' =>
          rw [single, single'] at nodes
          obtain ⟨node, _⟩ := List.cons.inj nodes
          exact ⟨by rw [node, sections], rfl, unmatched, awake', quiet⟩
      | closeInner _ span' parent' outer' _ nested' =>
          rw [single, nested'] at nodes
          cases (List.cons.inj nodes).2
  | closeInner cycles span parent outer _ nested =>
      cases ht with
      | closeDeeper _ skipping => exact absurd awake' (Nat.ne_of_gt skipping)
      | closeUnmatched _ _ outside => rw [outside, nested] at nodes; cases nodes
      | closeSection _ span' _ single' =>
          rw [nested, single'] at nodes
          cases (List.cons.inj nodes).2
      | closeInner _ span' parent' outer' _ nested' =>
          rw [nested, nested'] at nodes
          obtain ⟨node, rest⟩ := List.cons.inj nodes
          obtain ⟨parentNode, outerNodes⟩ := List.cons.inj rest
          refine ⟨sections, ?_, unmatched, awake', quiet⟩
          rw [List.map_cons, List.map_cons, node, parentNode, outerNodes]

section Runs

variable {o o' : ScanOptions} {s t : Scan}

theorem InStep.push (label : o'.topLevelLabel = o.topLevelLabel) (glyphs : o'.glyphs = o.glyphs)
    (h : InStep s t) (awake : s.skipDepth = 0) (line : String)
    (wanted : s.spans = [] → ∀ label, o.glyphs.read line = .opened label →
      label = o.topLevelLabel) : InStep (s.push o line).1 (t.push o' line).1 :=
  h.step label awake wanted (step_push o s line) (glyphs ▸ step_push o' t line)

theorem InStep.skips {u : Scan} (h : InStep s t) (skips : SkipsTo s u) : InStep u t :=
  ⟨skips.sections.trans h.sections, (congrArg _ skips.spans).trans h.nodes,
    skips.unmatched.trans h.unmatched, h.awake, h.quiet⟩

/-- The two passes stay in step from the open marker of a section to its end. -/
theorem InStep.section_ (label : o'.topLevelLabel = o.topLevelLabel)
    (glyphs : o'.glyphs = o.glyphs) (h : InStep s t) (idle : s.Idle) {first : String}
    {inside : List String} (opens : o.glyphs.read first = .opened o.topLevelLabel)
    (stays : o.glyphs.StaysOpen 1 inside) :
    InStep (s.after o (first :: inside)) (t.after o' (first :: inside)) ∧
      (s.after o (first :: inside)).skipDepth = 0 ∧
      (s.after o (first :: inside)).spans.length = o.glyphs.depthAfter 1 inside := by
  obtain ⟨spans, awake, _⟩ := idle_opens idle opens
  have start : InStep (s.push o first).1 (t.after o' [first]) :=
    h.push label glyphs idle.2 first fun _ l hl => Marker.opened.inj (hl.symm.trans opens)
  have one : (s.push o first).1.spans.length = 1 := congrArg List.length spans
  have run := inside_induction (o := o)
    (motive := fun s taken => InStep s (t.after o' (first :: taken)))
    (fun s _ taken line awake inside h _ pushed => by
      rw [← List.cons_append, after_append, pushed]
      exact h.push label glyphs awake line fun outside => absurd outside inside)
    [] start awake inside (by rwa [one])
  rwa [one] at run

/-- A strict pass over a trace and a pass over what is left when the skipped sections are cut out
end in step. -/
theorem InStep.cut (label : o'.topLevelLabel = o.topLevelLabel)
    (glyphs : o'.glyphs = o.glyphs) (strict : o.strictSections = true) {lines : List String}
    {segs : List Segment} (segmented : Segmented o lines segs) (h : InStep s t) (idle : s.Idle) :
    InStep (s.after o lines) (t.after o' (segs.flatMap Segment.kept)) := by
  induction segmented generalizing s t with
  | nil => exact h
  | @outside line after segs dropped rest ih =>
      have closes : ∀ l, o.glyphs.read line ≠ .opened l := fun l hl =>
        absurd strict (Bool.eq_false_iff.1 (dropped l hl).2)
      have pushed := h.push label glyphs idle.2 line fun _ l hl => absurd hl (closes l)
      exact ih pushed (idle_outside idle dropped).1
  | @complete first inside after segs opens stays balanced rest ih =>
      obtain ⟨ended, awake, depth⟩ := h.section_ label glyphs idle opens stays
      rw [balanced] at depth
      rw [List.flatMap_cons, after_append, ← List.cons_append, after_append]
      exact ih ended ⟨List.eq_nil_of_length_eq_zero depth, awake⟩
  | unfinished opens stays unbalanced =>
      rw [List.flatMap_cons, List.flatMap_nil, List.append_nil]
      exact (h.section_ label glyphs idle opens stays).1
  | @skipped first l inside after segs strict opens other stays balanced rest ih =>
      obtain ⟨skips, depth⟩ := skipped_section idle strict opens other stays
      rw [balanced] at depth
      rw [List.flatMap_cons, ← List.cons_append, after_append]
      exact ih (h.skips skips) ⟨skips.spans.trans idle.1, depth⟩
  | @skippedToEnd first l inside strict opens other stays unbalanced =>
      exact h.skips (skipped_section idle strict opens other stays).1

end Runs

end Scan

/-- Strict parsing of a trace and default parsing of the trace without its skipped sections give
the same roots. -/
theorem ofLines_strict_eq_cut (o : ScanOptions) (lines : List String)
    (sound : ∀ line ∈ lines, ¬o.glyphs.Malformed line) :
    ∃ p q, Profile.ofLines { o with strictSections := true } lines = .ok p ∧
      Profile.ofLines { o with strictSections := false } (cutSkipped o lines) = .ok q ∧
      p.roots = q.roots ∧ p.stats.unmatchedCloses = q.stats.unmatchedCloses ∧
      p.stats.unclosedAtEnd = q.stats.unclosedAtEnd ∧ q.stats.skippedOpens = 0 := by
  have kept : ∀ line ∈ cutSkipped o lines, line ∈ lines := by
    intro line h
    obtain ⟨segment, hs, hl⟩ := List.mem_flatMap.1 h
    rw [← (segmented { o with strictSections := true } lines).flatMap_lines]
    refine List.mem_flatMap.2 ⟨segment, hs, ?_⟩
    cases segment with
    | skipped first inside => cases hl
    | _ => exact hl
  have start : Scan.InStep {} {} := ⟨rfl, rfl, rfl, rfl, rfl⟩
  have ends := @Scan.InStep.cut { o with strictSections := true } { o with strictSections := false }
    {} {} rfl rfl rfl lines _ (segmented _ lines) start ⟨rfl, rfl⟩
  refine ⟨_, _, Profile.ofLines_eq _ lines sound,
    Profile.ofLines_eq _ _ fun line h => sound line (kept line h), ?_, ?_, ?_, ?_⟩
  · rw [Scan.profile, Scan.profile, Scan.roots_finish, Scan.roots_finish, Scan.roots, Scan.roots,
      ends.sections]
    rfl
  · rw [Scan.profile, Scan.profile, Scan.stats_finish, Scan.stats_finish]
    exact ends.unmatched
  · rw [Scan.profile, Scan.profile, Scan.stats_finish, Scan.stats_finish]
    have same := congrArg List.length ends.nodes
    rwa [List.length_map, List.length_map] at same
  · rw [Scan.profile, Scan.stats_finish]
    exact ends.quiet

theorem ofLines_strict_eq_cut_nested_label :
    let o : ScanOptions := { topLevelLabel := "A" }
    let lines := ["└╴1", "┌╴B", "┌╴A", "└╴2", "└╴3", "┌╴A", "┌╴B", "└╴4", "└╴5", "┌╴C", "┌╴A"]
    (∀ line ∈ lines, ¬o.glyphs.Malformed line) ∧
      ∃ p q, Profile.ofLines { o with strictSections := true } lines = .ok p ∧
        Profile.ofLines { o with strictSections := false } (cutSkipped o lines) = .ok q ∧
        p.roots = q.roots ∧ p.stats.unmatchedCloses = q.stats.unmatchedCloses ∧
        p.stats.unclosedAtEnd = q.stats.unclosedAtEnd ∧ q.stats.skippedOpens = 0 := by
  intro o lines
  have sound : ∀ line ∈ lines, ¬o.glyphs.Malformed line := by decide +kernel
  exact ⟨sound, ofLines_strict_eq_cut o lines sound⟩

end CallCost
