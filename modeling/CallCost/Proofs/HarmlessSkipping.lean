import CallCost.Proofs.Sections

/-!
When it does not matter whether sections are strict. A pass that skips a section as a whole and one
that drops its markers one by one run in lockstep as long as no open marker in the section has the
top-level label: what the first counts down the second counts as unmatched.
-/

namespace CallCost

/-- The lines of a skipped section behind the open marker that starts it. -/
def Segment.skippedInside : Segment → List String
  | skipped _ inside => inside
  | _ => []

/-- The lines inside the sections that are skipped when sections are strict. -/
def insideSkipped (o : ScanOptions) (lines : List String) : List String :=
  (segments { o with strictSections := true } lines).flatMap Segment.skippedInside

/-- The same options with every open marker outside a section dropped alone. -/
def ScanOptions.loose (o : ScanOptions) : ScanOptions :=
  { o with strictSections := false }

namespace Scan

/-- The second pass has the spans and sections of the first and has met some more close markers
with nothing open. -/
structure Lockstep (more : Nat) (s t : Scan) : Prop where
  stats : t.stats = { s.stats with unmatchedCloses := s.stats.unmatchedCloses + more }
  spans : t.spans = s.spans
  sections : t.sections = s.sections
  awake : t.skipDepth = 0

theorem Lockstep.note {more : Nat} {s t : Scan} (h : Lockstep more s t) (line : Nat)
    (anomaly : Anomaly) : Lockstep more (s.note line anomaly) (t.note line anomaly) := by
  rw [note_eq s, note_eq t]
  exact ⟨h.stats, h.spans, h.sections, h.awake⟩

theorem Lockstep.finish {more : Nat} {s t : Scan} (h : Lockstep more s t) :
    Lockstep more s.finish t.finish where
  stats := by rw [stats_finish, stats_finish, h.stats, h.spans]
  spans := by rw [finish_eq s, finish_eq t]
  sections := by
    rw [finish_eq s, finish_eq t]
    exact h.sections
  awake := by
    rw [finish_eq]
    exact h.awake

/-- Outside the skipped sections both passes do the same. -/
theorem Lockstep.step {o : ScanOptions} {more : Nat} {s t s' : Scan} {marker : Marker}
    (h : Lockstep more s t) (awake : s.skipDepth = 0) (step : Step o s marker s') :
    ∃ t', Step o.loose t marker t' ∧ Lockstep more s' t' := by
  obtain ⟨stats, spans, skipDepth, sections, issues⟩ := t
  obtain ⟨rfl, rfl, rfl, rfl⟩ := h
  cases step with
  | ignored => exact ⟨_, .ignored, rfl, rfl, rfl, rfl⟩
  | openDeeper _ skipping | closeDeeper _ skipping => exact absurd awake (Nat.ne_of_gt skipping)
  | openSkipped label _ outside other =>
      refine ⟨_, .openSkipped label rfl outside other, ?_⟩
      apply Lockstep.note
      exact ⟨rfl, rfl, rfl, rfl⟩
  | openSpan label _ wanted => exact ⟨_, .openSpan label rfl wanted, rfl, rfl, rfl, rfl⟩
  | closeUnmatched cycles _ outside =>
      refine ⟨_, .closeUnmatched cycles rfl outside, ?_⟩
      apply Lockstep.note
      exact ⟨by simp only [Nat.add_right_comm], rfl, rfl, rfl⟩
  | closeSection cycles span _ inside =>
      exact ⟨_, .closeSection cycles span rfl inside, rfl, rfl, rfl, rfl⟩
  | closeInner cycles span parent outer _ inside =>
      exact ⟨_, .closeInner cycles span parent outer rfl inside, rfl, rfl, rfl, rfl⟩

/-- Inside a skipped section the second pass drops every marker. -/
theorem Lockstep.skip {o : ScanOptions} {more : Nat} {s t s' : Scan} {marker : Marker}
    (h : Lockstep more s t) (skipping : 0 < s.skipDepth) (outside : s.spans = [])
    (unwanted : marker ≠ .opened o.topLevelLabel) (step : Step o s marker s') :
    ∃ t', Step o.loose t marker t' ∧
      Lockstep (more + marker.isClosed.toNat) s' t' := by
  obtain ⟨stats, spans, skipDepth, sections, issues⟩ := t
  obtain ⟨rfl, rfl, rfl, rfl⟩ := h
  cases step with
  | ignored => exact ⟨_, .ignored, rfl, rfl, rfl, rfl⟩
  | openDeeper label =>
      refine ⟨_, .openSkipped label rfl outside fun wanted => unwanted (congrArg _ wanted), ?_⟩
      rw [note_eq]
      exact ⟨rfl, rfl, rfl, rfl⟩
  | closeDeeper cycles =>
      refine ⟨_, .closeUnmatched cycles rfl outside, ?_⟩
      rw [note_eq]
      exact ⟨rfl, rfl, rfl, rfl⟩
  | openSkipped _ awake | openSpan _ awake | closeUnmatched _ awake | closeSection _ _ awake
  | closeInner _ _ _ _ awake => exact absurd awake (Nat.ne_of_gt skipping)

section Runs

variable {o : ScanOptions} {more : Nat} {s t : Scan}

theorem Lockstep.push (h : Lockstep more s t) (awake : s.skipDepth = 0) (line : String) :
    Lockstep more (s.push o line).1 (t.push o.loose line).1 := by
  obtain ⟨t', step, kept⟩ := h.step awake (step_push o s line)
  have moved : (t.push o.loose line).1 = t' := Step.push_eq step
  rwa [moved]

theorem Lockstep.skipped (h : Lockstep more s t) (outside : s.spans = []) (lines : List String)
    (stays : o.glyphs.StaysOpen s.skipDepth lines)
    (unwanted : ∀ line ∈ lines, o.glyphs.read line ≠ .opened o.topLevelLabel) :
    Lockstep (more + o.glyphs.closesIn lines) (s.after o lines) (t.after o.loose lines) := by
  induction lines generalizing more s t with
  | nil => exact h
  | cons line rest ih =>
      obtain ⟨skipping, stays⟩ := stays
      obtain ⟨here, later⟩ := List.forall_mem_cons.1 unwanted
      obtain ⟨t', step, kept⟩ := h.skip skipping outside here (step_push o s line)
      have moved : (t.push o.loose line).1 = t' := Step.push_eq step
      obtain ⟨skips, depth⟩ := skipped_after [line] ⟨skipping, True.intro⟩
      have deeper : o.glyphs.StaysOpen (s.after o [line]).skipDepth rest := by
        rw [depth]
        exact stays
      have all := ih kept (skips.spans.trans outside) deeper later
      rw [after_cons, after_cons, moved, Glyphs.closesIn_cons, ← Nat.add_assoc]
      exact all

/-- The two passes stay in lockstep from the open marker of a section to its end. -/
theorem Lockstep.section_ (h : Lockstep more s t) (idle : s.Idle) {first : String}
    {inside : List String} (opens : o.glyphs.read first = .opened o.topLevelLabel)
    (stays : o.glyphs.StaysOpen 1 inside) :
    Lockstep more (s.after o (first :: inside)) (t.after o.loose (first :: inside)) ∧
      (s.after o (first :: inside)).skipDepth = 0 ∧
      (s.after o (first :: inside)).spans.length = o.glyphs.depthAfter 1 inside := by
  obtain ⟨spans, awake, _⟩ := idle_opens idle opens
  have one : (s.push o first).1.spans.length = 1 := congrArg List.length spans
  have run := inside_induction (o := o)
    (motive := fun s taken => Lockstep more s (t.after o.loose (first :: taken)))
    (fun s _ taken line awake _ h _ pushed => by
      rw [← List.cons_append, after_append, pushed]
      exact h.push awake line)
    [] (h.push idle.2 first) awake inside (by rwa [one])
  rwa [one] at run

theorem Lockstep.skippedSection (h : Lockstep more s t) (idle : s.Idle)
    (strict : o.strictSections = true) {first label : String} {inside : List String}
    (opens : o.glyphs.read first = .opened label) (other : label ≠ o.topLevelLabel)
    (stays : o.glyphs.StaysOpen 1 inside)
    (unwanted : ∀ line ∈ inside, o.glyphs.read line ≠ .opened o.topLevelLabel) :
    Lockstep (more + o.glyphs.closesIn inside) (s.after o (first :: inside))
      (t.after o.loose (first :: inside)) := by
  obtain ⟨skips, one⟩ := idle_skips idle strict opens other
  rw [after_cons, after_cons]
  exact (h.push idle.2 first).skipped (skips.spans.trans idle.1) inside (by rwa [one]) unwanted

theorem Lockstep.after (strict : o.strictSections = true) {lines : List String}
    {segs : List Segment} (segmented : Segmented o lines segs) (h : Lockstep more s t)
    (idle : s.Idle) (unwanted : ∀ line ∈ segs.flatMap Segment.skippedInside,
      o.glyphs.read line ≠ .opened o.topLevelLabel) :
    Lockstep (more + o.glyphs.closesIn (segs.flatMap Segment.skippedInside))
      (s.after o lines) (t.after o.loose lines) := by
  induction segmented generalizing more s t with
  | nil => exact h
  | outside dropped rest ih =>
      exact ih (h.push idle.2 _) (idle_outside idle dropped).1 unwanted
  | @complete first inside after segs opens stays balanced rest ih =>
      obtain ⟨ended, awake, depth⟩ := h.section_ idle opens stays
      rw [balanced] at depth
      rw [← List.cons_append, after_append, after_append]
      exact ih ended ⟨List.eq_nil_of_length_eq_zero depth, awake⟩ unwanted
  | unfinished opens stays unbalanced => exact (h.section_ idle opens stays).1
  | @skipped first label inside after segs _ opens other stays balanced rest ih =>
      rw [List.flatMap_cons] at unwanted ⊢
      obtain ⟨here, later⟩ := List.forall_mem_append.1 unwanted
      obtain ⟨skips, depth⟩ := skipped_section idle strict opens other stays
      rw [balanced] at depth
      have ended := h.skippedSection idle strict opens other stays here
      have all := ih ended ⟨skips.spans.trans idle.1, depth⟩ later
      rw [← List.cons_append, after_append, after_append, Glyphs.closesIn_append,
        ← Nat.add_assoc]
      exact all
  | skippedToEnd _ opens other stays unbalanced =>
      rw [List.flatMap_cons, List.flatMap_nil, List.append_nil] at unwanted ⊢
      exact h.skippedSection idle strict opens other stays unwanted

end Runs

end Scan

/-- Where no open marker inside a skipped section has the top-level label, strict sections change
nothing but the number of unmatched close markers. -/
theorem ofLines_strict_eq_loose (o : ScanOptions) (lines : List String)
    (sound : ∀ line ∈ lines, ¬o.glyphs.Malformed line)
    (unwanted : ∀ line ∈ insideSkipped o lines, o.glyphs.read line ≠ .opened o.topLevelLabel) :
    ∃ p q, Profile.ofLines { o with strictSections := true } lines = .ok p ∧
      Profile.ofLines { o with strictSections := false } lines = .ok q ∧ p.roots = q.roots ∧
      q.stats = { p.stats with
        unmatchedCloses :=
          p.stats.unmatchedCloses + o.glyphs.closesIn (insideSkipped o lines) } := by
  have start : Scan.Lockstep 0 {} {} := ⟨rfl, rfl, rfl, rfl⟩
  have ends := (start.after (o := { o with strictSections := true }) rfl (segmented _ lines)
    ⟨rfl, rfl⟩ unwanted).finish
  rw [Nat.zero_add] at ends
  refine ⟨_, _, Profile.ofLines_eq _ lines sound, Profile.ofLines_eq _ lines sound, ?_, ends.stats⟩
  exact congrArg (fun sections => Forest.ofNodes sections.reverse) ends.sections.symm

theorem ofLines_strict_eq_loose_unbalanced_section :
    let o : ScanOptions := { topLevelLabel := "A" }
    let lines := ["┌╴B", "┌╴C", "└╴1", "└╴2", "└╴3", "┌╴A", "┌╴B", "└╴4", "└╴5", "┌╴C", "└╴6",
      "┌╴D", "┌╴E", "└╴7"]
    (∀ line ∈ lines, ¬o.glyphs.Malformed line) ∧
      (∀ line ∈ insideSkipped o lines, o.glyphs.read line ≠ .opened o.topLevelLabel) ∧
      ∃ p q, Profile.ofLines { o with strictSections := true } lines = .ok p ∧
        Profile.ofLines { o with strictSections := false } lines = .ok q ∧ p.roots = q.roots ∧
        q.stats = { p.stats with
          unmatchedCloses :=
            p.stats.unmatchedCloses + o.glyphs.closesIn (insideSkipped o lines) } := by
  intro o lines
  have sound : ∀ line ∈ lines, ¬o.glyphs.Malformed line := by decide +kernel
  have unwanted : ∀ line ∈ insideSkipped o lines,
      o.glyphs.read line ≠ .opened o.topLevelLabel := by decide +kernel
  exact ⟨sound, unwanted, ofLines_strict_eq_loose o lines sound unwanted⟩

end CallCost
