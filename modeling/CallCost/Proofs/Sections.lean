import CallCost.Proofs.ScanSteps

/-!
The sections of a trace, said of the lines alone. An open marker outside every section starts
one, which lasts up to the close marker that balances it; every marker in between counts, whatever
its label. While a section lasts, the depth that is counted on the lines is the number of open
spans, or the skip depth if the section is skipped.
-/

namespace CallCost

def Marker.depthAfter (depth : Nat) : Marker → Nat
  | opened _ => depth + 1
  | closed _ => depth - 1
  | ignored => depth

def Marker.isOpened : Marker → Bool
  | opened _ => true
  | _ => false

def Marker.isClosed : Marker → Bool
  | closed _ => true
  | _ => false

namespace Glyphs

variable (glyphs : Glyphs)

/-- The number of open markers. -/
def opensIn (lines : List String) : Nat :=
  lines.countP fun line => (glyphs.read line).isOpened

/-- The number of close markers. -/
def closesIn (lines : List String) : Nat :=
  lines.countP fun line => (glyphs.read line).isClosed

def depthAfter (depth : Nat) (lines : List String) : Nat :=
  lines.foldl (fun depth line => (glyphs.read line).depthAfter depth) depth

/-- The depth is above zero in front of every line. -/
def StaysOpen : Nat → List String → Prop
  | _, [] => True
  | depth, line :: rest => 0 < depth ∧ StaysOpen ((glyphs.read line).depthAfter depth) rest

/-- Cuts lines behind the one that brings the depth down to zero, if one does. -/
def balance : Nat → List String → Option (List String × List String)
  | 0, rest => some ([], rest)
  | _ + 1, [] => none
  | depth + 1, line :: rest =>
      (balance ((glyphs.read line).depthAfter (depth + 1)) rest).map
        fun (inside, after) => (line :: inside, after)

variable {glyphs}

theorem opensIn_cons (line : String) (rest : List String) :
    glyphs.opensIn (line :: rest) = (glyphs.read line).isOpened.toNat + glyphs.opensIn rest := by
  cases h : (glyphs.read line).isOpened <;> simp [opensIn, h, Nat.add_comm]

theorem closesIn_cons (line : String) (rest : List String) :
    glyphs.closesIn (line :: rest) = (glyphs.read line).isClosed.toNat + glyphs.closesIn rest := by
  cases h : (glyphs.read line).isClosed <;> simp [closesIn, h, Nat.add_comm]

theorem opensIn_append (xs ys : List String) :
    glyphs.opensIn (xs ++ ys) = glyphs.opensIn xs + glyphs.opensIn ys :=
  List.countP_append

theorem closesIn_append (xs ys : List String) :
    glyphs.closesIn (xs ++ ys) = glyphs.closesIn xs + glyphs.closesIn ys :=
  List.countP_append

theorem opensIn_concat (lines : List String) (line : String) :
    glyphs.opensIn (lines ++ [line]) =
      glyphs.opensIn lines + (glyphs.read line).isOpened.toNat := by
  rw [opensIn_append, opensIn_cons]
  rfl

theorem closesIn_concat (lines : List String) (line : String) :
    glyphs.closesIn (lines ++ [line]) =
      glyphs.closesIn lines + (glyphs.read line).isClosed.toNat := by
  rw [closesIn_append, closesIn_cons]
  rfl

theorem balance_eq_some {depth : Nat} {lines inside after : List String}
    (h : glyphs.balance depth lines = some (inside, after)) :
    lines = inside ++ after ∧ glyphs.StaysOpen depth inside ∧
      glyphs.depthAfter depth inside = 0 := by
  induction lines generalizing depth inside with
  | nil =>
      cases depth with
      | zero => cases h; exact ⟨rfl, True.intro, rfl⟩
      | succ depth => cases h
  | cons line rest ih =>
      cases depth with
      | zero => cases h; exact ⟨rfl, True.intro, rfl⟩
      | succ depth =>
          obtain ⟨⟨inside, after⟩, cut, pair⟩ := Option.map_eq_some_iff.1 h
          cases pair
          obtain ⟨joined, stays, closed⟩ := ih cut
          exact ⟨congrArg (line :: ·) joined, ⟨Nat.succ_pos depth, stays⟩, closed⟩

theorem balance_eq_none {depth : Nat} {lines : List String}
    (h : glyphs.balance depth lines = none) :
    glyphs.StaysOpen depth lines ∧ 0 < glyphs.depthAfter depth lines := by
  induction lines generalizing depth with
  | nil =>
      cases depth with
      | zero => cases h
      | succ depth => exact ⟨True.intro, Nat.succ_pos depth⟩
  | cons line rest ih =>
      cases depth with
      | zero => cases h
      | succ depth =>
          obtain ⟨stays, open_⟩ := ih (Option.map_eq_none_iff.1 h)
          exact ⟨⟨Nat.succ_pos depth, stays⟩, open_⟩

/-- What stays open can be put in front of the lines that are cut. -/
theorem balance_append {depth : Nat} {xs : List String} (stays : glyphs.StaysOpen depth xs)
    (ys : List String) :
    glyphs.balance depth (xs ++ ys) =
      (glyphs.balance (glyphs.depthAfter depth xs) ys).map fun cut => (xs ++ cut.1, cut.2) := by
  induction xs generalizing depth with
  | nil => exact Option.map_id_apply.symm
  | cons line rest ih =>
      obtain ⟨positive, stays⟩ := stays
      cases depth with
      | zero => cases positive
      | succ depth =>
          rw [List.cons_append, balance, ih stays, Option.map_map]
          rfl

theorem length_after_balance {depth : Nat} {lines inside after : List String}
    (h : glyphs.balance depth lines = some (inside, after)) : after.length ≤ lines.length := by
  rw [(balance_eq_some h).1, List.length_append]
  omega

end Glyphs

/-- A trace is cut into the lines outside every section and the sections, each with its first
open marker and the lines after it. Where an open marker outside every section is dropped alone,
it is a line outside. -/
inductive Segment where
  | outside (line : String)
  | complete (first : String) (inside : List String)
  | unfinished (first : String) (inside : List String)
  | skipped (first : String) (inside : List String)

def segments (o : ScanOptions) : List String → List Segment
  | [] => []
  | line :: rest =>
      match o.glyphs.read line with
      | .opened label =>
          if label = o.topLevelLabel then
            match _ : o.glyphs.balance 1 rest with
            | some (inside, after) => .complete line inside :: segments o after
            | none => [.unfinished line rest]
          else if o.strictSections then
            match _ : o.glyphs.balance 1 rest with
            | some (inside, after) => .skipped line inside :: segments o after
            | none => [.skipped line rest]
          else .outside line :: segments o rest
      | _ => .outside line :: segments o rest
  termination_by lines => lines.length
  decreasing_by
    all_goals try have := Glyphs.length_after_balance ‹_›
    all_goals simp only [List.length_cons]; omega

theorem segments_outside {o : ScanOptions} {line : String}
    (dropped : ∀ label, o.glyphs.read line = .opened label →
      label ≠ o.topLevelLabel ∧ o.strictSections = false) (rest : List String) :
    segments o (line :: rest) = .outside line :: segments o rest := by
  rw [segments]
  split
  · rename_i label opens
    obtain ⟨other, loose⟩ := dropped label opens
    rw [if_neg other, if_neg (Bool.eq_false_iff.1 loose)]
  · rfl

theorem segments_wanted {o : ScanOptions} {first : String}
    (opens : o.glyphs.read first = .opened o.topLevelLabel) (rest : List String) :
    segments o (first :: rest) =
      match o.glyphs.balance 1 rest with
      | some (inside, after) => .complete first inside :: segments o after
      | none => [.unfinished first rest] := by
  rw [segments]
  simp only [opens, if_true]
  split <;> rename_i cut <;> simp only [cut]

theorem segments_strict {o : ScanOptions} {first label : String}
    (strict : o.strictSections = true) (opens : o.glyphs.read first = .opened label)
    (other : label ≠ o.topLevelLabel) (rest : List String) :
    segments o (first :: rest) =
      match o.glyphs.balance 1 rest with
      | some (inside, after) => .skipped first inside :: segments o after
      | none => [.skipped first rest] := by
  rw [segments]
  simp only [opens, if_neg other, if_pos strict]
  split <;> rename_i cut <;> simp only [cut]

namespace Segment

def lines : Segment → List String
  | outside line => [line]
  | complete first inside | unfinished first inside | skipped first inside => first :: inside

def complete? : Segment → Option (List String)
  | complete first inside => some (first :: inside)
  | _ => none

end Segment

inductive Segmented (o : ScanOptions) : List String → List Segment → Prop where
  | nil : Segmented o [] []
  | outside {line : String} {after : List String} {segs : List Segment}
      (dropped : ∀ label, o.glyphs.read line = .opened label →
        label ≠ o.topLevelLabel ∧ o.strictSections = false)
      (rest : Segmented o after segs) : Segmented o (line :: after) (.outside line :: segs)
  | complete {first : String} {inside after : List String} {segs : List Segment}
      (opens : o.glyphs.read first = .opened o.topLevelLabel)
      (stays : o.glyphs.StaysOpen 1 inside) (balanced : o.glyphs.depthAfter 1 inside = 0)
      (rest : Segmented o after segs) :
      Segmented o (first :: (inside ++ after)) (.complete first inside :: segs)
  | unfinished {first : String} {inside : List String}
      (opens : o.glyphs.read first = .opened o.topLevelLabel)
      (stays : o.glyphs.StaysOpen 1 inside) (unbalanced : 0 < o.glyphs.depthAfter 1 inside) :
      Segmented o (first :: inside) [.unfinished first inside]
  | skipped {first label : String} {inside after : List String} {segs : List Segment}
      (strict : o.strictSections = true) (opens : o.glyphs.read first = .opened label)
      (other : label ≠ o.topLevelLabel)
      (stays : o.glyphs.StaysOpen 1 inside) (balanced : o.glyphs.depthAfter 1 inside = 0)
      (rest : Segmented o after segs) :
      Segmented o (first :: (inside ++ after)) (.skipped first inside :: segs)
  | skippedToEnd {first label : String} {inside : List String}
      (strict : o.strictSections = true) (opens : o.glyphs.read first = .opened label)
      (other : label ≠ o.topLevelLabel)
      (stays : o.glyphs.StaysOpen 1 inside) (unbalanced : 0 < o.glyphs.depthAfter 1 inside) :
      Segmented o (first :: inside) [.skipped first inside]

theorem segmented (o : ScanOptions) (lines : List String) :
    Segmented o lines (segments o lines) := by
  fun_induction segments o lines with
  | case1 => exact .nil
  | case2 line rest inside after cut opens ih =>
      obtain ⟨rfl, stays, balanced⟩ := Glyphs.balance_eq_some cut
      exact .complete opens stays balanced ih
  | case3 line rest cut opens =>
      obtain ⟨stays, unbalanced⟩ := Glyphs.balance_eq_none cut
      exact .unfinished opens stays unbalanced
  | case4 line rest label opens other strict inside after cut ih =>
      obtain ⟨rfl, stays, balanced⟩ := Glyphs.balance_eq_some cut
      exact .skipped strict opens other stays balanced ih
  | case5 line rest label opens other strict cut =>
      obtain ⟨stays, unbalanced⟩ := Glyphs.balance_eq_none cut
      exact .skippedToEnd strict opens other stays unbalanced
  | case6 line rest label opens other loose ih =>
      refine .outside (fun l hl => ?_) ih
      obtain rfl : label = l := Marker.opened.inj (opens.symm.trans hl)
      exact ⟨other, Bool.eq_false_iff.2 loose⟩
  | case7 line rest notOpened ih =>
      exact .outside (fun label opens => (notOpened label opens).elim) ih

/-- The complete sections of a trace in order, each with all its lines. -/
def completeSections (o : ScanOptions) (lines : List String) : List (List String) :=
  (segments o lines).filterMap Segment.complete?

theorem Segmented.flatMap_lines {o : ScanOptions} {lines : List String} {segs : List Segment}
    (h : Segmented o lines segs) : segs.flatMap Segment.lines = lines := by
  induction h with
  | nil => rfl
  | outside _ _ ih | complete _ _ _ _ ih | skipped _ _ _ _ _ _ ih =>
      rw [List.flatMap_cons, ih]
      rfl
  | unfinished | skippedToEnd =>
      rw [List.flatMap_cons, List.flatMap_nil, List.append_nil]
      rfl

theorem length_le_of_mem_completeSections {o : ScanOptions} {lines section_ : List String}
    (h : section_ ∈ completeSections o lines) : section_.length ≤ lines.length := by
  obtain ⟨segment, hs, hc⟩ := List.mem_filterMap.1 h
  rw [← (segmented o lines).flatMap_lines]
  have own : section_ = segment.lines := by
    cases segment with
    | complete first inside => exact (Option.some.inj hc).symm
    | _ => cases hc
  rw [own, List.flatMap_def]
  exact (List.sublist_flatten_of_mem (List.mem_map_of_mem hs)).length_le

namespace Scan

/-- Between sections: nothing is open and nothing is being skipped. -/
def Idle (s : Scan) : Prop :=
  s.spans = [] ∧ s.skipDepth = 0

/-- What every line inside a section keeps holds throughout the section. The lines taken so far
stand beside the pass, so that two passes can be compared. -/
theorem inside_induction {o : ScanOptions} {motive : Scan → List String → Prop}
    (keeps : ∀ s t taken line, s.skipDepth = 0 → s.spans ≠ [] → motive s taken →
      Step o s (o.glyphs.read line) t → t = (s.push o line).1 → motive t (taken ++ [line]))
    {s : Scan} (taken : List String) (start : motive s taken) (awake : s.skipDepth = 0)
    (lines : List String) (stays : o.glyphs.StaysOpen s.spans.length lines) :
    motive (s.after o lines) (taken ++ lines) ∧ (s.after o lines).skipDepth = 0 ∧
      (s.after o lines).spans.length = o.glyphs.depthAfter s.spans.length lines := by
  induction lines generalizing s taken with
  | nil => exact ⟨by rwa [List.append_nil], awake, rfl⟩
  | cons line rest ih =>
      obtain ⟨inside, stays⟩ := stays
      have step := step_push o s line
      have kept := keeps s _ taken line awake (List.ne_nil_of_length_pos inside) start step rfl
      rw [after_cons, List.append_cons]
      change _ ∧ _ ∧ _ = o.glyphs.depthAfter
        ((o.glyphs.read line).depthAfter s.spans.length) rest
      -- A span is open, so no marker is skipped or unmatched and the spans follow the depth.
      have depth : (s.push o line).1.skipDepth = 0 ∧
          (s.push o line).1.spans.length =
            (o.glyphs.read line).depthAfter s.spans.length := by
        generalize (s.push o line).1 = t at step
        generalize o.glyphs.read line = marker at step
        cases step with
        | ignored => exact ⟨awake, rfl⟩
        | openDeeper label skipping => exact absurd awake (Nat.ne_of_gt skipping)
        | openSkipped label _ outside => rw [outside] at inside; cases inside
        | openSpan label => exact ⟨awake, rfl⟩
        | closeDeeper cycles skipping => exact absurd awake (Nat.ne_of_gt skipping)
        | closeUnmatched cycles _ outside => rw [outside] at inside; cases inside
        | closeSection cycles span _ single => rw [single]; exact ⟨awake, rfl⟩
        | closeInner cycles span parent outer _ nested => rw [nested]; exact ⟨awake, rfl⟩
      rw [← depth.2] at stays ⊢
      exact ih _ kept depth.1 stays

/-- While a section is skipped nothing changes but the skip depth, the issue of its open marker
and some counts. -/
structure SkipsTo (s t : Scan) : Prop where
  spans : t.spans = s.spans
  sections : t.sections = s.sections
  unmatched : t.stats.unmatchedCloses = s.stats.unmatchedCloses

theorem SkipsTo.trans {s t u : Scan} (h : SkipsTo s t) (k : SkipsTo t u) : SkipsTo s u :=
  ⟨k.spans.trans h.spans, k.sections.trans h.sections, k.unmatched.trans h.unmatched⟩

theorem skipped_after {o : ScanOptions} {s : Scan} (lines : List String)
    (stays : o.glyphs.StaysOpen s.skipDepth lines) :
    SkipsTo s (s.after o lines) ∧
      (s.after o lines).skipDepth = o.glyphs.depthAfter s.skipDepth lines := by
  induction lines generalizing s with
  | nil => exact ⟨⟨rfl, rfl, rfl⟩, rfl⟩
  | cons line rest ih =>
      obtain ⟨skipping, stays⟩ := stays
      have step := step_push o s line
      have here : SkipsTo s (s.push o line).1 ∧
          (s.push o line).1.skipDepth = (o.glyphs.read line).depthAfter s.skipDepth := by
        generalize (s.push o line).1 = t at step
        generalize o.glyphs.read line = marker at step
        cases step with
        | ignored | openDeeper | closeDeeper => exact ⟨⟨rfl, rfl, rfl⟩, rfl⟩
        | openSkipped _ awake | openSpan _ awake | closeUnmatched _ awake
        | closeSection _ _ awake | closeInner _ _ _ _ awake =>
            exact absurd awake (Nat.ne_of_gt skipping)
      rw [← here.2] at stays
      obtain ⟨later, depth⟩ := ih stays
      rw [here.2] at depth
      exact ⟨here.1.trans later, depth⟩

theorem idle_outside {o : ScanOptions} {s : Scan} {line : String} (idle : s.Idle)
    (dropped : ∀ label, o.glyphs.read line = .opened label →
      label ≠ o.topLevelLabel ∧ o.strictSections = false) :
    (s.push o line).1.Idle ∧ (s.push o line).1.sections = s.sections := by
  have step := step_push o s line
  generalize (s.push o line).1 = t at step
  generalize o.glyphs.read line = marker at step dropped
  obtain ⟨outside, awake⟩ := idle
  cases step with
  | ignored => exact ⟨⟨outside, awake⟩, rfl⟩
  | openDeeper _ skipping => exact absurd awake (Nat.ne_of_gt skipping)
  | openSkipped label =>
      obtain ⟨_, loose⟩ := dropped label rfl
      refine ⟨⟨?_, ?_⟩, ?_⟩
      · rw [spans_note]
        exact outside
      · rw [skipDepth_note]
        exact if_neg (Bool.eq_false_iff.1 loose)
      · rw [sections_note]
  | openSpan label _ wanted => exact absurd (wanted outside) (dropped label rfl).1
  | closeDeeper _ skipping => exact absurd awake (Nat.ne_of_gt skipping)
  | closeUnmatched =>
      refine ⟨⟨?_, ?_⟩, ?_⟩
      · rw [spans_note]
        exact outside
      · rw [skipDepth_note]
        exact awake
      · rw [sections_note]
  | closeSection _ _ _ single => rw [single] at outside; cases outside
  | closeInner _ _ _ _ _ nested => rw [nested] at outside; cases outside

theorem idle_opens {o : ScanOptions} {s : Scan} {first : String} (idle : s.Idle)
    (opens : o.glyphs.read first = .opened o.topLevelLabel) :
    (s.push o first).1.spans = [⟨.opened o.topLevelLabel, s.stats.lines + 1⟩] ∧
      (s.push o first).1.skipDepth = 0 ∧ (s.push o first).1.sections = s.sections := by
  have step := step_push o s first
  rw [opens] at step
  generalize (s.push o first).1 = t at step
  obtain ⟨outside, awake⟩ := idle
  cases step with
  | openDeeper _ skipping => exact absurd awake (Nat.ne_of_gt skipping)
  | openSkipped _ _ _ other => exact absurd rfl other
  | openSpan => exact ⟨congrArg _ outside, awake, rfl⟩

theorem idle_skips {o : ScanOptions} {s : Scan} {first label : String} (idle : s.Idle)
    (strict : o.strictSections = true) (opens : o.glyphs.read first = .opened label)
    (other : label ≠ o.topLevelLabel) :
    SkipsTo s (s.push o first).1 ∧ (s.push o first).1.skipDepth = 1 := by
  have step := step_push o s first
  rw [opens] at step
  generalize (s.push o first).1 = t at step
  obtain ⟨outside, awake⟩ := idle
  cases step with
  | openDeeper _ skipping => exact absurd awake (Nat.ne_of_gt skipping)
  | openSkipped =>
      rw [skipDepth_note]
      exact ⟨⟨spans_note .., sections_note .., by rw [stats_note]⟩, if_pos strict⟩
  | openSpan _ _ wanted => exact absurd (wanted outside) other

theorem skipped_section {o : ScanOptions} {s : Scan} {first label : String}
    {inside : List String} (idle : s.Idle) (strict : o.strictSections = true)
    (opens : o.glyphs.read first = .opened label) (other : label ≠ o.topLevelLabel)
    (stays : o.glyphs.StaysOpen 1 inside) :
    SkipsTo s (s.after o (first :: inside)) ∧
      (s.after o (first :: inside)).skipDepth = o.glyphs.depthAfter 1 inside := by
  obtain ⟨skips, one⟩ := idle_skips idle strict opens other
  rw [← one] at stays ⊢
  obtain ⟨later, depth⟩ := skipped_after inside stays
  exact ⟨skips.trans later, depth⟩

end Scan
end CallCost
