import CallCost.Proofs.SectionTotals
import Mathlib.Data.List.Induction

/-!
Blocks of lines that close what they open and nothing else. Inside a section such a block ends at
the span where it began: the path of the open spans is the same, and a pass has only counted the
lines and merged something below that span.
-/

namespace CallCost

theorem Marker.depthAfter_add {depth : Nat} (marker : Marker) (inside : 0 < depth) :
    marker.depthAfter depth + marker.isClosed.toNat = depth + marker.isOpened.toNat := by
  cases marker with
  | opened | ignored => rfl
  | closed => exact Nat.sub_add_cancel inside

namespace Glyphs

variable (glyphs : Glyphs)

/-- No prefix has more close than open markers, and the whole has equally many. -/
structure WellNested (block : List String) : Prop where
  prefixes : ∀ n, glyphs.closesIn (block.take n) ≤ glyphs.opensIn (block.take n)
  level : glyphs.opensIn block = glyphs.closesIn block

variable {glyphs}

instance (block : List String) : Decidable (glyphs.WellNested block) :=
  decidable_of_iff
    ((∀ n < block.length, glyphs.closesIn (block.take n) ≤ glyphs.opensIn (block.take n)) ∧
      glyphs.opensIn block = glyphs.closesIn block) <| by
    constructor
    · rintro ⟨short, level⟩
      refine ⟨fun n => ?_, level⟩
      by_cases part : n < block.length
      · exact short n part
      · rw [List.take_of_length_le (Nat.not_lt.1 part)]
        exact Nat.le_of_eq level.symm
    · intro h
      exact ⟨fun n _ => h.prefixes n, h.level⟩

theorem WellNested.append {xs ys : List String} (hx : glyphs.WellNested xs)
    (hy : glyphs.WellNested ys) : glyphs.WellNested (xs ++ ys) where
  prefixes := by
    intro n
    rw [List.take_append, closesIn_append, opensIn_append]
    exact Nat.add_le_add (hx.prefixes n) (hy.prefixes (n - xs.length))
  level := by rw [opensIn_append, closesIn_append, hx.level, hy.level]

/-- As long as fewer spans are closed than were open, the depth is what the counts say. -/
theorem stays_of_closesIn_lt {depth : Nat} {lines : List String}
    (h : ∀ n, glyphs.closesIn (lines.take n) < depth + glyphs.opensIn (lines.take n)) :
    glyphs.StaysOpen depth lines ∧
      glyphs.depthAfter depth lines + glyphs.closesIn lines = depth + glyphs.opensIn lines := by
  induction lines generalizing depth with
  | nil => exact ⟨True.intro, rfl⟩
  | cons line rest ih =>
      have inside : 0 < depth := h 0
      have moved := (glyphs.read line).depthAfter_add inside
      have later : ∀ n, glyphs.closesIn (rest.take n) <
          (glyphs.read line).depthAfter depth + glyphs.opensIn (rest.take n) := by
        intro n
        have through := h (n + 1)
        rw [List.take_succ_cons, closesIn_cons, opensIn_cons] at through
        omega
      obtain ⟨stays, counted⟩ := ih later
      refine ⟨⟨inside, stays⟩, ?_⟩
      change glyphs.depthAfter ((glyphs.read line).depthAfter depth) rest + _ = _
      rw [closesIn_cons, opensIn_cons]
      omega

theorem WellNested.stays {block : List String} (h : glyphs.WellNested block) {depth : Nat}
    (inside : 0 < depth) :
    glyphs.StaysOpen depth block ∧ glyphs.depthAfter depth block = depth := by
  have above : ∀ n, glyphs.closesIn (block.take n) < depth + glyphs.opensIn (block.take n) :=
    fun n => Nat.lt_of_le_of_lt (h.prefixes n) (Nat.lt_add_of_pos_left inside)
  obtain ⟨stays, counted⟩ := stays_of_closesIn_lt above
  rw [h.level] at counted
  exact ⟨stays, Nat.add_right_cancel counted⟩

theorem WellNested.prefix_concat {block taken : List String} {line : String}
    (h : glyphs.WellNested block) (some_ : taken ++ [line] <+: block) :
    glyphs.closesIn taken + (glyphs.read line).isClosed.toNat ≤
      glyphs.opensIn taken + (glyphs.read line).isOpened.toNat := by
  have enough := h.prefixes (taken ++ [line]).length
  rwa [← List.prefix_iff_eq_take.1 some_, closesIn_concat, opensIn_concat] at enough

/-- The path after some lines of a block goes on from the path in front of it. -/
theorem WellNested.pathAfter_prefix {block : List String} (h : glyphs.WellNested block)
    (path : List String) {taken : List String} (some_ : taken <+: block) :
    ∃ more, glyphs.pathAfter path taken = path ++ more ∧
      more.length + glyphs.closesIn taken = glyphs.opensIn taken := by
  induction taken using List.reverseRecOn with
  | nil => exact ⟨[], (List.append_nil path).symm, rfl⟩
  | append_singleton taken line ih =>
      obtain ⟨more, here, counted⟩ := ih ((List.prefix_append taken [line]).trans some_)
      have enough := h.prefix_concat some_
      rw [pathAfter_concat, here, closesIn_concat, opensIn_concat]
      generalize glyphs.read line = marker at enough
      cases marker with
      | opened label =>
          refine ⟨more ++ [label], List.append_assoc .., ?_⟩
          rw [List.length_append, ← counted]
          exact Nat.add_right_comm ..
      | closed cycles =>
          simp only [Marker.isOpened, Marker.isClosed, Bool.toNat_true, Bool.toNat_false] at *
          -- The close marker ends a span of the block, which is the last on the path.
          have deeper : more ≠ [] := by
            rintro rfl
            rw [List.length_nil] at counted
            omega
          refine ⟨more.dropLast, List.dropLast_append_of_ne_nil deeper, ?_⟩
          rw [List.length_dropLast]
          have := List.length_pos_of_ne_nil deeper
          omega
      | ignored => exact ⟨more, rfl, counted⟩

theorem WellNested.pathAfter {block : List String} (h : glyphs.WellNested block)
    (path : List String) : glyphs.pathAfter path block = path := by
  obtain ⟨more, here, counted⟩ := h.pathAfter_prefix path (List.prefix_refl block)
  rw [h.level, Nat.add_eq_right] at counted
  rw [here, List.eq_nil_of_length_eq_zero counted, List.append_nil]

/-- Two blocks complete the same spans in either order. -/
theorem perm_spansFrom_swap {xs ys : List String} (hx : glyphs.WellNested xs)
    (hy : glyphs.WellNested ys) (path before after : List String) :
    (glyphs.spansFrom path (before ++ (xs ++ ys ++ after))).Perm
      (glyphs.spansFrom path (before ++ (ys ++ xs ++ after))) := by
  simp only [spansFrom_append, (hx.append hy).pathAfter, (hy.append hx).pathAfter, hx.pathAfter,
    hy.pathAfter]
  exact .append_left _ (.append_right _ List.perm_append_comm)

end Glyphs

/-- The span without what is merged below it. -/
def OpenSpan.bare (span : OpenSpan) : OpenSpan :=
  ⟨.opened span.node.label, span.line⟩

/-- A pass some lines after another pass that was inside a span: these lines have only opened and
closed spans, and nothing around them is closed. -/
structure InBlock (s : Scan) (lines opens closes : Nat) (t : Scan) : Prop where
  stats : t.stats = { s.stats with
    lines := s.stats.lines + lines
    opens := s.stats.opens + opens
    closes := s.stats.closes + closes }
  issues : t.issues = s.issues
  spans : ∃ more, t.spans.map OpenSpan.bare = more ++ s.spans.map OpenSpan.bare ∧
    more.length + closes = opens

theorem InBlock.step {o : ScanOptions} {s t u : Scan} {lines opens closes : Nat} {marker : Marker}
    (h : InBlock s lines opens closes t) (awake : t.skipDepth = 0) (within : t.spans ≠ [])
    (inside : s.spans ≠ [])
    (enough : closes + marker.isClosed.toNat ≤ opens + marker.isOpened.toNat)
    (step : Scan.Step o t marker u) :
    InBlock s (lines + 1) (opens + marker.isOpened.toNat) (closes + marker.isClosed.toNat) u := by
  obtain ⟨stats, spans, skipDepth, sections, issues⟩ := t
  obtain ⟨rfl, rfl, more, here, counted⟩ := h
  cases step with
  | ignored => exact ⟨rfl, rfl, more, here, counted⟩
  | openDeeper _ skipping | closeDeeper _ skipping => exact absurd awake (Nat.ne_of_gt skipping)
  | openSkipped _ _ outside | closeUnmatched _ _ outside => exact absurd outside within
  | openSpan label =>
      refine ⟨rfl, rfl, ⟨.opened label, s.stats.lines + lines + 1⟩ :: more, congrArg _ here, ?_⟩
      rw [← counted]
      exact Nat.add_right_comm ..
  | closeSection cycles span _ single =>
      -- The last span would be one of the block, but another was open in front of it.
      have outer := List.length_pos_of_ne_nil inside
      have lengths := congrArg List.length here
      rw [single, List.length_append, List.length_map, List.length_map] at lengths
      change 1 = more.length + s.spans.length at lengths
      change closes + 1 ≤ opens + 0 at enough
      omega
  | closeInner cycles span parent outer _ nested =>
      change closes + 1 ≤ opens + 0 at enough
      rw [nested, List.map_cons, List.map_cons] at here
      cases more with
      | nil =>
          rw [List.length_nil] at counted
          omega
      | cons own more =>
          refine ⟨rfl, rfl, more, (List.cons.inj here).2, ?_⟩
          rw [List.length_cons] at counted
          change more.length + (closes + 1) = opens + 0
          omega

namespace Scan

/-- A block inside a section leaves the open spans as they were, but for what it merges below the
innermost one, and is only counted. -/
theorem after_wellNested {o : ScanOptions} {s : Scan} {block : List String}
    (nested : o.glyphs.WellNested block) (awake : s.skipDepth = 0) (inside : s.spans ≠ []) :
    (s.after o block).skipDepth = 0 ∧
      (s.after o block).stats = { s.stats with
        lines := s.stats.lines + block.length
        opens := s.stats.opens + o.glyphs.opensIn block
        closes := s.stats.closes + o.glyphs.closesIn block } ∧
      (s.after o block).issues = s.issues ∧
      (s.after o block).spans.map OpenSpan.bare = s.spans.map OpenSpan.bare := by
  obtain ⟨stays, _⟩ := nested.stays (List.length_pos_of_ne_nil inside)
  have run := inside_induction (o := o) (s := s)
    (motive := fun t taken => taken <+: block →
      InBlock s taken.length (o.glyphs.opensIn taken) (o.glyphs.closesIn taken) t)
    (fun t u taken line awake within h step _ some_ => by
      have earlier := h ((List.prefix_append taken [line]).trans some_)
      rw [List.length_append, Glyphs.opensIn_concat, Glyphs.closesIn_concat]
      exact earlier.step awake within inside (nested.prefix_concat some_) step)
    [] (fun _ => ⟨rfl, rfl, [], rfl, rfl⟩) awake block stays
  obtain ⟨h, still, _⟩ := run
  obtain ⟨stats, issues, more, spans, counted⟩ := h (List.prefix_refl block)
  change more.length + o.glyphs.closesIn block = o.glyphs.opensIn block at counted
  rw [nested.level, Nat.add_eq_right] at counted
  rw [List.eq_nil_of_length_eq_zero counted] at spans
  exact ⟨still, stats, issues, spans⟩

end Scan
end CallCost
