import CallCost.Proofs.NestedBlocks
import CallCost.Proofs.ScanInvariant
import Mathlib.Algebra.Order.BigOperators.Group.List
import Mathlib.Algebra.Order.Group.Nat

/-!
The order of two blocks inside a section. The pass comes out of them with the same spans open
whichever is first, so that it takes the lines behind them in the same way, and the section they
belong to completes the same spans in another order. Its root then has the same nodes with the
same sums; only the order in which children arrive can differ.
-/

namespace CallCost

namespace Forest

/-- The same label paths with the same value at each; children may stand in another order. -/
structure Reordered {α : Type} (value : Node → α) (f g : Forest) : Prop where
  labels : ∀ path, (f.under path).labels.Perm (g.under path).labels
  values : ∀ path, (f.at? path).map value = (g.at? path).map value

section Tallies

variable {f g : Forest} {ss ts : List Span}

/-- Forests that tally the same spans differ in the order of their children, and in a value only
if it depends on the order of the spans. -/
theorem Tallies.reordered {α : Type} {value : Node → α} (hf : f.Tallies ss) (hg : g.Tallies ts)
    (same : ss.Perm ts)
    (equal : ∀ path m n, f.at? path = some m → g.at? path = some n → value m = value n) :
    f.Reordered value g where
  labels := by
    intro path
    apply (List.perm_ext_iff_of_nodup (hf.distinct.under path).nodup_labels
      (hg.distinct.under path).nodup_labels).2
    intro label
    rw [hf.order, hg.order, List.mem_eraseDups, List.mem_eraseDups]
    exact (same.filterMap _).mem_iff
  values := by
    intro path
    have here : (spansAt path ss).Perm (spansAt path ts) := same.filter _
    cases hm : f.at? path with
    | none =>
        rw [hf.at?_eq_none.1 hm, List.nil_perm] at here
        rw [hg.at?_eq_none.2 here]
    | some m =>
        cases hn : g.at? path with
        | none =>
            rw [hg.at?_eq_none.1 hn, List.perm_nil] at here
            rw [hf.at?_eq_none.2 here] at hm
            cases hm
        | some n => exact congrArg some (equal path m n hm hn)

theorem Tallies.reordered_label (hf : f.Tallies ss) (hg : g.Tallies ts) (same : ss.Perm ts) :
    f.Reordered Node.label g := by
  apply hf.reordered hg same
  intro path m n hm hn
  obtain ⟨front, rfl, _⟩ := path_of_at? hm
  obtain ⟨front', ends, _⟩ := path_of_at? hn
  exact List.head_eq_of_cons_eq (List.append_inj' ends rfl).2

theorem Tallies.reordered_calls (hf : f.Tallies ss) (hg : g.Tallies ts) (same : ss.Perm ts)
    (few : ss.length ≤ Binary64.maxSafe) : f.Reordered Node.calls g := by
  apply hf.reordered hg same
  intro path m n hm hn
  have here : (spansAt path ss).length = (spansAt path ts).length := (same.filter _).length_eq
  have fits := Nat.le_trans (length_spansAt_le path ss) few
  rw [(hf.counts path m hm).calls_eq fits, (hg.counts path n hn).calls_eq (here ▸ fits), here]

theorem Tallies.reordered_cycles (hf : f.Tallies ss) (hg : g.Tallies ts) (same : ss.Perm ts)
    (safe : ∀ path, ((spansAt path ss).map Span.cycles).sum ≤ Binary64.maxSafe) :
    f.Reordered Node.cycles g := by
  apply hf.reordered hg same
  intro path m n hm hn
  have here : ((spansAt path ss).map Span.cycles).sum = ((spansAt path ts).map Span.cycles).sum :=
    ((same.filter _).map _).sum_nat
  rw [(hf.counts path m hm).2.eq_ofNat (safe path),
    (hg.counts path n hn).2.eq_ofNat (here ▸ safe path), here]

end Tallies

end Forest

/-- Two profiles that differ at most in the order of the children in their roots. -/
structure Profile.Reordered {α : Type} (value : Node → α) (p q : Profile) : Prop where
  stats : p.stats = q.stats
  issues : p.issues = q.issues
  roots : List.Forall₂ (fun m n => m.toForest.Reordered value n.toForest)
    p.roots.nodes q.roots.nodes

/-- A trace that ends inside a section: what comes later changes nothing in front of the open
marker of that section. -/
theorem Segmented.of_inside {o : ScanOptions} {before : List String} {segs : List Segment}
    (h : Segmented o before segs) {s : Scan} (idle : s.Idle)
    (inside : (s.after o before).spans ≠ []) :
    ∃ done first inner, o.glyphs.read first = .opened o.topLevelLabel ∧
      o.glyphs.StaysOpen 1 inner ∧ 0 < o.glyphs.depthAfter 1 inner ∧
      ∀ rest, completeSections o (before ++ rest) =
        done ++ completeSections o (first :: (inner ++ rest)) := by
  induction h generalizing s with
  | nil => exact absurd idle.1 inside
  | @outside line after segs dropped rest ih =>
      obtain ⟨done, first, inner, opens, stays, deep, cut⟩ :=
        ih (Scan.idle_outside idle dropped).1 inside
      refine ⟨done, first, inner, opens, stays, deep, fun more => ?_⟩
      rw [← cut, List.cons_append, completeSections, segments_outside dropped]
      rfl
  | @complete first inner after segs opens stays balanced rest ih =>
      obtain ⟨_, awake, depth⟩ := Scan.section_run idle opens stays
      rw [balanced] at depth
      rw [← List.cons_append, Scan.after_append] at inside
      obtain ⟨done, first', inner', opens', stays', deep, cut⟩ :=
        ih ⟨List.eq_nil_of_length_eq_zero depth, awake⟩ inside
      refine ⟨[first :: inner] ++ done, first', inner', opens', stays', deep, fun more => ?_⟩
      rw [List.append_assoc, ← cut, List.cons_append, List.append_assoc, completeSections,
        segments_wanted opens, Glyphs.balance_append stays, balanced, Glyphs.balance,
        Option.map_some, List.append_nil]
      rfl
  | unfinished opens stays unbalanced => exact ⟨[], _, _, opens, stays, unbalanced, fun _ => rfl⟩
  | @skipped first label inner after segs strict opens other stays balanced rest ih =>
      obtain ⟨skips, depth⟩ := Scan.skipped_section idle strict opens other stays
      rw [balanced] at depth
      rw [← List.cons_append, Scan.after_append] at inside
      obtain ⟨done, first', inner', opens', stays', deep, cut⟩ :=
        ih ⟨skips.spans.trans idle.1, depth⟩ inside
      refine ⟨done, first', inner', opens', stays', deep, fun more => ?_⟩
      rw [← cut, List.cons_append, List.append_assoc, completeSections,
        segments_strict strict opens other, Glyphs.balance_append stays, balanced, Glyphs.balance,
        Option.map_some]
      rfl
  | skippedToEnd strict opens other stays unbalanced =>
      have skips := (Scan.skipped_section idle strict opens other stays).1
      exact absurd (skips.spans.trans idle.1) inside

theorem completeSections_swap {o : ScanOptions} {before xs ys : List String}
    (inside : (Scan.after o {} before).spans ≠ []) (hx : o.glyphs.WellNested xs)
    (hy : o.glyphs.WellNested ys) (rest : List String) :
    List.Forall₂ (fun a b => (o.glyphs.spansFrom [] a).Perm (o.glyphs.spansFrom [] b))
      (completeSections o (before ++ (xs ++ ys ++ rest)))
      (completeSections o (before ++ (ys ++ xs ++ rest))) := by
  obtain ⟨done, first, inner, opens, stays, deep, cut⟩ :=
    (segmented o before).of_inside (s := {}) ⟨rfl, rfl⟩ inside
  have unmoved (sections : List (List String)) : List.Forall₂
      (fun a b => (o.glyphs.spansFrom [] a).Perm (o.glyphs.spansFrom [] b)) sections sections :=
    List.forall₂_same.2 fun _ _ => .refl _
  have swapped := (hx.append hy).stays deep
  have unswapped := (hy.append hx).stays deep
  rw [cut, cut, completeSections, completeSections, segments_wanted opens, segments_wanted opens,
    Glyphs.balance_append stays, Glyphs.balance_append stays, Glyphs.balance_append swapped.1,
    Glyphs.balance_append unswapped.1, swapped.2, unswapped.2]
  apply List.rel_append (unmoved done)
  cases o.glyphs.balance (o.glyphs.depthAfter 1 inner) rest with
  | none => exact .nil
  | some cut =>
      refine .cons ?_ (unmoved _)
      exact Glyphs.perm_spansFrom_swap hx hy [] (first :: inner) cut.1

/-- In no complete section do the cycles of a label path add up beyond what is exact. -/
def SafeCycles (o : ScanOptions) (lines : List String) : Prop :=
  ∀ section_ ∈ completeSections o lines, ∀ path,
    ((spansAt path (o.glyphs.spansFrom [] section_)).map Span.cycles).sum ≤ Binary64.maxSafe

/-- A path takes only some of the counts of its section. -/
theorem safeCycles_of_sum_le {o : ScanOptions} {lines : List String}
    (h : ∀ section_ ∈ completeSections o lines,
      ((o.glyphs.spansFrom [] section_).map Span.cycles).sum ≤ Binary64.maxSafe) :
    SafeCycles o lines := by
  intro section_ mem path
  have some_ : (spansAt path (o.glyphs.spansFrom [] section_)).Sublist
    (o.glyphs.spansFrom [] section_) := List.filter_sublist
  exact Nat.le_trans ((some_.map Span.cycles).sum_le_sum fun _ _ => Nat.zero_le _) (h section_ mem)

namespace Scan

/-- Two passes that differ at most in what they have merged. -/
structure Alike (s t : Scan) : Prop where
  stats : s.stats = t.stats
  spans : s.spans.map OpenSpan.bare = t.spans.map OpenSpan.bare
  skipDepth : s.skipDepth = t.skipDepth
  issues : s.issues = t.issues

theorem Alike.note {s t : Scan} (h : Alike s t) (line : Nat) (anomaly : Anomaly) :
    Alike (s.note line anomaly) (t.note line anomaly) := by
  rw [Scan.note, Scan.note, h.issues]
  split
  · exact ⟨h.stats, h.spans, h.skipDepth, rfl⟩
  · exact h

theorem Alike.step {o : ScanOptions} {s t s' : Scan} {marker : Marker} (h : Alike s t)
    (step : Step o s marker s') : ∃ t', Step o t marker t' ∧ Alike s' t' := by
  obtain ⟨stats, spans, skipDepth, sections, issues⟩ := t
  obtain ⟨rfl, bare, rfl, rfl⟩ := h
  have empty : s.spans = [] ↔ spans = [] := by
    rw [← List.map_eq_nil_iff (f := OpenSpan.bare), bare, List.map_eq_nil_iff]
  cases step with
  | ignored => exact ⟨_, .ignored, rfl, bare, rfl, rfl⟩
  | openDeeper label skipping => exact ⟨_, .openDeeper label skipping, rfl, bare, rfl, rfl⟩
  | openSkipped label awake outside other =>
      refine ⟨_, .openSkipped label awake (empty.1 outside) other, ?_⟩
      apply Alike.note
      exact ⟨rfl, bare, rfl, rfl⟩
  | openSpan label awake wanted =>
      exact ⟨_, .openSpan label awake fun outside => wanted (empty.2 outside), rfl,
        congrArg (_ :: ·) bare, rfl, rfl⟩
  | closeDeeper cycles skipping => exact ⟨_, .closeDeeper cycles skipping, rfl, bare, rfl, rfl⟩
  | closeUnmatched cycles awake outside =>
      refine ⟨_, .closeUnmatched cycles awake (empty.1 outside), ?_⟩
      apply Alike.note
      exact ⟨rfl, bare, rfl, rfl⟩
  | closeSection cycles span awake inside =>
      rw [inside, List.map_singleton, eq_comm, List.map_eq_singleton_iff] at bare
      obtain ⟨span', inside', _⟩ := bare
      exact ⟨_, .closeSection cycles span' awake inside', rfl, rfl, rfl, rfl⟩
  | closeInner cycles span parent outer awake inside =>
      rw [inside, eq_comm, List.map_cons, List.map_cons, List.map_eq_cons_iff] at bare
      obtain ⟨span', rest, inside', _, bare⟩ := bare
      obtain ⟨parent', outer', rfl, parents, outers⟩ := List.map_eq_cons_iff.1 bare
      exact ⟨_, .closeInner cycles span' parent' outer' awake inside', rfl,
        (List.cons_eq_cons.2 ⟨parents, outers⟩).symm, rfl, rfl⟩

theorem Alike.after {o : ScanOptions} {s t : Scan} (h : Alike s t) (lines : List String) :
    Alike (s.after o lines) (t.after o lines) := by
  induction lines generalizing s t with
  | nil => exact h
  | cons line rest ih =>
      obtain ⟨t', step, alike⟩ := h.step (step_push o s line)
      rw [after_cons, after_cons, step.push_eq]
      exact ih alike

theorem Alike.finish {s t : Scan} (h : Alike s t) (few : s.issues.length ≤ maxIssues) :
    s.finish.stats = t.finish.stats ∧ s.finish.issues = t.finish.issues := by
  have unclosed (spans : List OpenSpan) : spans.map OpenSpan.unclosed =
      (spans.map OpenSpan.bare).map OpenSpan.unclosed := by
    rw [List.map_map]
    rfl
  have depth := congrArg List.length h.spans
  rw [List.length_map, List.length_map] at depth
  constructor
  · rw [stats_finish, stats_finish, h.stats, depth]
  · rw [issues_finish few, issues_finish (h.issues ▸ few), List.map_reverse, List.map_reverse,
      unclosed, unclosed t.spans, h.spans, h.issues]

/-- Two blocks leave the same behind in either order, and so do the lines after them. -/
theorem alike_swap {o : ScanOptions} {s : Scan} {xs ys : List String}
    (hx : o.glyphs.WellNested xs) (hy : o.glyphs.WellNested ys) (awake : s.skipDepth = 0)
    (inside : s.spans ≠ []) (rest : List String) :
    Alike (s.after o (xs ++ ys ++ rest)) (s.after o (ys ++ xs ++ rest)) := by
  obtain ⟨awakex, statsx, issuesx, spansx⟩ := after_wellNested (hx.append hy) awake inside
  obtain ⟨awakey, statsy, issuesy, spansy⟩ := after_wellNested (hy.append hx) awake inside
  rw [after_append, after_append o s (ys ++ xs)]
  apply Alike.after
  refine ⟨?_, spansx.trans spansy.symm, awakex.trans awakey.symm, issuesx.trans issuesy.symm⟩
  rw [statsx, statsy]
  simp only [List.length_append, Glyphs.opensIn_append, Glyphs.closesIn_append, Nat.add_comm]

theorem reordered_swap {o : ScanOptions} {before xs ys rest : List String}
    (inside : (after o {} before).spans ≠ []) (hx : o.glyphs.WellNested xs)
    (hy : o.glyphs.WellNested ys) {α : Type} {value : Node → α}
    (sections : ∀ section_ ∈ completeSections o (before ++ (xs ++ ys ++ rest)),
      ∀ (f g : Forest) (ts : List Span), f.Tallies (o.glyphs.spansFrom [] section_) →
        g.Tallies ts → (o.glyphs.spansFrom [] section_).Perm ts → f.Reordered value g) :
    (((after o {} before).after o (xs ++ ys ++ rest)).finish.profile).Reordered value
      ((after o {} before).after o (ys ++ xs ++ rest)).finish.profile := by
  have levels : Levels o (after o {} before) :=
    after_induction (fun _ _ _ h step => h.step step) (kept_start o).levels before
  have awake : (after o {} before).skipDepth = 0 :=
    Nat.eq_zero_of_not_pos fun deep => inside (levels.skipping deep)
  have few := length_issues_after_le o (before ++ (xs ++ ys ++ rest))
  rw [after_append] at few
  obtain ⟨stats, issues⟩ := (alike_swap hx hy awake inside rest).finish few
  refine ⟨stats, issues, ?_⟩
  have swapped := completeSections_swap inside hx hy rest
  have left := roots_tally o (before ++ (xs ++ ys ++ rest))
  have right := roots_tally o (before ++ (ys ++ xs ++ rest))
  rw [after_append] at left right
  rw [List.forall₂_iff_get] at left right swapped ⊢
  refine ⟨left.1.trans (swapped.1.trans right.1.symm), fun i hp hq => ?_⟩
  have hl := left.1 ▸ hp
  have hr := right.1 ▸ hq
  exact sections _ (List.getElem_mem hl) _ _ _ (left.2 i hp hl) (right.2 i hq hr)
    (swapped.2 i hl hr)

/-- Two blocks inside a section can change places: the profile is the same but for the order of
the children in its roots. -/
theorem profile_swap (o : ScanOptions) (before xs ys rest : List String)
    (inside : (after o {} before).spans ≠ []) (hx : o.glyphs.WellNested xs)
    (hy : o.glyphs.WellNested ys) :
    let lines := before ++ (xs ++ ys ++ rest)
    let p := ((after o {} before).after o (xs ++ ys ++ rest)).finish.profile
    let q := ((after o {} before).after o (ys ++ xs ++ rest)).finish.profile
    p.Reordered Node.label q ∧
      (lines.length ≤ Binary64.maxSafe → p.Reordered Node.calls q) ∧
      (SafeCycles o lines → p.Reordered Node.cycles q) := by
  intro lines p q
  refine ⟨?_, fun few => ?_, fun safe => ?_⟩
  · apply reordered_swap inside hx hy
    intro section_ _ f g ts hf hg same
    exact hf.reordered_label hg same
  · apply reordered_swap inside hx hy
    intro section_ mem f g ts hf hg same
    have short := length_le_of_mem_completeSections mem
    have spans := o.glyphs.length_spansFrom_le [] section_
    exact hf.reordered_calls hg same (Nat.le_trans spans (Nat.le_trans short few))
  · apply reordered_swap inside hx hy
    intro section_ mem f g ts hf hg same
    exact hf.reordered_cycles hg same (safe section_ mem)

theorem profile_swap_shared_labels :
    let o : ScanOptions := { topLevelLabel := "A", strictSections := true }
    let before := ["┌╴B", "└╴1", "┌╴A", "│ ┌╴F", "│ │ ┌╴B", "│ │ └╴x"]
    let xs := ["┌╴B", "└╴2", "┌╴C", "└╴1,003 cycles"]
    let ys := ["┌╴C", "│ ┌╴B", "│ └╴5", "note", "└╴7"]
    let rest := ["│ │ └╴11", "│ └╴13", "└╴17", "┌╴A"]
    let lines := before ++ (xs ++ ys ++ rest)
    let p := ((after o {} before).after o (xs ++ ys ++ rest)).finish.profile
    let q := ((after o {} before).after o (ys ++ xs ++ rest)).finish.profile
    (after o {} before).spans ≠ [] ∧ o.glyphs.WellNested xs ∧ o.glyphs.WellNested ys ∧
      lines.length ≤ Binary64.maxSafe ∧ SafeCycles o lines ∧
      p.Reordered Node.label q ∧ p.Reordered Node.calls q ∧ p.Reordered Node.cycles q := by
  intro o before xs ys rest lines p q
  have inside : (after o {} before).spans ≠ [] := by decide +kernel
  have hx : o.glyphs.WellNested xs := by decide +kernel
  have hy : o.glyphs.WellNested ys := by decide +kernel
  have few : lines.length ≤ Binary64.maxSafe := by decide
  have safe : SafeCycles o lines := safeCycles_of_sum_le (by decide +kernel)
  obtain ⟨label, calls, cycles⟩ := profile_swap o before xs ys rest inside hx hy
  exact ⟨inside, hx, hy, few, safe, label, calls few, cycles safe⟩

end Scan
end CallCost
