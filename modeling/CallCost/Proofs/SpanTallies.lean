import CallCost.Proofs.TreePaths
import CallCost.Proofs.WholeNumbers

/-!
A forest as the tally of spans that were completed one by one. Each node stands for the spans
with its label path: it has as many calls as there are such spans and their cycles in sum, and
its children are in the order in which their labels were first completed. Merging two forests
gives the tally of both lists of spans, the first in front.
-/

namespace CallCost
open Binary64 (AddsUp)

/-- A completed span: the labels from the outermost span down to its own, and its cycle count. -/
structure Span where
  path : List String
  cycles : Nat
  deriving DecidableEq

/-- The same span seen from further out. -/
def Span.inside (outer : List String) (s : Span) : Span :=
  ⟨outer ++ s.path, s.cycles⟩

theorem Span.inside_comp (outer inner : List String) :
    Span.inside outer ∘ Span.inside inner = Span.inside (outer ++ inner) := by
  funext s
  simp only [Function.comp, Span.inside, List.append_assoc]

def spansAt (path : List String) (spans : List Span) : List Span :=
  spans.filter (·.path = path)

theorem length_spansAt_le (path : List String) (spans : List Span) :
    (spansAt path spans).length ≤ spans.length :=
  List.length_filter_le ..

/-- The labels of the spans right below a path, one for each span. -/
def labelsBelow (path : List String) (spans : List Span) : List String :=
  spans.filterMap fun s => if s.path.dropLast = path then s.path.getLast? else none

theorem spansAt_append (path : List String) (ss ts : List Span) :
    spansAt path (ss ++ ts) = spansAt path ss ++ spansAt path ts :=
  List.filter_append ..

theorem labelsBelow_append (path : List String) (ss ts : List Span) :
    labelsBelow path (ss ++ ts) = labelsBelow path ss ++ labelsBelow path ts :=
  List.filterMap_append ..

theorem mem_labelsBelow {path : List String} {label : String} {spans : List Span} :
    label ∈ labelsBelow path spans ↔ spansAt (path ++ [label]) spans ≠ [] := by
  rw [labelsBelow, List.mem_filterMap, spansAt, ← List.length_pos_iff, List.length_filter_pos_iff]
  constructor
  · rintro ⟨s, hs, h⟩
    refine ⟨s, hs, ?_⟩
    split at h
    · rename_i front
      obtain ⟨outer, path_eq⟩ := List.getLast?_eq_some_iff.1 h
      rw [decide_eq_true_iff, ← front, path_eq, List.dropLast_concat]
    · cases h
  · rintro ⟨s, hs, h⟩
    rw [decide_eq_true_iff] at h
    refine ⟨s, hs, ?_⟩
    rw [h, List.dropLast_concat, if_pos rfl, List.getLast?_concat]

theorem eraseDups_filter (labels : List String) (keep : String → Bool) :
    (labels.filter keep).eraseDups = labels.eraseDups.filter keep := by
  -- On the length and not on the list, as eraseDups goes on with a filtered list.
  induction h : labels.length using Nat.strongRecOn generalizing labels with
  | ind n ih =>
      cases labels with
      | nil => rfl
      | cons label rest =>
          have shorter : (rest.filter fun l => !l == label).length < n := by
            have := List.length_filter_le (fun l => !l == label) rest
            rw [List.length_cons] at h
            omega
          have swapped := ih _ shorter _ rfl
          rw [List.filter_filter] at swapped
          rw [List.eraseDups_cons]
          by_cases hk : keep label = true
          · rw [List.filter_cons_of_pos hk, List.filter_cons_of_pos hk, List.eraseDups_cons,
              List.filter_filter, ← swapped]
            congr 3
            funext l
            exact Bool.and_comm _ _
          · rw [List.filter_cons_of_neg hk, List.filter_cons_of_neg hk, ← swapped]
            congr 1
            apply List.filter_congr
            intro l _
            by_cases hl : l = label
            · subst hl
              simp only [Bool.eq_false_iff.2 hk, Bool.false_and]
            · simp only [beq_eq_false_iff_ne.2 hl, Bool.not_false, Bool.and_true]

/-- The node counts exactly the given spans. -/
def Node.Counts (n : Node) (spans : List Span) : Prop :=
  AddsUp (spans.map fun _ => 1) n.calls ∧ AddsUp (spans.map Span.cycles) n.cycles

theorem Node.Counts.merge {m n : Node} {ss ts : List Span} (hm : m.Counts ss)
    (hn : n.Counts ts) : (m.merge n).Counts (ss ++ ts) := by
  rw [Node.Counts, List.map_append, List.map_append]
  exact ⟨.add hm.1 hn.1, .add hm.2 hn.2⟩

theorem Node.Counts.calls_eq {n : Node} {spans : List Span} (h : n.Counts spans)
    (few : spans.length ≤ Binary64.maxSafe) : n.calls = .ofNat spans.length := by
  have ones : (spans.map fun _ => 1).sum = spans.length := by
    rw [List.map_const', List.sum_replicate_nat, Nat.mul_one]
  rw [h.1.eq_ofNat (ones.symm ▸ few), ones]

namespace Forest

theorem at?_merge (f g : Forest) (hg : g.Distinct) (path : List String) :
    (f.merge g).at? path = Option.merge Node.merge (f.at? path) (g.at? path) := by
  rcases List.eq_nil_or_concat path with rfl | ⟨front, label, rfl⟩
  · rfl
  · rw [List.concat_eq_append, at?_concat, at?_concat, at?_concat, under_merge f g hg,
      find?_merge _ _ _ (hg.under front).nodup_labels]

structure Tallies (f : Forest) (spans : List Span) : Prop where
  distinct : f.Distinct
  /-- No span is the whole forest. -/
  nonempty : ∀ s ∈ spans, s.path ≠ []
  order : ∀ path, (f.under path).labels = (labelsBelow path spans).eraseDups
  counts : ∀ path n, f.at? path = some n → n.Counts (spansAt path spans)

theorem tallies_nil : nil.Tallies [] where
  distinct := True.intro
  nonempty := fun _ h => absurd h List.not_mem_nil
  order := fun path => by
    rw [under_nil]
    rfl
  counts := fun path n h => by
    rw [at?_nil] at h
    cases h

/-- A path without a node is one that no span has. -/
theorem Tallies.at?_eq_none {f : Forest} {spans : List Span} (h : f.Tallies spans)
    {path : List String} : f.at? path = none ↔ spansAt path spans = [] := by
  rcases List.eq_nil_or_concat path with rfl | ⟨front, label, rfl⟩
  · refine iff_of_true rfl (List.filter_eq_nil_iff.2 fun s hs => ?_)
    rw [decide_eq_true_iff]
    exact h.nonempty s hs
  · rw [List.concat_eq_append, at?_concat, find?_eq_none_iff, h.order, List.mem_eraseDups,
      mem_labelsBelow, Decidable.not_not]

theorem Tallies.merge {f g : Forest} {ss ts : List Span} (hf : f.Tallies ss)
    (hg : g.Tallies ts) : (f.merge g).Tallies (ss ++ ts) where
  distinct := distinct_merge f g hf.distinct hg.distinct
  nonempty := fun s hs => (List.mem_append.1 hs).elim (hf.nonempty s) (hg.nonempty s)
  order := fun path => by
    rw [under_merge f g hg.distinct, labels_merge _ _ (hg.distinct.under path).nodup_labels,
      hf.order, hg.order, labelsBelow_append, List.eraseDups_append, List.removeAll,
      eraseDups_filter]
    congr 1
    apply List.filter_congr
    intro l _
    rw [List.elem_eq_mem, ← decide_not]
    exact decide_eq_decide.2 (not_congr List.mem_eraseDups)
  counts := fun path n h => by
    rw [at?_merge f g hg.distinct] at h
    rw [spansAt_append]
    cases hm : f.at? path with
    | none =>
        rw [hm, Option.merge_none_left] at h
        rw [hf.at?_eq_none.1 hm]
        exact hg.counts path n h
    | some m =>
        cases hk : g.at? path with
        | none =>
            rw [hm, hk, Option.merge_none_right] at h
            rw [hg.at?_eq_none.1 hk, List.append_nil]
            exact hf.counts path n (hm.trans h)
        | some k =>
            rw [hm, hk] at h
            cases h
            exact (hf.counts path m hm).merge (hg.counts path k hk)

end Forest

section Inside

variable (label : String) (spans : List Span)

theorem spansAt_inside (path : List String) :
    spansAt (label :: path) (spans.map (Span.inside [label])) =
      (spansAt path spans).map (Span.inside [label]) := by
  rw [spansAt, spansAt, List.filter_map]
  congr 1
  apply List.filter_congr
  intro s _
  simp only [Function.comp, Span.inside, List.singleton_append, List.cons.injEq, true_and]

theorem labelsBelow_inside (path : List String) :
    labelsBelow (label :: path) (spans.map (Span.inside [label])) = labelsBelow path spans := by
  rw [labelsBelow, labelsBelow, List.filterMap_map]
  congr 1
  funext s
  cases hs : s.path with
  | nil => simp [Span.inside, hs]
  | cons l rest => simp [Span.inside, hs]

theorem labelsBelow_inside_of_ne {l : String} (h : label ≠ l) (path : List String) :
    labelsBelow (l :: path) (spans.map (Span.inside [label])) = [] := by
  rw [labelsBelow, List.filterMap_map, List.filterMap_eq_nil_iff]
  intro s _
  cases hs : s.path with
  | nil => simp [Span.inside, hs]
  | cons l rest => simp [Span.inside, hs, h]

theorem labelsBelow_nil_inside (nonempty : ∀ s ∈ spans, s.path ≠ []) :
    labelsBelow [] (spans.map (Span.inside [label])) = [] := by
  rw [labelsBelow, List.filterMap_map, List.filterMap_eq_nil_iff]
  intro s hs
  cases h : s.path with
  | nil => exact absurd h (nonempty s hs)
  | cons l rest => simp [Span.inside, h]

end Inside

theorem Node.Counts.inside {n : Node} {spans : List Span} (h : n.Counts spans)
    (outer : List String) : n.Counts (spans.map (Span.inside outer)) := by
  rw [Node.Counts, List.map_map, List.map_map]
  exact h

/-- The node of a completed span is the tally of that span and the spans in it. -/
theorem Forest.tallies_toForest {n : Node} {spans : List Span} {cycles : Nat}
    (h : n.children.Tallies spans) (counts : n.Counts [⟨[n.label], cycles⟩]) :
    n.toForest.Tallies (spans.map (Span.inside [n.label]) ++ [⟨[n.label], cycles⟩]) where
  distinct := distinct_toForest h.distinct
  nonempty := fun s hs => by
    rcases List.mem_append.1 hs with hs | hs
    · obtain ⟨s, _, rfl⟩ := List.mem_map.1 hs
      exact List.cons_ne_nil _ _
    · rw [List.mem_singleton.1 hs]
      exact List.cons_ne_nil _ _
  order := fun path => by
    rw [labelsBelow_append]
    cases path with
    | nil =>
        rw [labelsBelow_nil_inside _ _ h.nonempty]
        rfl
    | cons l rest =>
        rw [under_toForest_cons]
        change _ = (labelsBelow (l :: rest) _ ++ []).eraseDups
        rw [List.append_nil]
        by_cases here : n.label = l
        · rw [if_pos here, h.order, ← here, labelsBelow_inside]
        · rw [if_neg here, labelsBelow_inside_of_ne _ _ here]
          rfl
  counts := fun path m hm => by
    cases path with
    | nil => cases hm
    | cons l rest =>
        rw [at?_toForest_cons] at hm
        rw [spansAt_append]
        split at hm
        · rename_i here
          subst here
          rw [spansAt_inside]
          split at hm
          · rename_i own
            subst own
            cases hm
            have none_own : spansAt [] spans = [] := h.at?_eq_none.1 rfl
            rw [none_own]
            simpa [spansAt] using counts
          · rename_i deeper
            have not_own : spansAt (n.label :: rest) [⟨[n.label], cycles⟩] = [] := by
              simp [spansAt, Ne.symm deeper]
            rw [not_own, List.append_nil]
            exact (h.counts rest m hm).inside _
        · cases hm

end CallCost
