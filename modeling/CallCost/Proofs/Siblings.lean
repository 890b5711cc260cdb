import CallCost.CallTree.Merge

/-!
A row of siblings as a table from labels to nodes. Merging two rows merges the nodes of each
label that both have; the labels keep the order of the first row, and those that only the second
has follow in its order.
-/

namespace CallCost
namespace Forest

def labels : Forest → List String
  | nil => []
  | cons label _ _ _ siblings => label :: siblings.labels

/-- Siblings have distinct labels, here and below. -/
def Distinct : Forest → Prop
  | nil => True
  | cons label _ _ children siblings =>
      label ∉ siblings.labels ∧ children.Distinct ∧ siblings.Distinct

theorem labels_append (f g : Forest) : (f ++ g).labels = f.labels ++ g.labels := by
  induction f with
  | nil => rfl
  | cons label calls cycles children siblings _ ih => exact congrArg (label :: ·) ih

theorem ofNodes_append (ms ns : List Node) :
    ofNodes (ms ++ ns) = ofNodes ms ++ ofNodes ns := by
  induction ms with
  | nil => rfl
  | cons n rest ih => exact congrArg (cons n.label n.calls n.cycles n.children) ih

theorem find?_eq_none_iff (f : Forest) (label : String) :
    f.find? label = none ↔ label ∉ f.labels := by
  induction f with
  | nil => simp only [find?, labels, List.not_mem_nil, not_false_eq_true]
  | cons l calls cycles children siblings _ ih =>
      simp only [find?, labels, List.mem_cons, not_or]
      split
      · rename_i h
        simp only [reduceCtorEq, false_iff, not_and]
        exact fun hne => absurd h.symm hne
      · rename_i h
        rw [ih]
        exact ⟨fun hs => ⟨Ne.symm h, hs⟩, And.right⟩

theorem label_of_find? {f : Forest} {label : String} {n : Node}
    (h : f.find? label = some n) : n.label = label := by
  induction f with
  | nil => cases h
  | cons l calls cycles children siblings _ ih =>
      rw [find?] at h
      split at h
      · cases h
        assumption
      · exact ih h

theorem find?_toForest (n : Node) (label : String) :
    n.toForest.find? label = if n.label = label then some n else none := rfl

theorem Distinct.nodup_labels {f : Forest} (h : f.Distinct) : f.labels.Nodup := by
  induction f with
  | nil => exact List.nodup_nil
  | cons label calls cycles children siblings _ ih =>
      exact List.nodup_cons.2 ⟨h.1, ih h.2.2⟩

theorem Distinct.find? {f : Forest} {label : String} {n : Node} (h : f.Distinct)
    (found : f.find? label = some n) : n.children.Distinct := by
  induction f with
  | nil => cases found
  | cons l calls cycles children siblings _ ih =>
      simp only [Forest.find?] at found
      split at found
      · cases found
        exact h.2.1
      · exact ih h.2.2 found

section Insert

variable (mergeChildren : Forest → Forest) (n : Node)

theorem labels_insertWith (f : Forest) :
    (f.insertWith mergeChildren n).labels =
      if n.label ∈ f.labels then f.labels else f.labels ++ [n.label] := by
  induction f with
  | nil => rfl
  | cons label calls cycles children siblings _ ih =>
      simp only [insertWith]
      by_cases h : label = n.label
      · simp only [h, if_true, labels, List.mem_cons, true_or]
      · simp only [if_neg h, labels, ih, List.mem_cons, Ne.symm h, false_or, List.cons_append]
        split <;> rfl

theorem find?_insertWith_self (f : Forest) :
    (f.insertWith mergeChildren n).find? n.label =
      some (match f.find? n.label with
        | none => n
        | some m =>
            ⟨m.label, m.calls + n.calls, m.cycles + n.cycles, mergeChildren m.children⟩) := by
  induction f with
  | nil => simp only [insertWith, find?_toForest, if_true, find?]
  | cons label calls cycles children siblings _ ih =>
      simp only [insertWith]
      by_cases h : label = n.label
      · simp only [if_pos h, find?]
      · simp only [if_neg h, find?, ih]

theorem find?_insertWith_of_ne (f : Forest) {label : String} (hne : n.label ≠ label) :
    (f.insertWith mergeChildren n).find? label = f.find? label := by
  induction f with
  | nil => simp only [insertWith, find?_toForest, if_neg hne, find?]
  | cons l calls cycles children siblings _ ih =>
      simp only [insertWith]
      by_cases h : l = n.label
      · subst h
        simp only [if_true, find?, if_neg hne]
      · simp only [if_neg h, find?, ih]

theorem distinct_insertWith {f : Forest} (hf : f.Distinct) (hn : n.children.Distinct)
    (hm : ∀ children : Forest, children.Distinct → (mergeChildren children).Distinct) :
    (f.insertWith mergeChildren n).Distinct := by
  induction f with
  | nil => exact ⟨List.not_mem_nil, hn, True.intro⟩
  | cons label calls cycles children siblings _ ih =>
      simp only [insertWith]
      by_cases h : label = n.label
      · rw [if_pos h]
        exact ⟨hf.1, hm children hf.2.1, hf.2.2⟩
      · rw [if_neg h]
        refine ⟨?_, hf.2.1, ih hf.2.2⟩
        rw [labels_insertWith]
        split
        · exact hf.1
        · simp only [List.mem_append, List.mem_singleton, h, or_false]
          exact hf.1

end Insert

theorem distinct_merge (f g : Forest) (hf : f.Distinct) (hg : g.Distinct) :
    (f.merge g).Distinct := by
  induction g generalizing f with
  | nil => simpa only [merge] using hf
  | cons label calls cycles children siblings ihc ihs =>
      simp only [merge]
      apply ihs _ _ hg.2.2
      exact distinct_insertWith _ _ hf hg.2.1 fun below hb => ihc below hb hg.2.1

theorem labels_merge (f g : Forest) (hg : g.labels.Nodup) :
    (f.merge g).labels = f.labels ++ g.labels.filter (· ∉ f.labels) := by
  induction g generalizing f with
  | nil => simp only [merge, labels, List.filter_nil, List.append_nil]
  | cons label calls cycles children siblings _ ih =>
      obtain ⟨fresh, rest⟩ := List.nodup_cons.1 hg
      simp only [merge, ih _ rest, labels_insertWith, labels]
      by_cases h : label ∈ f.labels
      · simp only [h, if_true, List.filter_cons, not_true_eq_false, decide_false,
          Bool.false_eq_true, if_false]
      · simp only [h, if_false, List.filter_cons, not_false_eq_true, decide_true, if_true,
          List.append_assoc, List.singleton_append, List.mem_append, List.mem_singleton]
        -- The inserted label is none of the rest, so the filter does not see it.
        congr 2
        apply List.filter_congr
        intro l hl
        have hne : l ≠ label := fun e => fresh (e ▸ hl)
        simp only [hne, or_false]

/-- A label that both rows have stands for the union of its two nodes afterwards. -/
theorem find?_merge (f g : Forest) (label : String) (hg : g.labels.Nodup) :
    (f.merge g).find? label = Option.merge Node.merge (f.find? label) (g.find? label) := by
  induction g generalizing f with
  | nil => simp only [merge, find?, Option.merge_none_right]
  | cons l calls cycles children siblings _ ih =>
      obtain ⟨fresh, rest⟩ := List.nodup_cons.1 hg
      simp only [merge, ih _ rest]
      by_cases h : l = label
      · subst h
        rw [(find?_eq_none_iff siblings l).2 fresh, Option.merge_none_right]
        have here := find?_insertWith_self (fun below => below.merge children)
          ⟨l, calls, cycles, children⟩ f
        simp only at here
        rw [here, find?, if_pos rfl]
        cases f.find? l <;> rfl
      · rw [find?_insertWith_of_ne _ _ _ h, find?, if_neg h]

end Forest
end CallCost
