import CallCost.CallTree.Stored

/-!
Trees with keys and the same trees without them. As long as every node is stored under its own
label, looking up by key and by label find the same node, so that merging keeps every node under its
own label and is the merging of the plain trees.
-/

namespace CallCost
namespace StoredForest

/-! ### Keys are labels -/

theorem Keyed.get? {f : StoredForest} (h : f.Keyed) {key : String} {n : StoredNode}
    (found : f.get? key = some n) : n.label = key ∧ n.children.Keyed := by
  induction f with
  | nil => cases found
  | cons k label calls cycles children entries _ ih =>
      obtain ⟨same, below, beside⟩ := h
      rw [StoredForest.get?] at found
      split at found
      · cases found
        exact ⟨same.symm.trans ‹_›, below⟩
      · exact ih beside found

theorem Keyed.set {f : StoredForest} (h : f.Keyed) {key : String} {n : StoredNode}
    (same : n.label = key) (below : n.children.Keyed) : (f.set key n).Keyed := by
  induction f with
  | nil => exact ⟨same.symm, below, True.intro⟩
  | cons k label calls cycles children entries _ ih =>
      rw [StoredForest.set]
      split
      · rename_i here
        exact ⟨here.trans same.symm, below, h.2.2⟩
      · exact ⟨h.1, h.2.1, ih h.2.2⟩

theorem Keyed.merge {f g : StoredForest} (hf : f.Keyed) (hg : g.Keyed) : (f.merge g).Keyed := by
  induction g generalizing f with
  | nil => exact hf
  | cons key label calls cycles children entries ihc ihe =>
      obtain ⟨own, below, beside⟩ := hg
      rw [StoredForest.merge]
      cases found : f.get? key with
      | none => exact ihe (hf.set own.symm below) beside
      | some target =>
          obtain ⟨same, inner⟩ := hf.get? found
          exact ihe (hf.set same (ihc inner below)) beside

theorem Keyed.add {f : StoredForest} (hf : f.Keyed) {n : StoredNode} (hn : n.children.Keyed) :
    (f.add n).Keyed := by
  rw [StoredForest.add]
  cases found : f.get? n.label with
  | none => exact hf.set rfl hn
  | some existing =>
      obtain ⟨same, inner⟩ := hf.get? found
      exact hf.set same (inner.merge hn)

/-! ### Forgetting the keys -/

section

variable (mergeChildren : Forest → Forest)

/-- A node whose key is new comes last, with or without its key. -/
theorem plain_set_new {f : StoredForest} (h : f.Keyed) {n : StoredNode}
    (fresh : f.get? n.label = none) :
    (f.set n.label n).plain = f.plain.insertWith mergeChildren n.plain := by
  induction f with
  | nil => rfl
  | cons k label calls cycles children entries _ ih =>
      obtain ⟨rfl, -, beside⟩ := h
      rw [get?] at fresh
      split at fresh
      · cases fresh
      · rename_i other
        have other' : k ≠ n.plain.label := other
        rw [set, if_neg other, plain, plain, Forest.insertWith, if_neg other', ih beside fresh]

/-- The union of two nodes takes the place of the first one, with or without its key. -/
theorem plain_set_merged {f : StoredForest} (h : f.Keyed) {target n : StoredNode}
    (found : f.get? n.label = some target)
    (below : (target.children.merge n.children).plain = mergeChildren target.children.plain) :
    (f.set n.label (target.merge n)).plain = f.plain.insertWith mergeChildren n.plain := by
  induction f with
  | nil => cases found
  | cons k label calls cycles children entries _ ih =>
      obtain ⟨rfl, -, beside⟩ := h
      rw [get?] at found
      split at found
      · rename_i same
        have same' : k = n.plain.label := same
        cases found
        rw [set, if_pos same, plain, plain, Forest.insertWith, if_pos same', StoredNode.merge,
          below]
        rfl
      · rename_i other
        have other' : k ≠ n.plain.label := other
        rw [set, if_neg other, plain, plain, Forest.insertWith, if_neg other', ih beside found]

end

/-- Merging and forgetting the keys commute. -/
theorem plain_merge {f g : StoredForest} (hf : f.Keyed) (hg : g.Keyed) :
    (f.merge g).plain = f.plain.merge g.plain := by
  induction g generalizing f with
  | nil => rfl
  | cons key label calls cycles children entries ihc ihe =>
      obtain ⟨rfl, below, beside⟩ := hg
      let n : StoredNode := ⟨key, calls, cycles, children⟩
      rw [merge, plain, Forest.merge]
      cases found : f.get? key with
      | none =>
          have keyed := hf.set (n := n) rfl below
          have placed := plain_set_new (n := n) (fun below => below.merge children.plain) hf found
          exact (ihe keyed beside).trans (congrArg (·.merge entries.plain) placed)
      | some target =>
          obtain ⟨same, inner⟩ := hf.get? found
          have keyed := hf.set (n := target.merge n) same (inner.merge below)
          have placed := plain_set_merged (n := n) (fun below => below.merge children.plain) hf
            found (ihc inner below)
          exact (ihe keyed beside).trans (congrArg (·.merge entries.plain) placed)

theorem plain_add {f : StoredForest} (hf : f.Keyed) {n : StoredNode} (hn : n.children.Keyed) :
    (f.add n).plain = f.plain.add n.plain := by
  rw [add]
  cases found : f.get? n.label with
  | none => exact plain_set_new _ hf found
  | some existing =>
      exact plain_set_merged _ hf found (plain_merge (hf.get? found).2 hn)

end StoredForest
end CallCost
