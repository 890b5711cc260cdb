import CallCost.Proofs.CallSums
import CallCost.Proofs.CallWalk
import CallCost.Proofs.MergedTotals
import Mathlib.Algebra.BigOperators.Group.List.Basic
import Mathlib.Data.List.Nodup

/-!
The entries of the flat totals beside the roots of the forest. The own costs of all entries add up
to what the roots cost, and to more only where a node costs less than its children. In a forest
without such a node an entry never counts a cycle twice: of the nodes with its label the outermost
ones cover all the others, and the roots cover them.
-/

namespace CallCost

open Binary64

namespace Forest

/-! ### All entries together -/

theorem sum_atLabel {labels : List String} (nodup : labels.Nodup) {n : Node}
    (h : n.label ∈ labels) (value : Node → Nat) (above : List String) :
    (labels.map fun label => atLabel label value above n).sum = value n := by
  have other (l : String) (ne : l ≠ n.label) (_ : l ∈ labels) : atLabel l value above n = 0 :=
    if_neg (Ne.symm ne)
  rw [List.sum_map_eq_nsmul_single n.label _ other, List.count_eq_one_of_mem nodup h, one_nsmul]
  exact if_pos rfl

/-- Every node counts for one label. -/
theorem sum_sumFrom_atLabel {labels : List String} (nodup : labels.Nodup) {f : Forest}
    (all : ∀ label ∈ f.preorderLabels, label ∈ labels) (value : Node → Nat)
    (above : List String) :
    (labels.map fun label => f.sumFrom (atLabel label value) above).sum = f.sum value := by
  induction f generalizing above with
  | nil => simp [sumFrom, sum]
  | cons label calls cycles children siblings ihc ihs =>
      rw [preorderLabels_cons, List.forall_mem_cons, List.forall_mem_append] at all
      obtain ⟨here, below, beside⟩ := all
      have own := sum_atLabel nodup (n := ⟨label, calls, cycles, children⟩) here value above
      simp only [sumFrom, List.sum_map_add, own, ihc below, ihs beside, sum_cons]

theorem sum_entries (f : Forest) (value : Node → Nat) :
    (f.totalsByLabel.map fun t => f.sumFrom (atLabel t.label value) []).sum = f.sum value := by
  have all : ∀ label ∈ f.preorderLabels, label ∈ f.totalsByLabel.map LabelTotals.label := by
    intro label h
    rw [labels_totalsByLabel]
    exact LabelTotals.mem_foldl_withLabel _ |>.2 (.inr h)
  have sum := sum_sumFrom_atLabel f.nodup_labels_totalsByLabel all value []
  rwa [List.map_map] at sum

/-- The three numbers of an entry, each with the sum that it stands for. -/
theorem SafeSums.entry {f : Forest} (sums : f.SafeSums) {t : LabelTotals}
    (h : t ∈ f.totalsByLabel) :
    (t.calls.IsSafe ∧ t.calls.whole = f.sumFrom (callsOf t.label) []) ∧
      (t.cycles.IsSafe ∧ t.cycles.whole = f.sumFrom (outermostCyclesOf t.label) []) ∧
      t.selfCycles.IsSafe ∧ t.selfCycles.whole = f.sumFrom (ownCyclesOf t.label) [] := by
  have entry := sums.eq_entryOf h
  have room := sums.room t.label
  have exact_ {x : Binary64} {n : Nat} (same : x = .ofNat n) (small : 0 + n ≤ maxSafe) :
      x.IsSafe ∧ x.whole = n := by
    rw [Nat.zero_add] at small
    exact ⟨same ▸ isSafe_ofNat small, same ▸ whole_ofNat small⟩
  exact ⟨exact_ (congrArg LabelTotals.calls entry) room.calls,
    exact_ (congrArg LabelTotals.cycles entry) room.cycles,
    exact_ (congrArg LabelTotals.selfCycles entry) room.own⟩

/-! ### Own costs and the roots -/

/-- What a node costs more than its children. -/
def ownCycles (n : Node) : Nat :=
  n.cycles.whole - n.children.cycleSum

theorem cycleSum_le_sum_ownCycles (f : Forest) : f.cycleSum ≤ f.sum ownCycles := by
  induction f with
  | nil => exact Nat.le_refl 0
  | cons label calls cycles children siblings ihc ihs =>
      rw [sum_cons, cycleSum, ownCycles]
      simp only
      omega

/-- Nothing is left over where no own cost is cut off at zero. -/
theorem sum_ownCycles_eq_iff (f : Forest) :
    f.sum ownCycles = f.cycleSum ↔ f.Each Node.CoversChildren := by
  induction f with
  | nil => exact ⟨fun _ => True.intro, fun _ => rfl⟩
  | cons label calls cycles children siblings ihc ihs =>
      have below := children.cycleSum_le_sum_ownCycles
      have beside := siblings.cycleSum_le_sum_ownCycles
      rw [Each, ← ihc, ← ihs, sum_cons, cycleSum, ownCycles, Node.CoversChildren]
      simp only
      omega

theorem SafeSums.sum_calls {f : Forest} (sums : f.SafeSums) :
    (f.totalsByLabel.map fun t => t.calls.whole).sum = f.sum fun n => n.calls.whole := by
  rw [← f.sum_entries]
  exact congrArg List.sum (List.map_congr_left fun t ht => (sums.entry ht).1.2)

theorem SafeSums.sum_selfCycles {f : Forest} (sums : f.SafeSums) :
    (f.totalsByLabel.map fun t => t.selfCycles.whole).sum = f.sum ownCycles := by
  rw [← f.sum_entries]
  exact congrArg List.sum (List.map_congr_left fun t ht => (sums.entry ht).2.2.2)

/-- The own costs of the entries add up to at least the cycles of the roots, and to just these if
and only if no node costs less than its children. The calls of the entries add up to those that a
walk over all nodes counts. -/
theorem totalsByLabel_sums {f : Forest} (sums : f.SafeSums) :
    let calls := (f.totalsByLabel.map fun t => t.calls.whole).sum
    let own := (f.totalsByLabel.map fun t => t.selfCycles.whole).sum
    (∀ t ∈ f.totalsByLabel, t.calls.IsSafe ∧ t.selfCycles.IsSafe) ∧
      f.cycleSum ≤ own ∧ (own = f.cycleSum ↔ f.Each Node.CoversChildren) ∧
      f.totalCalls = .ofNat calls ∧
      CallWalk.step^[f.size] (.start f) = ⟨f.totalCalls, []⟩ := by
  intro calls own
  have safe : f.SafeCalls := safeCalls_iff.2 (sums.safe.imp fun _ => Node.HasSafe.calls)
  have total : f.callSum = calls := f.callSum_eq.trans sums.sum_calls.symm
  have own_eq : own = f.sum ownCycles := sums.sum_selfCycles
  refine ⟨fun t ht => ⟨(sums.entry ht).1.1, (sums.entry ht).2.2.1⟩, ?_, ?_, ?_,
    CallWalk.run_start f⟩
  · rw [own_eq]
    exact f.cycleSum_le_sum_ownCycles
  · rw [own_eq]
    exact f.sum_ownCycles_eq_iff
  · rw [totalCalls_eq safe (f.callSum_eq ▸ sums.calls), total]

/-- Two roots with one label, of which the first costs less than its children and the second has a
label below itself. Only the second leaves nothing over. -/
theorem totalsByLabel_sums_cut_off :
    let n := Binary64.ofNat
    let second : Forest :=
      .cons "main" (n 1) (n 5) (.cons "a" (n 1) (n 5) (.cons "a" (n 1) (n 2) .nil .nil) .nil) .nil
    let both : Forest :=
      .cons "main" (n 1) (n 10) (.cons "a" (n 2) (n 7) .nil (.cons "b" (n 1) (n 6) .nil .nil))
        second
    let calls (f : Forest) := (f.totalsByLabel.map fun t => t.calls.whole).sum
    let own (f : Forest) := (f.totalsByLabel.map fun t => t.selfCycles.whole).sum
    second.SafeSums ∧ own second = second.cycleSum ∧
      both.SafeSums ∧ both.cycleSum < own both ∧ both.totalCalls = n (calls both) := by
  intro n second both calls own
  have sums : second.SafeSums := by constructor <;> decide +kernel
  have sums' : both.SafeSums := by constructor <;> decide +kernel
  have covers : second.Each Node.CoversChildren := by decide +kernel
  have cut_off : ¬both.Each Node.CoversChildren := by decide +kernel
  obtain ⟨_, _, none_over, _⟩ := totalsByLabel_sums sums
  obtain ⟨_, covered, none_over', total, _⟩ := totalsByLabel_sums sums'
  exact ⟨sums, none_over.2 covers, sums',
    Nat.lt_of_le_of_ne covered fun same => cut_off (none_over'.1 same.symm), total⟩

/-! ### One entry -/

section Covers

variable {f : Forest} {label : String} {above : List String}

theorem sumFrom_outermostCyclesOf_nested (nested : label ∈ above) :
    f.sumFrom (outermostCyclesOf label) above = 0 := by
  induction f generalizing above with
  | nil => rfl
  | cons l calls cycles children siblings ihc ihs =>
      rw [sumFrom, ihc (List.mem_cons_of_mem _ nested), ihs nested, outermostCyclesOf,
        if_neg fun h => h.2 nested]

/-- Outermost nodes stand apart from each other, so the roots cover them. -/
theorem sumFrom_outermostCyclesOf_le (covers : f.Each Node.CoversChildren) :
    f.sumFrom (outermostCyclesOf label) above ≤ f.cycleSum := by
  induction f generalizing above with
  | nil => exact Nat.le_refl 0
  | cons l calls cycles children siblings ihc ihs =>
      obtain ⟨own, below, beside⟩ := covers
      rw [sumFrom, cycleSum, outermostCyclesOf]
      refine Nat.add_le_add ?_ (ihs beside)
      split
      · rename_i here
        rw [sumFrom_outermostCyclesOf_nested (List.mem_cons.2 (.inl here.1.symm))]
        exact Nat.le_refl _
      · rw [Nat.zero_add]
        exact Nat.le_trans (ihc below) own

theorem ownCyclesOf_add_le {n : Node} (covers : n.CoversChildren) :
    ownCyclesOf label above n + n.children.cycleSum ≤ n.cycles.whole := by
  rw [Node.CoversChildren] at covers
  rw [ownCyclesOf, atLabel]
  split <;> omega

theorem sumFrom_ownCyclesOf_le (covers : f.Each Node.CoversChildren) :
    f.sumFrom (ownCyclesOf label) above ≤ f.cycleSum := by
  induction f generalizing above with
  | nil => exact Nat.le_refl 0
  | cons l calls cycles children siblings ihc ihs =>
      obtain ⟨own, below, beside⟩ := covers
      rw [sumFrom, cycleSum]
      refine Nat.add_le_add ?_ (ihs beside)
      exact Nat.le_trans (Nat.add_le_add_left (ihc below) _) (ownCyclesOf_add_le own)

/-- What nested nodes cost by themselves fits into the outermost ones. -/
theorem sumFrom_ownCyclesOf_le_outermost (covers : f.Each Node.CoversChildren)
    (fresh : label ∉ above) :
    f.sumFrom (ownCyclesOf label) above ≤ f.sumFrom (outermostCyclesOf label) above := by
  induction f generalizing above with
  | nil => exact Nat.le_refl 0
  | cons l calls cycles children siblings ihc ihs =>
      obtain ⟨own, below, beside⟩ := covers
      rw [sumFrom, sumFrom]
      refine Nat.add_le_add ?_ (ihs beside fresh)
      by_cases here : l = label
      · rw [outermostCyclesOf, if_pos ⟨here, fresh⟩]
        exact Nat.le_add_right_of_le <| Nat.le_trans
          (Nat.add_le_add_left (sumFrom_ownCyclesOf_le below) _) (ownCyclesOf_add_le own)
      · have inner := ihc below (List.not_mem_cons_of_ne_of_not_mem (Ne.symm here) fresh)
        refine Nat.add_le_add ?_ inner
        rw [ownCyclesOf, atLabel, if_neg here]
        exact Nat.zero_le _

end Covers

/-- Where no node costs less than its children, no entry costs more by itself than in all, and none
costs more than the roots, however its label is nested. -/
theorem entry_le_roots {f : Forest} (sums : f.SafeSums) (covers : f.Each Node.CoversChildren) :
    ∀ t ∈ f.totalsByLabel, t.selfCycles.IsSafe ∧ t.cycles.IsSafe ∧
      t.selfCycles.whole ≤ t.cycles.whole ∧ t.cycles.whole ≤ f.cycleSum := by
  intro t ht
  obtain ⟨-, ⟨safe, cycles⟩, safe', own⟩ := sums.entry ht
  rw [cycles, own]
  exact ⟨safe', safe, sumFrom_ownCyclesOf_le_outermost covers List.not_mem_nil,
    sumFrom_outermostCyclesOf_le covers⟩

/-- A label that stands four times on one branch and once on another. -/
theorem entry_le_roots_recursive_label :
    let n := Binary64.ofNat
    let f : Forest :=
      .cons "main" (n 1) (n 100)
        (.cons "f" (n 1) (n 60)
          (.cons "g" (n 1) (n 50)
            (.cons "f" (n 1) (n 40)
              (.cons "f" (n 9) (n 30) (.cons "f" (n 1) (n 30) .nil .nil) .nil) .nil) .nil)
          (.cons "g" (n 1) (n 20) (.cons "f" (n 1) (n 20) .nil .nil) .nil)) .nil
    f.SafeSums ∧ f.Each Node.CoversChildren ∧
      ⟨"f", n 13, n 80, n 70⟩ ∈ f.totalsByLabel ∧
      ∀ t ∈ f.totalsByLabel, t.selfCycles.whole ≤ t.cycles.whole ∧ t.cycles.whole ≤ 100 := by
  intro n f
  have sums : f.SafeSums := by constructor <;> decide +kernel
  have covers : f.Each Node.CoversChildren := by decide +kernel
  have roots : f.cycleSum = 100 := by decide +kernel
  refine ⟨sums, covers, by decide +kernel, fun t ht => ?_⟩
  obtain ⟨_, _, own, inclusive⟩ := entry_le_roots sums covers t ht
  exact ⟨own, roots ▸ inclusive⟩

end Forest
end CallCost
