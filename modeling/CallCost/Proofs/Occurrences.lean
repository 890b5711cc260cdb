import CallCost.Proofs.LabelSums
import CallCost.Proofs.SpanTallies

/-!
The nodes of a forest in pre-order, each with the labels above it. The flat totals by label are
what one gets by counting them one after the other, so there is an entry for each label in the
order of its first node, and an entry is a sum over the nodes with its label.
-/

namespace CallCost

open Binary64

/-- A node where it stands in a forest. The labels above it are listed innermost first. -/
structure Occurrence where
  above : List String
  node : Node

namespace Occurrence

def label (o : Occurrence) : String :=
  o.node.label

/-- No node above has the same label. -/
def Outermost (o : Occurrence) : Prop :=
  o.label ∉ o.above

instance : DecidablePred Outermost :=
  fun o => inferInstanceAs (Decidable (o.label ∉ o.above))

/-- Counts a node for its label. -/
def addTo (totals : List LabelTotals) (o : Occurrence) : List LabelTotals :=
  LabelTotals.update o.label
    (·.add o.node.calls (if o.label ∈ o.above then 0 else o.node.cycles) o.node.selfCycles) totals

end Occurrence

namespace Forest

/-- The nodes of a forest that stands below the given labels. -/
def occurrencesFrom (above : List String) : Forest → List Occurrence
  | nil => []
  | cons label calls cycles children siblings =>
      ⟨above, ⟨label, calls, cycles, children⟩⟩ ::
        (children.occurrencesFrom (label :: above) ++ siblings.occurrencesFrom above)

def occurrences (f : Forest) : List Occurrence :=
  f.occurrencesFrom []

theorem occurrencesFrom_toForest (n : Node) (above : List String) :
    n.toForest.occurrencesFrom above =
      ⟨above, n⟩ :: n.children.occurrencesFrom (n.label :: above) := by
  rw [Node.toForest, occurrencesFrom, occurrencesFrom, List.append_nil]

theorem labels_occurrencesFrom (f : Forest) (above : List String) :
    (f.occurrencesFrom above).map Occurrence.label = f.preorderLabels := by
  induction f generalizing above with
  | nil => rfl
  | cons label calls cycles children siblings ihc ihs =>
      rw [occurrencesFrom, List.map_cons, List.map_append, ihc, ihs, preorderLabels_cons]
      rfl

theorem Each.of_mem_occurrencesFrom {p : Node → Prop} {f : Forest} (h : f.Each p)
    {above : List String} : ∀ o ∈ f.occurrencesFrom above, p o.node := by
  induction f generalizing above with
  | nil => exact fun o ho => absurd ho List.not_mem_nil
  | cons label calls cycles children siblings ihc ihs =>
      obtain ⟨own, below, beside⟩ := h
      rw [occurrencesFrom, List.forall_mem_cons]
      exact ⟨own, fun o ho => (List.mem_append.1 ho).elim (ihc below o) (ihs beside o)⟩

theorem sumFrom_eq_sum_map (value : List String → Node → Nat) (above : List String)
    (f : Forest) :
    f.sumFrom value above = ((f.occurrencesFrom above).map fun o => value o.above o.node).sum := by
  induction f generalizing above with
  | nil => rfl
  | cons label calls cycles children siblings ihc ihs =>
      rw [sumFrom, ihc, ihs, occurrencesFrom, List.map_cons, List.sum_cons, List.map_append,
        List.sum_append, Nat.add_assoc]

theorem totalsFrom_eq_foldl {f : Forest} {path above : List String}
    (same : ∀ l, l ∈ path ↔ l ∈ above) (totals : List LabelTotals) :
    f.totalsFrom path totals = (f.occurrencesFrom above).foldl Occurrence.addTo totals := by
  induction f generalizing path above totals with
  | nil => rfl
  | cons label calls cycles children siblings ihc ihs =>
      have inner : ∀ l, l ∈ path.insert label ↔ l ∈ label :: above := by simp [same]
      rw [totalsFrom, occurrencesFrom, List.foldl_cons, List.foldl_append, ihs same, ihc inner]
      simp only [Occurrence.addTo, Occurrence.label, same]
      rfl

theorem totalsByLabel_eq_foldl (f : Forest) :
    f.totalsByLabel = f.occurrences.foldl Occurrence.addTo [] :=
  totalsFrom_eq_foldl (fun _ => Iff.rfl) []

end Forest

/-! ### One entry for each label -/

theorem LabelTotals.foldl_withLabel_eq (labels new : List String) :
    new.foldl withLabel labels = labels ++ (new.filter (· ∉ labels)).eraseDups := by
  induction new generalizing labels with
  | nil => exact (List.append_nil labels).symm
  | cons label rest ih =>
      rw [List.foldl_cons, ih, withLabel]
      by_cases old : label ∈ labels
      · rw [if_pos old, List.filter_cons_of_neg (by simpa using old)]
      · have later : rest.filter (· ∉ labels ++ [label]) =
            (rest.filter (· ∉ labels)).filter fun l => !l == label := by
          rw [List.filter_filter]
          apply List.filter_congr
          intro l _
          rw [Bool.and_comm, beq_eq_decide]
          simp
        rw [if_neg old, List.filter_cons_of_pos (by simpa using old), List.eraseDups_cons, later,
          List.append_assoc]
        rfl

/-- What the given nodes come to under one label. -/
def LabelTotals.ofOccurrences (label : String) (nodes : List Occurrence) : LabelTotals where
  label := label
  calls := .ofNat (nodes.map fun o => o.node.calls.whole).sum
  cycles := .ofNat ((nodes.filter (·.Outermost)).map fun o => o.node.cycles.whole).sum
  selfCycles := .ofNat (nodes.map fun o => o.node.selfCycles.whole).sum

namespace Forest

/-- The nodes with a label. -/
def labelled (f : Forest) (label : String) : List Occurrence :=
  f.occurrences.filter (·.label = label)

theorem labels_totalsByLabel_eq_eraseDups (f : Forest) :
    f.totalsByLabel.map LabelTotals.label = (f.occurrences.map Occurrence.label).eraseDups := by
  have all : f.preorderLabels.filter (· ∉ ([] : List String)) = f.preorderLabels :=
    List.filter_eq_self.2 (by simp)
  rw [labels_totalsByLabel, LabelTotals.foldl_withLabel_eq, all, occurrences,
    labels_occurrencesFrom, List.nil_append]

/-- A sum in which only some nodes count is the sum over those nodes. -/
theorem sumFrom_eq_sum_filter (f : Forest) {value : List String → Node → Nat}
    {p : Occurrence → Bool} {count : Occurrence → Nat}
    (counts : ∀ o : Occurrence, value o.above o.node = if p o then count o else 0) :
    f.sumFrom value [] = ((f.occurrences.filter p).map count).sum := by
  rw [sumFrom_eq_sum_map, ← occurrences]
  induction f.occurrences with
  | nil => rfl
  | cons o rest ih =>
      rw [List.map_cons, List.sum_cons, ih, counts]
      by_cases h : p o
      · rw [if_pos h, List.filter_cons_of_pos h, List.map_cons, List.sum_cons]
      · rw [if_neg h, List.filter_cons_of_neg h, Nat.zero_add]

theorem Each.whole_selfCycles {f : Forest} (safe : f.Each Node.HasSafe) :
    f.Each fun n => n.selfCycles.whole = n.cycles.whole - n.children.cycleSum := by
  induction f with
  | nil => exact True.intro
  | cons label calls cycles children siblings ihc ihs =>
      obtain ⟨own, below, beside⟩ := safe
      have difference : cycles.whole - children.cycleSum ≤ maxSafe :=
        Nat.le_trans (Nat.sub_le _ _) own.cycles.1
      have exact_ := Node.selfCycles_eq own.cycles fun child hc => (below.mem_nodes child hc).cycles
      exact ⟨(congrArg whole exact_).trans (whole_ofNat difference), ihc below, ihs beside⟩

theorem SafeSums.entryOf_eq {f : Forest} (sums : f.SafeSums) (label : String) :
    f.entryOf label = .ofOccurrences label (f.labelled label) := by
  have atLabel_eq (value : Node → Nat) : f.sumFrom (atLabel label value) [] =
      ((f.labelled label).map fun o => value o.node).sum := by
    refine f.sumFrom_eq_sum_filter fun o => ?_
    exact if_congr decide_eq_true_iff.symm rfl rfl
  have cycles : f.sumFrom (outermostCyclesOf label) [] =
      (((f.labelled label).filter (·.Outermost)).map fun o => o.node.cycles.whole).sum := by
    rw [labelled, List.filter_filter]
    refine f.sumFrom_eq_sum_filter fun o => ?_
    simp only [outermostCyclesOf, Bool.and_eq_true, decide_eq_true_eq]
    exact if_congr (and_comm.trans (and_congr_left fun same => same ▸ Iff.rfl)) rfl rfl
  have own : (f.labelled label).map (fun o => o.node.cycles.whole - o.node.children.cycleSum) =
      (f.labelled label).map fun o => o.node.selfCycles.whole :=
    List.map_congr_left fun o ho =>
      (sums.safe.whole_selfCycles.of_mem_occurrencesFrom o (List.mem_filter.1 ho).1).symm
  rw [entryOf, callsOf, ownCyclesOf, atLabel_eq, atLabel_eq, cycles, own]
  rfl

/-- There is one entry for each label that occurs, in the order of the first nodes. -/
theorem SafeSums.totalsByLabel_eq {f : Forest} (sums : f.SafeSums) :
    f.totalsByLabel = (f.occurrences.map Occurrence.label).eraseDups.map fun label =>
      .ofOccurrences label (f.labelled label) := by
  have entry (t : LabelTotals) (ht : t ∈ f.totalsByLabel) :
      LabelTotals.ofOccurrences t.label (f.labelled t.label) = t :=
    ((sums.eq_entryOf ht).trans (sums.entryOf_eq t.label)).symm
  rw [← labels_totalsByLabel_eq_eraseDups, List.map_map]
  exact ((List.map_congr_left entry).trans (List.map_id _)).symm

end Forest
end CallCost
