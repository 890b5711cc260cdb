import CallCost.CallTree.Rows
import CallCost.CallTree.Summary
import CallCost.Proofs.ForestSums
import CallCost.Proofs.SelfCosts

/-!
The flat totals by label as sums over the nodes. There is one entry for each label that occurs,
in the order of the pre-order; it holds the calls and the own cycles of all nodes with that label
and the cycles of those that stand below no other.
-/

namespace CallCost

open Binary64

namespace LabelTotals

/-- The entry of a label, which counts nothing where there is none. -/
def ofLabel (label : String) : List LabelTotals → LabelTotals
  | [] => empty label
  | t :: rest => if t.label = label then t else ofLabel label rest

/-- Adds a label at the end of a list that lacks it. -/
def withLabel (labels : List String) (label : String) : List String :=
  if label ∈ labels then labels else labels ++ [label]

theorem withLabel_cons {first label : String} (other : first ≠ label) (rest : List String) :
    withLabel (first :: rest) label = first :: withLabel rest label := by
  by_cases old : label ∈ rest <;> simp [withLabel, old, Ne.symm other]

theorem mem_foldl_withLabel {labels : List String} {l : String} (new : List String) :
    l ∈ new.foldl withLabel labels ↔ l ∈ labels ∨ l ∈ new := by
  induction new generalizing labels with
  | nil => simp
  | cons label rest ih =>
      rw [List.foldl_cons, ih, withLabel]
      split
      · rename_i old
        simp only [List.mem_cons]
        constructor
        · exact Or.imp_right .inr
        · rintro (h | rfl | h)
          · exact .inl h
          · exact .inl old
          · exact .inr h
      · simp [or_assoc]

theorem nodup_foldl_withLabel {labels : List String} (nodup : labels.Nodup) (new : List String) :
    (new.foldl withLabel labels).Nodup := by
  induction new generalizing labels with
  | nil => exact nodup
  | cons label rest ih =>
      rw [List.foldl_cons]
      apply ih
      rw [withLabel]
      split
      · exact nodup
      · rename_i fresh
        rw [List.nodup_append]
        refine ⟨nodup, by simp, ?_⟩
        rintro l old m once same
        rw [List.mem_singleton] at once
        exact fresh (once ▸ same ▸ old)

section Update

variable {label : String} {change : LabelTotals → LabelTotals}
  (keeps : ∀ t, (change t).label = t.label)
include keeps

theorem labels_update (totals : List LabelTotals) :
    (update label change totals).map LabelTotals.label =
      withLabel (totals.map LabelTotals.label) label := by
  induction totals with
  | nil => simp [update, withLabel, keeps, empty]
  | cons t rest ih =>
      rw [update]
      by_cases same : t.label = label
      · simp [same, withLabel, keeps]
      · rw [if_neg same, List.map_cons, ih, List.map_cons, withLabel_cons same]

theorem ofLabel_update_self (totals : List LabelTotals) :
    ofLabel label (update label change totals) = change (ofLabel label totals) := by
  induction totals with
  | nil => simp [update, ofLabel, keeps, empty]
  | cons t rest ih =>
      rw [update]
      by_cases same : t.label = label
      · simp [same, ofLabel, keeps]
      · simp [same, ofLabel, ih]

theorem ofLabel_update_of_ne {l : String} (other : label ≠ l) (totals : List LabelTotals) :
    ofLabel l (update label change totals) = ofLabel l totals := by
  induction totals with
  | nil => simp [update, ofLabel, keeps, empty, other]
  | cons t rest ih =>
      rw [update]
      by_cases same : t.label = label
      · simp [same, ofLabel, keeps, other]
      · simp [same, ofLabel, ih]

end Update

theorem ofLabel_of_mem {totals : List LabelTotals} (nodup : (totals.map LabelTotals.label).Nodup)
    {t : LabelTotals} (h : t ∈ totals) : ofLabel t.label totals = t := by
  induction totals with
  | nil => cases h
  | cons first rest ih =>
      obtain ⟨fresh, rest_nodup⟩ := List.nodup_cons.1 nodup
      rcases List.mem_cons.1 h with rfl | later
      · rw [ofLabel, if_pos rfl]
      · have other : first.label ≠ t.label := by
          intro same
          exact fresh (same ▸ List.mem_map_of_mem later)
        rw [ofLabel, if_neg other, ih rest_nodup later]

end LabelTotals

namespace Forest

/-- The labels of all nodes in pre-order. -/
def preorderLabels (f : Forest) : List String :=
  f.rows.map Row.label

theorem labels_rowsBefore (f : Forest) (depth start : Nat) :
    (f.rowsBefore [] depth).map Row.label = (f.rowsBefore [] start).map Row.label := by
  induction f generalizing depth start with
  | nil => rfl
  | cons label calls cycles children siblings ihc ihs =>
      rw [rowsBefore, rowsBefore, rowsBefore_eq, children.rowsBefore_eq (siblings.rowsBefore _ _)]
      simp only [List.map_cons, List.map_append]
      rw [ihc (depth + 1) (start + 1), ihs depth start]

theorem preorderLabels_cons (label : String) (calls cycles : Binary64)
    (children siblings : Forest) :
    (cons label calls cycles children siblings).preorderLabels =
      label :: (children.preorderLabels ++ siblings.preorderLabels) := by
  rw [preorderLabels, rows, rowsBefore, rowsBefore_eq, List.map_cons, List.map_append,
    children.labels_rowsBefore 1 0]
  rfl

theorem labels_totalsFrom (f : Forest) (path : List String) (totals : List LabelTotals) :
    (f.totalsFrom path totals).map LabelTotals.label =
      f.preorderLabels.foldl LabelTotals.withLabel (totals.map LabelTotals.label) := by
  induction f generalizing path totals with
  | nil => rfl
  | cons label calls cycles children siblings ihc ihs =>
      have keeps (t : LabelTotals) : (t.add calls (if label ∈ path then 0 else cycles)
          (Node.selfCycles ⟨label, calls, cycles, children⟩)).label = t.label := rfl
      rw [totalsFrom, ihs, ihc, LabelTotals.labels_update keeps, preorderLabels_cons,
        List.foldl_cons, List.foldl_append]

/-- The entries stand in the order in which their labels first occur. -/
theorem labels_totalsByLabel (f : Forest) :
    f.totalsByLabel.map LabelTotals.label = f.preorderLabels.foldl LabelTotals.withLabel [] :=
  f.labels_totalsFrom [] []

theorem nodup_labels_totalsByLabel (f : Forest) :
    (f.totalsByLabel.map LabelTotals.label).Nodup := by
  rw [labels_totalsByLabel]
  exact LabelTotals.nodup_foldl_withLabel List.nodup_nil _

/-! ### What a node adds to the entry of a label -/

/-- A value of the nodes with one label. -/
def atLabel (label : String) (value : Node → Nat) : List String → Node → Nat :=
  fun _ n => if n.label = label then value n else 0

def callsOf (label : String) : List String → Node → Nat :=
  atLabel label fun n => n.calls.whole

/-- The cycles of a node count for its label unless it stands below another node with it. -/
def outermostCyclesOf (label : String) : List String → Node → Nat :=
  fun above n => if n.label = label ∧ label ∉ above then n.cycles.whole else 0

def ownCyclesOf (label : String) : List String → Node → Nat :=
  atLabel label fun n => n.cycles.whole - n.children.cycleSum

/-- The entry that the nodes of a forest add up to. -/
def entryOf (label : String) (f : Forest) : LabelTotals where
  label := label
  calls := .ofNat (f.sumFrom (callsOf label) [])
  cycles := .ofNat (f.sumFrom (outermostCyclesOf label) [])
  selfCycles := .ofNat (f.sumFrom (ownCyclesOf label) [])

/-- Numbers that are safe, with safe sums over the whole forest. -/
structure SafeSums (f : Forest) : Prop where
  safe : f.Each Node.HasSafe
  calls : f.sum (fun n => n.calls.whole) ≤ maxSafe
  cycles : f.sum (fun n => n.cycles.whole) ≤ maxSafe

/-- The entries that a forest may still be added to: their numbers are safe, and so they are once
the forest is added. -/
structure Room (f : Forest) (label : String) (above : List String) (calls cycles own : Nat) :
    Prop where
  calls : calls + f.sumFrom (callsOf label) above ≤ maxSafe
  cycles : cycles + f.sumFrom (outermostCyclesOf label) above ≤ maxSafe
  own : own + f.sumFrom (ownCyclesOf label) above ≤ maxSafe

/-- One node adds its numbers to the entry of its label and to no other. -/
theorem ofLabel_update_node {n : Node} (safe : n.toForest.Each Node.HasSafe)
    {path above : List String} (same : ∀ l, l ∈ path ↔ l ∈ above) (label : String)
    {totals : List LabelTotals} {calls cycles own : Nat}
    (before : LabelTotals.ofLabel label totals = ⟨label, .ofNat calls, .ofNat cycles, .ofNat own⟩)
    (room : calls ≤ maxSafe ∧ cycles ≤ maxSafe ∧ own ≤ maxSafe) :
    LabelTotals.ofLabel label
        (LabelTotals.update n.label
          (·.add n.calls (if n.label ∈ path then 0 else n.cycles) n.selfCycles) totals) =
      ⟨label, .ofNat (calls + callsOf label above n),
        .ofNat (cycles + outermostCyclesOf label above n),
        .ofNat (own + ownCyclesOf label above n)⟩ := by
  obtain ⟨roomCalls, roomCycles, roomOwn⟩ := room
  obtain ⟨node, below⟩ := each_toForest.1 safe
  have keeps (t : LabelTotals) :
      (t.add n.calls (if n.label ∈ path then 0 else n.cycles) n.selfCycles).label = t.label := rfl
  by_cases here : n.label = label
  · have self := n.selfCycles_eq node.cycles fun child hc => (below.mem_nodes child hc).cycles
    have difference : n.cycles.whole - n.children.cycleSum ≤ maxSafe :=
      Nat.le_trans (Nat.sub_le _ _) node.cycles.1
    have inclusive : ofNat cycles + (if n.label ∈ path then 0 else n.cycles) =
        ofNat (cycles + outermostCyclesOf label above n) := by
      by_cases nested : n.label ∈ path
      · have nested' : label ∈ above := here ▸ (same _).1 nested
        rw [if_pos nested, outermostCyclesOf, if_neg (by simp [nested']), ← ofNat_zero,
          ofNat_add roomCycles (Nat.zero_le _)]
      · have outermost : label ∉ above := fun h => nested ((same _).2 (here ▸ h))
        rw [if_neg nested, outermostCyclesOf, if_pos ⟨here, outermost⟩,
          node.cycles.ofNat_add roomCycles]
    subst here
    rw [LabelTotals.ofLabel_update_self keeps, before]
    simp only [LabelTotals.add, inclusive, self, node.calls.ofNat_add roomCalls,
      ofNat_add roomOwn difference, callsOf, ownCyclesOf, atLabel, if_true]
  · rw [LabelTotals.ofLabel_update_of_ne keeps here, before]
    simp only [callsOf, outermostCyclesOf, ownCyclesOf, atLabel, here, false_and, if_false,
      Nat.add_zero]

theorem ofLabel_totalsFrom {f : Forest} (safe : f.Each Node.HasSafe) {path above : List String}
    (same : ∀ l, l ∈ path ↔ l ∈ above) (label : String) {totals : List LabelTotals}
    {calls cycles own : Nat}
    (before : LabelTotals.ofLabel label totals = ⟨label, .ofNat calls, .ofNat cycles, .ofNat own⟩)
    (room : Room f label above calls cycles own) :
    LabelTotals.ofLabel label (f.totalsFrom path totals) =
      ⟨label, .ofNat (calls + f.sumFrom (callsOf label) above),
        .ofNat (cycles + f.sumFrom (outermostCyclesOf label) above),
        .ofNat (own + f.sumFrom (ownCyclesOf label) above)⟩ := by
  induction f generalizing path above totals calls cycles own with
  | nil => exact before
  | cons l c y children siblings ihc ihs =>
      obtain ⟨node, below, beside⟩ := safe
      obtain ⟨roomCalls, roomCycles, roomOwn⟩ := room
      simp only [sumFrom, ← Nat.add_assoc] at roomCalls roomCycles roomOwn ⊢
      -- The path holds a label once however often it stands above; only membership counts.
      have inner : ∀ x, x ∈ path.insert l ↔ x ∈ l :: above := by simp [same]
      have added := ofLabel_update_node (n := ⟨l, c, y, children⟩)
        (each_toForest.2 ⟨node, below⟩) same label before (by omega)
      have nested := ihc below inner added (by constructor <;> omega)
      exact ihs beside same nested (by constructor <;> omega)

theorem SafeSums.room {f : Forest} (sums : f.SafeSums) (label : String) :
    Room f label [] 0 0 0 := by
  have calls : f.sumFrom (callsOf label) [] ≤ f.sum (fun n => n.calls.whole) :=
    sumFrom_le sums.safe fun _ n _ => by
      rw [callsOf, atLabel]
      split <;> omega
  have cycles : f.sumFrom (outermostCyclesOf label) [] ≤ f.sum (fun n => n.cycles.whole) :=
    sumFrom_le sums.safe fun _ n _ => by
      rw [outermostCyclesOf]
      split <;> omega
  have own : f.sumFrom (ownCyclesOf label) [] ≤ f.sum (fun n => n.cycles.whole) :=
    sumFrom_le sums.safe fun _ n _ => by
      rw [ownCyclesOf, atLabel]
      split <;> omega
  have ⟨_, roomCalls, roomCycles⟩ := sums
  constructor <;> omega

/-- Each entry of the flat totals holds the exact sums of its label. -/
theorem SafeSums.ofLabel_totalsByLabel {f : Forest} (sums : f.SafeSums) (label : String) :
    LabelTotals.ofLabel label f.totalsByLabel = f.entryOf label := by
  have start : LabelTotals.ofLabel label [] = ⟨label, ofNat 0, ofNat 0, ofNat 0⟩ := by
    rw [ofNat_zero]
    rfl
  have all := ofLabel_totalsFrom sums.safe (fun _ => Iff.rfl) label start (sums.room label)
  simp only [Nat.zero_add] at all
  exact all

theorem SafeSums.eq_entryOf {f : Forest} (sums : f.SafeSums) {t : LabelTotals}
    (h : t ∈ f.totalsByLabel) : t = f.entryOf t.label := by
  rw [← sums.ofLabel_totalsByLabel,
    LabelTotals.ofLabel_of_mem f.nodup_labels_totalsByLabel h]

end Forest
end CallCost
