import CallCost.Proofs.Occurrences
import Mathlib.Logic.Function.Iterate

/-!
The flat totals by label from a stack and a count of the path. A node is entered, which counts it
and puts its label on the path, and left when all below it is done. The nodes still to be left are
just the ones on the path, so that a label is on the path as often as a node with it waits to be
left, and at the end of the walk not at all.
-/

namespace CallCost

namespace LabelTotals

variable {label : String} {totals : List LabelTotals}

theorem forall_mem_update {p : LabelTotals → Prop} {change : LabelTotals → LabelTotals}
    (keeps : ∀ t, p t → p (change t)) (new : p (empty label)) (all : ∀ t ∈ totals, p t) :
    ∀ t ∈ update label change totals, p t := by
  induction totals with
  | nil => exact List.forall_mem_singleton.2 (keeps _ new)
  | cons first rest ih =>
      obtain ⟨here, later⟩ := List.forall_mem_cons.1 all
      rw [update]
      split
      · exact List.forall_mem_cons.2 ⟨keeps _ here, later⟩
      · exact List.forall_mem_cons.2 ⟨here, ih later⟩

/-- Only the entry of the label is changed, or a new one. -/
theorem update_congr {change change' : LabelTotals → LabelTotals}
    (new : change (empty label) = change' (empty label))
    (same : ∀ t ∈ totals, change t = change' t) :
    update label change totals = update label change' totals := by
  induction totals with
  | nil => rw [update, update, new]
  | cons first rest ih =>
      obtain ⟨here, later⟩ := List.forall_mem_cons.1 same
      rw [update, update, here, ih later]

end LabelTotals

/-- What a walk does next: it enters a node, or it leaves one when all below it is done. -/
inductive Frame where
  | enter (n : Node)
  | leave (n : Node)

/-- A walk part way through. What it does next is in front. -/
structure LabelWalk where
  totals : List LabelTotals
  onPath : String → Int
  pending : List Frame

namespace LabelWalk

def start (f : Forest) : LabelWalk :=
  ⟨[], fun _ => 0, f.nodes.map .enter⟩

/-- Counts a node whose label is on the path so many times. -/
def count (depth : Int) (n : Node) (t : LabelTotals) : LabelTotals :=
  { t with
    calls := t.calls + n.calls
    cycles := if depth = 0 then t.cycles + n.cycles else t.cycles
    selfCycles := t.selfCycles + n.selfCycles }

def step (w : LabelWalk) : LabelWalk :=
  match w.pending with
  | [] => w
  | .leave n :: rest =>
      { w with
        onPath := Function.update w.onPath n.label (w.onPath n.label - 1)
        pending := rest }
  | .enter n :: rest =>
      let depth := w.onPath n.label
      { totals := LabelTotals.update n.label (count depth n) w.totals
        onPath := Function.update w.onPath n.label (depth + 1)
        pending := n.children.nodes.map .enter ++ .leave n :: rest }

/-! ### What is still to be done -/

/-- The labels of the nodes that wait to be left, innermost first. -/
def openLabels : List Frame → List String
  | [] => []
  | .enter _ :: rest => openLabels rest
  | .leave n :: rest => n.label :: openLabels rest

/-- The nodes that are still to be counted, each below the nodes that are left after it. -/
def uncounted : List Frame → List Occurrence
  | [] => []
  | .enter n :: rest => n.toForest.occurrencesFrom (openLabels rest) ++ uncounted rest
  | .leave _ :: rest => uncounted rest

/-- The number of steps to the end. -/
def work : List Frame → Nat
  | [] => 0
  | .enter n :: rest => 2 * n.toForest.size + work rest
  | .leave _ :: rest => work rest + 1

theorem size_toForest (n : Node) : n.toForest.size = n.children.size + 1 :=
  Forest.size_cons n.label n.calls n.cycles n.children .nil

section Enter

variable (f : Forest) (rest : List Frame)

theorem openLabels_enter : openLabels (f.nodes.map .enter ++ rest) = openLabels rest := by
  induction f with
  | nil => rfl
  | cons label calls cycles children siblings _ ih => exact ih

theorem uncounted_enter : uncounted (f.nodes.map .enter ++ rest) =
    f.occurrencesFrom (openLabels rest) ++ uncounted rest := by
  induction f with
  | nil => rfl
  | cons label calls cycles children siblings _ ih =>
      rw [Forest.nodes, List.map_cons, List.cons_append, uncounted, openLabels_enter, ih,
        Forest.occurrencesFrom_toForest, Forest.occurrencesFrom]
      simp only [List.cons_append, List.append_assoc]

theorem work_enter : work (f.nodes.map .enter ++ rest) = 2 * f.size + work rest := by
  induction f with
  | nil => exact (Nat.zero_add _).symm
  | cons label calls cycles children siblings _ ih =>
      rw [Forest.nodes, List.map_cons, List.cons_append, work, ih, size_toForest,
        Forest.size_cons]
      simp only
      omega

end Enter

/-- A walk that keeps its books: the path holds the nodes that wait to be left, and no sum is in
need of rounding. -/
structure Sound (w : LabelWalk) : Prop where
  onPath : ∀ label, w.onPath label = (openLabels w.pending).count label
  inFormat : ∀ t ∈ w.totals, t.cycles.InFormat

/-- The totals when all is counted. -/
def outcome (w : LabelWalk) : List LabelTotals :=
  (uncounted w.pending).foldl Occurrence.addTo w.totals

theorem sound_start (f : Forest) : (start f).Sound := by
  have none_open := openLabels_enter f []
  rw [List.append_nil] at none_open
  constructor
  · intro label
    rw [start, none_open]
    rfl
  · exact fun t ht => absurd ht List.not_mem_nil

theorem outcome_start (f : Forest) : (start f).outcome = f.totalsByLabel := by
  have all := uncounted_enter f []
  rw [List.append_nil, uncounted, List.append_nil] at all
  rw [outcome, start, all, Forest.totalsByLabel_eq_foldl]
  rfl

/-! ### One step -/

theorem inFormat_empty (label : String) : (LabelTotals.empty label).cycles.InFormat := by
  change Binary64.isExact 0 = true
  decide

theorem inFormat_count {t : LabelTotals} (h : t.cycles.InFormat) (depth : Int) (n : Node) :
    (count depth n t).cycles.InFormat := by
  rw [count]
  split
  · exact Binary64.inFormat_add _ _
  · exact h

/-- Leaving out a number and adding nothing are the same where nothing is left to round. -/
theorem count_eq_add {t : LabelTotals} (h : t.cycles.InFormat) (above : List String) (n : Node) :
    count (above.count n.label) n t =
      t.add n.calls (if n.label ∈ above then 0 else n.cycles) n.selfCycles := by
  by_cases nested : n.label ∈ above
  · have positive : ((above.count n.label : Nat) : Int) ≠ 0 := by
      have := List.count_pos_iff.2 nested
      omega
    rw [count, LabelTotals.add, if_neg positive, if_pos nested, h.add_zero]
  · have zero : ((above.count n.label : Nat) : Int) = 0 := by
      rw [List.count_eq_zero.2 nested]
      rfl
    rw [count, LabelTotals.add, if_pos zero, if_neg nested]

section Path

variable {onPath : String → Int} {above : List String} {label : String}

theorem count_enter (path : ∀ l, onPath l = above.count l) (label : String) (l : String) :
    Function.update onPath label (onPath label + 1) l = (label :: above).count l := by
  rw [Function.update_apply, List.count_cons, beq_eq_decide]
  by_cases same : l = label
  · subst same
    rw [if_pos rfl, if_pos (decide_eq_true rfl), path]
    rfl
  · rw [if_neg same, if_neg (by simpa using Ne.symm same), path]
    rfl

theorem count_leave (path : ∀ l, onPath l = (label :: above).count l) (l : String) :
    Function.update onPath label (onPath label - 1) l = above.count l := by
  have here := path l
  rw [List.count_cons, beq_eq_decide] at here
  rw [Function.update_apply]
  by_cases same : l = label
  · subst same
    rw [if_pos (decide_eq_true rfl)] at here
    rw [if_pos rfl]
    omega
  · rw [if_neg (by simpa using Ne.symm same)] at here
    rw [if_neg same, here]
    rfl

end Path

variable {w : LabelWalk}

theorem Sound.step (h : w.Sound) : w.step.Sound := by
  obtain ⟨totals, onPath, pending⟩ := w
  obtain ⟨path, inFormat⟩ := h
  cases pending with
  | nil => exact ⟨path, inFormat⟩
  | cons next rest =>
      cases next with
      | leave n =>
          simp only [LabelWalk.step]
          exact ⟨count_leave path, inFormat⟩
      | enter n =>
          constructor
          · simp only [LabelWalk.step, openLabels_enter, openLabels]
            exact count_enter path n.label
          · exact LabelTotals.forall_mem_update (fun t ht => inFormat_count ht _ n)
              (inFormat_empty n.label) inFormat

theorem Sound.outcome_step (h : w.Sound) : w.step.outcome = w.outcome := by
  obtain ⟨totals, onPath, pending⟩ := w
  obtain ⟨path, inFormat⟩ := h
  cases pending with
  | nil => rfl
  | cons next rest =>
      cases next with
      | leave n => rfl
      | enter n =>
          have depth : onPath n.label = (openLabels rest).count n.label := path n.label
          have counted : LabelTotals.update n.label (count (onPath n.label) n) totals =
              Occurrence.addTo totals ⟨openLabels rest, n⟩ := by
            rw [depth]
            exact LabelTotals.update_congr (count_eq_add (inFormat_empty _) _ n) fun t ht =>
              count_eq_add (inFormat t ht) _ n
          simp only [outcome, LabelWalk.step, uncounted_enter, uncounted, openLabels, counted,
            Forest.occurrencesFrom_toForest, List.cons_append, List.foldl_cons]

theorem work_step (next : Frame) (rest : List Frame) (h : w.pending = next :: rest) :
    work w.step.pending + 1 = work w.pending := by
  rw [h, LabelWalk.step, h]
  cases next with
  | leave n => rfl
  | enter n =>
      rw [work_enter, work, work, size_toForest]
      omega

/-! ### A whole walk -/

/-- A walk comes to an end with all nodes counted and nothing left on the path. -/
theorem Sound.run (h : w.Sound) :
    LabelWalk.step^[work w.pending] w = ⟨w.outcome, fun _ => 0, []⟩ := by
  generalize size : work w.pending = steps
  induction steps generalizing w with
  | zero =>
      obtain ⟨totals, onPath, pending⟩ := w
      cases pending with
      | nil =>
          have empty : onPath = fun _ => 0 := funext h.onPath
          rw [Function.iterate_zero_apply, empty]
          rfl
      | cons next rest => have := work_step (w := ⟨totals, onPath, _⟩) next rest rfl; omega
  | succ steps ih =>
      obtain ⟨totals, onPath, pending⟩ := w
      cases pending with
      | nil => cases size
      | cons next rest =>
          have less := work_step (w := ⟨totals, onPath, _⟩) next rest rfl
          rw [Function.iterate_succ_apply, ih h.step (by omega), h.outcome_step]

theorem run_start (f : Forest) :
    LabelWalk.step^[2 * f.size] (start f) = ⟨f.totalsByLabel, fun _ => 0, []⟩ := by
  have size := work_enter f []
  rw [List.append_nil] at size
  have run := (sound_start f).run
  rw [outcome_start, start, size] at run
  exact run

end LabelWalk

namespace Forest

/-- The walk over a forest takes two steps for each node and ends with the flat totals and an empty
path. These have one entry for each label, in the order of the first nodes: the calls and the own
cycles of all nodes with the label, and the cycles of those that have no such node above them. -/
theorem labelWalk_agrees (f : Forest) :
    LabelWalk.step^[2 * f.size] (.start f) = ⟨f.totalsByLabel, fun _ => 0, []⟩ ∧
      (f.SafeSums →
        f.totalsByLabel = (f.occurrences.map Occurrence.label).eraseDups.map fun label =>
          .ofOccurrences label (f.labelled label)) :=
  ⟨LabelWalk.run_start f, fun sums => sums.totalsByLabel_eq⟩

/-- A label below itself at two distances, beside itself in another branch and under a second root,
and a node that costs less than its children. -/
theorem labelWalk_agrees_recursive_label :
    let n := Binary64.ofNat
    let f : Forest :=
      .cons "main" (n 1) (n 100)
        (.cons "f" (n 2) (n 40) (.cons "g" (n 1) (n 20) (.cons "f" (n 3) (n 8) .nil .nil) .nil)
          (.cons "g" (n 1) (n 5) (.cons "f" (n 1) (n 7) (.cons "f" (n 1) (n 2) .nil .nil) .nil)
            .nil))
        (.cons "f" (n 1) (n 9) .nil .nil)
    f.SafeSums ∧ LabelWalk.step^[16] (.start f) = ⟨f.totalsByLabel, fun _ => 0, []⟩ ∧
      f.totalsByLabel =
        [⟨"main", n 1, n 100, n 55⟩, ⟨"f", n 8, n 56, n 44⟩, ⟨"g", n 2, n 25, n 12⟩] := by
  intro n f
  have sums : f.SafeSums := by constructor <;> decide +kernel
  obtain ⟨walk, entries⟩ := f.labelWalk_agrees
  exact ⟨sums, walk, (entries sums).trans (by decide +kernel)⟩

end Forest
end CallCost
