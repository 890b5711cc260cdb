import CallCost.CallTree.Render
import CallCost.Proofs.CallWalk
import CallCost.Proofs.JsonProjection
import CallCost.Proofs.LabelWalk
import Mathlib.Algebra.Ring.Int.Defs
import Mathlib.Data.List.Sublists

/-!
One pre-order for all walks over a forest. The walk over the JSON value lists the nodes with their
depths and own costs. The report has a line for each of them in this order, the calls of a forest
are their calls, and the flat totals have their labels in the order in which these first occur.
-/

namespace CallCost

/-! ### The report -/

/-- A report part way through: the lines so far, the nodes of one tree that are still to be written
with their depths, the next one in front, and the roots of the other trees. -/
structure LineWalk where
  lines : List String
  pending : List (Node × Nat)
  roots : List Node

namespace LineWalk

def start (f : Forest) : LineWalk :=
  ⟨[], [], f.nodes⟩

/-- Writes the line of the next node, or begins with the next tree. -/
def step (layout : Layout) (w : LineWalk) : LineWalk :=
  match w.pending, w.roots with
  | (n, depth) :: rest, _ =>
      { w with
        lines := w.lines ++ [n.line layout depth]
        pending := n.children.nodes.map (·, depth + 1) ++ rest }
  | [], root :: rest => { w with pending := [(root, 0)], roots := rest }
  | [], [] => w

variable (layout : Layout) (f : Forest) (lines : List String)

/-- A row on the stack is written with all below it before what was there. -/
theorem run_pending (depth : Nat) (rest : List (Node × Nat)) (roots : List Node) :
    (step layout)^[f.size] ⟨lines, f.nodes.map (·, depth) ++ rest, roots⟩ =
      ⟨lines ++ f.linesBefore layout [] depth, rest, roots⟩ := by
  induction f generalizing lines depth rest with
  | nil =>
      rw [Forest.linesBefore, List.append_nil]
      rfl
  | cons label calls cycles children siblings ihc ihs =>
      let n : Node := ⟨label, calls, cycles, children⟩
      have order : children.size + siblings.size + 1 = siblings.size + (children.size + 1) := by
        omega
      have one (after : List (Node × Nat)) : step layout ⟨lines, (n, depth) :: after, roots⟩ =
          ⟨lines ++ [n.line layout depth], children.nodes.map (·, depth + 1) ++ after, roots⟩ := rfl
      rw [Forest.size_cons, Forest.nodes, List.map_cons, List.cons_append, order,
        Function.iterate_add_apply, Function.iterate_succ_apply, one, ihc, ihs,
        Forest.linesBefore, children.linesBefore_eq layout (siblings.linesBefore layout [] depth)]
      simp only [List.append_assoc, List.cons_append, List.nil_append, n]

theorem run_roots :
    (step layout)^[f.size + f.nodes.length] ⟨lines, [], f.nodes⟩ =
      ⟨lines ++ f.lines layout, [], []⟩ := by
  induction f generalizing lines with
  | nil =>
      rw [Forest.lines, Forest.linesBefore, List.append_nil]
      rfl
  | cons label calls cycles children siblings _ ihs =>
      let n : Node := ⟨label, calls, cycles, children⟩
      have order : children.size + siblings.size + 1 + (siblings.nodes.length + 1) =
          siblings.size + siblings.nodes.length + (n.toForest.size + 1) := by
        have whole : n.toForest.size = children.size + 1 := LabelWalk.size_toForest n
        omega
      have one : step layout ⟨lines, [], n :: siblings.nodes⟩ =
          ⟨lines, n.toForest.nodes.map (·, 0) ++ [], siblings.nodes⟩ := rfl
      have tree : (n.toForest.linesBefore layout [] 0) =
          n.line layout 0 :: children.linesBefore layout [] 1 := rfl
      rw [Forest.size_cons, Forest.nodes, List.length_cons, order, Function.iterate_add_apply,
        Function.iterate_succ_apply, one, run_pending, ihs, tree, Forest.lines, Forest.lines,
        Forest.linesBefore, children.linesBefore_eq layout (siblings.linesBefore layout [] 0)]
      simp only [List.append_assoc, List.cons_append, n]

/-- The walk takes a step for each tree and for each node and ends with the lines of the report. -/
theorem run_start :
    (step layout)^[f.size + f.nodes.length] (start f) = ⟨f.lines layout, [], []⟩ :=
  run_roots layout f []

end LineWalk

/-! ### The JSON value -/

/-- A row with the own cost of its node. -/
structure CostRow extends Row where
  selfCycles : Binary64
  deriving DecidableEq

/-- The line of a report with own costs, from the indent for one level of depth. -/
def CostRow.line (indentUnit : String) (r : CostRow) : String :=
  Text.repeated r.depth indentUnit ++ " " ++ r.label ++ " count: " ++ r.calls.text ++
    " sum: " ++ r.cycles.text ++ " self: " ++ r.selfCycles.text

namespace Json

/-- The items of an array are the objects of the roots in their order, and each has the numbers of
its node and the objects of its children. -/
inductive HasShape : List Json → Forest → Prop where
  | nil : HasShape [] .nil
  | cons {object : Json} {items rest : List Json} {n : Node} {siblings : Forest}
      (label : object.field? "label" = some (.string n.label))
      (calls : object.field? "callCount" = some (.number n.calls))
      (cycles : object.field? "totalCycles" = some (.number n.cycles))
      (selfCycles : object.field? "selfCycles" = some (.number n.selfCycles))
      (children : object.field? "children" = some (.array items))
      (below : HasShape items n.children) (beside : HasShape rest siblings) :
      HasShape (object :: rest) (.cons n.label n.calls n.cycles n.children siblings)

mutual

/-- The pre-order walk over the object of a node. Any other value has no node. -/
def rowsOfNode (depth : Nat) : Json → List CostRow
  | object [("label", string label), ("callCount", number calls), ("totalCycles", number cycles),
      ("selfCycles", number selfCycles), ("children", array items)] =>
      { depth, label, calls, cycles, selfCycles } :: rowsOfItems (depth + 1) items
  | _ => []

def rowsOfItems (depth : Nat) : List Json → List CostRow
  | [] => []
  | item :: rest => rowsOfNode depth item ++ rowsOfItems depth rest

end

end Json

namespace Forest

theorem hasShape_toJsonList (f : Forest) : Json.HasShape f.toJsonList f := by
  induction f with
  | nil => exact .nil
  | cons label calls cycles children siblings ihc ihs =>
      exact .cons (n := ⟨label, calls, cycles, children⟩) rfl rfl rfl rfl rfl ihc ihs

theorem toRow_rowsOfItems (f : Forest) (depth : Nat) :
    (Json.rowsOfItems depth f.toJsonList).map CostRow.toRow = f.rowsBefore [] depth := by
  induction f generalizing depth with
  | nil => rfl
  | cons label calls cycles children siblings ihc ihs =>
      rw [toJsonList, Json.rowsOfItems, Json.rowsOfNode, rowsBefore, children.rowsBefore_eq,
        ← ihc, ← ihs, List.map_append, List.map_cons, List.cons_append]

theorem line_rowsOfItems (f : Forest) (indentUnit : String) (depth : Nat) :
    (Json.rowsOfItems depth f.toJsonList).map (CostRow.line indentUnit) =
      f.linesBefore { indentUnit, showSelf := true } [] depth := by
  induction f generalizing depth with
  | nil => rfl
  | cons label calls cycles children siblings ihc ihs =>
      rw [toJsonList, Json.rowsOfItems, Json.rowsOfNode, linesBefore, children.linesBefore_eq,
        ← ihc, ← ihs, List.map_append, List.map_cons, List.cons_append]
      congr 1
      simp [CostRow.line, Node.line, Node.entry, String.append_assoc]

end Forest

/-! ### The column of calls -/

namespace Binary64

theorem ofInt_add {m n : Int} (hm : m.natAbs ≤ maxSafe) (hn : n.natAbs ≤ maxSafe) :
    ofInt m + ofInt n = ofInt (m + n) := by
  rw [ofInt_eq hm, ofInt_eq hn]
  change nearest (m * unitsPerOne + n * unitsPerOne) = nearest ((m + n) * unitsPerOne)
  rw [Int.add_mul]

end Binary64

namespace Forest

/-- Whole numbers of calls add up exactly in the order of the walk, as long as they are safe
numbers and no sum of some of them leaves the safe numbers. -/
theorem callsFrom_ofInt {f : Forest} {depth : Nat} {counts : List Int}
    (column : (f.rowsBefore [] depth).map Row.calls = counts.map .ofInt)
    (safe : ∀ count ∈ counts, count.natAbs ≤ Binary64.maxSafe) {sum : Int}
    (room : ∀ part : List Int, part.Sublist counts → (sum + part.sum).natAbs ≤ Binary64.maxSafe) :
    f.callsFrom (.ofInt sum) = .ofInt (sum + counts.sum) := by
  induction f generalizing depth counts sum with
  | nil =>
      obtain rfl := List.map_eq_nil_iff.1 column.symm
      exact congrArg Binary64.ofInt (Int.add_zero sum).symm
  | cons label calls cycles children siblings ihc ihs =>
      rw [rowsBefore, children.rowsBefore_eq, List.map_cons, List.map_append, eq_comm] at column
      obtain ⟨own, rest, rfl, same, later⟩ := List.map_eq_cons_iff.1 column
      obtain ⟨below, beside, rfl, belowColumn, besideColumn⟩ := List.map_eq_append_iff.1 later
      obtain ⟨ownSafe, restSafe⟩ := List.forall_mem_cons.1 safe
      obtain ⟨belowSafe, besideSafe⟩ := List.forall_mem_append.1 restSafe
      have besideInAll := (List.sublist_append_right below beside).cons own
      have besideRoom := room beside besideInAll
      -- The siblings come first in this walk, then the node, and its children last.
      have siblingCalls :
          siblings.callsFrom (.ofInt sum) = .ofInt (sum + beside.sum) :=
        ihs besideColumn.symm besideSafe
          fun part inBeside => room part (inBeside.trans besideInAll)
      have belowRoom (part : List Int) (inBelow : part.Sublist below) :
          (sum + beside.sum + own + part.sum).natAbs ≤ Binary64.maxSafe := by
        have bound := room (own :: (part ++ beside)) ((inBelow.append_right beside).cons_cons own)
        rw [List.sum_cons, List.sum_append] at bound
        omega
      have childCalls :
          children.callsFrom (.ofInt (sum + beside.sum + own)) =
            .ofInt (sum + beside.sum + own + below.sum) :=
        ihc belowColumn.symm belowSafe belowRoom
      change .ofInt own = calls at same
      rw [callsFrom, siblingCalls, ← same, Binary64.ofInt_add besideRoom ownSafe, childCalls,
        List.sum_cons, List.sum_append]
      congr 1
      omega

theorem totalCalls_ofInt {f : Forest} {counts : List Int}
    (column : f.rows.map Row.calls = counts.map .ofInt)
    (room : ∀ part : List Int, part.Sublist counts → part.sum.natAbs ≤ Binary64.maxSafe) :
    f.totalCalls = .ofInt counts.sum := by
  have zero : Binary64.ofInt 0 = 0 := Binary64.ofNat_zero
  have safe : ∀ count ∈ counts, count.natAbs ≤ Binary64.maxSafe := fun count mem => by
    simpa using room [count] (List.singleton_sublist.2 mem)
  rw [totalCalls, ← zero, callsFrom_ofInt column safe (by simpa using room), Int.zero_add]

/-! ### One order -/

/-- The walks over a forest agree on one pre-order. The JSON value has the shape of the forest. Its
rows in pre-order are the lines of the report with own costs, of which there is one for each node.
The calls of the forest, whatever the order of that walk, are the sum of the column of calls if no
sum of some of them leaves the safe numbers. The flat totals have the labels of the column of
labels, each at its first place. -/
theorem walks_agree (f : Forest) :
    let rows := Json.rowsOfItems 0 f.toJsonList
    (∃ steps objects, JsonProjection.step^[steps] (.start f) = ⟨objects, []⟩ ∧
      (List.range f.nodes.length).map (JsonProjection.value objects f.size) = f.toJsonList) ∧
    Json.HasShape f.toJsonList f ∧
    (∀ layout, (LineWalk.step layout)^[f.size + f.nodes.length] (.start f) =
        ⟨f.lines layout, [], []⟩ ∧
      (f.lines layout).length = f.size) ∧
    (∀ indentUnit, f.lines { indentUnit, showSelf := true } =
      rows.map (CostRow.line indentUnit)) ∧
    CallWalk.step^[f.size] (.start f) = ⟨f.totalCalls, []⟩ ∧
    (∀ counts : List Int, rows.map (·.calls) = counts.map .ofInt →
      (∀ part : List Int, part.Sublist counts → part.sum.natAbs ≤ Binary64.maxSafe) →
      f.totalCalls = .ofInt counts.sum) ∧
    LabelWalk.step^[2 * f.size] (.start f) = ⟨f.totalsByLabel, fun _ => 0, []⟩ ∧
    f.totalsByLabel.map LabelTotals.label = (rows.map (·.label)).eraseDups := by
  intro rows
  have column {α : Type} (field : Row → α) :
      rows.map (fun r => field r.toRow) = f.rows.map field := by
    rw [Forest.rows, ← toRow_rowsOfItems, List.map_map]
    rfl
  have oneEach (layout : Layout) : (f.lines layout).length = f.size :=
    f.length_linesBefore layout [] 0
  have labels : f.occurrences.map Occurrence.label = rows.map (·.label) :=
    (labels_occurrencesFrom f []).trans (column Row.label).symm
  refine ⟨JsonProjection.start_ends f, f.hasShape_toJsonList,
    fun layout => ⟨LineWalk.run_start layout f, oneEach layout⟩,
    fun indentUnit => (f.line_rowsOfItems indentUnit 0).symm, CallWalk.run_start f, ?_,
    LabelWalk.run_start f, ?_⟩
  · intro counts calls room
    exact totalCalls_ofInt ((column Row.calls).symm.trans calls) room
  · rw [labels_totalsByLabel_eq_eraseDups, labels]

/-- Two roots with one label and a label below itself, with nodes of different widths and depths
beside each other. -/
theorem walks_agree_repeated_root :
    let n := Binary64.ofNat
    let f : Forest :=
      .cons "main" (n 1) (n 100)
        (.cons "f" (n 2) (n 60)
          (.cons "g" (n 4) (n 10) .nil (.cons "f" (n 1) (n 30) .nil .nil))
          (.cons "h" (n 3) (n 20) .nil .nil))
        (.cons "main" (n 1) (n 7) (.cons "g" (n 5) (n 9) .nil .nil) .nil)
    let rows := Json.rowsOfItems 0 f.toJsonList
    let counts : List Int := [1, 2, 4, 1, 3, 1, 5]
    rows.map (·.calls) = counts.map .ofInt ∧
      (∀ part : List Int, part.Sublist counts → part.sum.natAbs ≤ Binary64.maxSafe) ∧
      f.totalCalls = .ofInt 17 ∧
      rows.map (CostRow.line "--") = f.lines { indentUnit := "--", showSelf := true } ∧
      f.lines { indentUnit := "--", showSelf := true } =
        [" main count: 1 sum: 100 self: 20",
          "-- f count: 2 sum: 60 self: 20",
          "---- g count: 4 sum: 10 self: 10",
          "---- f count: 1 sum: 30 self: 30",
          "-- h count: 3 sum: 20 self: 20",
          " main count: 1 sum: 7 self: 0",
          "-- g count: 5 sum: 9 self: 9"] ∧
      f.totalsByLabel.map LabelTotals.label = ["main", "f", "g", "h"] := by
  intro n f rows counts
  have column : rows.map (·.calls) = counts.map .ofInt := by decide +kernel
  have parts : ∀ part ∈ counts.sublists, part.sum.natAbs ≤ Binary64.maxSafe := by decide +kernel
  have room (part : List Int) (inAll : part.Sublist counts) :
      part.sum.natAbs ≤ Binary64.maxSafe :=
    parts part (List.mem_sublists.2 inAll)
  obtain ⟨-, -, -, lines, -, calls, -, labels⟩ := f.walks_agree
  exact ⟨column, room, calls counts column room, (lines "--").symm, by decide +kernel,
    labels.trans (by decide +kernel)⟩

end Forest
end CallCost
