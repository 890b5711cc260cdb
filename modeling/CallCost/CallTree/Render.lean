import CallCost.Binary64.Text
import CallCost.CallTree.Summary
import CallCost.Text.Repeat

/-!
The lines of a report: one for each node in pre-order, indented by its depth, and one for each
label of the flat totals.
-/

namespace CallCost

structure Layout where
  /-- Stands once for each level of depth. -/
  indentUnit : String := "  "
  /-- Whether each line ends with the node's own cost. -/
  showSelf : Bool := false

namespace Node

/-- What stands on the line of a node behind the indent. A space comes first, at the root too. -/
def entry (layout : Layout) (n : Node) : String :=
  " " ++ n.label ++ " count: " ++ n.calls.text ++ " sum: " ++ n.cycles.text ++
    if layout.showSelf then " self: " ++ n.selfCycles.text else ""

/-- The line of a node. -/
def line (layout : Layout) (depth : Nat) (n : Node) : String :=
  Text.repeated depth layout.indentUnit ++ n.entry layout

/-- The number of units on the line of a node. -/
def lineUnits (layout : Layout) (depth : Nat) (n : Node) : Nat :=
  depth * Text.units layout.indentUnit.toList + Text.units (n.entry layout).toList

theorem units_line (layout : Layout) (depth : Nat) (n : Node) :
    Text.units (n.line layout depth).toList = n.lineUnits layout depth := by
  rw [line, String.toList_append, Text.units_append, Text.units_repeated, lineUnits]

/-- The line of a node at any depth, if there is such an indent and it leaves room for the
entry. -/
def line? (limits : Limits) (layout : Layout) (depth : Int) (n : Node) :
    Except RangeError String := do
  let entry := n.entry layout
  let indent ← Text.repeat? limits depth layout.indentUnit (Text.units entry.toList)
  return indent ++ entry

end Node

namespace Forest

/-- The lines of a forest at a depth, in front of the lines that follow it. -/
def linesBefore (layout : Layout) (after : List String) (depth : Nat) : Forest → List String
  | nil => after
  | cons label calls cycles children siblings =>
      Node.line layout depth ⟨label, calls, cycles, children⟩ ::
        children.linesBefore layout (siblings.linesBefore layout after depth) (depth + 1)

def lines (layout : Layout) (f : Forest) : List String :=
  f.linesBefore layout [] 0

/-- The lengths of the lines of a forest at a depth, in front of the lengths that follow. -/
def lineUnitsBefore (layout : Layout) (after : List Nat) (depth : Nat) : Forest → List Nat
  | nil => after
  | cons label calls cycles children siblings =>
      Node.lineUnits layout depth ⟨label, calls, cycles, children⟩ ::
        children.lineUnitsBefore layout (siblings.lineUnitsBefore layout after depth) (depth + 1)

/-- The lengths of the lines of a forest. No line is made to find them. -/
def lineUnits (layout : Layout) (f : Forest) : List Nat :=
  f.lineUnitsBefore layout [] 0

theorem lineUnitsBefore_eq (f : Forest) (layout : Layout) (after : List String) (depth : Nat) :
    f.lineUnitsBefore layout (after.map fun line => Text.units line.toList) depth =
      (f.linesBefore layout after depth).map fun line => Text.units line.toList := by
  induction f generalizing after depth with
  | nil => rfl
  | cons label calls cycles children siblings ihc ihs =>
      simp only [lineUnitsBefore, linesBefore, List.map_cons, Node.units_line, ihs, ihc]

theorem lineUnits_eq (f : Forest) (layout : Layout) :
    f.lineUnits layout = (f.lines layout).map fun line => Text.units line.toList :=
  f.lineUnitsBefore_eq layout [] 0

theorem linesBefore_eq (f : Forest) (layout : Layout) (after : List String) (depth : Nat) :
    f.linesBefore layout after depth = f.linesBefore layout [] depth ++ after := by
  induction f generalizing after depth with
  | nil => rfl
  | cons label calls cycles children siblings ihc ihs =>
      simp only [linesBefore, List.cons_append]
      rw [ihc (siblings.linesBefore layout after depth),
        ihc (siblings.linesBefore layout [] depth), ihs after, List.append_assoc]

/-- A forest has one line for each node. -/
theorem length_linesBefore (f : Forest) (layout : Layout) (after : List String) (depth : Nat) :
    (f.linesBefore layout after depth).length = f.size + after.length := by
  induction f generalizing after depth with
  | nil => exact (Nat.zero_add after.length).symm
  | cons label calls cycles children siblings ihc ihs =>
      simp only [linesBefore, List.length_cons, ihc, ihs, size_cons]
      omega

end Forest

def LabelTotals.line (t : LabelTotals) : String :=
  t.label ++ " count: " ++ t.calls.text ++ " sum: " ++ t.cycles.text ++
    " self: " ++ t.selfCycles.text

end CallCost
