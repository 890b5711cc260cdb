import CallCost.CallTree.Basic

/-!
A forest as a table: its nodes in pre-order, each with its depth.
-/

namespace CallCost

structure Row where
  depth : Nat
  label : String
  calls : Binary64
  cycles : Binary64
  deriving DecidableEq

namespace Forest

/-- The rows of a forest at a depth, in front of the rows that follow it. -/
def rowsBefore (after : List Row) (depth : Nat) : Forest → List Row
  | nil => after
  | cons label calls cycles children siblings =>
      ⟨depth, label, calls, cycles⟩ ::
        children.rowsBefore (siblings.rowsBefore after depth) (depth + 1)

def rows (f : Forest) : List Row :=
  f.rowsBefore [] 0

theorem rowsBefore_eq (f : Forest) (after : List Row) (depth : Nat) :
    f.rowsBefore after depth = f.rowsBefore [] depth ++ after := by
  induction f generalizing after depth with
  | nil => rfl
  | cons label calls cycles children siblings ihc ihs =>
      simp only [rowsBefore, List.cons_append]
      rw [ihc (siblings.rowsBefore after depth), ihc (siblings.rowsBefore [] depth),
        ihs after, List.append_assoc]

/-- Closes the open node `n`, which has the given level, and then the open nodes around it,
innermost first, up to the first one of a level below `depth`. -/
def closeTo (depth level : Nat) (n : Node) :
    List (Nat × Node) → Forest → List (Nat × Node) × Forest
  | [], done => if level < depth then ([(level, n)], done) else ([], done.put n)
  | (outerLevel, parent) :: outer, done =>
      if level < depth then ((level, n) :: (outerLevel, parent) :: outer, done)
      else
        closeTo depth outerLevel { parent with children := parent.children.put n } outer done

/-- Takes the next row of a table: a node below the last open node of a lesser depth. -/
def openRow : List (Nat × Node) × Forest → Row → List (Nat × Node) × Forest
  | ([], done), r => ([(r.depth, ⟨r.label, r.calls, r.cycles, nil⟩)], done)
  | ((level, n) :: outer, done), r =>
      let (opened, done) := closeTo r.depth level n outer done
      ((r.depth, ⟨r.label, r.calls, r.cycles, nil⟩) :: opened, done)

/-- The forest that a table describes. A later sibling with the same label takes the place of
the earlier one. -/
def ofRows (rows : List Row) : Forest :=
  match rows.foldl openRow ([], nil) with
  | ([], done) => done
  | ((level, n) :: outer, done) => (closeTo 0 level n outer done).2

end Forest
end CallCost
