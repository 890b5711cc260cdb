import CallCost.CallTree.Basic

/-!
Merging call-cost trees. Numbers at one position are added; a child that the other side lacks is
taken over as it is, after the children that were there before.
-/

namespace CallCost

namespace Forest

/-- Adds one node to a row of siblings: into the sibling with its label, whose children are then
merged by `mergeChildren`, and at the end if there is none. -/
def insertWith (mergeChildren : Forest → Forest) (n : Node) : Forest → Forest
  | nil => n.toForest
  | cons label calls cycles children siblings =>
      if label = n.label then
        cons label (calls + n.calls) (cycles + n.cycles) (mergeChildren children) siblings
      else cons label calls cycles children (siblings.insertWith mergeChildren n)

/-- Merges the nodes of the second forest into the first, one after the other. -/
def merge (existing : Forest) : Forest → Forest
  | nil => existing
  | cons label calls cycles children siblings =>
      merge (existing.insertWith (fun below => merge below children)
        ⟨label, calls, cycles, children⟩) siblings

/-- Merges a completed node into a row of siblings under its own label. -/
def add (siblings : Forest) (n : Node) : Forest :=
  siblings.insertWith (fun below => below.merge n.children) n

theorem merge_nil (f : Forest) : f.merge nil = f := by
  simp only [merge]

theorem merge_toForest (f : Forest) (n : Node) : f.merge n.toForest = f.add n := by
  simp only [Node.toForest, merge, add]

end Forest

/-- The union of two trees; the label of the first stays. -/
def Node.merge (existing incoming : Node) : Node where
  label := existing.label
  calls := existing.calls + incoming.calls
  cycles := existing.cycles + incoming.cycles
  children := existing.children.merge incoming.children

end CallCost
