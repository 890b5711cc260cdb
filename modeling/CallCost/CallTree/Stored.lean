import CallCost.CallTree.Merge

/-!
Call-cost trees as they are stored. The children of a node are entries, each with a key in front of
its node, and a child is looked up by its key and never by the label that its node has. Forgetting
the keys leaves a plain forest.
-/

namespace CallCost

/-- A row of entries from first to last. -/
inductive StoredForest where
  | nil
  | cons (key label : String) (calls cycles : Binary64) (children entries : StoredForest)
  deriving DecidableEq

structure StoredNode where
  label : String
  calls : Binary64
  cycles : Binary64
  children : StoredForest
  deriving DecidableEq

namespace StoredForest

/-- The node under a key. -/
def get? (key : String) : StoredForest → Option StoredNode
  | nil => none
  | cons k label calls cycles children entries =>
      if k = key then some ⟨label, calls, cycles, children⟩ else entries.get? key

/-- Stores a node under a key: in the entry that has the key, and else in a new one at the end. -/
def set (key : String) (n : StoredNode) : StoredForest → StoredForest
  | nil => cons key n.label n.calls n.cycles n.children nil
  | cons k label calls cycles children entries =>
      if k = key then cons k n.label n.calls n.cycles n.children entries
      else cons k label calls cycles children (entries.set key n)

/-- Merges the entries of the second row into the first, one after the other. A node whose key is
new is moved over as it is, under that key. -/
def merge (existing : StoredForest) : StoredForest → StoredForest
  | nil => existing
  | cons key label calls cycles children entries =>
      let n : StoredNode :=
        match existing.get? key with
        | some target =>
            ⟨target.label, target.calls + calls, target.cycles + cycles,
              target.children.merge children⟩
        | none => ⟨label, calls, cycles, children⟩
      (existing.set key n).merge entries

/-- The forest without its keys. -/
def plain : StoredForest → Forest
  | nil => .nil
  | cons _ label calls cycles children entries =>
      .cons label calls cycles children.plain entries.plain

/-- Every node is stored under its own label, at all depths. -/
def Keyed : StoredForest → Prop
  | nil => True
  | cons key label _ _ children entries => key = label ∧ children.Keyed ∧ entries.Keyed

end StoredForest

namespace StoredNode

/-- A span that has just been opened: it counts nothing yet. -/
def opened (label : String) : StoredNode :=
  ⟨label, 0, 0, .nil⟩

/-- The union of two trees; the label of the first stays. -/
def merge (existing incoming : StoredNode) : StoredNode where
  label := existing.label
  calls := existing.calls + incoming.calls
  cycles := existing.cycles + incoming.cycles
  children := existing.children.merge incoming.children

def plain (n : StoredNode) : Node :=
  ⟨n.label, n.calls, n.cycles, n.children.plain⟩

end StoredNode

/-- Merges a completed node into a row of entries under its own label. -/
def StoredForest.add (entries : StoredForest) (n : StoredNode) : StoredForest :=
  match entries.get? n.label with
  | some existing => entries.set n.label (existing.merge n)
  | none => entries.set n.label n

end CallCost
