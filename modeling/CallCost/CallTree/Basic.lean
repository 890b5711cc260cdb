import CallCost.Binary64.Basic

/-!
Call-cost trees. A forest is a row of siblings in order of first arrival, each with its own
forest of children. The siblings below one node have distinct labels; roots may repeat a label.
-/

namespace CallCost

inductive Forest where
  | nil
  | cons (label : String) (calls cycles : Binary64) (children siblings : Forest)
  deriving DecidableEq

/-- One tree of a forest. -/
structure Node where
  label : String
  calls : Binary64
  cycles : Binary64
  children : Forest
  deriving DecidableEq

namespace Forest

/-- The roots of a forest from first to last. -/
def nodes : Forest → List Node
  | nil => []
  | cons label calls cycles children siblings =>
      ⟨label, calls, cycles, children⟩ :: siblings.nodes

def ofNodes : List Node → Forest
  | [] => nil
  | n :: rest => cons n.label n.calls n.cycles n.children (ofNodes rest)

protected def append : Forest → Forest → Forest
  | nil, after => after
  | cons label calls cycles children siblings, after =>
      cons label calls cycles children (siblings.append after)

instance : Append Forest := ⟨Forest.append⟩

/-- The first root with the given label. -/
def find? (label : String) : Forest → Option Node
  | nil => none
  | cons l calls cycles children siblings =>
      if l = label then some ⟨l, calls, cycles, children⟩ else siblings.find? label

/-- Puts a node in the place of the root with its label, and at the end if there is none. -/
def put (n : Node) : Forest → Forest
  | nil => cons n.label n.calls n.cycles n.children nil
  | cons label calls cycles children siblings =>
      if label = n.label then cons n.label n.calls n.cycles n.children siblings
      else cons label calls cycles children (siblings.put n)

/-- The number of nodes at all depths, added to a count. -/
def sizeFrom (count : Nat) : Forest → Nat
  | nil => count
  | cons _ _ _ children siblings => children.sizeFrom (siblings.sizeFrom count + 1)

def size (f : Forest) : Nat :=
  f.sizeFrom 0

theorem ofNodes_nodes (f : Forest) : ofNodes f.nodes = f := by
  induction f with
  | nil => rfl
  | cons label calls cycles children siblings _ ih => simp only [nodes, ofNodes, ih]

theorem nodes_ofNodes (ns : List Node) : (ofNodes ns).nodes = ns := by
  induction ns with
  | nil => rfl
  | cons n rest ih => simp only [ofNodes, nodes, ih]

theorem sizeFrom_eq (f : Forest) (count : Nat) : f.sizeFrom count = f.size + count := by
  induction f generalizing count with
  | nil => exact (Nat.zero_add count).symm
  | cons label calls cycles children siblings ihc ihs =>
      simp only [size, sizeFrom]
      rw [ihc (siblings.sizeFrom count + 1), ihc (siblings.sizeFrom 0 + 1), ihs count]
      change _ = _ + (siblings.size + 1) + count
      omega

theorem size_cons (label : String) (calls cycles : Binary64) (children siblings : Forest) :
    (cons label calls cycles children siblings).size = children.size + siblings.size + 1 := by
  change children.sizeFrom (siblings.size + 1) = _
  rw [sizeFrom_eq, Nat.add_assoc]

end Forest

namespace Node

/-- A span that has just been opened: it counts nothing yet. -/
def opened (label : String) : Node :=
  ⟨label, 0, 0, .nil⟩

def toForest (n : Node) : Forest :=
  .cons n.label n.calls n.cycles n.children .nil

end Node
end CallCost
