import CallCost.CallTree.Basic

/-!
Figures derived from a call-cost tree. The numbers round above 53 bits, so each sum has its
order: children from first to last, and the calls of a forest from its last root to its first,
every node before its children.
-/

namespace CallCost

/-- Adds the cycles of the roots to a sum. -/
def Forest.cyclesFrom (sum : Binary64) : Forest → Binary64
  | nil => sum
  | cons _ _ cycles _ siblings => siblings.cyclesFrom (sum + cycles)

/-- What a node costs apart from its children, and never less than nothing. -/
def Node.selfCycles (n : Node) : Binary64 :=
  Binary64.maximum 0 (n.cycles - n.children.cyclesFrom 0)

/-- Adds the calls of all nodes to a sum. -/
def Forest.callsFrom (sum : Binary64) : Forest → Binary64
  | nil => sum
  | cons _ calls _ children siblings => children.callsFrom (siblings.callsFrom sum + calls)

/-- The calls of all nodes of a forest. -/
def Forest.totalCalls (f : Forest) : Binary64 :=
  f.callsFrom 0

end CallCost
