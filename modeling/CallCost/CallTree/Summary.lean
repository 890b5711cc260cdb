import CallCost.CallTree.Totals

/-!
Flat totals by label over a whole forest, in order of the first occurrence. A label nested under
itself adds its calls and its own cost each time, and its inclusive cycles only where it stands
outermost on a path.
-/

namespace CallCost

structure LabelTotals where
  label : String
  calls : Binary64
  cycles : Binary64
  selfCycles : Binary64
  deriving DecidableEq

namespace LabelTotals

def empty (label : String) : LabelTotals :=
  ⟨label, 0, 0, 0⟩

def add (t : LabelTotals) (calls cycles selfCycles : Binary64) : LabelTotals :=
  { t with
    calls := t.calls + calls
    cycles := t.cycles + cycles
    selfCycles := t.selfCycles + selfCycles }

/-- Updates the totals of a label, where a label without totals comes last and starts at
nothing. -/
def update (label : String) (change : LabelTotals → LabelTotals) :
    List LabelTotals → List LabelTotals
  | [] => [change (empty label)]
  | t :: rest => if t.label = label then change t :: rest else t :: update label change rest

end LabelTotals

namespace Forest

/-- Adds a forest to the totals so far, where `path` holds the labels above it, each once. -/
def totalsFrom (path : List String) (totals : List LabelTotals) : Forest → List LabelTotals
  | nil => totals
  | cons label calls cycles children siblings =>
      let inclusive := if label ∈ path then 0 else cycles
      let own := Node.selfCycles ⟨label, calls, cycles, children⟩
      let totals := LabelTotals.update label (·.add calls inclusive own) totals
      siblings.totalsFrom path (children.totalsFrom (path.insert label) totals)

def totalsByLabel (f : Forest) : List LabelTotals :=
  f.totalsFrom [] []

end Forest
end CallCost
