import CallCost.CallTree.Totals
import Mathlib.Logic.Function.Iterate

/-!
The calls of a forest from a stack of nodes. The last node to come is taken first, so the roots are
counted from the last to the first and a node right before its children.
-/

namespace CallCost

/-- A walk part way through. The node that is counted next is in front. -/
structure CallWalk where
  sum : Binary64
  pending : List Node

namespace CallWalk

def start (f : Forest) : CallWalk :=
  ⟨0, f.nodes.reverse⟩

def step (w : CallWalk) : CallWalk :=
  match w.pending with
  | [] => w
  | n :: rest => ⟨w.sum + n.calls, n.children.nodes.reverse ++ rest⟩

/-- A row on the stack is counted with all below it before what was there. -/
theorem run_nodes (f : Forest) (sum : Binary64) (rest : List Node) :
    step^[f.size] ⟨sum, f.nodes.reverse ++ rest⟩ = ⟨f.callsFrom sum, rest⟩ := by
  induction f generalizing sum rest with
  | nil => rfl
  | cons label calls cycles children siblings ihc ihs =>
      let n : Node := ⟨label, calls, cycles, children⟩
      have order : children.size + siblings.size + 1 = children.size + (1 + siblings.size) := by
        omega
      have one (sum : Binary64) : step^[1] ⟨sum, n :: rest⟩ =
          ⟨sum + calls, children.nodes.reverse ++ rest⟩ := rfl
      rw [Forest.size_cons, Forest.nodes, List.reverse_cons, List.append_assoc,
        List.singleton_append, order, Function.iterate_add_apply, Function.iterate_add_apply, ihs,
        one, ihc, Forest.callsFrom]

/-- The walk takes one step for each node and ends with the calls of all. -/
theorem run_start (f : Forest) : step^[f.size] (start f) = ⟨f.totalCalls, []⟩ := by
  have run := run_nodes f 0 []
  rwa [List.append_nil] at run

end CallWalk
end CallCost
