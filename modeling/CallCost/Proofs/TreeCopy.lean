import CallCost.Proofs.TreeLoop

/-!
Copying a tree. Each node is made without children, and those are put below it when the node is
taken. The last node to be made is taken first, and still the copy has the children of every node
in their order.
-/

namespace CallCost

namespace Forest

/-- Puts the nodes of the second forest into the first, one after the other. -/
def putAll (f : Forest) : Forest → Forest
  | nil => f
  | cons label calls cycles children siblings =>
      (f.put ⟨label, calls, cycles, children⟩).putAll siblings

theorem putAll_of_disjoint (f g : Forest) (hg : g.labels.Nodup)
    (apart : ∀ label ∈ g.labels, label ∉ f.labels) : f.putAll g = f ++ g := by
  induction g generalizing f with
  | nil => exact (append_nil f).symm
  | cons label calls cycles children siblings _ ih =>
      obtain ⟨fresh, rest⟩ := List.nodup_cons.1 hg
      have new : label ∉ f.labels := apart label List.mem_cons_self
      rw [putAll, put_eq, update, if_neg new, ih _ rest, append_assoc]
      · rfl
      · intro l hl
        rw [labels_append, List.mem_append, not_or]
        refine ⟨apart l (List.mem_cons_of_mem _ hl), ?_⟩
        rintro (_ | ⟨_, ⟨⟩⟩)
        exact fresh hl

theorem nil_putAll (g : Forest) (hg : g.labels.Nodup) : nil.putAll g = g :=
  putAll_of_disjoint nil g hg fun _ _ => List.not_mem_nil

theorem modify_putAll {change : Node → Node} (keeps : KeepsLabel change) {label : String}
    (f : Forest) {g : Forest} (absent : label ∉ g.labels) :
    (f.putAll g).modify label change = (f.modify label change).putAll g := by
  induction g generalizing f with
  | nil => rfl
  | cons l calls cycles children siblings _ ih =>
      rw [labels, List.mem_cons, not_or] at absent
      rw [putAll, ih _ absent.2, modify_put keeps (Ne.symm absent.1), putAll]

end Forest

namespace Node

/-- A node without its children. -/
def bare (n : Node) : Node :=
  { n with children := .nil }

/-- Puts the children of a second node below the first. -/
def putChildren (n incoming : Node) : Node :=
  { n with children := n.children.putAll incoming.children }

theorem putChildren_bare {n : Node} (distinct : n.children.Distinct) :
    n.bare.putChildren n = n := by
  rw [putChildren, bare, Forest.nil_putAll _ distinct.nodup_labels]

end Node

namespace TreeLoop

/-- The loop that copies: a child is put below as a bare node, and waits for its own children. -/
def copying : Body where
  enter n _ := n
  child v n :=
    { node := { v.node with children := v.node.children.put n.bare }
      waiting := n :: v.waiting }

theorem outcome_copying_children {f : Forest} (distinct : f.Distinct) (v : Visit) :
    (f.nodes.foldl copying.child v).outcome Node.putChildren =
      Visit.outcome Node.putChildren
        { v with node := { v.node with children := v.node.children.putAll f } } := by
  induction f generalizing v with
  | nil => rfl
  | cons label calls cycles children siblings _ ih =>
      obtain ⟨fresh, below, beside⟩ := distinct
      let n : Node := ⟨label, calls, cycles, children⟩
      have keeps : KeepsLabel (Node.putChildren · n) := fun _ => rfl
      have made : (v.node.children.put n.bare).modify label (Node.putChildren · n) =
          v.node.children.put n := by
        have whole := Forest.modify_put_self keeps n.bare v.node.children
        rwa [Node.putChildren_bare (n := n) below] at whole
      rw [Forest.nodes, List.foldl_cons, ih beside]
      simp only [copying]
      rw [Visit.outcome_cons, Forest.modify_putAll keeps _ fresh, made]
      rfl

theorem copying_achieves : copying.Achieves Node.putChildren where
  enter := fun _ _ => rfl
  child := fun _ _ => rfl
  waiting := fun _ _ => .inr rfl
  outcome := fun n _ distinct => outcome_copying_children distinct ⟨n, []⟩

/-- The loop that copies a tree comes to an end with the same tree. -/
theorem copying_ends {a : Node} (ha : a.children.Distinct) :
    ∃ steps, (step copying)^[steps] (start a.bare a) = ⟨a, []⟩ := by
  have run := start_ends copying_achieves a.bare ha
  rwa [Node.putChildren_bare ha] at run

end TreeLoop
end CallCost
