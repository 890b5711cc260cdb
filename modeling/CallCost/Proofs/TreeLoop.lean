import CallCost.Proofs.JsonProjection
import CallCost.Proofs.TreeEdits
import Mathlib.Algebra.Order.BigOperators.Group.List
import Mathlib.Algebra.Order.Group.Nat

/-!
Merging and copying a tree with a list of nodes that wait and no recursion. Each waiting node goes
into the node at a path of the tree, and the last one to come is taken first. Taking it changes
the node it goes into at once, and some of its children wait then in their turn. Whatever the
order, the tree at the end is the one that all waiting nodes amount to.
-/

namespace CallCost

theorem Forest.Distinct.of_mem_nodes {f : Forest} (h : f.Distinct) :
    ∀ n ∈ f.nodes, n.children.Distinct := by
  induction f with
  | nil => exact fun n hn => absurd hn List.not_mem_nil
  | cons label calls cycles children siblings _ ih =>
      exact List.forall_mem_cons.2 ⟨h.2.1, ih h.2.2⟩

/-- A loop part way through: the tree it changes, and the nodes that wait with the paths of the
nodes they go into. -/
structure TreeLoop where
  tree : Node
  pending : List (List String × Node)

namespace TreeLoop

/-- A node part way through taking in the children of another, and those of them that wait. -/
structure Visit where
  node : Node
  waiting : List Node := []

/-- What a loop does with a node that it takes: first with its own numbers, then with one child
after the other. -/
structure Body where
  enter : Node → Node → Node
  child : Visit → Node → Visit

/-- Takes the node `incoming` into the node `n`. -/
def Body.visit (body : Body) (n incoming : Node) : Visit :=
  incoming.children.nodes.foldl body.child ⟨body.enter n incoming, []⟩

/-- One node waits, and it goes into the root of the tree. -/
def start (tree incoming : Node) : TreeLoop :=
  ⟨tree, [([], incoming)]⟩

/-- The children that wait after the visit of the node at a path. -/
def pendingBelow (path : List String) (v : Visit) : List (List String × Node) :=
  v.waiting.map fun child => (path ++ [child.label], child)

/-- Takes the node in front. A path that leads nowhere changes nothing. -/
def step (body : Body) (s : TreeLoop) : TreeLoop :=
  match s.pending with
  | [] => s
  | (path, incoming) :: rest =>
      { tree := s.tree.modifyAt (fun n => (body.visit n incoming).node) path
        pending :=
          (s.tree.at? path).elim [] (fun n => pendingBelow path (body.visit n incoming)) ++ rest }

/-- What stands in the end in the place of a visited node: each of the waiting children does what
it is there for to the child with its label. -/
def Visit.outcome (goal : Node → Node → Node) (v : Visit) : Node :=
  v.waiting.foldl (fun n child => n.modifyAt (goal · child) [child.label]) v.node

def outcome (goal : Node → Node → Node) (s : TreeLoop) : Node :=
  s.pending.foldl (fun tree (path, incoming) => tree.modifyAt (goal · incoming) path) s.tree

/-- The body does one level of `goal`, and leaves to its waiting children what is below. -/
structure Body.Achieves (body : Body) (goal : Node → Node → Node) : Prop where
  enter : ∀ n incoming, (body.enter n incoming).label = n.label
  child : ∀ v n, (body.child v n).node.label = v.node.label
  waiting : ∀ v n, (body.child v n).waiting = v.waiting ∨
    (body.child v n).waiting = n :: v.waiting
  outcome : ∀ n incoming, incoming.children.Distinct →
    (body.visit n incoming).outcome goal = goal n incoming

/-- The nodes that wait and all nodes below them. -/
def work (s : TreeLoop) : Nat :=
  ((s.pending.map Prod.snd).map fun n => n.children.size + 1).sum

/-- Siblings below the nodes that wait have distinct labels. -/
def Distinct (s : TreeLoop) : Prop :=
  ∀ n ∈ s.pending.map Prod.snd, n.children.Distinct

section Step

variable {body : Body} {goal : Node → Node → Node}

theorem outcome_cons (tree incoming : Node) (path : List String)
    (rest : List (List String × Node)) :
    outcome goal ⟨tree, (path, incoming) :: rest⟩ =
      outcome goal ⟨tree.modifyAt (goal · incoming) path, rest⟩ := rfl

theorem Visit.outcome_cons (n child : Node) (waiting : List Node) :
    Visit.outcome goal ⟨n, child :: waiting⟩ = Visit.outcome goal
      ⟨{ n with children := n.children.modify child.label (goal · child) }, waiting⟩ := rfl

theorem outcome_append (tree : Node) (pending rest : List (List String × Node)) :
    outcome goal ⟨tree, pending ++ rest⟩ = outcome goal ⟨outcome goal ⟨tree, pending⟩, rest⟩ :=
  List.foldl_append

theorem step_cons (tree incoming : Node) (path : List String)
    (rest : List (List String × Node)) :
    step body ⟨tree, (path, incoming) :: rest⟩ =
      ⟨tree.modifyAt (fun n => (body.visit n incoming).node) path,
        (tree.at? path).elim [] (fun n => pendingBelow path (body.visit n incoming)) ++ rest⟩ := rfl

namespace Body.Achieves

theorem label_visit (h : body.Achieves goal) (n incoming : Node) :
    (body.visit n incoming).node.label = n.label := by
  have fold (children : List Node) (v : Visit) :
      (children.foldl body.child v).node.label = v.node.label := by
    induction children generalizing v with
    | nil => rfl
    | cons child rest ih => exact (ih _).trans (h.child v child)
  exact (fold _ _).trans (h.enter n incoming)

/-- No child waits twice. -/
theorem waiting_visit (h : body.Achieves goal) (n incoming : Node) :
    (body.visit n incoming).waiting.Sublist incoming.children.nodes.reverse := by
  have fold (children : List Node) (v : Visit) :
      (children.foldl body.child v).waiting.Sublist (children.reverse ++ v.waiting) := by
    induction children generalizing v with
    | nil => exact List.Sublist.refl _
    | cons child rest ih =>
        rw [List.reverse_cons, List.append_assoc]
        refine (ih _).trans (List.Sublist.append_left ?_ _)
        rcases h.waiting v child with same | longer
        · rw [same]
          exact List.sublist_cons_self child v.waiting
        · rw [longer]
          exact List.Sublist.refl _
  have all := fold incoming.children.nodes ⟨body.enter n incoming, []⟩
  rwa [List.append_nil] at all

end Body.Achieves

/-- What the waiting children of a node amount to, they amount to from the root of the tree. -/
theorem outcome_pendingBelow (waiting : List Node) {change : Node → Node}
    (keeps : KeepsLabel change) (path : List String) (n tree : Node) :
    outcome goal ⟨tree.modifyAt change path, pendingBelow path ⟨n, waiting⟩⟩ =
      tree.modifyAt (fun m => Visit.outcome goal ⟨change m, waiting⟩) path := by
  induction waiting generalizing change with
  | nil => rfl
  | cons child rest ih =>
      have joined := Node.modifyAt_append keeps (goal · child) path [child.label] tree
      have later := @ih (fun m => (change m).modifyAt (goal · child) [child.label])
        fun m => keeps m
      rw [← joined] at later
      exact later

/-- Taking a node does not change what the loop amounts to. -/
theorem outcome_step (h : body.Achieves goal) {s : TreeLoop} (distinct : s.Distinct) :
    (s.step body).outcome goal = s.outcome goal := by
  obtain ⟨tree, pending⟩ := s
  cases pending with
  | nil => rfl
  | cons next rest =>
      obtain ⟨path, incoming⟩ := next
      have here : outcome goal ⟨tree.modifyAt (fun n => (body.visit n incoming).node) path,
          (tree.at? path).elim [] fun n => pendingBelow path (body.visit n incoming)⟩ =
            tree.modifyAt (goal · incoming) path := by
        cases found : tree.at? path with
        | none => exact Node.modifyAt_congr fun n hn => absurd (found.symm.trans hn) (by simp)
        | some n =>
            refine (outcome_pendingBelow _ (fun m => h.label_visit m incoming) path _ tree).trans ?_
            -- The children that wait were chosen by the node that the path leads to.
            apply Node.modifyAt_congr
            intro m hm
            obtain rfl := Option.some.inj (found.symm.trans hm)
            exact h.outcome n incoming (distinct _ List.mem_cons_self)
      rw [step_cons, outcome_append, here, outcome_cons]

/-- A node that is taken leaves only children of its own to wait. -/
theorem pending_step (h : body.Achieves goal) (tree incoming : Node) (path : List String)
    (rest : List (List String × Node)) :
    ∃ waiting : List Node, waiting.Sublist incoming.children.nodes.reverse ∧
      (step body ⟨tree, (path, incoming) :: rest⟩).pending.map Prod.snd =
        waiting ++ rest.map Prod.snd := by
  cases found : tree.at? path with
  | none =>
      refine ⟨[], List.nil_sublist _, ?_⟩
      simp only [step, found, Option.elim_none, List.nil_append]
  | some n =>
      refine ⟨_, h.waiting_visit n incoming, ?_⟩
      simp [step, found, pendingBelow, Function.comp_def]

theorem distinct_step (h : body.Achieves goal) {s : TreeLoop} (distinct : s.Distinct) :
    (s.step body).Distinct := by
  obtain ⟨tree, pending⟩ := s
  cases pending with
  | nil => exact distinct
  | cons next rest =>
      obtain ⟨path, incoming⟩ := next
      obtain ⟨waiting, below, same⟩ := pending_step h tree incoming path rest
      rw [Distinct, List.map_cons, List.forall_mem_cons] at distinct
      rw [Distinct, same]
      intro n hn
      rcases List.mem_append.1 hn with new | old
      · exact distinct.1.of_mem_nodes n (List.mem_reverse.1 (below.subset new))
      · exact distinct.2 n old

theorem work_step (h : body.Achieves goal) {s : TreeLoop} (busy : s.pending ≠ []) :
    (s.step body).work < s.work := by
  obtain ⟨tree, pending⟩ := s
  cases pending with
  | nil => exact absurd rfl busy
  | cons next rest =>
      obtain ⟨path, incoming⟩ := next
      obtain ⟨waiting, below, same⟩ := pending_step h tree incoming path rest
      have less := (below.map fun n => n.children.size + 1).sum_le_sum fun _ _ => Nat.zero_le _
      rw [List.map_reverse, List.sum_reverse, JsonProjection.sum_size_nodes] at less
      rw [work, work, same, List.map_append, List.sum_append, List.map_cons, List.map_cons,
        List.sum_cons]
      exact Nat.add_lt_add_right (Nat.lt_succ_of_le less) _

/-- The loop comes to an end with the tree that it amounts to. -/
theorem exists_run (h : body.Achieves goal) {s : TreeLoop} (distinct : s.Distinct) :
    ∃ steps, (step body)^[steps] s = ⟨s.outcome goal, []⟩ := by
  induction size : s.work using Nat.strongRecOn generalizing s with
  | ind size ih =>
      by_cases idle : s.pending = []
      · refine ⟨0, ?_⟩
        obtain ⟨tree, pending⟩ := s
        cases idle
        rfl
      · have less := work_step h idle
        obtain ⟨steps, run⟩ := ih _ (size ▸ less) (distinct_step h distinct) rfl
        refine ⟨steps + 1, ?_⟩
        rw [Function.iterate_succ_apply, run, outcome_step h distinct]

theorem start_ends (h : body.Achieves goal) (tree : Node) {incoming : Node}
    (distinct : incoming.children.Distinct) :
    ∃ steps, (step body)^[steps] (start tree incoming) = ⟨goal tree incoming, []⟩ :=
  exists_run h (List.forall_mem_singleton.2 distinct)

end Step

end TreeLoop
end CallCost
