import CallCost.Proofs.SpanTallies
import CallCost.Proofs.TreeLoop

/-!
Merging one tree into another gives their union, path by path. The loop that merges adds the
numbers of two nodes, hands over the children that the first lacks and lets the others wait; the
structural merge is what it comes to, and that is described by the nodes at each path.
-/

namespace CallCost

namespace Node

theorem at?_merge (a : Node) {b : Node} (hb : b.children.Distinct) (path : List String) :
    (a.merge b).at? path = Option.merge merge (a.at? path) (b.at? path) := by
  cases path with
  | nil => rfl
  | cons label rest => exact Forest.at?_merge a.children b.children hb (label :: rest)

theorem distinct_of_at? {a n : Node} (h : a.children.Distinct) {path : List String}
    (found : a.at? path = some n) : n.children.Distinct := by
  cases path with
  | nil => exact Option.some.inj found ▸ h
  | cons label rest =>
      have below : a.children.under (label :: rest) = n.children := Forest.under_of_at? found
      exact below ▸ h.under (label :: rest)

/-- The tree `u` is the union of `a` and `b`, with what `a` has in front. -/
structure IsUnion (a b u : Node) : Prop where
  label : u.label = a.label
  paths : ∀ path, (u.at? path).isSome ↔ (a.at? path).isSome ∨ (b.at? path).isSome
  both : ∀ path m n, a.at? path = some m → b.at? path = some n →
    ∃ k, u.at? path = some k ∧ k.label = m.label ∧ k.calls = m.calls + n.calls ∧
      k.cycles = m.cycles + n.cycles ∧
      k.children.labels =
        m.children.labels ++ n.children.labels.filter (· ∉ m.children.labels)
  first : ∀ path m, a.at? path = some m → b.at? path = none → u.at? path = some m
  second : ∀ path n, a.at? path = none → b.at? path = some n → u.at? path = some n

theorem isUnion_merge (a : Node) {b : Node} (hb : b.children.Distinct) :
    IsUnion a b (a.merge b) where
  label := rfl
  paths := fun path => by
    rw [at?_merge a hb]
    cases a.at? path <;> cases b.at? path <;> simp
  both := fun path m n hm hn => by
    refine ⟨m.merge n, ?_, rfl, rfl, rfl, ?_⟩
    · rw [at?_merge a hb, hm, hn]
      rfl
    · exact Forest.labels_merge _ _ (distinct_of_at? hb hn).nodup_labels
  first := fun path m hm hn => by
    rw [at?_merge a hb, hm, hn]
    rfl
  second := fun path n hm hn => by
    rw [at?_merge a hb, hm, hn]
    rfl

end Node

namespace TreeLoop

/-- The loop that merges: numbers are added, and a child is taken over unless there is one with its
label. -/
def merging : Body where
  enter n incoming :=
    { n with calls := n.calls + incoming.calls, cycles := n.cycles + incoming.cycles }
  child v n :=
    if n.label ∈ v.node.children.labels then { v with waiting := n :: v.waiting }
    else { v with node := { v.node with children := v.node.children ++ n.toForest } }

theorem outcome_merging_children {f : Forest} (distinct : f.labels.Nodup) (v : Visit) :
    (f.nodes.foldl merging.child v).outcome Node.merge =
      Visit.outcome Node.merge
        { v with node := { v.node with children := v.node.children.merge f } } := by
  induction f generalizing v with
  | nil => rw [Forest.merge_nil]; rfl
  | cons label calls cycles children siblings _ ih =>
      obtain ⟨fresh, rest⟩ := List.nodup_cons.1 distinct
      rw [Forest.nodes, List.foldl_cons, ih rest, Forest.merge, Forest.insertWith_eq,
        Forest.update]
      by_cases present : label ∈ v.node.children.labels
      · -- The child waits, and what it will do to the sibling with its label it can do at once.
        have keeps : KeepsLabel (Node.merge · ⟨label, calls, cycles, children⟩) := fun _ => rfl
        simp only [merging, if_pos present]
        rw [Visit.outcome_cons, Forest.modify_merge keeps _ fresh]
        rfl
      · simp only [merging, if_neg present]

theorem merging_achieves : merging.Achieves Node.merge where
  enter := fun _ _ => rfl
  child := fun v n => by
    simp only [merging]
    split <;> rfl
  waiting := fun v n => by
    simp only [merging]
    split
    · exact .inr rfl
    · exact .inl rfl
  outcome := fun n incoming distinct => outcome_merging_children distinct.nodup_labels _

/-- The loop that merges one tree into another comes to an end with their union. -/
theorem merging_ends (a b : Node) (hb : b.children.Distinct) :
    ∃ steps, (step merging)^[steps] (start a b) = ⟨a.merge b, []⟩ ∧ a.IsUnion b (a.merge b) := by
  obtain ⟨steps, run⟩ := start_ends merging_achieves a hb
  exact ⟨steps, run, Node.isUnion_merge a hb⟩

/-- Two trees with other roots that share labels at two levels; a whole subtree moves over. -/
theorem merging_ends_shared_children :
    let leaf (label : String) (calls cycles : Nat) (siblings : Forest) : Forest :=
      .cons label (.ofNat calls) (.ofNat cycles) .nil siblings
    let a : Node := ⟨"A", .ofNat 1, .ofNat 40,
      .cons "B" (.ofNat 2) (.ofNat 20) (leaf "D" 1 5 .nil) (leaf "C" 1 7 .nil)⟩
    let b : Node := ⟨"X", .ofNat 1, .ofNat 90,
      .cons "E" (.ofNat 1) (.ofNat 30) (leaf "B" 4 4 .nil)
        (.cons "B" (.ofNat 3) (.ofNat 25) (leaf "F" 1 6 (leaf "D" 2 8 .nil)) .nil)⟩
    b.children.Distinct ∧
      (∃ steps, (step merging)^[steps] (start a b) = ⟨a.merge b, []⟩ ∧ a.IsUnion b (a.merge b)) ∧
      (a.merge b).children.labels = ["B", "C", "E"] ∧
      (a.merge b).at? ["B"] = some ⟨"B", .ofNat 5, .ofNat 45, leaf "D" 3 13 (leaf "F" 1 6 .nil)⟩ ∧
      (a.merge b).at? ["E"] = b.at? ["E"] := by
  intro leaf a b
  have hb : b.children.Distinct := by simp [b, leaf, Forest.Distinct, Forest.labels]
  exact ⟨hb, merging_ends a b hb, by decide +kernel, by decide +kernel, by decide +kernel⟩

end TreeLoop
end CallCost
