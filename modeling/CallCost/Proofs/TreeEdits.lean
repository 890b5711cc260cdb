import CallCost.Proofs.TreePaths

/-!
A tree seen and changed along label paths from its root. A change at a path touches the node there
and nothing beside it, and a change that keeps the label of its node moves no path, so changes of
one node and of nodes below it can be made as one.
-/

namespace CallCost

/-- A change of nodes after which the path of a node leads to it as before. -/
def KeepsLabel (change : Node → Node) : Prop :=
  ∀ n, (change n).label = n.label

namespace Forest

/-- Changes the first root with the given label. -/
def modify (label : String) (change : Node → Node) : Forest → Forest
  | nil => nil
  | cons l calls cycles children siblings =>
      if l = label then
        let n := change ⟨l, calls, cycles, children⟩
        cons n.label n.calls n.cycles n.children siblings
      else cons l calls cycles children (siblings.modify label change)

section Modify

variable {label : String} {change : Node → Node}

theorem labels_modify (keeps : KeepsLabel change) (f : Forest) :
    (f.modify label change).labels = f.labels := by
  induction f with
  | nil => rfl
  | cons l calls cycles children siblings _ ih =>
      rw [modify]
      split
      · exact congrArg (· :: siblings.labels) (keeps _)
      · exact congrArg (l :: ·) ih

theorem modify_congr {other : Node → Node} {f : Forest}
    (same : ∀ n, f.find? label = some n → change n = other n) :
    f.modify label change = f.modify label other := by
  induction f with
  | nil => rfl
  | cons l calls cycles children siblings _ ih =>
      rw [find?] at same
      rw [modify, modify]
      split
      · rename_i here
        rw [same _ (if_pos here)]
      · rename_i elsewhere
        rw [if_neg elsewhere] at same
        rw [ih same]

theorem modify_modify (keeps : KeepsLabel change) (after : Node → Node) (f : Forest) :
    (f.modify label change).modify label after = f.modify label fun n => after (change n) := by
  induction f with
  | nil => rfl
  | cons l calls cycles children siblings _ ih =>
      rw [modify, modify]
      split
      · rename_i here
        rw [modify, if_pos ((keeps _).trans here)]
      · rename_i elsewhere
        rw [modify, if_neg elsewhere, ih]

theorem modify_append_toForest {n : Node} (other : n.label ≠ label) (f : Forest) :
    (f ++ n.toForest).modify label change = f.modify label change ++ n.toForest := by
  induction f with
  | nil => exact if_neg other
  | cons l calls cycles children siblings _ ih =>
      change (cons l calls cycles children (siblings ++ n.toForest)).modify label change = _
      rw [modify, modify, ih]
      split <;> rfl

theorem modify_comm {label' : String} {change' : Node → Node} (keeps : KeepsLabel change)
    (keeps' : KeepsLabel change') (apart : label' ≠ label) (f : Forest) :
    (f.modify label' change').modify label change =
      (f.modify label change).modify label' change' := by
  induction f with
  | nil => rfl
  | cons l calls cycles children siblings _ ih =>
      rw [modify, modify]
      by_cases here : l = label
      · have there : l ≠ label' := fun e => apart (e.symm.trans here)
        rw [if_neg there, if_pos here, modify, if_pos here, modify,
          if_neg fun e => there ((keeps _).symm.trans e)]
      · by_cases there : l = label'
        · rw [if_pos there, if_neg here, modify, if_neg fun e => here ((keeps' _).symm.trans e),
            modify, if_pos there]
        · rw [if_neg there, if_neg here, modify, if_neg here, modify, if_neg there, ih]

/-- Changes the root with the label of a node, or takes the node if there is none. -/
def update (n : Node) (change : Node → Node) (f : Forest) : Forest :=
  if n.label ∈ f.labels then f.modify n.label change else f ++ n.toForest

theorem modify_update {update : Node → Node} (keeps : KeepsLabel change)
    (keeps' : KeepsLabel update) {n : Node} (other : n.label ≠ label) (f : Forest) :
    (f.update n update).modify label change = (f.modify label change).update n update := by
  rw [Forest.update, Forest.update, labels_modify keeps]
  split
  · exact modify_comm keeps keeps' other f
  · exact modify_append_toForest other f

end Modify

/-- A function that stops at the root with the label of a node, or takes the node at the end. -/
theorem eq_update {n : Node} {change : Node → Node} {g : Forest → Forest}
    (last : g nil = n.toForest)
    (here : ∀ m siblings, m.label = n.label →
      g (cons m.label m.calls m.cycles m.children siblings) =
        cons (change m).label (change m).calls (change m).cycles (change m).children siblings)
    (later : ∀ l calls cycles children siblings, l ≠ n.label →
      g (cons l calls cycles children siblings) = cons l calls cycles children (g siblings))
    (f : Forest) : g f = f.update n change := by
  induction f with
  | nil => exact last
  | cons l calls cycles children siblings _ ih =>
      by_cases same : l = n.label
      · have present : n.label ∈ (cons l calls cycles children siblings).labels :=
          same ▸ List.mem_cons_self
        rw [update, if_pos present, modify, if_pos same]
        exact here ⟨l, calls, cycles, children⟩ siblings same
      · rw [later _ _ _ _ _ same, ih]
        simp only [update, labels, List.mem_cons, Ne.symm same, false_or, modify, if_neg same]
        split <;> rfl

theorem insertWith_eq (mergeChildren : Forest → Forest) (n : Node) (f : Forest) :
    f.insertWith mergeChildren n = f.update n fun m =>
      ⟨m.label, m.calls + n.calls, m.cycles + n.cycles, mergeChildren m.children⟩ := by
  refine eq_update (g := insertWith mergeChildren n) rfl ?_ ?_ f
  · exact fun _ _ same => if_pos same
  · exact fun _ _ _ _ _ apart => if_neg apart

theorem put_eq (n : Node) (f : Forest) :
    f.put n = f.update n fun m => { n with label := m.label } := by
  refine eq_update (g := put n) rfl ?_ ?_ f
  · intro m siblings same
    rw [put, if_pos same, same]
  · exact fun _ _ _ _ _ apart => if_neg apart

section Modify

variable {label : String} {change : Node → Node}

theorem modify_insertWith (keeps : KeepsLabel change) (mergeChildren : Forest → Forest) {n : Node}
    (other : n.label ≠ label) (f : Forest) :
    (f.insertWith mergeChildren n).modify label change =
      (f.modify label change).insertWith mergeChildren n := by
  rw [insertWith_eq, insertWith_eq]
  refine modify_update keeps ?_ other f
  exact fun _ => rfl

theorem modify_put (keeps : KeepsLabel change) {n : Node} (other : n.label ≠ label) (f : Forest) :
    (f.put n).modify label change = (f.modify label change).put n := by
  rw [put_eq, put_eq]
  refine modify_update keeps ?_ other f
  exact fun _ => rfl

theorem modify_merge (keeps : KeepsLabel change) (f : Forest) {g : Forest}
    (absent : label ∉ g.labels) :
    (f.merge g).modify label change = (f.modify label change).merge g := by
  induction g generalizing f with
  | nil => simp only [merge]
  | cons l calls cycles children siblings _ ih =>
      rw [labels, List.mem_cons, not_or] at absent
      rw [merge, ih _ absent.2, modify_insertWith keeps _ (Ne.symm absent.1), merge]

/-- A node that has just been put into a row is changed before it is put there as well. -/
theorem modify_put_self (keeps : KeepsLabel change) (n : Node) (f : Forest) :
    (f.put n).modify n.label change = f.put (change n) := by
  induction f with
  | nil => simp only [put, modify, if_true]
  | cons l calls cycles children siblings _ ih =>
      rw [put, put, keeps]
      split
      · simp only [modify, if_true]
        rw [keeps]
      · rename_i apart
        rw [modify, if_neg apart, ih]

end Modify

end Forest

/-- The node at a path from the root. The empty path leads to the root itself. -/
def Node.at? (n : Node) : List String → Option Node
  | [] => some n
  | label :: rest => n.children.at? (label :: rest)

theorem Forest.at?_eq_bind (f : Forest) (label : String) (rest : List String) :
    f.at? (label :: rest) = (f.find? label).bind (·.at? rest) := by
  cases found : f.find? label with
  | none =>
      have nothing : f.find? label = nil.find? label := found
      rw [at?_congr nothing, at?_nil, Option.bind_none]
  | some n =>
      have own := label_of_find? found
      have only : f.find? label = n.toForest.find? label := by
        rw [found, find?_toForest, if_pos own]
      rw [at?_congr only, at?_toForest_cons, if_pos own, Option.bind_some]
      cases rest with
      | nil => rfl
      | cons l rest => exact if_neg (List.cons_ne_nil l rest)

namespace Node

theorem at?_cons (n : Node) (label : String) (rest : List String) :
    n.at? (label :: rest) = (n.children.find? label).bind (·.at? rest) :=
  n.children.at?_eq_bind label rest

/-- Changes the node at a path, and nothing where the path leads nowhere. -/
def modifyAt (change : Node → Node) : List String → Node → Node
  | [], n => change n
  | label :: rest, n => { n with children := n.children.modify label (modifyAt change rest) }

theorem keepsLabel_modifyAt {change : Node → Node} (keeps : KeepsLabel change)
    (path : List String) : KeepsLabel (modifyAt change path) := by
  cases path with
  | nil => exact keeps
  | cons label rest => exact fun _ => rfl

theorem modifyAt_congr {change other : Node → Node} {path : List String} {n : Node}
    (same : ∀ m, n.at? path = some m → change m = other m) :
    n.modifyAt change path = n.modifyAt other path := by
  induction path generalizing n with
  | nil => exact same n rfl
  | cons label rest ih =>
      have below : n.children.modify label (modifyAt change rest) =
          n.children.modify label (modifyAt other rest) := by
        apply Forest.modify_congr
        intro child found
        apply ih
        intro m hm
        apply same
        rw [at?_cons, found]
        exact hm
      rw [modifyAt, modifyAt, below]

/-- A change below a node that has been changed is part of the change of that node. -/
theorem modifyAt_append {change : Node → Node} (keeps : KeepsLabel change) (after : Node → Node)
    (path below : List String) (n : Node) :
    (n.modifyAt change path).modifyAt after (path ++ below) =
      n.modifyAt (fun m => (change m).modifyAt after below) path := by
  induction path generalizing n with
  | nil => rfl
  | cons label rest ih =>
      rw [List.cons_append, modifyAt, modifyAt, modifyAt,
        Forest.modify_modify (keepsLabel_modifyAt keeps rest)]
      congr 2
      funext m
      exact ih m

end Node
end CallCost
