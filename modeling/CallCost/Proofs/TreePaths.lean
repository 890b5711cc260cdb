import CallCost.Proofs.Siblings

/-!
A call-cost forest seen along label paths, from the label of a root downwards. Merging two
forests merges what they have below each path, with nothing where a path does not occur.
-/

namespace CallCost
namespace Forest

/-- What stands below a path: the forest itself for the empty path, and nothing below a path
that does not occur. -/
def under : Forest → List String → Forest
  | f, [] => f
  | f, label :: rest =>
      match f.find? label with
      | some n => n.children.under rest
      | none => nil

/-- The node at a path. -/
def at? (f : Forest) (path : List String) : Option Node :=
  match path.getLast? with
  | some label => (f.under path.dropLast).find? label
  | none => none

theorem at?_concat (f : Forest) (path : List String) (label : String) :
    f.at? (path ++ [label]) = (f.under path).find? label := by
  simp only [at?, List.getLast?_append, List.getLast?_singleton, Option.some_or,
    List.dropLast_concat]

theorem under_nil (path : List String) : nil.under path = nil := by
  cases path <;> rfl

theorem at?_nil (path : List String) : nil.at? path = none := by
  rcases List.eq_nil_or_concat path with rfl | ⟨front, label, rfl⟩
  · rfl
  · rw [List.concat_eq_append, at?_concat, under_nil]
    rfl

theorem under_append (f : Forest) (path rest : List String) :
    f.under (path ++ rest) = (f.under path).under rest := by
  induction path generalizing f with
  | nil => rfl
  | cons label path ih =>
      simp only [List.cons_append, under]
      cases f.find? label with
      | none => exact (under_nil rest).symm
      | some n => exact ih n.children

/-- The path of a node ends in its label. -/
theorem path_of_at? {f : Forest} {path : List String} {n : Node} (h : f.at? path = some n) :
    ∃ front, path = front ++ [n.label] ∧ (f.under front).find? n.label = some n := by
  rcases List.eq_nil_or_concat path with rfl | ⟨front, label, rfl⟩
  · cases h
  · rw [List.concat_eq_append, at?_concat] at h
    obtain rfl := label_of_find? h
    exact ⟨front, List.concat_eq_append, h⟩

/-- Below a path stand the children of the node at that path. -/
theorem under_of_at? {f : Forest} {path : List String} {n : Node} (h : f.at? path = some n) :
    f.under path = n.children := by
  obtain ⟨front, rfl, found⟩ := path_of_at? h
  rw [under_append, under, found]
  rfl

theorem under_toForest_cons (n : Node) (label : String) (rest : List String) :
    n.toForest.under (label :: rest) = if n.label = label then n.children.under rest else nil := by
  simp only [under, find?_toForest]
  by_cases h : n.label = label
  · simp only [if_pos h]
  · simp only [if_neg h]

theorem at?_toForest_cons (n : Node) (label : String) (rest : List String) :
    n.toForest.at? (label :: rest) =
      if n.label = label then if rest = [] then some n else n.children.at? rest else none := by
  rcases List.eq_nil_or_concat rest with rfl | ⟨front, last, rfl⟩
  · rw [if_pos rfl, ← find?_toForest]
    rfl
  · rw [List.concat_eq_append, ← List.cons_append, at?_concat, at?_concat, under_toForest_cons,
      if_neg (List.append_ne_nil_of_right_ne_nil front (List.cons_ne_nil last []))]
    split <;> rfl

/-- What stands at a path depends on no root but the one with its first label. -/
theorem at?_congr {f g : Forest} {label : String} (h : f.find? label = g.find? label)
    (rest : List String) : f.at? (label :: rest) = g.at? (label :: rest) := by
  rcases List.eq_nil_or_concat rest with rfl | ⟨front, last, rfl⟩
  · exact h
  · rw [List.concat_eq_append, ← List.cons_append, at?_concat, at?_concat, under, under, h]

/-- Every node of the forest, at any depth, has the property. -/
def Each (p : Node → Prop) : Forest → Prop
  | nil => True
  | cons label calls cycles children siblings =>
      p ⟨label, calls, cycles, children⟩ ∧ children.Each p ∧ siblings.Each p

instance Each.decidable (p : Node → Prop) [DecidablePred p] : (f : Forest) → Decidable (f.Each p)
  | nil => inferInstanceAs (Decidable True)
  | cons label calls cycles children siblings =>
      have := Each.decidable p children
      have := Each.decidable p siblings
      inferInstanceAs (Decidable (p ⟨label, calls, cycles, children⟩ ∧ _ ∧ _))

/-- Where siblings have distinct labels, every node stands at a path. -/
theorem each_of_at? {p : Node → Prop} {f : Forest} (distinct : f.Distinct)
    (h : ∀ path n, f.at? path = some n → p n) : f.Each p := by
  induction f with
  | nil => exact True.intro
  | cons label calls cycles children siblings ihc ihs =>
      obtain ⟨fresh, distinctChildren, distinctSiblings⟩ := distinct
      have here : (cons label calls cycles children siblings).find? label =
          (Node.toForest ⟨label, calls, cycles, children⟩).find? label := by
        rw [find?_toForest, find?, if_pos rfl, if_pos rfl]
      refine ⟨?_, ihc distinctChildren ?_, ihs distinctSiblings ?_⟩
      · apply h [label]
        rw [at?_congr here, at?_toForest_cons, if_pos rfl, if_pos rfl]
      · intro path n found
        apply h (label :: path)
        cases path with
        | nil => cases found
        | cons l rest => rwa [at?_congr here, at?_toForest_cons, if_pos rfl, if_neg (by simp)]
      · intro path n found
        cases path with
        | nil => cases found
        | cons l rest =>
            apply h (l :: rest)
            by_cases same : label = l
            · have none_there : siblings.find? l = nil.find? l :=
                (find?_eq_none_iff siblings l).2 (same ▸ fresh)
              rw [at?_congr none_there, at?_nil] at found
              cases found
            · rwa [at?_congr (f := cons label calls cycles children siblings) (if_neg same)]

theorem Each.imp {p q : Node → Prop} (weaker : ∀ n, p n → q n) {f : Forest} (h : f.Each p) :
    f.Each q := by
  induction f with
  | nil => exact True.intro
  | cons label calls cycles children siblings ihc ihs =>
      exact ⟨weaker _ h.1, ihc h.2.1, ihs h.2.2⟩

theorem Each.mem_nodes {p : Node → Prop} {f : Forest} (h : f.Each p) : ∀ n ∈ f.nodes, p n := by
  induction f with
  | nil => exact fun n hn => absurd hn List.not_mem_nil
  | cons label calls cycles children siblings _ ih =>
      exact List.forall_mem_cons.2 ⟨h.1, ih h.2.2⟩

theorem Distinct.under {f : Forest} (h : f.Distinct) (path : List String) :
    (f.under path).Distinct := by
  induction path generalizing f with
  | nil => exact h
  | cons label rest ih =>
      simp only [Forest.under]
      cases hf : f.find? label with
      | none => exact True.intro
      | some n => exact ih (h.find? hf)

theorem distinct_toForest {n : Node} (h : n.children.Distinct) : n.toForest.Distinct :=
  ⟨List.not_mem_nil, h, True.intro⟩

theorem append_nil (f : Forest) : f ++ nil = f := by
  induction f with
  | nil => rfl
  | cons label calls cycles children siblings _ ih =>
      exact congrArg (cons label calls cycles children) ih

theorem append_assoc (f g h : Forest) : f ++ g ++ h = f ++ (g ++ h) := by
  induction f with
  | nil => rfl
  | cons label calls cycles children siblings _ ih =>
      exact congrArg (cons label calls cycles children) ih

/-- A node whose label is new goes to the end of the row as it is. -/
theorem insertWith_of_not_mem (mergeChildren : Forest → Forest) (n : Node) (f : Forest)
    (h : n.label ∉ f.labels) : f.insertWith mergeChildren n = f ++ n.toForest := by
  induction f with
  | nil => rfl
  | cons label calls cycles children siblings _ ih =>
      simp only [labels, List.mem_cons, not_or] at h
      rw [insertWith, if_neg (Ne.symm h.1), ih h.2]
      rfl

/-- Rows without a common label are joined end to end. -/
theorem merge_of_disjoint (f g : Forest) (hg : g.labels.Nodup)
    (apart : ∀ label ∈ g.labels, label ∉ f.labels) : f.merge g = f ++ g := by
  induction g generalizing f with
  | nil => rw [merge, append_nil]
  | cons label calls cycles children siblings _ ih =>
      obtain ⟨fresh, rest⟩ := List.nodup_cons.1 hg
      have new : label ∉ f.labels := apart label List.mem_cons_self
      rw [merge, insertWith_of_not_mem _ _ _ new, ih _ rest, append_assoc]
      · rfl
      · intro l hl
        have hne : l ≠ label := fun e => fresh (e ▸ hl)
        rw [labels_append, List.mem_append, not_or]
        exact ⟨apart l (List.mem_cons_of_mem _ hl), by
          simpa only [Node.toForest, labels, List.mem_singleton] using hne⟩

theorem nil_merge (g : Forest) (hg : g.labels.Nodup) : nil.merge g = g :=
  merge_of_disjoint nil g hg fun _ _ => List.not_mem_nil

theorem under_merge (f g : Forest) (hg : g.Distinct) (path : List String) :
    (f.merge g).under path = (f.under path).merge (g.under path) := by
  induction path generalizing f g with
  | nil => rfl
  | cons label rest ih =>
      simp only [under, find?_merge f g label hg.nodup_labels]
      cases hf : f.find? label with
      | none =>
          cases hs : g.find? label with
          | none => exact (merge_nil nil).symm
          | some n => exact (nil_merge _ ((hg.find? hs).under rest).nodup_labels).symm
      | some m =>
          cases hs : g.find? label with
          | none => exact (merge_nil _).symm
          | some n => exact ih m.children n.children (hg.find? hs)

end Forest
end CallCost
