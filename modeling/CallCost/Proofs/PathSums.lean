import CallCost.Proofs.ForestSums
import CallCost.Proofs.SiblingOrder
import CallCost.Proofs.TreeEdits
import Mathlib.Data.List.Perm.Basic

/-!
What merged trees have at one path. Either no tree has a node there, or the merged one has a node
whose numbers are the exact sums over the trees, as long as these sums are safe. A tree is known
by what it has at its paths and by the order of its siblings.
-/

namespace CallCost

open Binary64

/-- The numbers that a node carries. -/
def Node.numbers (n : Node) : Binary64 × Binary64 :=
  (n.calls, n.cycles)

/-- The whole number of a node that may be missing. -/
def amount (number : Node → Binary64) (n : Option Node) : Nat :=
  n.elim 0 fun n => (number n).whole

/-- The node, if any, carries the sum of the whole numbers of the parts, and it is missing only
if all parts are. -/
structure SumOf (number : Node → Binary64) (parts : List (Option Node)) (n : Option Node) :
    Prop where
  missing : n = none ↔ ∀ part ∈ parts, part = none
  sum : ∀ m, n = some m → number m = .ofNat (parts.map (amount number)).sum

/-- Trees whose numbers are whole and have a safe sum at each path. A tree is given by its nodes
at the paths. -/
structure SafePathSums (number : Node → Binary64) (trees : List (List String → Option Node)) :
    Prop where
  safe : ∀ tree ∈ trees, ∀ path n, tree path = some n → (number n).IsSafe
  sum : ∀ path, (trees.map fun tree => amount number (tree path)).sum ≤ maxSafe

theorem SafePathSums.perm {number : Node → Binary64}
    {trees trees' : List (List String → Option Node)}
    (h : SafePathSums number trees) (same : trees.Perm trees') : SafePathSums number trees' where
  safe := fun tree mem => h.safe tree (same.mem_iff.2 mem)
  sum := fun path => by
    rw [← (same.map fun tree => amount number (tree path)).sum_eq]
    exact h.sum path

/-- The numbers of a tree are safe and at most so large. -/
def Bounded (number : Node → Binary64) (bound : Nat) (n : Node) : Prop :=
  (number n).IsSafe ∧ (number n).whole ≤ bound

instance (number : Node → Binary64) (bound : Nat) : DecidablePred (Bounded number bound) :=
  fun n => inferInstanceAs (Decidable (((number n).whole ≤ maxSafe ∧
    number n = ofNat (number n).whole) ∧ (number n).whole ≤ bound))

/-- Bounds for whole trees that have a safe sum bound the sums at each path. -/
theorem SafePathSums.of_bounds {number : Node → Binary64}
    {trees : List (List String → Option Node)} {bounds : List Nat}
    (h : List.Forall₂ (fun tree bound => ∀ path n, tree path = some n → Bounded number bound n)
      trees bounds) (small : bounds.sum ≤ maxSafe) : SafePathSums number trees where
  safe := by
    induction h with
    | nil => simp
    | cons here _ ih =>
        rw [List.sum_cons] at small
        exact List.forall_mem_cons.2 ⟨fun path n found => (here path n found).1, ih (by omega)⟩
  sum := by
    intro path
    refine Nat.le_trans ?_ small
    clear small
    induction h with
    | nil => exact Nat.le_refl 0
    | @cons tree bound trees bounds here _ ih =>
        rw [List.map_cons, List.sum_cons, List.sum_cons]
        refine Nat.add_le_add ?_ ih
        cases found : tree path with
        | none => exact Nat.zero_le _
        | some n => exact (here path n found).2

namespace SumOf

variable {number : Node → Binary64} {parts parts' : List (Option Node)} {m n : Option Node}

theorem single (safe : ∀ k, n = some k → (number k).IsSafe) : SumOf number [n] n where
  missing := by simp
  sum := by
    rintro k rfl
    simpa [amount] using (safe k rfl).2

theorem sum_of_missing (h : ∀ part ∈ parts, part = none) :
    (parts.map (amount number)).sum = 0 := by
  rw [List.sum_eq_zero_iff]
  intro k hk
  obtain ⟨part, mem, rfl⟩ := List.mem_map.1 hk
  rw [h part mem]
  rfl

theorem merge (adds : ∀ m n : Node, number (m.merge n) = number m + number n)
    (hm : SumOf number parts m) (hn : SumOf number parts' n)
    (room : ((parts ++ parts').map (amount number)).sum ≤ maxSafe) :
    SumOf number (parts ++ parts') (Option.merge Node.merge m n) where
  missing := by
    rw [List.forall_mem_append, ← hm.missing, ← hn.missing]
    cases m <;> cases n <;> simp
  sum := by
    rw [List.map_append, List.sum_append] at room ⊢
    cases m with
    | none =>
        rw [sum_of_missing (hm.missing.1 rfl), Nat.zero_add, Option.merge_none_left]
        exact hn.sum
    | some m =>
        cases n with
        | none =>
            rw [sum_of_missing (hn.missing.1 rfl), Nat.add_zero, Option.merge_none_right]
            exact hm.sum
        | some n =>
            rintro k ⟨⟩
            rw [adds, hm.sum m rfl, hn.sum n rfl, ofNat_add (by omega) (by omega)]

/-- The sum does not depend on the order of the parts. -/
theorem map_eq (hm : SumOf number parts m) (hn : SumOf number parts' n)
    (same : parts.Perm parts') : m.map number = n.map number := by
  have missing : m = none ↔ n = none := by
    rw [hm.missing, hn.missing]
    exact forall_congr' fun part => by rw [same.mem_iff]
  cases m with
  | none => rw [missing.1 rfl]
  | some m =>
      cases n with
      | none => cases missing.2 rfl
      | some n =>
          rw [Option.map_some, Option.map_some, hm.sum m rfl, hn.sum n rfl,
            (same.map _).sum_eq]

theorem foldl (adds : ∀ m n : Node, number (m.merge n) = number m + number n)
    (hm : SumOf number parts m) (more : List (Option Node))
    (safe : ∀ part ∈ more, ∀ n, part = some n → (number n).IsSafe)
    (room : ((parts ++ more).map (amount number)).sum ≤ maxSafe) :
    SumOf number (parts ++ more) (more.foldl (Option.merge Node.merge) m) := by
  induction more generalizing parts m with
  | nil => rwa [List.append_nil]
  | cons part rest ih =>
      obtain ⟨here, later⟩ := List.forall_mem_cons.1 safe
      rw [List.append_cons] at room ⊢
      have first : ((parts ++ [part]).map (amount number)).sum ≤ maxSafe := by
        rw [List.map_append, List.sum_append] at room
        omega
      exact ih (hm.merge adds (single here) first) later room

end SumOf

namespace Forest

theorem Each.find? {p : Node → Prop} {f : Forest} (h : f.Each p) {label : String} {n : Node}
    (found : f.find? label = some n) : p n ∧ n.children.Each p := by
  induction f with
  | nil => cases found
  | cons l calls cycles children siblings _ ih =>
      rw [Forest.find?] at found
      split at found
      · cases found
        exact ⟨h.1, h.2.1⟩
      · exact ih h.2.2 found

theorem Each.of_at? {p : Node → Prop} {f : Forest} (h : f.Each p) (path : List String) (n : Node)
    (found : f.at? path = some n) : p n := by
  induction path generalizing f with
  | nil => cases found
  | cons label rest ih =>
      rw [at?_eq_bind, Option.bind_eq_some_iff] at found
      obtain ⟨m, here, below⟩ := found
      obtain ⟨own, children⟩ := h.find? here
      cases rest with
      | nil => exact Option.some.inj below ▸ own
      | cons l rest => exact ih children below

section Cons

variable (label : String) (calls cycles : Binary64) (children siblings : Forest)

theorem at?_cons_self (rest : List String) :
    (cons label calls cycles children siblings).at? (label :: rest) =
      Node.at? ⟨label, calls, cycles, children⟩ rest := by
  rw [at?_eq_bind, find?, if_pos rfl, Option.bind_some]

theorem under_cons_self (rest : List String) :
    (cons label calls cycles children siblings).under (label :: rest) = children.under rest := by
  rw [under, find?, if_pos rfl]

variable {label} {l : String} (other : label ≠ l)
include other

theorem at?_cons_of_ne (rest : List String) :
    (cons label calls cycles children siblings).at? (l :: rest) = siblings.at? (l :: rest) :=
  at?_congr (f := cons label calls cycles children siblings) (if_neg other) rest

theorem under_cons_of_ne (rest : List String) :
    (cons label calls cycles children siblings).under (l :: rest) =
      siblings.under (l :: rest) := by
  rw [under, find?, if_neg other, under]

end Cons

theorem at?_of_not_mem {f : Forest} {label : String} (absent : label ∉ f.labels)
    (rest : List String) : f.at? (label :: rest) = none := by
  rw [at?_eq_bind, (find?_eq_none_iff f label).2 absent, Option.bind_none]

theorem under_of_not_mem {f : Forest} {label : String} (absent : label ∉ f.labels)
    (rest : List String) : f.under (label :: rest) = nil := by
  rw [under, (find?_eq_none_iff f label).2 absent]

/-- A forest is known by its numbers at each path and the order of siblings. -/
theorem eq_of_paths {f g : Forest} (hf : f.Distinct) (hg : g.Distinct)
    (labels : ∀ path, (f.under path).labels = (g.under path).labels)
    (numbers : ∀ path, (f.at? path).map Node.numbers = (g.at? path).map Node.numbers) :
    f = g := by
  induction f generalizing g with
  | nil =>
      cases g with
      | nil => rfl
      | cons => cases labels []
  | cons label calls cycles children siblings ihc ihs =>
      cases g with
      | nil => cases labels []
      | cons label' calls' cycles' children' siblings' =>
          obtain ⟨rfl, rest⟩ := List.cons.inj (labels [])
          have own := numbers [label]
          rw [at?_cons_self, at?_cons_self] at own
          obtain ⟨rfl, rfl⟩ := Prod.mk.inj (Option.some.inj own)
          have below : children = children' := by
            apply ihc hf.2.1 hg.2.1
            · intro path
              simpa only [under_cons_self] using labels (label :: path)
            · intro path
              cases path with
              | nil => rfl
              | cons l path =>
                  have deeper := numbers (label :: l :: path)
                  rwa [at?_cons_self, at?_cons_self] at deeper
          have beside : siblings = siblings' := by
            apply ihs hf.2.2 hg.2.2
            · intro path
              cases path with
              | nil => exact rest
              | cons l path =>
                  by_cases same : label = l
                  · subst same
                    rw [under_of_not_mem hf.1, under_of_not_mem hg.1]
                  · simpa only [under_cons_of_ne _ _ _ _ same] using labels (l :: path)
            · intro path
              cases path with
              | nil => rfl
              | cons l path =>
                  by_cases same : label = l
                  · subst same
                    rw [at?_of_not_mem hf.1, at?_of_not_mem hg.1]
                  · simpa only [at?_cons_of_ne _ _ _ _ same] using numbers (l :: path)
          rw [below, beside]

/-- Forests with the same values at each path have the same siblings there in some order. -/
theorem reordered_of_values {α : Type} {value : Node → α} {f g : Forest} (hf : f.Distinct)
    (hg : g.Distinct) (values : ∀ path, (f.at? path).map value = (g.at? path).map value) :
    f.Reordered value g where
  labels := by
    intro path
    apply (List.perm_ext_iff_of_nodup (hf.under path).nodup_labels (hg.under path).nodup_labels).2
    intro label
    have absent (h : Forest) : label ∉ (h.under path).labels ↔
        (h.at? (path ++ [label])).map value = none := by
      rw [Option.map_eq_none_iff, at?_concat, find?_eq_none_iff]
    rw [← not_iff_not, absent, absent, values]
  values := values

end Forest

theorem Node.of_at?_of_each {p : Node → Prop} {n : Node} (h : n.toForest.Each p)
    (path : List String) (m : Node) (found : n.at? path = some m) : p m := by
  cases path with
  | nil => exact Option.some.inj found ▸ h.1
  | cons label rest => exact h.2.1.of_at? (label :: rest) m found

end CallCost
