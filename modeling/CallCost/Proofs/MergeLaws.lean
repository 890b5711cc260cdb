import CallCost.Proofs.PathSums
import CallCost.Proofs.SelfCosts
import CallCost.Proofs.TreeCopy
import CallCost.Proofs.TreeUnion

/-!
The algebra of merging. Where the sums at each path are safe, a merge does not depend on how it is
bracketed, down to the order of siblings. The order of the trees only shows in the order of
siblings and in the label of the root, and a tree merged with its copy has every number twice.
-/

namespace CallCost

namespace Binary64

theorem add_comm (x y : Binary64) : x + y = y + x := by
  cases x with
  | finite a =>
      cases y with
      | finite b => exact congrArg nearest (Int.add_comm a b)
      | infinite t => rfl
      | nan => rfl
  | infinite s =>
      cases y with
      | finite b => rfl
      | infinite t =>
          change (if s = t then infinite s else nan) = if t = s then infinite t else nan
          by_cases same : s = t
          · rw [if_pos same, if_pos same.symm, same]
          · rw [if_neg same, if_neg (Ne.symm same)]
      | nan => rfl
  | nan => cases y <;> rfl

/-- A number two times over, exactly. -/
def twice : Binary64 → Binary64
  | .finite units => .finite (2 * units)
  | x => x

/-- Twice a safe number is in the format even where it is not safe itself. -/
theorem IsSafe.add_self {x : Binary64} (h : x.IsSafe) : x + x = x.twice := by
  have own : x = .finite ((x.whole * unitsPerOne : Nat) : Int) := h.2.trans (ofNat_eq h.1)
  have small : x.whole < twoPow 53 := Nat.lt_of_le_of_lt h.1 maxSafe_lt
  generalize x.whole = n at own small
  have units : n * unitsPerOne + n * unitsPerOne = n * twoPow (fractionPlaces + 1) := by
    rw [← Nat.mul_two, Nat.mul_assoc, twoPow_add]
    rfl
  have exact_ : round (n * twoPow (fractionPlaces + 1)) 1 = n * twoPow (fractionPlaces + 1) :=
    round_of_dvd (Nat.dvd_trans (twoPow_dvd (lastPlace_mul_twoPow_le small))
      (Nat.dvd_mul_left _ _))
  have room : ¬overflow ≤ n * twoPow (fractionPlaces + 1) := by
    have below := Nat.mul_lt_mul_of_pos_right small (twoPow_pos (fractionPlaces + 1))
    rw [← twoPow_add] at below
    exact Nat.not_le.2 (Nat.lt_of_lt_of_le below (twoPow_le (by omega)))
  have sum : x + x = nearest (n * unitsPerOne + n * unitsPerOne : Nat) := by
    rw [own]
    rfl
  rw [sum, nearest_natCast, units, exact_, if_neg room, ← units, own, twice]
  congr 1
  omega

end Binary64

/-! ### A tree and its copy -/

namespace Forest

/-- Every number two times over. -/
def doubled : Forest → Forest
  | nil => nil
  | cons label calls cycles children siblings =>
      cons label calls.twice cycles.twice children.doubled siblings.doubled

theorem merge_cons_of_not_mem {label : String} (calls cycles : Binary64) (children f : Forest)
    {g : Forest} (absent : label ∉ g.labels) :
    (cons label calls cycles children f).merge g =
      cons label calls cycles children (f.merge g) := by
  induction g generalizing f with
  | nil => simp only [merge]
  | cons l calls' cycles' children' siblings _ ih =>
      rw [labels, List.mem_cons, not_or] at absent
      rw [merge, insertWith, if_neg absent.1, ih _ absent.2, merge]

theorem merge_self {f : Forest} (distinct : f.Distinct) (safe : f.Each Node.HasSafe) :
    f.merge f = f.doubled := by
  induction f with
  | nil => rw [merge_nil, doubled]
  | cons label calls cycles children siblings ihc ihs =>
      obtain ⟨fresh, distinctChildren, distinctSiblings⟩ := distinct
      obtain ⟨own, below, beside⟩ := safe
      rw [merge, insertWith, if_pos rfl, merge_cons_of_not_mem _ _ _ _ fresh,
        ihc distinctChildren below, ihs distinctSiblings beside, doubled, ← own.calls.add_self,
        ← own.cycles.add_self]

end Forest

namespace Node

def doubled (n : Node) : Node where
  label := n.label
  calls := n.calls.twice
  cycles := n.cycles.twice
  children := n.children.doubled

/-- A tree that is merged with an equal one has every number two times over, and nothing else
changes. -/
theorem merge_self {n : Node} (distinct : n.children.Distinct)
    (calls : SafePathSums Node.calls [n.at?]) (cycles : SafePathSums Node.cycles [n.at?]) :
    n.merge n = n.doubled := by
  have safe (path : List String) (m : Node) (found : n.at? path = some m) : m.HasSafe :=
    ⟨calls.safe _ List.mem_cons_self path m found, cycles.safe _ List.mem_cons_self path m found⟩
  have below : n.children.Each HasSafe := by
    apply Forest.each_of_at? distinct
    intro path m found
    cases path with
    | nil => cases found
    | cons label rest => exact safe (label :: rest) m found
  have own := safe [] n rfl
  rw [merge, doubled, Forest.merge_self distinct below, own.calls.add_self, own.cycles.add_self]

/-! ### Brackets and order -/

theorem map_numbers_eq {m n : Option Node} (calls : m.map Node.calls = n.map Node.calls)
    (cycles : m.map Node.cycles = n.map Node.cycles) : m.map numbers = n.map numbers := by
  cases m with
  | none =>
      cases n with
      | none => rfl
      | some n => cases calls
  | some m =>
      cases n with
      | none => cases calls
      | some n =>
          exact congrArg some (Prod.ext (Option.some.inj calls) (Option.some.inj cycles))

theorem map_at?_merge_assoc {a b c : Node} {number : Node → Binary64}
    (adds : ∀ m n : Node, number (m.merge n) = number m + number n) (hb : b.children.Distinct)
    (hc : c.children.Distinct) (sums : SafePathSums number [a.at?, b.at?, c.at?])
    (path : List String) :
    (((a.merge b).merge c).at? path).map number = ((a.merge (b.merge c)).at? path).map number := by
  have inner : (b.merge c).children.Distinct := Forest.distinct_merge _ _ hb hc
  obtain ⟨safeA, safe⟩ := List.forall_mem_cons.1 sums.safe
  obtain ⟨safeB, safe⟩ := List.forall_mem_cons.1 safe
  have safeC := List.forall_mem_singleton.1 safe
  have first := SumOf.single (safeA path)
  have second := SumOf.single (safeB path)
  have third := SumOf.single (safeC path)
  have room := sums.sum path
  simp only [List.map_cons, List.map_nil, List.sum_cons, List.sum_nil] at room
  rw [at?_merge _ hc, at?_merge _ hb, at?_merge _ inner, at?_merge _ hc]
  have left := (first.merge adds second (by simp; omega)).merge adds third (by simp; omega)
  have right := first.merge adds (second.merge adds third (by simp; omega)) (by simp; omega)
  exact left.map_eq right (List.Perm.refl _)

end Node

theorem Forest.labels_merge_assoc (f : Forest) {g h : Forest} (hg : g.Distinct) (hh : h.Distinct) :
    ((f.merge g).merge h).labels = (f.merge (g.merge h)).labels := by
  have both := (distinct_merge g h hg hh).nodup_labels
  rw [labels_merge _ _ hh.nodup_labels, labels_merge _ _ hg.nodup_labels, labels_merge _ _ both,
    labels_merge _ _ hh.nodup_labels, List.filter_append, List.filter_filter, List.append_assoc]
  congr 2
  apply List.filter_congr
  intro label _
  by_cases h : label ∈ f.labels <;> simp [h]

/-- Brackets do not matter to a merge. -/
theorem Node.merge_assoc {a b c : Node} (ha : a.children.Distinct) (hb : b.children.Distinct)
    (hc : c.children.Distinct) (calls : SafePathSums Node.calls [a.at?, b.at?, c.at?])
    (cycles : SafePathSums Node.cycles [a.at?, b.at?, c.at?]) :
    (a.merge b).merge c = a.merge (b.merge c) := by
  have inner : (b.merge c).children.Distinct := Forest.distinct_merge _ _ hb hc
  have outer : (a.merge b).children.Distinct := Forest.distinct_merge _ _ ha hb
  have values (path : List String) : (((a.merge b).merge c).at? path).map numbers =
      ((a.merge (b.merge c)).at? path).map numbers :=
    map_numbers_eq (map_at?_merge_assoc (fun _ _ => rfl) hb hc calls path)
      (map_at?_merge_assoc (fun _ _ => rfl) hb hc cycles path)
  have below : ((a.merge b).merge c).children = (a.merge (b.merge c)).children := by
    apply Forest.eq_of_paths (Forest.distinct_merge _ _ outer hc)
      (Forest.distinct_merge _ _ ha inner)
    · intro path
      simp only [merge]
      rw [Forest.under_merge _ _ hc, Forest.under_merge _ _ hb,
        Forest.under_merge _ _ (Forest.distinct_merge _ _ hb hc), Forest.under_merge _ _ hc,
        Forest.labels_merge_assoc _ (hb.under path) (hc.under path)]
    · intro path
      cases path with
      | nil => rfl
      | cons label rest => exact values (label :: rest)
  obtain ⟨sameCalls, sameCycles⟩ := Prod.mk.inj (Option.some.inj (values []))
  rw [merge, merge, mk.injEq]
  exact ⟨rfl, sameCalls, sameCycles, below⟩

theorem Node.numbers_merge_comm (m n : Node) : (m.merge n).numbers = (n.merge m).numbers :=
  congrArg₂ Prod.mk (Binary64.add_comm m.calls n.calls) (Binary64.add_comm m.cycles n.cycles)

/-- The order of two trees shows in nothing but the order of children and the label of the root. -/
theorem Node.merge_comm {a b : Node} (ha : a.children.Distinct) (hb : b.children.Distinct) :
    (a.merge b).numbers = (b.merge a).numbers ∧
      (a.merge b).children.Reordered numbers (b.merge a).children := by
  refine ⟨numbers_merge_comm a b, ?_⟩
  apply Forest.reordered_of_values (Forest.distinct_merge _ _ ha hb)
    (Forest.distinct_merge _ _ hb ha)
  intro path
  rw [Forest.at?_merge _ _ hb, Forest.at?_merge _ _ ha]
  cases a.children.at? path with
  | none => rw [Option.merge_none_left, Option.merge_none_right]
  | some m =>
      cases b.children.at? path with
      | none => rfl
      | some n => exact congrArg some (numbers_merge_comm m n)

/-! ### A row of nodes -/

namespace Forest

theorem distinct_foldl_add {nodes : List Node} (hn : ∀ n ∈ nodes, n.children.Distinct) {f : Forest}
    (hf : f.Distinct) : (nodes.foldl add f).Distinct := by
  induction nodes generalizing f with
  | nil => exact hf
  | cons n rest ih =>
      obtain ⟨here, later⟩ := List.forall_mem_cons.1 hn
      refine ih later ?_
      rw [← merge_toForest]
      exact distinct_merge _ _ hf (distinct_toForest here)

theorem at?_foldl_add {nodes : List Node} (hn : ∀ n ∈ nodes, n.children.Distinct) (f : Forest)
    (path : List String) :
    (nodes.foldl add f).at? path =
      (nodes.map fun n => n.toForest.at? path).foldl (Option.merge Node.merge) (f.at? path) := by
  induction nodes generalizing f with
  | nil => rfl
  | cons n rest ih =>
      obtain ⟨here, later⟩ := List.forall_mem_cons.1 hn
      rw [List.foldl_cons, ih later, ← merge_toForest, at?_merge _ _ (distinct_toForest here)]
      rfl

/-- The nodes of a sibling map and of a row of nodes that is merged into it. -/
def lookups (f : Forest) (nodes : List Node) : List (List String → Option Node) :=
  f.at? :: nodes.map fun n => n.toForest.at?

theorem sumOf_foldl_add {number : Node → Binary64}
    (adds : ∀ m n : Node, number (m.merge n) = number m + number n) {nodes : List Node}
    (hn : ∀ n ∈ nodes, n.children.Distinct) {f : Forest}
    (sums : SafePathSums number (f.lookups nodes)) (path : List String) :
    SumOf number ((f.lookups nodes).map (· path)) ((nodes.foldl add f).at? path) := by
  obtain ⟨safe, later⟩ := List.forall_mem_cons.1 sums.safe
  have room := sums.sum path
  rw [at?_foldl_add hn, lookups, List.map_cons, List.map_map]
  apply SumOf.foldl adds (SumOf.single (safe path))
  · intro part hpart n hpn
    obtain ⟨m, hm, rfl⟩ := List.mem_map.1 hpart
    exact later _ (List.mem_map_of_mem hm) path n hpn
  · simpa [lookups, Function.comp_def] using room

/-- The order in which nodes are merged into a row only shows in the order of siblings. -/
theorem foldl_add_perm {nodes nodes' : List Node} (same : nodes.Perm nodes')
    (hn : ∀ n ∈ nodes, n.children.Distinct) {f : Forest} (hf : f.Distinct)
    (calls : SafePathSums Node.calls (f.lookups nodes))
    (cycles : SafePathSums Node.cycles (f.lookups nodes)) :
    (nodes.foldl add f).Reordered Node.numbers (nodes'.foldl add f) := by
  have hn' : ∀ n ∈ nodes', n.children.Distinct := fun n mem => hn n (same.mem_iff.2 mem)
  have trees : (f.lookups nodes).Perm (f.lookups nodes') := (same.map _).cons _
  apply reordered_of_values (distinct_foldl_add hn hf) (distinct_foldl_add hn' hf)
  intro path
  apply Node.map_numbers_eq
  · exact (sumOf_foldl_add (fun _ _ => rfl) hn calls path).map_eq
      (sumOf_foldl_add (fun _ _ => rfl) hn' (calls.perm trees) path) (trees.map _)
  · exact (sumOf_foldl_add (fun _ _ => rfl) hn cycles path).map_eq
      (sumOf_foldl_add (fun _ _ => rfl) hn' (cycles.perm trees) path) (trees.map _)

end Forest

/-- The laws of merging. Brackets do not matter; the order of two trees only shows in the order of
children and the label of the root; a tree merged with its copy has every number two times over;
and the order in which nodes are merged into a row only shows in the order of siblings. -/
theorem merge_laws :
    (∀ a b c : Node, a.children.Distinct → b.children.Distinct → c.children.Distinct →
      SafePathSums Node.calls [a.at?, b.at?, c.at?] →
      SafePathSums Node.cycles [a.at?, b.at?, c.at?] →
      (a.merge b).merge c = a.merge (b.merge c)) ∧
    (∀ a b : Node, a.children.Distinct → b.children.Distinct →
      (a.merge b).numbers = (b.merge a).numbers ∧
        (a.merge b).children.Reordered Node.numbers (b.merge a).children) ∧
    (∀ a : Node, a.children.Distinct → SafePathSums Node.calls [a.at?] →
      SafePathSums Node.cycles [a.at?] →
      ∃ steps copy, (TreeLoop.step TreeLoop.copying)^[steps] (.start a.bare a) = ⟨copy, []⟩ ∧
        a.merge copy = a.doubled) ∧
    ∀ (f : Forest) (nodes nodes' : List Node), nodes.Perm nodes' → f.Distinct →
      (∀ n ∈ nodes, n.children.Distinct) → SafePathSums Node.calls (f.lookups nodes) →
      SafePathSums Node.cycles (f.lookups nodes) →
      (nodes.foldl Forest.add f).Reordered Node.numbers (nodes'.foldl Forest.add f) := by
  refine ⟨fun a b c => Node.merge_assoc, fun a b => Node.merge_comm, ?_, ?_⟩
  · intro a distinct calls cycles
    obtain ⟨steps, run⟩ := TreeLoop.copying_ends distinct
    exact ⟨steps, a, run, Node.merge_self distinct calls cycles⟩
  · intro f nodes nodes' same hf hn calls cycles
    exact Forest.foldl_add_perm same hn hf calls cycles

/-- Three trees that share labels at two levels, and a row of nodes that repeats a label. -/
theorem merge_laws_shared_labels :
    let leaf (label : String) (calls cycles : Nat) (siblings : Forest) : Forest :=
      .cons label (.ofNat calls) (.ofNat cycles) .nil siblings
    let a : Node := ⟨"A", .ofNat 1, .ofNat 40,
      .cons "B" (.ofNat 2) (.ofNat 20) (leaf "D" 1 5 .nil) (leaf "C" 1 7 .nil)⟩
    let b : Node := ⟨"X", .ofNat 1, .ofNat 9, leaf "E" 3 3 (leaf "B" 1 2 .nil)⟩
    let c : Node := ⟨"A", .ofNat 2, .ofNat 50,
      leaf "C" 4 4 (.cons "B" (.ofNat 1) (.ofNat 30) (leaf "F" 1 1 (leaf "D" 2 8 .nil)) .nil)⟩
    let left := (a.merge b).merge c
    left = a.merge (b.merge c) ∧ left.children.labels = ["B", "C", "E"] ∧
      (left.children.under ["B"]).labels = ["D", "F"] ∧
      (a.merge b).numbers = (b.merge a).numbers ∧
      (a.merge b).children.Reordered Node.numbers (b.merge a).children ∧
      (∃ steps copy, (TreeLoop.step TreeLoop.copying)^[steps] (.start a.bare a) = ⟨copy, []⟩ ∧
        a.merge copy = a.doubled) ∧
      ([b, c].foldl Forest.add a.toForest).Reordered Node.numbers
        ([c, b].foldl Forest.add a.toForest) := by
  intro leaf a b c left
  have ha : a.children.Distinct := by simp [a, leaf, Forest.Distinct, Forest.labels]
  have hb : b.children.Distinct := by simp [b, leaf, Forest.Distinct, Forest.labels]
  have hc : c.children.Distinct := by simp [c, leaf, Forest.Distinct, Forest.labels]
  have sums (number : Node → Binary64) (inA : a.toForest.Each (Bounded number 50))
      (inB : b.toForest.Each (Bounded number 50)) (inC : c.toForest.Each (Bounded number 50)) :
      SafePathSums number [a.at?, b.at?, c.at?] ∧ SafePathSums number [a.at?] ∧
        SafePathSums number (a.toForest.lookups [b, c]) := by
    have small : [50, 50, 50].sum ≤ Binary64.maxSafe := by decide
    have one : [50].sum ≤ Binary64.maxSafe := by decide
    exact ⟨.of_bounds (.cons (Node.of_at?_of_each inA) (.cons (Node.of_at?_of_each inB)
        (.cons (Node.of_at?_of_each inC) .nil))) small,
      .of_bounds (.cons (Node.of_at?_of_each inA) .nil) one,
      .of_bounds (.cons inA.of_at? (.cons inB.of_at? (.cons inC.of_at? .nil))) small⟩
  obtain ⟨calls, callsOfA, callsInRow⟩ := sums Node.calls (by decide +kernel) (by decide +kernel)
    (by decide +kernel)
  obtain ⟨cycles, cyclesOfA, cyclesInRow⟩ := sums Node.cycles (by decide +kernel)
    (by decide +kernel) (by decide +kernel)
  have children : ∀ n ∈ [b, c], n.children.Distinct :=
    List.forall_mem_cons.2 ⟨hb, List.forall_mem_singleton.2 hc⟩
  obtain ⟨assoc, comm, copies, row⟩ := merge_laws
  obtain ⟨steps, copy, run, doubled⟩ := copies a ha callsOfA cyclesOfA
  refine ⟨assoc a b c ha hb hc calls cycles, by decide +kernel, by decide +kernel,
    (comm a b ha hb).1, (comm a b ha hb).2, ⟨steps, copy, run, doubled⟩,
    row a.toForest [b, c] [c, b] (.swap _ _ _) (Forest.distinct_toForest ha) children callsInRow
      cyclesInRow⟩

end CallCost
