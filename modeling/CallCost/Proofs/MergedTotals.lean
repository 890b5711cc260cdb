import CallCost.Proofs.LabelSums

/-!
The flat totals of two trees that are merged first, beside those of the two trees one after the
other. A merge moves no node to another path, so whether a node stands outermost for its label
does not change, and the calls and cycles of a label come out the same. The own cost may come out
smaller, as it is cut off at zero once for a merged node and twice for the two it came from.
-/

namespace CallCost

open Binary64

/-- The children do not cost more than the node. -/
def Node.CoversChildren (n : Node) : Prop :=
  n.children.cycleSum ≤ n.cycles.whole

instance : DecidablePred Node.CoversChildren :=
  fun n => inferInstanceAs (Decidable (n.children.cycleSum ≤ n.cycles.whole))

namespace Forest

variable {f g : Forest}

theorem SafeSums.fits (sums : (f ++ g).SafeSums) : Fits f g := by
  obtain ⟨safe, calls, cycles⟩ := sums
  obtain ⟨hf, hg⟩ := each_append.1 safe
  rw [sum, sumFrom_append] at calls cycles
  exact ⟨⟨_, _, ⟨hf.imp fun _ => Node.HasSafe.calls, rfl⟩,
      ⟨hg.imp fun _ => Node.HasSafe.calls, rfl⟩, calls⟩,
    ⟨_, _, ⟨hf.imp fun _ => Node.HasSafe.cycles, rfl⟩,
      ⟨hg.imp fun _ => Node.HasSafe.cycles, rfl⟩, cycles⟩⟩

theorem Fits.safeSums_merge (fits : Fits f g) : (f.merge g).SafeSums := by
  obtain ⟨⟨_, _, hf, hg, room⟩, _, _, hf', hg', room'⟩ := fits
  have calls := hf.merge (fun _ _ => rfl) hg room
  have cycles := hf'.merge (fun _ _ => rfl) hg' room'
  exact ⟨(calls.safe.and cycles.safe).imp fun _ h => ⟨h.1, h.2⟩, calls.sum ▸ room,
    cycles.sum ▸ room'⟩

theorem FitsBy.whole_add {number : Node → Binary64} {m n : Node}
    (h : FitsBy number m.toForest n.toForest) :
    (number m + number n).whole = (number m).whole + (number n).whole := by
  obtain ⟨_, _, hm, hn, room⟩ := h
  obtain ⟨own, _, -, rfl⟩ := hasSum_toForest.1 hm
  obtain ⟨own', _, -, rfl⟩ := hasSum_toForest.1 hn
  exact Binary64.whole_add own own' (by omega)

/-! ### The children of a merged node -/

/-- The cycles of a node that stands below no other. -/
def rootCycles : List String → Node → Nat
  | [], n => n.cycles.whole
  | _ :: _, _ => 0

theorem sumFrom_rootCycles_below (label : String) (above : List String) (f : Forest) :
    f.sumFrom rootCycles (label :: above) = 0 := by
  induction f generalizing label above with
  | nil => rfl
  | cons l calls cycles children siblings ihc ihs => rw [sumFrom, ihc, ihs, rootCycles]

theorem sumFrom_rootCycles (f : Forest) : f.sumFrom rootCycles [] = f.cycleSum := by
  induction f with
  | nil => rfl
  | cons label calls cycles children siblings _ ih =>
      rw [sumFrom, sumFrom_rootCycles_below, ih, rootCycles, cycleSum, Nat.add_zero]

theorem cycleSum_merge (fits : Fits f g) : (f.merge g).cycleSum = f.cycleSum + g.cycleSum := by
  simp only [← sumFrom_rootCycles]
  refine sumFrom_merge comparesSums_eq ?_ fits []
  rintro (_ | ⟨label, above⟩) m n - here
  · exact here.cycles.whole_add
  · rfl

/-! ### The sums of one label -/

/-- What a merge does to a value of two nodes it does to the sum over one label. -/
theorem sumFrom_atLabel_merge {r : Nat → Nat → Prop} (compares : ComparesSums r)
    {value : Node → Nat}
    (law : ∀ m n : Node, Fits m.toForest n.toForest → r (value (m.merge n)) (value m + value n))
    (fits : Fits f g) (label : String) :
    r ((f.merge g).sumFrom (atLabel label value) [])
      ((f ++ g).sumFrom (atLabel label value) []) := by
  rw [sumFrom_append]
  refine sumFrom_merge compares ?_ fits []
  intro above m n same here
  have merged : (m.merge n).label = n.label := same
  simp only [atLabel, merged, same]
  split
  · exact law m n here
  · exact compares.refl 0

theorem sumFrom_callsOf_merge (fits : Fits f g) (label : String) :
    (f.merge g).sumFrom (callsOf label) [] = (f ++ g).sumFrom (callsOf label) [] :=
  sumFrom_atLabel_merge comparesSums_eq (fun _ _ here => here.calls.whole_add) fits label

theorem sumFrom_outermostCyclesOf_merge (fits : Fits f g) (label : String) :
    (f.merge g).sumFrom (outermostCyclesOf label) [] =
      (f ++ g).sumFrom (outermostCyclesOf label) [] := by
  rw [sumFrom_append]
  refine sumFrom_merge comparesSums_eq ?_ fits []
  intro above m n same here
  have merged : (m.merge n).label = n.label := same
  simp only [outermostCyclesOf, merged, same]
  split
  · exact here.cycles.whole_add
  · rfl

theorem Fits.cycleSum_children {m n : Node} (fits : Fits m.toForest n.toForest) :
    (m.merge n).children.cycleSum = m.children.cycleSum + n.children.cycleSum :=
  cycleSum_merge ⟨fits.calls.children, fits.cycles.children⟩

theorem sumFrom_ownCyclesOf_merge_le (fits : Fits f g) (label : String) :
    (f.merge g).sumFrom (ownCyclesOf label) [] ≤ (f ++ g).sumFrom (ownCyclesOf label) [] := by
  refine sumFrom_atLabel_merge comparesSums_le ?_ fits label
  intro m n here
  have cycles : (m.merge n).cycles.whole = m.cycles.whole + n.cycles.whole := here.cycles.whole_add
  have below := here.cycleSum_children
  omega

/-- The cycles of all nodes with a label, of nested ones too. -/
def allCyclesOf (label : String) : List String → Node → Nat :=
  atLabel label fun n => n.cycles.whole

/-- What the children of the nodes with a label cost. -/
def childCyclesOf (label : String) : List String → Node → Nat :=
  atLabel label fun n => n.children.cycleSum

theorem sumFrom_allCyclesOf_le (f : Forest) (label : String) :
    f.sumFrom (allCyclesOf label) [] ≤
      f.sumFrom (ownCyclesOf label) [] + f.sumFrom (childCyclesOf label) [] := by
  rw [← sumFrom_add]
  apply sumFrom_le (each_of_forall fun _ => trivial)
  intro above n _
  simp only [allCyclesOf, childCyclesOf, ownCyclesOf, atLabel]
  split <;> omega

theorem sumFrom_ownCyclesOf_add_le (covers : f.Each Node.CoversChildren) (label : String) :
    f.sumFrom (ownCyclesOf label) [] + f.sumFrom (childCyclesOf label) [] ≤
      f.sumFrom (allCyclesOf label) [] := by
  rw [← sumFrom_add]
  apply sumFrom_le covers
  intro above n covered
  rw [Node.CoversChildren] at covered
  simp only [allCyclesOf, childCyclesOf, ownCyclesOf, atLabel]
  split <;> omega

/-- Where nothing is cut off, the own cost is the difference of two sums that a merge does not
change. -/
theorem sumFrom_ownCyclesOf_merge (fits : Fits f g)
    (covers : (f ++ g).Each Node.CoversChildren) (label : String) :
    (f.merge g).sumFrom (ownCyclesOf label) [] = (f ++ g).sumFrom (ownCyclesOf label) [] := by
  have all : (f.merge g).sumFrom (allCyclesOf label) [] =
      (f ++ g).sumFrom (allCyclesOf label) [] :=
    sumFrom_atLabel_merge comparesSums_eq (fun _ _ here => here.cycles.whole_add) fits label
  have children : (f.merge g).sumFrom (childCyclesOf label) [] =
      (f ++ g).sumFrom (childCyclesOf label) [] :=
    sumFrom_atLabel_merge comparesSums_eq (fun _ _ here => here.cycleSum_children) fits label
  have merged := (f.merge g).sumFrom_allCyclesOf_le label
  have separate := sumFrom_ownCyclesOf_add_le covers label
  have le := sumFrom_ownCyclesOf_merge_le fits label
  omega

/-! ### The labels -/

theorem mem_preorderLabels {label : String} {f : Forest} (above : List String) :
    label ∈ f.preorderLabels ↔ f.sumFrom (atLabel label fun _ => 1) above ≠ 0 := by
  induction f generalizing above with
  | nil => simp [preorderLabels, rows, rowsBefore, sumFrom]
  | cons l calls cycles children siblings ihc ihs =>
      rw [preorderLabels_cons, List.mem_cons, List.mem_append, ihc (l :: above), ihs above,
        sumFrom, atLabel]
      by_cases same : l = label
      · simp [same]
      · simp only [same, Ne.symm same, if_false, false_or]
        omega

theorem perm_labels_merge (fits : Fits f g) :
    ((f.merge g).totalsByLabel.map LabelTotals.label).Perm
      ((f ++ g).totalsByLabel.map LabelTotals.label) := by
  rw [List.perm_ext_iff_of_nodup (f.merge g).nodup_labels_totalsByLabel
    (f ++ g).nodup_labels_totalsByLabel]
  intro label
  have zero : (f.merge g).sumFrom (atLabel label fun _ => 1) [] = 0 ↔
      (f ++ g).sumFrom (atLabel label fun _ => 1) [] = 0 :=
    sumFrom_atLabel_merge comparesSums_zero (fun _ _ _ => by decide) fits label
  simp only [labels_totalsByLabel, LabelTotals.mem_foldl_withLabel, List.not_mem_nil, false_or,
    mem_preorderLabels []]
  exact not_congr zero

end Forest

namespace Node

/-- Two trees with one root label give the same bill whether they are merged before the totals
are taken or not: the same labels with the same calls and cycles. The own cost of a label is at
most what it is without the merge, and the same if no node of the two trees costs less than its
children. -/
theorem totalsByLabel_merge {a b : Node} (same : a.label = b.label)
    (sums : (Forest.ofNodes [a, b]).SafeSums) :
    let merged := (Forest.ofNodes [a.merge b]).totalsByLabel
    let separate := (Forest.ofNodes [a, b]).totalsByLabel
    (merged.map LabelTotals.label).Perm (separate.map LabelTotals.label) ∧
      ∀ t ∈ merged, ∀ u ∈ separate, t.label = u.label →
        t.calls = u.calls ∧ t.cycles = u.cycles ∧
        t.selfCycles.IsSafe ∧ u.selfCycles.IsSafe ∧
        t.selfCycles.whole ≤ u.selfCycles.whole ∧
        ((Forest.ofNodes [a, b]).Each CoversChildren → t.selfCycles = u.selfCycles) := by
  intro merged separate
  have union : Forest.ofNodes [a.merge b] = a.toForest.merge b.toForest := by
    rw [Forest.merge_toForest]
    exact (if_pos same).symm
  have both : Forest.ofNodes [a, b] = a.toForest ++ b.toForest := rfl
  rw [both] at sums
  simp only [merged, separate, union, both]
  refine ⟨Forest.perm_labels_merge sums.fits, ?_⟩
  intro t ht u hu label
  have entry := sums.fits.safeSums_merge.eq_entryOf ht
  have entry' := sums.eq_entryOf hu
  rw [label] at entry
  generalize u.label = l at entry entry'
  have own_le := Forest.sumFrom_ownCyclesOf_merge_le sums.fits l
  have room := (sums.room l).own
  rw [Nat.zero_add] at room
  subst entry entry'
  simp only [Forest.entryOf, Forest.sumFrom_callsOf_merge sums.fits,
    Forest.sumFrom_outermostCyclesOf_merge sums.fits, true_and]
  refine ⟨isSafe_ofNat (Nat.le_trans own_le room), isSafe_ofNat room, ?_, ?_⟩
  · rw [whole_ofNat (Nat.le_trans own_le room), whole_ofNat room]
    exact own_le
  · intro covers
    rw [Forest.sumFrom_ownCyclesOf_merge sums.fits covers]

/-- A label below itself, children on one side only, and a root that costs less than its children
in the first tree: its own cost is cut off there, but not after the merge. Two trees in which every
node covers its children give the same own costs. -/
theorem totalsByLabel_merge_recursive_label :
    let n := Binary64.ofNat
    let a : Node := ⟨"main", n 1, n 10,
      .cons "f" (n 1) (n 12) (.cons "f" (n 1) (n 5) .nil .nil) (.cons "g" (n 1) (n 1) .nil .nil)⟩
    let b : Node := ⟨"main", n 2, n 20,
      .cons "h" (n 1) (n 2) .nil (.cons "f" (n 1) (n 1) (.cons "f" (n 1) (n 1) .nil .nil) .nil)⟩
    let totals (trees : List Node) := (Forest.ofNodes trees).totalsByLabel
    ((totals [a.merge b]).map LabelTotals.label).Perm ((totals [a, b]).map LabelTotals.label) ∧
      (∀ t ∈ totals [a.merge b], ∀ u ∈ totals [a, b], t.label = u.label →
        t.calls = u.calls ∧ t.cycles = u.cycles ∧
          t.selfCycles.whole ≤ u.selfCycles.whole) ∧
      (∃ t ∈ totals [a.merge b], ∃ u ∈ totals [a, b], t.label = u.label ∧
        t.selfCycles = n 14 ∧ u.selfCycles = n 17) ∧
      ∀ t ∈ totals [b.merge b], ∀ u ∈ totals [b, b], t.label = u.label →
        t.selfCycles = u.selfCycles := by
  intro n a b totals
  have same : a.label = b.label := rfl
  have same' : b.label = b.label := rfl
  have sums : (Forest.ofNodes [a, b]).SafeSums := by constructor <;> decide +kernel
  have sums' : (Forest.ofNodes [b, b]).SafeSums := by constructor <;> decide +kernel
  have covers : (Forest.ofNodes [b, b]).Each CoversChildren := by decide +kernel
  obtain ⟨labels, bills⟩ := totalsByLabel_merge same sums
  refine ⟨labels, ?_, by decide +kernel, ?_⟩
  · intro t ht u hu label
    obtain ⟨calls, cycles, _, _, own_le, _⟩ := bills t ht u hu label
    exact ⟨calls, cycles, own_le⟩
  · intro t ht u hu label
    obtain ⟨_, _, _, _, _, own⟩ := (totalsByLabel_merge same' sums').2 t ht u hu label
    exact own covers

end Node
end CallCost
