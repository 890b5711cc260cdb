import CallCost.Proofs.TreePaths
import CallCost.Proofs.WholeNumbers

/-!
Sums over all nodes of a forest. A value may depend on the labels above its node, which a merge
does not change. So whatever a merge does to the value of two nodes with one label, it does to the
sum over both forests: values that are added give the sum of both sums, and values that come out
smaller give at most that.
-/

namespace CallCost

open Binary64

namespace Forest

/-- Adds up a value of every node, which may depend on the labels above it, innermost first. -/
def sumFrom (value : List String → Node → Nat) (above : List String) : Forest → Nat
  | nil => 0
  | cons label calls cycles children siblings =>
      value above ⟨label, calls, cycles, children⟩ +
        children.sumFrom value (label :: above) + siblings.sumFrom value above

/-- Adds up a value of every node. -/
def sum (value : Node → Nat) (f : Forest) : Nat :=
  f.sumFrom (fun _ => value) []

theorem sumFrom_const (value : Node → Nat) (above : List String) (f : Forest) :
    f.sumFrom (fun _ => value) above = f.sum value := by
  rw [sum]
  induction f generalizing above with
  | nil => rfl
  | cons label calls cycles children siblings ihc ihs =>
      rw [sumFrom, sumFrom, ihc, ihc [label], ihs]

theorem sum_cons (value : Node → Nat) (label : String) (calls cycles : Binary64)
    (children siblings : Forest) :
    (cons label calls cycles children siblings).sum value =
      value ⟨label, calls, cycles, children⟩ + children.sum value + siblings.sum value := by
  rw [sum, sumFrom, sumFrom_const, sumFrom_const]

section Sums

variable {value value' : List String → Node → Nat} {above : List String} {f : Forest}

theorem sumFrom_append (value : List String → Node → Nat) (above : List String) (f g : Forest) :
    (f ++ g).sumFrom value above = f.sumFrom value above + g.sumFrom value above := by
  induction f with
  | nil => exact (Nat.zero_add _).symm
  | cons label calls cycles children siblings _ ih =>
      change _ + _ + (siblings ++ g).sumFrom value above = _
      rw [ih, sumFrom, Nat.add_assoc (_ + _)]

theorem sumFrom_toForest (value : List String → Node → Nat) (above : List String) (n : Node) :
    n.toForest.sumFrom value above =
      value above n + n.children.sumFrom value (n.label :: above) :=
  Nat.add_zero _

theorem sumFrom_add (value value' : List String → Node → Nat) (above : List String) (f : Forest) :
    f.sumFrom (fun above n => value above n + value' above n) above =
      f.sumFrom value above + f.sumFrom value' above := by
  induction f generalizing above with
  | nil => rfl
  | cons label calls cycles children siblings ihc ihs =>
      simp only [sumFrom, ihc, ihs]
      omega

theorem sumFrom_le {p : Node → Prop} (each : f.Each p)
    (h : ∀ above n, p n → value above n ≤ value' above n) :
    f.sumFrom value above ≤ f.sumFrom value' above := by
  induction f generalizing above with
  | nil => exact Nat.le_refl _
  | cons label calls cycles children siblings ihc ihs =>
      obtain ⟨own, below, beside⟩ := each
      exact Nat.add_le_add (Nat.add_le_add (h _ _ own) (ihc below)) (ihs beside)

end Sums

theorem each_of_forall {p : Node → Prop} (h : ∀ n, p n) {f : Forest} : f.Each p := by
  induction f with
  | nil => exact True.intro
  | cons label calls cycles children siblings ihc ihs => exact ⟨h _, ihc, ihs⟩

theorem Each.and {p q : Node → Prop} {f : Forest} (hp : f.Each p) (hq : f.Each q) :
    f.Each fun n => p n ∧ q n := by
  induction f with
  | nil => exact True.intro
  | cons label calls cycles children siblings ihc ihs =>
      exact ⟨⟨hp.1, hq.1⟩, ihc hp.2.1 hq.2.1, ihs hp.2.2 hq.2.2⟩

theorem each_append {p : Node → Prop} {f g : Forest} :
    (f ++ g).Each p ↔ f.Each p ∧ g.Each p := by
  induction f with
  | nil => exact (true_and _).symm ▸ Iff.rfl
  | cons label calls cycles children siblings _ ih =>
      change _ ∧ _ ∧ (siblings ++ g).Each p ↔ _
      rw [ih, Each, and_assoc, and_assoc]

theorem each_toForest {p : Node → Prop} {n : Node} :
    n.toForest.Each p ↔ p n ∧ n.children.Each p := by
  change p n ∧ n.children.Each p ∧ True ↔ _
  rw [and_true]

theorem merge_cons (f : Forest) (label : String) (calls cycles : Binary64)
    (children siblings : Forest) :
    f.merge (cons label calls cycles children siblings) =
      (f.add ⟨label, calls, cycles, children⟩).merge siblings := by
  simp only [merge, add]

/-- A node that is added comes last, or it is merged into the node with its label. -/
theorem add_cases (f : Forest) (n : Node) :
    f.add n = f ++ n.toForest ∨ ∃ (front : Forest) (m : Node) (back : Forest), m.label = n.label ∧
      f = front ++ (m.toForest ++ back) ∧ f.add n = front ++ ((m.merge n).toForest ++ back) := by
  rw [add]
  induction f with
  | nil => exact .inl rfl
  | cons label calls cycles children siblings _ ih =>
      by_cases same : label = n.label
      · refine .inr ⟨nil, ⟨label, calls, cycles, children⟩, siblings, same, rfl, ?_⟩
        rw [insertWith, if_pos same]
        rfl
      · rw [insertWith, if_neg same]
        rcases ih with last | ⟨front, m, back, merged, rfl, inserted⟩
        · exact .inl (congrArg (cons label calls cycles children) last)
        · exact .inr ⟨cons label calls cycles children front, m, back, merged, rfl,
            congrArg (cons label calls cycles children) inserted⟩

/-! ### Sums that stay exact -/

/-- Every node has a safe number, and they add up to a total. -/
structure HasSum (number : Node → Binary64) (f : Forest) (total : Nat) : Prop where
  safe : f.Each fun n => (number n).IsSafe
  sum : f.sum (fun n => (number n).whole) = total

section HasSum

variable {number : Node → Binary64}

theorem hasSum_append {f g : Forest} {total : Nat} :
    (f ++ g).HasSum number total ↔
      ∃ a b, f.HasSum number a ∧ g.HasSum number b ∧ a + b = total := by
  constructor
  · rintro ⟨safe, rfl⟩
    obtain ⟨hf, hg⟩ := each_append.1 safe
    exact ⟨_, _, ⟨hf, rfl⟩, ⟨hg, rfl⟩, (sumFrom_append _ _ f g).symm⟩
  · rintro ⟨_, _, ⟨hf, rfl⟩, ⟨hg, rfl⟩, rfl⟩
    exact ⟨each_append.2 ⟨hf, hg⟩, sumFrom_append _ _ f g⟩

theorem hasSum_cons {label : String} {calls cycles : Binary64} {children siblings : Forest}
    {total : Nat} :
    (cons label calls cycles children siblings).HasSum number total ↔
      ∃ a b, (Node.toForest ⟨label, calls, cycles, children⟩).HasSum number a ∧
        siblings.HasSum number b ∧ a + b = total :=
  hasSum_append (f := Node.toForest ⟨label, calls, cycles, children⟩)

theorem hasSum_toForest {n : Node} {total : Nat} :
    n.toForest.HasSum number total ↔
      (number n).IsSafe ∧ ∃ below, n.children.HasSum number below ∧
        (number n).whole + below = total := by
  have sums : n.toForest.sum (fun n => (number n).whole) =
      (number n).whole + n.children.sum (fun n => (number n).whole) := by
    rw [sum, sumFrom_toForest, sumFrom_const]
  constructor
  · rintro ⟨safe, rfl⟩
    obtain ⟨own, below⟩ := each_toForest.1 safe
    exact ⟨own, _, ⟨below, rfl⟩, sums.symm⟩
  · rintro ⟨own, _, ⟨below, rfl⟩, rfl⟩
    exact ⟨each_toForest.2 ⟨own, below⟩, sums⟩

variable (adds : ∀ m n : Node, number (m.merge n) = number m + number n)
include adds

theorem HasSum.add {f : Forest} {n : Node} {a b : Nat} (hf : f.HasSum number a)
    (hn : n.toForest.HasSum number b) (room : a + b ≤ maxSafe)
    (below : ∀ {children : Forest} {c d : Nat}, children.HasSum number c →
      n.children.HasSum number d → c + d ≤ maxSafe →
        (children.merge n.children).HasSum number (c + d)) :
    (f.add n).HasSum number (a + b) := by
  rcases f.add_cases n with last | ⟨front, m, back, -, rfl, merged⟩
  · rw [last]
    exact hasSum_append.2 ⟨a, b, hf, hn, rfl⟩
  · -- The children of the two nodes are merged too; `below` is the induction of that merge.
    obtain ⟨c, _, hfront, hrest, rfl⟩ := hasSum_append.1 hf
    obtain ⟨_, d, hm, hback, rfl⟩ := hasSum_append.1 hrest
    obtain ⟨own, e, hchildren, rfl⟩ := hasSum_toForest.1 hm
    obtain ⟨own', e', hchildren', rfl⟩ := hasSum_toForest.1 hn
    have union : (m.merge n).toForest.HasSum number
        ((number m).whole + (number n).whole + (e + e')) := by
      have sum := whole_add own own' (by omega)
      have safe := isSafe_add own own' (by omega)
      rw [← adds] at sum safe
      exact hasSum_toForest.2 ⟨safe, _, below hchildren hchildren' (by omega), by rw [sum]⟩
    rw [merged]
    refine hasSum_append.2 ⟨c, _, hfront, hasSum_append.2 ⟨_, d, union, hback, rfl⟩, ?_⟩
    omega

/-- A merge adds the totals of a number that it adds at every node. -/
theorem HasSum.merge {f g : Forest} {a b : Nat} (hf : f.HasSum number a)
    (hg : g.HasSum number b) (room : a + b ≤ maxSafe) :
    (f.merge g).HasSum number (a + b) := by
  induction g generalizing f a b with
  | nil =>
      obtain ⟨-, rfl⟩ := hg
      exact hf
  | cons label calls cycles children siblings ihc ihs =>
      obtain ⟨_, d, hn, hsiblings, rfl⟩ := hasSum_cons.1 hg
      have added := hf.add adds hn (by omega) fun hc hd => ihc hc hd
      rw [merge_cons, ← Nat.add_assoc]
      exact ihs added hsiblings (by omega)

end HasSum

/-- A number of two forests is safe, and it stays so when they are merged. -/
def FitsBy (number : Node → Binary64) (f g : Forest) : Prop :=
  ∃ a b, f.HasSum number a ∧ g.HasSum number b ∧ a + b ≤ maxSafe

section FitsBy

variable {number : Node → Binary64} {f g : Forest}

theorem FitsBy.of_append {front back : Forest} (h : FitsBy number (front ++ (f ++ back)) g) :
    FitsBy number f g := by
  obtain ⟨_, b, whole, hg, room⟩ := h
  obtain ⟨_, _, -, rest, rfl⟩ := hasSum_append.1 whole
  obtain ⟨c, _, hf, -, rfl⟩ := hasSum_append.1 rest
  exact ⟨c, b, hf, hg, by omega⟩

theorem FitsBy.children {m n : Node} (h : FitsBy number m.toForest n.toForest) :
    FitsBy number m.children n.children := by
  obtain ⟨_, _, hm, hn, room⟩ := h
  obtain ⟨-, c, below, rfl⟩ := hasSum_toForest.1 hm
  obtain ⟨-, d, below', rfl⟩ := hasSum_toForest.1 hn
  exact ⟨c, d, below, below', by omega⟩

theorem FitsBy.first {n : Node} (h : FitsBy number f (n.toForest ++ g)) :
    FitsBy number f n.toForest := by
  obtain ⟨a, _, hf, both, room⟩ := h
  obtain ⟨c, _, hn, -, rfl⟩ := hasSum_append.1 both
  exact ⟨a, c, hf, hn, by omega⟩

theorem FitsBy.later (adds : ∀ m n : Node, number (m.merge n) = number m + number n) {n : Node}
    (h : FitsBy number f (n.toForest ++ g)) : FitsBy number (f.add n) g := by
  obtain ⟨a, _, hf, both, room⟩ := h
  obtain ⟨c, d, hn, hg, rfl⟩ := hasSum_append.1 both
  have added := hf.add adds hn (by omega) fun hc hd => hc.merge adds hd
  exact ⟨a + c, d, added, hg, by omega⟩

end FitsBy

/-- The calls and the cycles of two forests are safe, and they stay so when the forests are
merged. -/
structure Fits (f g : Forest) : Prop where
  calls : FitsBy Node.calls f g
  cycles : FitsBy Node.cycles f g

/-! ### Sums of a merged forest -/

/-- The ways to compare sums that go part by part. -/
structure ComparesSums (r : Nat → Nat → Prop) : Prop where
  refl : ∀ a, r a a
  trans : ∀ {a b c}, r a b → r b c → r a c
  add : ∀ {a b c d}, r a b → r c d → r (a + c) (b + d)

theorem comparesSums_eq : ComparesSums (· = ·) :=
  ⟨fun _ => rfl, Eq.trans, fun h k => by rw [h, k]⟩

theorem comparesSums_le : ComparesSums (· ≤ ·) :=
  ⟨Nat.le_refl, Nat.le_trans, Nat.add_le_add⟩

/-- Sums of which both are nothing or none is. -/
theorem comparesSums_zero : ComparesSums fun a b => a = 0 ↔ b = 0 :=
  ⟨fun _ => Iff.rfl, Iff.trans, fun h k => by omega⟩

section Merge

variable {r : Nat → Nat → Prop} (compares : ComparesSums r) {value : List String → Node → Nat}
  (law : ∀ (above : List String) (m n : Node), m.label = n.label →
    Fits m.toForest n.toForest → r (value above (m.merge n)) (value above m + value above n))
include compares law

theorem sumFrom_add_node {f : Forest} {n : Node} (fits : Fits f n.toForest)
    (below : ∀ {children : Forest}, Fits children n.children → ∀ above,
      r ((children.merge n.children).sumFrom value above)
        (children.sumFrom value above + n.children.sumFrom value above))
    (above : List String) :
    r ((f.add n).sumFrom value above)
      (f.sumFrom value above + n.toForest.sumFrom value above) := by
  rcases f.add_cases n with last | ⟨front, m, back, same, rfl, merged⟩
  · rw [last, sumFrom_append]
    exact compares.refl _
  · have here : Fits m.toForest n.toForest := ⟨fits.calls.of_append, fits.cycles.of_append⟩
    -- Both nodes have the same labels above them, so their children do as well.
    have inner := below ⟨here.calls.children, here.cycles.children⟩ (m.label :: above)
    have node := compares.add (law above m n same here) inner
    have all := compares.add (compares.refl (front.sumFrom value above))
      (compares.add node (compares.refl (back.sumFrom value above)))
    have label : (m.merge n).label = m.label := rfl
    have children : (m.merge n).children = m.children.merge n.children := rfl
    rw [merged]
    simp only [sumFrom_append, sumFrom_toForest, label, children, ← same]
    refine Eq.subst (motive := r _) ?_ all
    omega

/-- What a merge does to the values of two nodes it does to the sums over two forests. -/
theorem sumFrom_merge {f g : Forest} (fits : Fits f g) (above : List String) :
    r ((f.merge g).sumFrom value above) (f.sumFrom value above + g.sumFrom value above) := by
  induction g generalizing f above with
  | nil => exact compares.refl _
  | cons label calls cycles children siblings ihc ihs =>
      have first : Fits f (Node.toForest ⟨label, calls, cycles, children⟩) :=
        ⟨fits.calls.first, fits.cycles.first⟩
      have later : Fits (f.add ⟨label, calls, cycles, children⟩) siblings :=
        ⟨fits.calls.later fun _ _ => rfl, fits.cycles.later fun _ _ => rfl⟩
      have added := sumFrom_add_node compares law first (fun inner => ihc inner) above
      have all := compares.trans (ihs later above) (compares.add added (compares.refl _))
      rw [sumFrom_toForest, Nat.add_assoc] at all
      rw [merge_cons]
      exact all

end Merge

end Forest
end CallCost
