import CallCost.CallTree.Totals
import CallCost.Proofs.ForestSums

/-!
The calls of a forest as one natural number. Merging two forests adds their calls, subtrees that
move over as they are included, as long as the sum is safe.
-/

namespace CallCost
namespace Forest

def callSum : Forest → Nat
  | nil => 0
  | cons _ calls _ children siblings => calls.whole + children.callSum + siblings.callSum

/-- Every node has a safe whole number of calls. -/
def SafeCalls : Forest → Prop
  | nil => True
  | cons _ calls _ children siblings =>
      calls.IsSafe ∧ children.SafeCalls ∧ siblings.SafeCalls

def HasCalls (f : Forest) (count : Nat) : Prop :=
  f.SafeCalls ∧ f.callSum = count

theorem safeCalls_iff {f : Forest} : f.SafeCalls ↔ f.Each fun n => n.calls.IsSafe := by
  induction f with
  | nil => exact Iff.rfl
  | cons label calls cycles children siblings ihc ihs => rw [SafeCalls, Each, ihc, ihs]

theorem callSum_eq (f : Forest) : f.callSum = f.sum fun n => n.calls.whole := by
  induction f with
  | nil => rfl
  | cons label calls cycles children siblings ihc ihs => rw [callSum, sum_cons, ihc, ihs]

theorem hasCalls_iff {f : Forest} {count : Nat} : f.HasCalls count ↔ f.HasSum Node.calls count := by
  rw [HasCalls, safeCalls_iff, callSum_eq]
  exact ⟨fun h => ⟨h.1, h.2⟩, fun h => ⟨h.safe, h.sum⟩⟩

theorem HasCalls.toForest {n : Node} {below : Nat} (hc : n.calls.IsSafe)
    (hb : n.children.HasCalls below) : n.toForest.HasCalls (n.calls.whole + below) :=
  hasCalls_iff.2 (hasSum_toForest.2 ⟨hc, below, hasCalls_iff.1 hb, rfl⟩)

theorem callSum_append (f g : Forest) : (f ++ g).callSum = f.callSum + g.callSum := by
  rw [callSum_eq, callSum_eq, callSum_eq]
  exact sumFrom_append _ _ f g

theorem SafeCalls.append {f g : Forest} (hf : f.SafeCalls) (hg : g.SafeCalls) :
    (f ++ g).SafeCalls :=
  safeCalls_iff.2 (each_append.2 ⟨safeCalls_iff.1 hf, safeCalls_iff.1 hg⟩)

/-- No call is lost or counted twice by a merge. -/
theorem HasCalls.merge {f g : Forest} {a b : Nat} (hf : f.HasCalls a) (hg : g.HasCalls b)
    (room : a + b ≤ Binary64.maxSafe) : (f.merge g).HasCalls (a + b) :=
  hasCalls_iff.2 ((hasCalls_iff.1 hf).merge (fun _ _ => rfl) (hasCalls_iff.1 hg) room)

theorem callsFrom_eq {f : Forest} (hf : f.SafeCalls) (sum : Nat)
    (room : sum + f.callSum ≤ Binary64.maxSafe) :
    f.callsFrom (.ofNat sum) = .ofNat (sum + f.callSum) := by
  induction f generalizing sum with
  | nil => rfl
  | cons label calls cycles children siblings ihc ihs =>
      rw [callSum] at room ⊢
      rw [callsFrom, ihs hf.2.2 sum (by omega), hf.1.2, Binary64.ofNat_add (by omega) hf.1.1,
        ihc hf.2.1 _ (by omega), ← hf.1.2]
      congr 1
      omega

/-- The calls of all nodes add up exactly. -/
theorem totalCalls_eq {f : Forest} (hf : f.SafeCalls) (room : f.callSum ≤ Binary64.maxSafe) :
    f.totalCalls = .ofNat f.callSum := by
  rw [totalCalls, ← Binary64.ofNat_zero, callsFrom_eq hf 0 (by omega), Nat.zero_add]

end Forest
end CallCost
