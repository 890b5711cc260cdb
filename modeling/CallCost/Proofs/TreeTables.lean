import CallCost.CallTree.Rows
import CallCost.Proofs.TreeCopy

/-!
Reading a table back. Each row opens a node, and first closes the open nodes that are not above
it. The rows of a forest with distinct siblings rebuild the forest.
-/

namespace CallCost
namespace Forest

/-- Closes the open nodes down to a depth. -/
def settle (depth : Nat) : List (Nat × Node) × Forest → List (Nat × Node) × Forest
  | ([], done) => ([], done)
  | ((level, n) :: outer, done) => closeTo depth level n outer done

/-- Puts trees below the last open node, or next to the closed trees if no node is open. -/
def attach (f : Forest) : List (Nat × Node) × Forest → List (Nat × Node) × Forest
  | ([], done) => ([], done.putAll f)
  | ((level, n) :: outer, done) =>
      ((level, { n with children := n.children.putAll f }) :: outer, done)

/-- The last open node, if there is one, is above the depth. -/
def Above (depth : Nat) (opened : List (Nat × Node)) : Prop :=
  ∀ entry ∈ opened.head?, entry.1 < depth

variable {depth : Nat} {s : List (Nat × Node) × Forest}

theorem openRow_eq (s : List (Nat × Node) × Forest) (r : Row) :
    openRow s r =
      ((r.depth, ⟨r.label, r.calls, r.cycles, nil⟩) :: (settle r.depth s).1,
        (settle r.depth s).2) := by
  obtain ⟨_ | ⟨⟨level, n⟩, outer⟩, done⟩ := s <;> rfl

theorem ofRows_eq (rows : List Row) :
    ofRows rows = (settle 0 (rows.foldl openRow ([], nil))).2 := by
  rw [ofRows]
  rcases rows.foldl openRow ([], nil) with ⟨_ | ⟨⟨level, n⟩, outer⟩, done⟩ <;> rfl

theorem settle_of_above (above : Above depth s.1) : settle depth s = s := by
  obtain ⟨_ | ⟨⟨level, n⟩, outer⟩, done⟩ := s
  · rfl
  · have low : level < depth := above (level, n) rfl
    cases outer <;> simp [settle, closeTo, low]

theorem above_closeTo (level : Nat) (n : Node) (outer : List (Nat × Node)) (done : Forest) :
    Above depth (closeTo depth level n outer done).1 := by
  induction outer generalizing level n with
  | nil =>
      rw [closeTo]
      split <;> simp [Above, *]
  | cons entry outer ih =>
      obtain ⟨outerLevel, parent⟩ := entry
      rw [closeTo]
      split
      · simp [Above, *]
      · exact ih outerLevel _

theorem above_settle (depth : Nat) (s : List (Nat × Node) × Forest) :
    Above depth (settle depth s).1 := by
  obtain ⟨_ | ⟨⟨level, n⟩, outer⟩, done⟩ := s
  · simp [Above, settle]
  · exact above_closeTo level n outer done

/-- What is closed down to a lesser depth later is closed in one go. -/
theorem settle_settle {low high : Nat} (le : low ≤ high) (s : List (Nat × Node) × Forest) :
    settle low (settle high s) = settle low s := by
  obtain ⟨_ | ⟨⟨level, n⟩, outer⟩, done⟩ := s
  · rfl
  · change settle low (closeTo high level n outer done) = closeTo low level n outer done
    induction outer generalizing level n with
    | nil =>
        rw [closeTo]
        split
        · rfl
        · have kept : ¬level < low := by omega
          simp [settle, closeTo, kept]
    | cons entry outer ih =>
        obtain ⟨outerLevel, parent⟩ := entry
        rw [closeTo]
        split
        · rfl
        · have kept : ¬level < low := by omega
          rw [ih, closeTo, if_neg kept]

/-- A node that is closed next is put below the open node above it. -/
theorem settle_cons (n : Node) (above : Above depth s.1) :
    settle depth ((depth, n) :: s.1, s.2) = attach n.toForest s := by
  obtain ⟨_ | ⟨⟨level, parent⟩, outer⟩, done⟩ := s
  · simp [settle, closeTo, attach, Node.toForest, putAll]
  · have low : level < depth := above (level, parent) rfl
    have filled : Above depth
        ((level, { parent with children := parent.children.put n }) :: outer) := by
      simp [Above, low]
    have closed := settle_of_above (s := (_, done)) filled
    simpa [settle, closeTo, attach, Node.toForest, putAll] using closed

/-- The rows of a forest put its trees below the last node that is open above them. -/
theorem settle_foldl_rows {f : Forest} (distinct : f.Distinct) (depth : Nat)
    (s : List (Nat × Node) × Forest) :
    settle depth ((f.rowsBefore [] depth).foldl openRow s) = attach f (settle depth s) := by
  induction f generalizing depth s with
  | nil =>
      change settle depth s = attach nil (settle depth s)
      rcases settle depth s with ⟨_ | ⟨⟨level, n⟩, outer⟩, done⟩ <;> rfl
  | cons label calls cycles children siblings ihc ihs =>
      obtain ⟨_, below, beside⟩ := distinct
      have opened : settle (depth + 1) (openRow s ⟨depth, label, calls, cycles⟩) =
          ((depth, ⟨label, calls, cycles, nil⟩) :: (settle depth s).1, (settle depth s).2) := by
        rw [openRow_eq]
        exact settle_of_above fun entry top => by cases top; exact Nat.lt_succ_self depth
      have filled : settle depth ((children.rowsBefore [] (depth + 1)).foldl openRow
          (openRow s ⟨depth, label, calls, cycles⟩)) =
          attach (cons label calls cycles children nil) (settle depth s) := by
        rw [← settle_settle (Nat.le_succ depth), ihc below, opened, attach,
          nil_putAll children below.nodup_labels]
        exact settle_cons _ (above_settle depth s)
      rw [rowsBefore, rowsBefore_eq, List.foldl_cons, List.foldl_append, ihs beside, filled]
      rcases settle depth s with ⟨_ | ⟨⟨level, n⟩, outer⟩, done⟩ <;> rfl

/-- A forest with distinct siblings is read back from its rows. -/
theorem ofRows_rows {f : Forest} (distinct : f.Distinct) : ofRows f.rows = f := by
  rw [ofRows_eq, rows, settle_foldl_rows distinct]
  exact nil_putAll f distinct.nodup_labels

end Forest
end CallCost
