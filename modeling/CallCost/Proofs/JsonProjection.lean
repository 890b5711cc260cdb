import CallCost.CallTree.Json
import Mathlib.Algebra.GroupWithZero.Nat
import Mathlib.Data.List.Nodup
import Mathlib.Logic.Function.Iterate

/-!
The JSON value of a forest, built object by object. Each object is made without children, and its
children are added when its node is taken from a list of nodes to visit, the last one first. The
order of the visits leaves no trace: when the list is empty, the objects of the roots are the
JSON items of the forest.
-/

namespace CallCost

/-- The object of a node, with the places of the objects of its children. -/
structure JsonObject where
  label : String
  calls : Binary64
  cycles : Binary64
  selfCycles : Binary64
  children : List Nat

def Node.jsonObject (n : Node) (children : List Nat) : JsonObject :=
  ⟨n.label, n.calls, n.cycles, n.selfCycles, children⟩

/-- A projection part way through: the objects made so far, each known by its place, and the
nodes to visit with the places of their objects. -/
structure JsonProjection where
  objects : List JsonObject
  pending : List (Node × Nat)

namespace JsonProjection

/-- Makes the objects of a row of nodes, which are then to be visited. -/
def add (p : JsonProjection) (row : List Node) : JsonProjection where
  objects := p.objects ++ row.map (·.jsonObject [])
  pending := (row.zipIdx p.objects.length).reverse ++ p.pending

/-- The places of the next objects. -/
def places (p : JsonProjection) (f : Forest) : List Nat :=
  List.range' p.objects.length f.nodes.length

/-- Adds the children of an object. -/
def link (p : JsonProjection) (place : Nat) (children : List Nat) : JsonProjection :=
  { p with
    objects := p.objects.modify place fun o => { o with children := o.children ++ children } }

def start (f : Forest) : JsonProjection :=
  add ⟨[], []⟩ f.nodes

def step (p : JsonProjection) : JsonProjection :=
  match p.pending with
  | [] => p
  | (n, place) :: rest =>
      ((link { p with pending := rest } place (p.places n.children))).add n.children.nodes

/-- The value of an object with so many levels below it. -/
def value (objects : List JsonObject) : Nat → Nat → Json
  | 0, _ => .null
  | depth + 1, place =>
      match objects[place]? with
      | none => .null
      | some o =>
          .object [("label", .string o.label), ("callCount", .number o.calls),
            ("totalCycles", .number o.cycles), ("selfCycles", .number o.selfCycles),
            ("children", .array (o.children.map (value objects depth)))]

/-! ### What has been built -/

/-- The objects at the places are those of the roots, and where a node is not to be visited any
more its object has the objects of its children. -/
inductive Built (p : JsonProjection) : List Nat → Forest → Prop where
  | nil : Built p [] .nil
  | waiting {place : Nat} {places : List Nat} {n : Node} {siblings : Forest}
      (made : p.objects[place]? = some (n.jsonObject [])) (waits : (n, place) ∈ p.pending)
      (beside : Built p places siblings) :
      Built p (place :: places) (.cons n.label n.calls n.cycles n.children siblings)
  | visited {place : Nat} {places below : List Nat} {n : Node} {siblings : Forest}
      (made : p.objects[place]? = some (n.jsonObject below))
      (gone : place ∉ p.pending.map Prod.snd) (children : Built p below n.children)
      (beside : Built p places siblings) :
      Built p (place :: places) (.cons n.label n.calls n.cycles n.children siblings)

/-- Every node to visit has its own object. -/
structure Apart (p : JsonProjection) : Prop where
  distinct : (p.pending.map Prod.snd).Nodup
  made : ∀ place ∈ p.pending.map Prod.snd, place < p.objects.length

variable {p : JsonProjection}

theorem Built.value (idle : p.pending = []) {places : List Nat} {f : Forest}
    (h : Built p places f) {depth : Nat} (enough : f.size ≤ depth) :
    places.map (value p.objects depth) = f.toJsonList := by
  induction h generalizing depth with
  | nil => rfl
  | waiting _ waits => simp [idle] at waits
  | visited made _ _ _ ihc ihs =>
      rw [Forest.size_cons] at enough
      obtain ⟨depth, rfl⟩ : ∃ k, depth = k + 1 := ⟨depth - 1, by omega⟩
      rw [List.map_cons, ihs (by omega), JsonProjection.value, made]
      simp only [Node.jsonObject]
      rw [ihc (by omega)]
      rfl

theorem mem_places {place : Nat} {f : Forest} : place ∈ p.places f ↔
    p.objects.length ≤ place ∧ place < p.objects.length + f.nodes.length :=
  List.mem_range'_1

theorem length_link (place : Nat) (children : List Nat) :
    (p.link place children).objects.length = p.objects.length :=
  List.length_modify _ _ _

theorem snd_pending_add (row : List Node) :
    (p.add row).pending.map Prod.snd =
      (List.range' p.objects.length row.length).reverse ++ p.pending.map Prod.snd := by
  simp [add, List.map_reverse, List.zipIdx_map_snd]

theorem objects_add_of_lt {place : Nat} (made : place < p.objects.length) (row : List Node) :
    (p.add row).objects[place]? = p.objects[place]? :=
  List.getElem?_append_left made

/-- The nodes of a new row wait for their visit. -/
theorem built_of_waiting {f : Forest} {first : Nat}
    (h : ∀ i n, f.nodes[i]? = some n →
      p.objects[first + i]? = some (n.jsonObject []) ∧ (n, first + i) ∈ p.pending) :
    Built p (List.range' first f.nodes.length) f := by
  induction f generalizing first with
  | nil => exact .nil
  | cons label calls cycles children siblings _ ih =>
      obtain ⟨made, waits⟩ := h 0 _ rfl
      refine .waiting made waits (ih fun i n hn => ?_)
      have later := h (i + 1) n hn
      rwa [Nat.add_comm i 1, ← Nat.add_assoc] at later

theorem built_add (p : JsonProjection) (f : Forest) : Built (p.add f.nodes) (p.places f) f := by
  apply built_of_waiting
  intro i n hn
  constructor
  · rw [add, List.getElem?_append_right (Nat.le_add_right _ _)]
    simp [hn]
  · simp [add, List.mk_add_mem_zipIdx_iff_getElem?.2 hn]

/-! ### One visit -/

section Step

variable {n : Node} {place : Nat} {rest : List (Node × Nat)}

theorem step_eq (next : p.pending = (n, place) :: rest) :
    p.step =
      (link { p with pending := rest } place (p.places n.children)).add n.children.nodes := by
  rw [step, next]

theorem length_objects_step (next : p.pending = (n, place) :: rest) :
    p.step.objects.length = p.objects.length + n.children.nodes.length := by
  rw [step_eq next, add, List.length_append, List.length_map, length_link]

theorem snd_pending_step (next : p.pending = (n, place) :: rest) :
    p.step.pending.map Prod.snd = (p.places n.children).reverse ++ rest.map Prod.snd := by
  rw [step_eq next, snd_pending_add, length_link]
  rfl

/-- The visited node has its children now, and no other object has changed. -/
theorem objects_step (next : p.pending = (n, place) :: rest) {other : Nat} {o : JsonObject}
    (made : p.objects[other]? = some o) :
    p.step.objects[other]? = some (if other = place then
      { o with children := o.children ++ p.places n.children } else o) := by
  have bound : other < p.objects.length := (List.getElem?_eq_some_iff.1 made).1
  rw [step_eq next, objects_add_of_lt (by rwa [length_link]), link, List.getElem?_modify, made]
  simp only [eq_comm (a := place)]
  split <;> rfl

theorem built_children_step (next : p.pending = (n, place) :: rest) :
    Built p.step (p.places n.children) n.children := by
  let linked := link { p with pending := rest } place (p.places n.children)
  have same : linked.places n.children = p.places n.children := by
    rw [places, length_link]
    rfl
  have children := built_add linked n.children
  rw [same] at children
  rwa [step_eq next]

theorem not_mem_pending_step (next : p.pending = (n, place) :: rest) {other : Nat}
    {o : JsonObject} (made : p.objects[other]? = some o) (gone : other ∉ rest.map Prod.snd) :
    other ∉ p.step.pending.map Prod.snd := by
  have bound : other < p.objects.length := (List.getElem?_eq_some_iff.1 made).1
  rw [snd_pending_step next, List.mem_append, List.mem_reverse, mem_places]
  exact not_or.2 ⟨fun new => absurd bound (Nat.not_lt.2 new.1), gone⟩

theorem mem_pending_step (next : p.pending = (n, place) :: rest) {q : Node × Nat}
    (waits : q ∈ rest) : q ∈ p.step.pending := by
  rw [step_eq next]
  exact List.mem_append_right _ waits

theorem Apart.not_mem_rest (apart : Apart p) (next : p.pending = (n, place) :: rest) :
    place ∉ rest.map Prod.snd := by
  have distinct := apart.distinct
  rw [next, List.map_cons, List.nodup_cons] at distinct
  exact distinct.1

theorem Apart.step (apart : Apart p) (next : p.pending = (n, place) :: rest) : Apart p.step := by
  have distinct := apart.distinct
  have made := apart.made
  rw [next, List.map_cons] at distinct made
  constructor
  · rw [snd_pending_step next, List.nodup_append, List.nodup_reverse]
    refine ⟨List.nodup_range', distinct.of_cons, ?_⟩
    rintro new hnew _ hold rfl
    rw [List.mem_reverse, mem_places] at hnew
    exact absurd (made new (List.mem_cons_of_mem _ hold)) (Nat.not_lt.2 hnew.1)
  · rw [snd_pending_step next, length_objects_step next]
    intro other waits
    obtain new | old := List.mem_append.1 waits
    · rw [List.mem_reverse, mem_places] at new
      exact new.2
    · exact Nat.lt_add_right _ (made other (List.mem_cons_of_mem _ old))

theorem Built.step (apart : Apart p) (next : p.pending = (n, place) :: rest) {places : List Nat}
    {f : Forest} (h : Built p places f) : Built p.step places f := by
  have free := apart.not_mem_rest next
  induction h with
  | nil => exact .nil
  | @waiting other places m siblings made waits _ ih =>
      have later := objects_step next made
      rw [next] at waits
      obtain same | still := List.mem_cons.1 waits
      · cases same
        rw [if_pos rfl] at later
        exact .visited later (not_mem_pending_step next made free) (built_children_step next) ih
      · have elsewhere : other ≠ place := by
          rintro rfl
          exact free (List.mem_map_of_mem (f := Prod.snd) still)
        rw [if_neg elsewhere] at later
        exact .waiting later (mem_pending_step next still) ih
  | @visited other places below m siblings made gone _ _ ihc ihs =>
      have later := objects_step next made
      rw [next, List.map_cons, List.mem_cons, not_or] at gone
      rw [if_neg gone.1] at later
      exact .visited later (not_mem_pending_step next made gone.2) ihc ihs

end Step

/-! ### A whole run -/

/-- The number of nodes to visit and of all nodes below them. -/
def work (p : JsonProjection) : Nat :=
  (p.pending.map fun q => q.1.children.size + 1).sum

theorem sum_size_nodes (f : Forest) : (f.nodes.map fun n => n.children.size + 1).sum = f.size := by
  induction f with
  | nil => rfl
  | cons label calls cycles children siblings _ ih =>
      simp only [Forest.nodes, List.map_cons, List.sum_cons, ih, Forest.size_cons]
      omega

theorem work_add (row : Forest) : (p.add row.nodes).work = row.size + p.work := by
  have nodes : (row.nodes.zipIdx p.objects.length).map Prod.fst = row.nodes :=
    List.zipIdx_map_fst _ _
  have sizes := congrArg (List.map fun n => n.children.size + 1) nodes
  rw [List.map_map] at sizes
  rw [work, add, List.map_append, List.sum_append, List.map_reverse, List.sum_reverse,
    ← sum_size_nodes, ← sizes]
  rfl

theorem work_step {n : Node} {place : Nat} {rest : List (Node × Nat)}
    (next : p.pending = (n, place) :: rest) : p.step.work + 1 = p.work := by
  rw [step_eq next, work_add, work, work, next]
  simp only [link, List.map_cons, List.sum_cons]
  omega

/-- A projection comes to an end, and what it has built stays. -/
theorem exists_run {places : List Nat} {f : Forest} (apart : Apart p) (h : Built p places f) :
    ∃ steps objects, step^[steps] p = ⟨objects, []⟩ ∧ Built ⟨objects, []⟩ places f := by
  induction size : p.work using Nat.strongRecOn generalizing p with
  | ind size ih =>
      obtain ⟨objects, pending⟩ := p
      cases pending with
      | nil => exact ⟨0, objects, rfl, h⟩
      | cons next rest =>
          have less := work_step (p := ⟨objects, next :: rest⟩) rfl
          obtain ⟨steps, objects, run, built⟩ :=
            ih _ (by omega) (apart.step rfl) (h.step apart rfl) rfl
          exact ⟨steps + 1, objects, run, built⟩

theorem apart_start (f : Forest) : Apart (start f) := by
  constructor
  · rw [start, snd_pending_add]
    simp [List.nodup_range']
  · rw [start, snd_pending_add]
    simp [add]

/-- A projection comes to an end with the JSON items of the forest. -/
theorem start_ends (f : Forest) :
    ∃ steps objects, step^[steps] (start f) = ⟨objects, []⟩ ∧
      (List.range f.nodes.length).map (value objects f.size) = f.toJsonList := by
  obtain ⟨steps, objects, run, built⟩ := exists_run (apart_start f) (built_add ⟨[], []⟩ f)
  refine ⟨steps, objects, run, ?_⟩
  rw [List.range_eq_range']
  exact built.value rfl (Nat.le_refl _)

end JsonProjection
end CallCost
