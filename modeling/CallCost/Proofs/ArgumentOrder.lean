import CallCost.Proofs.ArgumentReading

/-!
The order of command-line arguments. Up to the first argument that ends the reading only the flags
count, and nothing behind it does. A command line without such an argument is read by the set of
its flags and the row of its other arguments, however the two are mixed.
-/

namespace CallCost

/-- Only which flags there are counts, not where or how often. -/
theorem Flags.withSeen_congr {arguments arguments' : List String}
    (same : ∀ flag ∈ Arguments.flagNames, flag ∈ arguments' ↔ flag ∈ arguments) (f : Flags) :
    f.withSeen arguments' = f.withSeen arguments := by
  simp only [Arguments.flagNames, List.forall_mem_cons] at same
  simp only [withSeen, same]

namespace Arguments

/-- The argument ends the reading: it starts with a dash and is none of the flags. -/
def Stops (argument : String) : Prop :=
  argument.toList.head? = some '-' ∧ argument ∉ flagNames

instance : DecidablePred Stops :=
  fun argument => inferInstanceAs
    (Decidable (argument.toList.head? = some '-' ∧ argument ∉ flagNames))

/-- What an argument that ends the reading asks for. -/
def stopRequest (argument : String) : Request :=
  if argument ∈ ["--help", "-h"] then .help
  else if argument ∈ ["--version", "-v"] then .version
  else .invalid (.unknown argument)

/-- The arguments that are no flags. -/
def positionals (arguments : List String) : List String :=
  arguments.filter (· ∉ flagNames)

theorem item_of_stops {argument : String} (h : Stops argument) :
    item argument = .stop (stopRequest argument) := by
  rw [item_of_not_mem h.2, if_pos h.1, stopRequest]
  simp only [List.mem_cons, List.not_mem_nil, or_false]
  split
  · rfl
  · split <;> rfl

theorem item_of_not_stops {argument : String} (other : argument ∉ flagNames)
    (h : ¬Stops argument) : item argument = .positional := by
  have start : argument.toList.head? ≠ some '-' := fun start => h ⟨start, other⟩
  have help : ¬(argument = "--help" ∨ argument = "-h") := by
    rintro (rfl | rfl) <;> exact start (by decide)
  have version : ¬(argument = "--version" ∨ argument = "-v") := by
    rintro (rfl | rfl) <;> exact start (by decide)
  rw [item_of_not_mem other, if_neg help, if_neg version, if_neg start]

/-- Arguments of which none ends the reading leave their flags and the others behind. -/
theorem readFrom_append {before : List String} (goesOn : ∀ argument ∈ before, ¬Stops argument)
    (flags : Flags) (found rest : List String) :
    readFrom flags found (before ++ rest) =
      readFrom (flags.withSeen before) (found ++ positionals before) rest := by
  induction before generalizing flags found with
  | nil => rw [Flags.withSeen_nil, positionals, List.filter_nil, List.append_nil, List.nil_append]
  | cons argument before ih =>
      obtain ⟨here, later⟩ := List.forall_mem_cons.1 goesOn
      rw [List.cons_append, readFrom, Flags.withSeen_cons, positionals]
      cases kind argument with
      | stop r reads other _ =>
          rw [item_of_not_stops other here] at reads
          cases reads
      | flag set reads known sees =>
          rw [List.filter_cons_of_neg (by simpa using known), reads, ← sees]
          exact ih later (set flags) found
      | positional reads other =>
          rw [List.filter_cons_of_pos (by simpa using other), reads, withSeen_of_not_mem other]
          have whole := ih later flags (found ++ [argument])
          rw [List.append_assoc] at whole
          exact whole

/-- The first argument that ends the reading decides, whatever follows it. -/
theorem read_append_stop {before : List String} (goesOn : ∀ argument ∈ before, ¬Stops argument)
    {stop : String} (ends : Stops stop) (after : List String) :
    read (before ++ stop :: after) = ⟨Flags.withSeen {} before, stopRequest stop⟩ := by
  rw [read, readFrom_append goesOn, readFrom, item_of_stops ends]

theorem read_eq {arguments : List String} (goesOn : ∀ argument ∈ arguments, ¬Stops argument) :
    read arguments =
      ⟨Flags.withSeen {} arguments, .ofPositionals (positionals arguments)⟩ := by
  have whole := readFrom_append goesOn {} [] []
  rw [List.append_nil] at whole
  exact whole

/-- The arguments that end a reading are among those that are no flags. -/
theorem forall_not_stops_of_positionals {arguments arguments' : List String}
    (same : positionals arguments' = positionals arguments)
    (goesOn : ∀ argument ∈ arguments, ¬Stops argument) :
    ∀ argument ∈ arguments', ¬Stops argument := by
  intro argument inside stops
  have found : argument ∈ positionals arguments' := by
    simpa [positionals, inside] using stops.2
  rw [same] at found
  exact goesOn argument (List.mem_filter.1 found).1 stops

theorem exists_first_stop {arguments : List String}
    (stops : ∃ argument ∈ arguments, Stops argument) :
    ∃ before stop after, arguments = before ++ stop :: after ∧
      (∀ argument ∈ before, ¬Stops argument) ∧ Stops stop := by
  have found : (arguments.find? (Stops ·)).isSome := by simpa using stops
  obtain ⟨stop, first⟩ := Option.isSome_iff_exists.1 found
  obtain ⟨ends, before, after, split, goesOn⟩ := List.find?_eq_some_iff_append.1 first
  exact ⟨before, stop, after, split, by simpa using goesOn, by simpa using ends⟩

/-- Two arguments that are not empty are a trace file and a label, and no other row is. -/
theorem ofPositionals_eq_profile_iff {found : List String} {path label : String} :
    Request.ofPositionals found = .profile path label ↔
      found = [path, label] ∧ path ≠ "" ∧ label ≠ "" := by
  rcases found with _ | ⟨first, _ | ⟨second, _ | ⟨third, more⟩⟩⟩
  · simp [Request.ofPositionals]
  · by_cases h : first = "" <;> simp [Request.ofPositionals, h]
  · by_cases h : first = ""
    · simp +contextual [Request.ofPositionals, h, eq_comm]
    · by_cases h' : second = ""
      · simp +contextual [Request.ofPositionals, h, h', eq_comm]
      · simp [Request.ofPositionals, h, h']
        rintro rfl rfl
        exact ⟨h, h'⟩
  · simp [Request.ofPositionals]

/-- The first argument that ends the reading decides alone: what it asks for is the request, and the
flags are those in front of it, whatever stands behind it. A command line without such an argument
is read by the set of its flags and the row of its other arguments. It asks for a profile if and
only if this row is a path and a label that are not empty, and a third argument in it is the one
that is refused. -/
theorem read_order (arguments : List String) :
    ((∃ argument ∈ arguments, Stops argument) →
        ∃ before stop after, arguments = before ++ stop :: after ∧
          (∀ argument ∈ before, ¬Stops argument) ∧ Stops stop) ∧
      (∀ before stop after, arguments = before ++ stop :: after →
        (∀ argument ∈ before, ¬Stops argument) → Stops stop →
          ∀ after', read (before ++ stop :: after') =
            ⟨Flags.withSeen {} before, stopRequest stop⟩) ∧
      ((∀ argument ∈ arguments, ¬Stops argument) →
        (∀ arguments', positionals arguments' = positionals arguments →
            (∀ flag ∈ flagNames, flag ∈ arguments' ↔ flag ∈ arguments) →
              read arguments' = read arguments) ∧
          (read arguments).flags = Flags.withSeen {} arguments ∧
          (∀ path label, (read arguments).request = .profile path label ↔
            positionals arguments = [path, label] ∧ path ≠ "" ∧ label ≠ "") ∧
          ∀ first second third more, positionals arguments = first :: second :: third :: more →
            (read arguments).request = .invalid (.unexpected third)) := by
  refine ⟨exists_first_stop, fun before stop after _ goesOn ends => read_append_stop goesOn ends,
    fun goesOn => ⟨fun arguments' same flags => ?_, ?_, fun path label => ?_, ?_⟩⟩
  · have goesOn' := forall_not_stops_of_positionals same goesOn
    rw [read_eq goesOn, read_eq goesOn', same, Flags.withSeen_congr flags]
  · rw [read_eq goesOn]
  · rw [read_eq goesOn]
    exact ofPositionals_eq_profile_iff
  · intro first second third more found
    rw [read_eq goesOn, found]
    rfl

/-- An unknown argument in front of a request for help, flags that repeat between the other
arguments, and a third argument behind an empty one. -/
theorem read_order_mixed :
    let stopped := ["--json", "", "-x", "--help", "--self", "A"]
    let plain := ["run.trace", "A", "--self", "--flat"]
    let mixed := ["--flat", "run.trace", "--self", "--flat", "A"]
    (∃ argument ∈ stopped, Stops argument) ∧
      read stopped = ⟨{ json := true }, .invalid (.unknown "-x")⟩ ∧
      (∀ argument ∈ plain, ¬Stops argument) ∧ read mixed = read plain ∧
      (read plain).flags = { showSelf := true, flat := true } ∧
      (read plain).request = .profile "run.trace" "A" ∧
      (read ["", "A", "--json", "B"]).request = .invalid (.unexpected "B") := by
  intro stopped plain mixed
  have ends : ∃ argument ∈ stopped, Stops argument := ⟨"-x", by decide +kernel, by decide +kernel⟩
  have goesOn : ∀ argument ∈ plain, ¬Stops argument := by decide +kernel
  obtain ⟨-, decides, -⟩ := read_order stopped
  have stop := decides ["--json", ""] "-x" ["--help", "--self", "A"] rfl (by decide +kernel)
    (by decide +kernel) ["--help", "--self", "A"]
  obtain ⟨-, -, complete⟩ := read_order plain
  obtain ⟨mixes, flags, profile, -⟩ := complete goesOn
  obtain ⟨-, -, surplus⟩ := read_order ["", "A", "--json", "B"]
  obtain ⟨-, -, -, third⟩ := surplus (by decide +kernel)
  exact ⟨ends, stop.trans (by decide +kernel), goesOn,
    mixes mixed (by decide +kernel) (by decide +kernel), flags.trans (by decide +kernel),
    (profile "run.trace" "A").2 (by decide +kernel), third "" "A" "B" [] (by decide +kernel)⟩

end Arguments
end CallCost
