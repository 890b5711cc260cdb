import CallCost.Proofs.MalformedLines
import CallCost.Proofs.Numerals
import CallCost.Proofs.ReportStages

/-!
What stops a run on a trace. The lines are taken in order up to the first malformed close marker;
if there is none, the failure of the source stops the reading at its end. Nothing is written
before that is known, so a run that is stopped leaves one message and no output. A run that is not
stopped may still have a report that is out of range. It is then rejected and writes nothing, and
this is the only way in which it does not return.
-/

namespace CallCost

theorem Thrown.report_malformed {line : Nat} (safe : line ≤ Binary64.maxSafe)
    (path payload : String) :
    report path (.malformed ⟨.ofNat line, payload⟩) =
      "Malformed cycle count at line " ++ toString line ++ ": \"" ++ payload ++ "\"" := by
  rw [← Binary64.text_ofNat safe]
  rfl

/-- What stops the reading of a source first. Lines are counted from one. -/
inductive TraceSource.StopsAt (source : TraceSource) : Thrown → Prop where
  | malformed {before after : List String} {line : String} {cause : MalformedCycleCount}
      (split : source.lines = before ++ line :: after)
      (earlier : ∀ l ∈ before, ¬Glyphs.Malformed {} l)
      (here : Marker.ofLine {} line = .error cause) :
      StopsAt source (.malformed ⟨.ofNat (before.length + 1), cause.payload⟩)
  | failed {thrown : Thrown} (earlier : ∀ l ∈ source.lines, ¬Glyphs.Malformed {} l)
      (here : source.failure = some thrown) :
      StopsAt source thrown

namespace Run

section Reading

variable (label : String) (strictSections : Bool) (path : String) {source : TraceSource}

theorem readTrace_stopped {stop : Thrown} (stops : source.StopsAt stop) :
    readTrace { topLevelLabel := label, strictSections } path source =
      .error (stop.report path) := by
  cases stops with
  | @malformed before after line cause split earlier here =>
      let o : ScanOptions := { topLevelLabel := label, strictSections }
      have refused : Scan.pushAll o {} source.lines = .error ⟨0 + (before.length + 1), cause⟩ := by
        rw [split]
        exact Scan.pushAll_malformed (o := o) here after before {} earlier
      rw [readTrace, refused, Nat.zero_add]
      rfl
  | failed earlier here => rw [readTrace, Scan.pushAll_eq _ {} _ earlier, here]

/-- A trace is read to its end unless something stops the reading. -/
theorem stopsAt_or_readTrace (source : TraceSource) :
    (∃ stop, source.StopsAt stop) ∨
      ∃ p, readTrace { topLevelLabel := label, strictSections } path source = .ok p := by
  rcases Glyphs.sound_or_split {} source.lines with
    sound | ⟨before, line, after, cause, split, earlier, here⟩
  · cases fails : source.failure with
    | some thrown => exact .inl ⟨_, .failed sound fails⟩
    | none =>
        rw [readTrace, Scan.pushAll_eq _ {} _ sound, fails]
        exact .inr ⟨_, rfl⟩
  · exact .inl ⟨_, .malformed split earlier here⟩

end Reading

theorem length_output_le (flags : Flags) (settings : Settings) (roots : Forest) :
    (output flags settings roots).length ≤ 1 := by
  rw [output]
  split
  · exact Nat.le_refl 1
  · split
    · exact Nat.zero_le 1
    · exact Nat.le_refl 1

/-- A trace that a command line asks for has been read to its end, with this profile. -/
inductive Reads (source : String → TraceSource) : Arguments → Profile → Prop where
  | intro {flags : Flags} {path label : String} {p : Profile}
      (complete : readTrace { topLevelLabel := label, strictSections := flags.strictSections } path
        (source path) = .ok p) :
      Reads source ⟨flags, .profile path label⟩ p

/-- A run returns, or else its report is out of range. If it returns, it either ends well or is
stopped; unless it ends well, it shows nothing of what it has read. -/
structure AllOrNothing (limits : Limits) (env : Environment) (source : String → TraceSource)
    (asked : Arguments) (r : Run) : Prop where
  code : r.ending = .returned 0 ∨ r.ending = .returned 1 ∨ ∃ e, r.ending = .rejected e
  rejected : ∀ e, r.ending = .rejected e ↔ ∃ p, Reads source asked p ∧
    report? limits asked.flags (Settings.load env) p.roots = .error e
  unwritten : ∀ e, r.ending = .rejected e → r.out = [] ∧ r.err = []
  failure : r.ending = .returned 1 → r.out = [] ∧ r.log = [] ∧ r.err ≠ []
  success : r.ending = .returned 0 → asked.request ≠ .help → asked.request ≠ .version →
    r.err = [] ∧ r.out.length ≤ 1
  stops : ∀ path label, asked.request = .profile path label →
    (r.ending = .returned 1 ↔ ∃ stop, (source path).StopsAt stop)
  stopped : ∀ path label stop, asked.request = .profile path label →
    (source path).StopsAt stop → r.err = [stop.report path]
  unread : (∀ path label, asked.request ≠ .profile path label) → r.read = []

section Profile

variable (limits : Limits) (env : Environment) (source : String → TraceSource) (flags : Flags)
  (path label : String)

theorem allOrNothing_stopped {stop : Thrown} (stops : (source path).StopsAt stop) :
    AllOrNothing limits env source ⟨flags, .profile path label⟩
      (profile limits env source flags path label) := by
  have read {stop : Thrown} (stops : (source path).StopsAt stop) :
      profile limits env source flags path label =
        { err := [stop.report path], read := [path], ending := .returned 1 } := by
    rw [profile, readTrace_stopped _ _ _ stops]
  rw [read stops]
  refine ⟨.inr (.inl rfl), fun e => ⟨nofun, ?_⟩, nofun, fun _ => ⟨rfl, rfl, List.cons_ne_nil _ _⟩,
    nofun, ?_, ?_, fun other => absurd rfl (other path label)⟩
  · rintro ⟨p, ⟨complete⟩, -⟩
    rw [readTrace_stopped _ _ _ stops] at complete
    cases complete
  · intro _ _ same
    cases same
    exact ⟨fun _ => ⟨stop, stops⟩, fun _ => rfl⟩
  · intro _ _ other same others
    cases same
    exact congrArg Run.err ((read stops).symm.trans (read others))

theorem allOrNothing_complete {p : Profile}
    (complete : readTrace { topLevelLabel := label, strictSections := flags.strictSections } path
      (source path) = .ok p) :
    AllOrNothing limits env source ⟨flags, .profile path label⟩
      (profile limits env source flags path label) := by
  have unstopped {path' label' : String} (stop : Thrown)
      (same : Request.profile path label = .profile path' label') :
      ¬(source path').StopsAt stop := by
    intro stops
    cases same
    rw [readTrace_stopped _ _ _ stops] at complete
    cases complete
  have only {q : Profile} (reads : Reads source ⟨flags, .profile path label⟩ q) : p = q := by
    cases reads with
    | intro others => exact Except.ok.inj (complete.symm.trans others)
  have decided := report?_eq limits flags (Settings.load env) p.roots
  rw [profile, complete]
  simp only [showing]
  cases outOfRange : outputError? limits flags (Settings.load env) p.roots with
  | some error =>
      rw [outOfRange] at decided
      refine ⟨.inr (.inr ⟨error, rfl⟩), fun e => ⟨?_, ?_⟩, fun _ _ => ⟨rfl, rfl⟩, nofun, nofun,
        fun _ _ same => iff_of_false nofun fun ⟨stop, stops⟩ => unstopped stop same stops,
        fun _ _ stop same stops => absurd stops (unstopped stop same),
        fun other => absurd rfl (other path label)⟩
      · intro same
        cases same
        exact ⟨p, .intro complete, decided⟩
      · rintro ⟨q, reads, failed⟩
        cases only reads
        rw [decided] at failed
        cases failed
        rfl
  | none =>
      rw [outOfRange] at decided
      refine ⟨.inl rfl, fun e => ⟨nofun, ?_⟩, nofun, nofun,
        fun _ _ _ => ⟨rfl, length_output_le _ _ _⟩,
        fun _ _ same => iff_of_false nofun fun ⟨stop, stops⟩ => unstopped stop same stops,
        fun _ _ stop same stops => absurd stops (unstopped stop same),
        fun other => absurd rfl (other path label)⟩
      rintro ⟨q, reads, failed⟩
      cases only reads
      rw [decided] at failed
      cases failed

end Profile

/-- Every run on every command line is all or nothing. -/
theorem allOrNothing_ofArguments (limits : Limits) (env : Environment)
    (source : String → TraceSource) (arguments : List String) :
    AllOrNothing limits env source (Arguments.read arguments)
      (ofArguments limits env source arguments) := by
  rw [ofArguments]
  cases Arguments.read arguments with
  | mk flags request =>
      have unasked (e : RangeError) (other : ∀ path label, request ≠ .profile path label) :
          ¬∃ p, Reads source ⟨flags, request⟩ p ∧
            report? limits flags (Settings.load env) p.roots = .error e := by
        rintro ⟨p, ⟨-⟩, -⟩
        exact other _ _ rfl
      cases request with
      | help =>
          exact ⟨.inl rfl, fun e => iff_of_false nofun (unasked e nofun), nofun, nofun,
            fun _ asked => absurd rfl asked, nofun, nofun, fun _ => rfl⟩
      | version =>
          exact ⟨.inl rfl, fun e => iff_of_false nofun (unasked e nofun), nofun, nofun,
            fun _ _ asked => absurd rfl asked, nofun, nofun, fun _ => rfl⟩
      | invalid e =>
          exact ⟨.inr (.inl rfl), fun e => iff_of_false nofun (unasked e nofun), nofun,
            fun _ => ⟨rfl, rfl, List.cons_ne_nil _ _⟩, nofun, nofun, nofun, fun _ => rfl⟩
      | profile path label =>
          rcases stopsAt_or_readTrace label flags.strictSections path (source path) with
            ⟨stop, stops⟩ | ⟨p, complete⟩
          · exact allOrNothing_stopped limits env source flags path label stops
          · exact allOrNothing_complete limits env source flags path label complete

example : ofArguments {} (fun _ => none)
      (fun _ => ⟨["┌╴A", "└╴1", "└╴abc cycles", "└╴"], some (.error "EIO: i/o error, read")⟩)
      ["flaky.trace", "--json", "A"] =
    { err := ["Malformed cycle count at line 3: \"abc cycles\""], read := ["flaky.trace"],
      ending := .returned 1 } := by decide +kernel

example : ofArguments { textUnits := 39 } (fun _ => none)
      (fun _ => ⟨["┌╴A", "┌╴B", "└╴1", "└╴2"], none⟩) ["run.trace", "A"] =
    { read := ["run.trace"], ending := .rejected .textTooLong } := by decide +kernel

end Run
end CallCost
