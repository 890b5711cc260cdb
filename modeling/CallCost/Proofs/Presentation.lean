import CallCost.Proofs.ArgumentReading
import CallCost.Proofs.ReportStages

/-!
Flags and variables that only choose how a result is shown. Two runs that differ in nothing else
send the same messages after opening the same paths, and one of them fails if and only if the other
does. If they do not fail on a trace, there is one profile that both of them show, each as far as
its report is in the range of the host. A report can be out of range in one presentation and not in
another, and only then do the runs end differently.
-/

namespace CallCost

def presentationFlags : List String :=
  ["--self", "--flat", "--json"]

def presentationVariables : List String :=
  ["SPAN_TREE_INDENT", "SPAN_TREE_TRACE"]

/-- Two command lines with their environments that differ in the presentation only. -/
structure DifferInPresentation (env env' : Environment) (arguments arguments' : List String) :
    Prop where
  arguments : arguments.filter (· ∉ presentationFlags) =
    arguments'.filter (· ∉ presentationFlags)
  environment : ∀ name ∉ presentationVariables, env name = env' name

namespace DifferInPresentation

variable {env env' : Environment} {arguments arguments' : List String}

theorem filter_flagNames (arguments : List String) :
    arguments.filter (· ∉ Arguments.flagNames) =
      (arguments.filter (· ∉ presentationFlags)).filter (· ∉ Arguments.flagNames) := by
  have wider : ∀ flag ∈ presentationFlags, flag ∈ Arguments.flagNames := by decide
  rw [List.filter_filter]
  apply List.filter_congr
  intro argument _
  by_cases known : argument ∈ Arguments.flagNames
  · simp [known]
  · simp [known, mt (wider argument) known]

theorem request (differ : DifferInPresentation env env' arguments arguments') :
    (Arguments.read arguments).request = (Arguments.read arguments').request := by
  rw [Arguments.request_read arguments, Arguments.request_read arguments',
    filter_flagNames arguments, filter_flagNames arguments', differ.arguments]

theorem mem_iff (differ : DifferInPresentation env env' arguments arguments') {argument : String}
    (other : argument ∉ presentationFlags) : argument ∈ arguments ↔ argument ∈ arguments' := by
  have kept (l : List String) : argument ∈ l ↔ argument ∈ l.filter (· ∉ presentationFlags) := by
    simp [List.mem_filter, other]
  rw [kept arguments, kept arguments', differ.arguments]

end DifferInPresentation

namespace Run

/-- The tree part of a report. -/
def treePart (env : Environment) (arguments : List String) (roots : Forest) : List String :=
  roots.lines
    { indentUnit := String.ofList (List.replicate (Settings.load env).indentWidth ' ')
      showSelf := "--self" ∈ arguments }

/-- What the flat totals add behind the tree part. -/
def flatPart (arguments : List String) (roots : Forest) : List String :=
  if "--flat" ∈ arguments ∧ roots ≠ .nil then "" :: roots.totalsByLabel.map (·.line) else []

/-- The texts that lines are sent in. Nothing is sent for no lines. -/
def sent : List String → List String
  | [] => []
  | lines => ["\n".intercalate lines ++ "\n"]

/-- What a run sends of a profile. Only a report that is in range is sent. -/
structure Shows (p : Profile) (limits : Limits) (env : Environment) (arguments : List String)
    (r : Run) : Prop where
  report : report? limits (Flags.withSeen {} arguments) (Settings.load env) p.roots =
    match r.ending with
    | .rejected e => .error e
    | .returned _ => .ok r.out
  ending : r.ending = .returned 0 ∨ (∃ e, r.ending = .rejected e) ∧ r.out = []
  json : "--json" ∈ arguments → r.ending = .returned 0 → r.out = [p.roots.jsonText ++ "\n"]
  tree : "--json" ∉ arguments → r.ending = .returned 0 →
    r.out = sent (treePart env arguments p.roots ++ flatPart arguments p.roots)
  log : ∀ clock, r.logLines clock =
    if (Settings.load env).trace then
      (traceTexts p).mapIdx fun place text => Log.line (clock place) .trace text
    else []

theorem Shows.code_eq {p : Profile} {limits : Limits} {env : Environment}
    {arguments : List String} {r : Run} (h : Shows p limits env arguments r) {code : Nat}
    (returns : r.ending = .returned code) : code = 0 := by
  rcases h.ending with ended | ⟨⟨e, rejected⟩, -⟩
  · rw [ended] at returns
    cases returns
    rfl
  · rw [rejected] at returns
    cases returns

theorem Shows.not_failed {p : Profile} {limits : Limits} {env : Environment}
    {arguments : List String} {r : Run} (h : Shows p limits env arguments r) :
    r.ending ≠ .returned 1 :=
  fun fails => absurd (h.code_eq fails) Nat.one_ne_zero

/-- How a trace is read, whatever is to be shown of it. -/
def reading (arguments : List String) (label path : String) (source : String → TraceSource) :
    Except String Profile :=
  readTrace { topLevelLabel := label, strictSections := "--strict-sections" ∈ arguments } path
    (source path)

section Profile

variable (limits : Limits) (env : Environment) {source : String → TraceSource}
  {arguments : List String} {path label : String}

theorem profile_stopped {message : String}
    (stopped : reading arguments label path source = .error message) :
    profile limits env source (Flags.withSeen {} arguments) path label =
      { err := [message], read := [path], ending := .returned 1 } := by
  rw [reading] at stopped
  simp only [profile, Flags.withSeen, Bool.false_or, stopped]

theorem profile_complete {p : Profile} (complete : reading arguments label path source = .ok p) :
    profile limits env source (Flags.withSeen {} arguments) path label =
      showing limits (Flags.withSeen {} arguments) (Settings.load env) path p := by
  rw [reading] at complete
  simp only [profile, Flags.withSeen, Bool.false_or, complete]

theorem output_json (json : "--json" ∈ arguments) (settings : Settings) (roots : Forest) :
    output (Flags.withSeen {} arguments) settings roots = [roots.jsonText ++ "\n"] :=
  if_pos (by simpa [Flags.withSeen] using json)

theorem output_text (text : "--json" ∉ arguments) (roots : Forest) :
    output (Flags.withSeen {} arguments) (Settings.load env) roots =
      sent (treePart env arguments roots ++ flatPart arguments roots) := by
  have lines : reportLines (Flags.withSeen {} arguments) (Settings.load env) roots =
      treePart env arguments roots ++ flatPart arguments roots := by
    simp [reportLines, layout, flatLines, treePart, flatPart, Flags.withSeen]
  rw [output, if_neg (by simpa [Flags.withSeen] using text), lines]
  cases treePart env arguments roots ++ flatPart arguments roots <;> rfl

theorem err_showing (flags : Flags) (settings : Settings) (path : String) (p : Profile) :
    (showing limits flags settings path p).err = [] := by
  rw [showing]
  cases outputError? limits flags settings p.roots <;> rfl

theorem read_showing (flags : Flags) (settings : Settings) (path : String) (p : Profile) :
    (showing limits flags settings path p).read = [path] := by
  rw [showing]
  cases outputError? limits flags settings p.roots <;> rfl

theorem logLines_showing (flags : Flags) (settings : Settings) (path : String) (p : Profile)
    (clock : Nat → String) :
    (showing limits flags settings path p).logLines clock =
      if settings.trace then
        (traceTexts p).mapIdx fun place text => Log.line (clock place) .trace text
      else [] := by
  have texts : (showing limits flags settings path p).log = logTexts settings p := by
    rw [showing]
    cases outputError? limits flags settings p.roots <;> rfl
  rw [logLines, texts, logTexts]
  split <;> rfl

theorem shows_showing (arguments : List String) (path : String) (p : Profile) :
    Shows p limits env arguments
      (showing limits (Flags.withSeen {} arguments) (Settings.load env) path p) := by
  have log := logLines_showing limits (Flags.withSeen {} arguments) (Settings.load env) path p
  have report := report?_eq limits (Flags.withSeen {} arguments) (Settings.load env) p.roots
  revert log
  rw [showing]
  cases outOfRange : outputError? limits (Flags.withSeen {} arguments) (Settings.load env)
      p.roots with
  | some e =>
      rw [outOfRange] at report
      exact fun log => ⟨report, .inr ⟨⟨e, rfl⟩, rfl⟩, nofun, nofun, log⟩
  | none =>
      rw [outOfRange] at report
      exact fun log => ⟨report, .inl rfl, fun json _ => output_json json _ _,
        fun text _ => output_text env text _, log⟩

end Profile

/-- Presentation never changes what is read and what is said of it. Two runs that differ in it only
send the same messages, open the same paths and fail alike, and return the same code if both of them
return. If they do not fail on a trace, both show the profile that its reading gives, each as far
as its report is in range. -/
theorem ofArguments_presentation {env env' : Environment} {arguments arguments' : List String}
    (differ : DifferInPresentation env env' arguments arguments')
    (source : String → TraceSource) (limits : Limits) :
    let r := ofArguments limits env source arguments
    let r' := ofArguments limits env' source arguments'
    r.err = r'.err ∧ r.read = r'.read ∧ (r.ending = .returned 1 ↔ r'.ending = .returned 1) ∧
      (∀ code code', r.ending = .returned code → r'.ending = .returned code' → code = code') ∧
      ∀ path label, (Arguments.read arguments).request = .profile path label →
        r.ending ≠ .returned 1 →
        ∃ p, reading arguments label path source = .ok p ∧
          Shows p limits env arguments r ∧ Shows p limits env' arguments' r' := by
  intro r r'
  have version : versionText env = versionText env' := by
    rw [versionText, differ.environment _ (by decide), ← versionText]
  cases asked : (Arguments.read arguments).request with
  | help => simp [r, r', ofArguments, ← differ.request, asked]
  | version => simp [r, r', ofArguments, ← differ.request, asked, version]
  | invalid e => simp [r, r', ofArguments, ← differ.request, asked]
  | profile path label =>
      have flags := Arguments.flags_read asked
      have flags' := Arguments.flags_read (differ.request ▸ asked)
      have same : reading arguments' label path source = reading arguments label path source := by
        simp only [reading, differ.mem_iff (by decide : "--strict-sections" ∉ presentationFlags)]
      simp only [r, r', ofArguments, ← differ.request, asked, flags, flags']
      cases complete : reading arguments label path source with
      | error message =>
          rw [profile_stopped limits env complete,
            profile_stopped limits env' (same.trans complete)]
          simp
      | ok p =>
          rw [profile_complete limits env complete,
            profile_complete limits env' (same.trans complete)]
          have shown := shows_showing limits env arguments path p
          have shown' := shows_showing limits env' arguments' path p
          refine ⟨?_, ?_, iff_of_false shown.not_failed shown'.not_failed, ?_, ?_⟩
          · rw [err_showing, err_showing]
          · rw [read_showing, read_showing]
          · intro code code' returns returns'
            rw [shown.code_eq returns, shown'.code_eq returns']
          · rintro _ _ ⟨⟩ -
            exact ⟨p, complete, shown, shown'⟩

/-- A tree with own costs, flat totals, another indent and the trace lines, and the JSON text of
the same forest. The trace has a close marker that closes nothing. -/
theorem ofArguments_presentation_tree_and_json :
    let source : String → TraceSource :=
      fun _ => ⟨["┌╴A", "┌╴B", "└╴3 cycles", "└╴10", "└╴5"], none⟩
    let env : Environment := fun name =>
      if name = "SPAN_TREE_INDENT" then some "1" else if name = "SPAN_TREE_TRACE" then some "on"
      else none
    let tree := ofArguments {} env source ["--flat", "run.trace", "--self", "A"]
    let json := ofArguments {} (fun _ => none) source ["run.trace", "--json", "A"]
    DifferInPresentation env (fun _ => none) ["--flat", "run.trace", "--self", "A"]
        ["run.trace", "--json", "A"] ∧
      tree.err = json.err ∧ tree.read = json.read ∧ tree.ending = .returned 0 ∧
      json.ending = .returned 0 ∧
      ∃ p, tree.out = [" A count: 1 sum: 10 self: 7\n  B count: 1 sum: 3 self: 3\n\n" ++
          "A count: 1 sum: 10 self: 7\nB count: 1 sum: 3 self: 3\n"] ∧
        json.out = [p.roots.jsonText ++ "\n"] ∧
        (∀ clock, tree.logLines clock =
          (traceTexts p).mapIdx fun place text => Log.line (clock place) .trace text) ∧
        tree.log.length = 2 := by
  intro source env tree json
  have differ : DifferInPresentation env (fun _ => none) ["--flat", "run.trace", "--self", "A"]
      ["run.trace", "--json", "A"] := by
    refine ⟨by decide +kernel, ?_⟩
    intro name other
    simp only [presentationVariables, List.mem_cons, List.not_mem_nil, or_false, not_or] at other
    simp only [env, other.1, other.2, if_false]
  have asked : (Arguments.read ["--flat", "run.trace", "--self", "A"]).request =
      .profile "run.trace" "A" := by decide +kernel
  have traced : (Settings.load env).trace = true := by decide +kernel
  have shown : tree.ending = .returned 0 ∧ tree.out =
      [" A count: 1 sum: 10 self: 7\n  B count: 1 sum: 3 self: 3\n\n" ++
        "A count: 1 sum: 10 self: 7\nB count: 1 sum: 3 self: 3\n"] ∧ tree.log.length = 2 := by
    decide +kernel
  have ended : json.ending = .returned 0 := by decide +kernel
  obtain ⟨err, read, -, -, same⟩ := ofArguments_presentation differ source {}
  obtain ⟨p, _, asTree, asJson⟩ := same "run.trace" "A" asked fun fails =>
    absurd (shown.1.symm.trans fails) (by decide)
  refine ⟨differ, err, read, shown.1, ended, p, shown.2.1, asJson.json (by decide) ended,
    fun clock => ?_, shown.2.2⟩
  rw [asTree.log, if_pos traced]

end Run
end CallCost
