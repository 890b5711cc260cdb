import CallCost.CallTree.Json
import CallCost.CallTree.Render
import CallCost.CommandLine.Arguments
import CallCost.CommandLine.Usage
import CallCost.Log
import CallCost.Trace.Scan
import CallCost.TraceSource

/-!
A run of the command line, as the texts it sends and the way it ends. A run writes its result only
after the whole trace has been read: whatever stops the reading leaves one message and no output.
The result itself is made outside of what catches errors. If it is out of the range of the host,
nothing is written and the run is rejected. A message or a trace line on its own is taken to be in
range.
-/

namespace CallCost

def Stats.toJson (s : Stats) : Json :=
  .object [("lines", .number (.ofNat s.lines)), ("opens", .number (.ofNat s.opens)),
    ("closes", .number (.ofNat s.closes)),
    ("unmatchedCloses", .number (.ofNat s.unmatchedCloses)),
    ("skippedOpens", .number (.ofNat s.skippedOpens)),
    ("unclosedAtEnd", .number (.ofNat s.unclosedAtEnd))]

/-- How a run ends. -/
inductive Ending where
  | returned (code : Nat)
  /-- An error that nothing in the run has caught. -/
  | rejected (e : RangeError)
  deriving DecidableEq

/-- What a run leaves behind. -/
structure Run where
  /-- The texts for the standard output, each as written. -/
  out : List String := []
  /-- The messages for the standard error stream, without their line ends. -/
  err : List String := []
  /-- The texts of the trace lines. -/
  log : List String := []
  /-- The paths that were opened. -/
  read : List String := []
  ending : Ending
  deriving DecidableEq

namespace Run

/-- Reads a trace to its end. The message is that of whatever comes first, a malformed close
marker or the failure of the source. -/
def readTrace (o : ScanOptions) (path : String) (source : TraceSource) :
    Except String Profile :=
  match Scan.pushAll o {} source.lines with
  | .error malformed => .error ((Thrown.malformed malformed.error).report path)
  | .ok s =>
      match source.failure with
      | some thrown => .error (thrown.report path)
      | none => .ok s.finish.profile

/-- A source that does not fail gives what its lines give. -/
theorem readTrace_lines (o : ScanOptions) (path : String) (lines : List String) :
    readTrace o path ⟨lines, none⟩ =
      (Profile.ofLines o lines).mapError MalformedLine.message := by
  rw [readTrace, Profile.ofLines]
  cases Scan.pushAll o {} lines <;> rfl

/-- The texts of the trace lines of a profile: each issue, then the statistics. -/
def traceTexts (p : Profile) : List String :=
  p.issues.map (fun i =>
      "line " ++ toString i.line ++ ": [" ++ i.anomaly.code ++ "] " ++ i.anomaly.message) ++
    ["parse stats " ++ p.stats.toJson.text]

def logTexts (settings : Settings) (p : Profile) : List String :=
  if settings.trace then traceTexts p else []

def layout (flags : Flags) (settings : Settings) : Layout where
  indentUnit := String.ofList (List.replicate settings.indentWidth ' ')
  showSelf := flags.showSelf

/-- What is added to the lines of the tree in one call: the flat totals after an empty line, if they
are asked for and there is a tree. -/
def flatLines (flags : Flags) (roots : Forest) : List String :=
  if flags.flat ∧ roots ≠ .nil then "" :: roots.totalsByLabel.map (·.line) else []

/-- The lines of the report: the tree and the flat totals. -/
def reportLines (flags : Flags) (settings : Settings) (roots : Forest) : List String :=
  roots.lines (layout flags settings) ++ flatLines flags roots

/-- The texts sent to the standard output: at most one, and none for an empty report. -/
def output (flags : Flags) (settings : Settings) (roots : Forest) : List String :=
  if flags.json then [roots.jsonText ++ "\n"]
  else
    match reportLines flags settings roots with
    | [] => []
    | lines => ["\n".intercalate lines ++ "\n"]

/-- The error that comes instead of the output, if it is out of range. A line can be too long, the
flat totals can be too many for one call, and the whole text can be too long. Lengths decide, and
nothing of the report is put together before they have. -/
def outputError? (limits : Limits) (flags : Flags) (settings : Settings) (roots : Forest) :
    Option RangeError :=
  if flags.json then
    if limits.textUnits < Text.units roots.jsonText.toList + 1 then some .textTooLong else none
  else
    let flat := flatLines flags roots
    let lengths := roots.lineUnits (layout flags settings) ++
      flat.map fun line => Text.units line.toList
    if lengths.any (limits.textUnits < ·) then some .textTooLong
    else if limits.arguments < flat.length then some .tooManyArguments
    else if limits.textUnits < Text.endedUnits lengths then some .textTooLong
    else none

/-- What a run does with the profile of a trace that has been read to its end. -/
def showing (limits : Limits) (flags : Flags) (settings : Settings) (path : String)
    (p : Profile) : Run :=
  let r : Run := { log := logTexts settings p, read := [path], ending := .returned 0 }
  match outputError? limits flags settings p.roots with
  | some e => { r with ending := .rejected e }
  | none => { r with out := output flags settings p.roots }

/-- Runs on a trace file. -/
def profile (limits : Limits) (env : Environment) (source : String → TraceSource)
    (flags : Flags) (path label : String) : Run :=
  let options : ScanOptions := { topLevelLabel := label, strictSections := flags.strictSections }
  match readTrace options path (source path) with
  | .error message => { err := [message], read := [path], ending := .returned 1 }
  | .ok p => showing limits flags (Settings.load env) path p

/-- Runs a command line. -/
def ofArguments (limits : Limits) (env : Environment) (source : String → TraceSource)
    (arguments : List String) : Run :=
  let parsed := Arguments.read arguments
  match parsed.request with
  | .help => { err := [usageText], ending := .returned 0 }
  | .version => { err := [versionText env], ending := .returned 0 }
  | .invalid e => { err := [e.message, usageText], ending := .returned 1 }
  | .profile path label => profile limits env source parsed.flags path label

/-- The code that the process exits with. -/
def exitCode (r : Run) : Nat :=
  match r.ending with
  | .returned code => code
  | .rejected _ => 1

/-- The trace lines as the logger writes them, where the clock has the time of each by its place. -/
def logLines (clock : Nat → String) (r : Run) : List String :=
  r.log.mapIdx fun place text => Log.line (clock place) .trace text

/-- What the process logs about a rejected run, without the record of where the error arose. -/
def uncaught? (r : Run) : Option String :=
  match r.ending with
  | .returned _ => none
  | .rejected e => some (e.name ++ ": " ++ e.message)

/-- The whole text of the standard output. -/
def outText (r : Run) : String :=
  String.join r.out

/-- The whole text of the standard error stream. -/
def errText (clock : Nat → String) (r : Run) : String :=
  let uncaught := r.uncaught?.map (Log.line (clock r.log.length) .error)
  String.join ((r.err ++ r.logLines clock ++ uncaught.toList).map (· ++ "\n"))

end Run
end CallCost
