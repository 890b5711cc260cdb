import CallCost.CommandLine.Run
import CallCost.Proofs.LineEnds
import CallCost.Proofs.Utf8RoundTrip

/-!
A trace in a file and the same trace as one text. The lines of the file are those of the text
exactly if no carriage return stands alone, and then a run on the file shows the profile that the
lines of the text give.
-/

namespace CallCost
open Text (ReturnsEndLines)

theorem fileLines_encode (text : String) :
    fileLines (Text.Utf8.encode text) =
      (Text.linesAtAnyBreak text.toList).map String.ofList := by
  rw [fileLines, Text.Utf8.decode_encode]

theorem fileLines_encode_eq_iff (text : String) :
    fileLines (Text.Utf8.encode text) = traceLines text ↔ ReturnsEndLines text.toList := by
  rw [fileLines_encode, traceLines, List.map_inj_right fun _ _ => String.ofList_injective,
    Text.linesAtAnyBreak_eq_lines_iff]

/-- The source that a file with the octets of a text is. -/
def TraceSource.ofText (text : String) : TraceSource :=
  .ofFile (.ok (Text.Utf8.encode text))

namespace Run

/-- What a run on a trace file shows of the profile of the trace. -/
def ofProfile (limits : Limits) (env : Environment) (flags : Flags) (path : String) :
    Except MalformedLine Profile → Run
  | .error malformed =>
      { err := [malformed.message], read := [path], ending := .returned 1 }
  | .ok p => showing limits flags (Settings.load env) path p

theorem profile_ofFile (limits : Limits) (env : Environment) {source : String → TraceSource}
    (flags : Flags) {path : String} (label : String) {octets : List UInt8}
    (file : source path = .ofFile (.ok octets)) :
    profile limits env source flags path label =
      ofProfile limits env flags path (Profile.ofLines
        { topLevelLabel := label, strictSections := flags.strictSections } (fileLines octets)) := by
  rw [profile, file, TraceSource.ofFile, readTrace_lines]
  cases Profile.ofLines _ (fileLines octets) <;> rfl

/-- A file gives the lines of the text in it exactly if each carriage return in the text belongs to
a line feed. A run on such a file reads the profile of the text and shows it. -/
theorem ofArguments_ofText (text : String) :
    (fileLines (Text.Utf8.encode text) = traceLines text ↔ ReturnsEndLines text.toList) ∧
      (ReturnsEndLines text.toList →
        (∀ o path, readTrace o path (.ofText text) =
          (Profile.ofLines o (traceLines text)).mapError MalformedLine.message) ∧
        ∀ limits env source arguments flags path label,
          Arguments.read arguments = ⟨flags, .profile path label⟩ →
          source path = .ofText text →
          ofArguments limits env source arguments =
            ofProfile limits env flags path (Profile.ofLines
              { topLevelLabel := label, strictSections := flags.strictSections }
              (traceLines text))) := by
  refine ⟨fileLines_encode_eq_iff text, fun ends => ?_⟩
  have same := (fileLines_encode_eq_iff text).2 ends
  refine ⟨fun o path => ?_, ?_⟩
  · rw [TraceSource.ofText, TraceSource.ofFile, readTrace_lines, same]
  · intro limits env source arguments flags path label asked file
    rw [ofArguments, asked, ← same]
    exact profile_ofFile limits env flags label file

/-- A byte order mark, both line ends, an empty line and no line end after the last line. -/
theorem ofArguments_ofText_mixed_line_ends :
    let text := "\uFEFFnote\r\n┌╴A\n\r\n┌╴B\r\n└╴3 cycles\n└╴10"
    let arguments := ["--strict-sections", "run.trace", "A"]
    let env : Environment := fun _ => none
    let options : ScanOptions := { topLevelLabel := "A", strictSections := true }
    ReturnsEndLines text.toList ∧ (traceLines text).length = 6 ∧
      readTrace options "run.trace" (.ofText text) =
        (Profile.ofLines options (traceLines text)).mapError MalformedLine.message ∧
      ofArguments {} env (fun _ => .ofText text) arguments =
        ofProfile {} env { strictSections := true } "run.trace"
          (Profile.ofLines options (traceLines text)) := by
  intro text arguments env options
  have ends : ReturnsEndLines text.toList := by decide +kernel
  obtain ⟨_, shown⟩ := ofArguments_ofText text
  obtain ⟨read, run⟩ := shown ends
  exact ⟨ends, by decide +kernel, read _ _, run _ _ _ _ _ _ _ (by decide +kernel) rfl⟩

end Run
end CallCost
