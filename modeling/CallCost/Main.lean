import CallCost.CommandLine.Run
import Std.Time.Zoned

/-!
The program. It reads the environment and the trace file, runs the command line and writes what
the run sends.
-/

namespace CallCost.Program

/-- The environment variables that a run looks at. -/
def variableNames : List String :=
  ["SPAN_TREE_INDENT", "SPAN_TREE_TRACE", "npm_package_version"]

/-- The code of the system for a name that is too long. -/
def longNameCode : UInt32 := -36

/-- Why a file could not be read. An error of the wrong type names the file if it arose on
opening, where a part of the path is no directory, and names none if it arose on reading, where
the path leads to a directory. -/
def fileError (path : String) : IO.Error → FileError
  | .noFileOrDirectory .. => .notFound path
  | .inappropriateType (some _) .. => .notDirectory path
  | .inappropriateType none .. => .isDirectory
  | e@(.invalidArgument _ code _) =>
      if code = longNameCode then .nameTooLong path else .other (toString e)
  | e => .other (toString e)

def readFile (path : String) : IO (Except FileError (List UInt8)) := do
  match FileError.ofPath? path with
  | some e => return .error e
  | none =>
      try
        return .ok (← IO.FS.readBinFile path).data.toList
      catch e =>
        return .error (fileError path e)

/-- The local time of day. -/
def timeOfDay : IO String := do
  let now ← Std.Time.PlainTime.now
  return Log.timeText now.hour.val.toNat now.minute.val.toNat now.second.val.toNat

def environment : IO Environment := do
  let values ← variableNames.filterMapM fun name => do
    return (← IO.getEnv name).map fun value => (name, value)
  return fun name => values.lookup name

/-- Opens the trace file of a command line, if it names one. -/
def openTrace (arguments : List String) : IO TraceSource := do
  match (Arguments.read arguments).request with
  | .profile path _ => return .ofFile (← readFile path)
  | _ => return ⟨[], none⟩

end CallCost.Program

open CallCost in
def main (arguments : List String) : IO UInt32 := do
  let source ← Program.openTrace arguments
  let run := Run.ofArguments {} (← Program.environment) (fun _ => source) arguments
  let errors ← IO.getStderr
  for message in run.err do
    errors.putStrLn message
  for text in run.log do
    errors.putStrLn (Log.line (← Program.timeOfDay) .trace text)
  if let some text := run.uncaught? then
    errors.putStrLn (Log.line (← Program.timeOfDay) .error text)
  (← IO.getStdout).putStr run.outText
  return run.exitCode.toUInt32
