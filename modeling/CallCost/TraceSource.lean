import CallCost.Text.Lines
import CallCost.Text.Literal
import CallCost.Text.Utf8
import CallCost.Trace.CycleCount

/-!
Where the lines of a trace come from. A source delivers lines one at a time and may fail before
its end; files are decoded as UTF-8 and end a line at any line break.
-/

namespace CallCost

/-- What stops the reading of a trace. -/
inductive Thrown where
  | malformed (e : MalformedCycleCountError)
  | error (message : String)
  /-- A value that is no error, by its text. -/
  | value (text : String)
  deriving DecidableEq

/-- The message about a trace that could not be read. Malformed counts speak for themselves. -/
def Thrown.report (path : String) : Thrown → String
  | malformed e => e.message
  | error reason | value reason => "Failed to read " ++ path ++ ": " ++ reason

/-- The lines that a source delivers, and what it throws if it then fails. -/
structure TraceSource where
  lines : List String
  failure : Option Thrown := none

inductive FileError where
  | notFound (path : String)
  | notDirectory (path : String)
  | isDirectory
  | nameTooLong (path : String)
  | nullInPath (path : String)
  | other (reason : String)
  deriving DecidableEq

def FileError.message : FileError → String
  | notFound path => "ENOENT: no such file or directory, open '" ++ path ++ "'"
  | notDirectory path => "ENOTDIR: not a directory, open '" ++ path ++ "'"
  | isDirectory => "EISDIR: illegal operation on a directory, read"
  | nameTooLong path => "ENAMETOOLONG: name too long, open '" ++ path ++ "'"
  | nullInPath path =>
      "The argument 'path' must be a string, Uint8Array, or URL without null bytes. Received " ++
        Text.literalStart path.toList
  | other reason => reason

/-- What is wrong with a path whatever files there are. A path has no null character and at most
4095 octets. -/
def FileError.ofPath? (path : String) : Option FileError :=
  if '\x00' ∈ path.toList then some (.nullInPath path)
  else if 4095 < path.utf8ByteSize then some (.nameTooLong path)
  else none

/-- The lines of a file with the given octets. -/
def fileLines (octets : List UInt8) : List String :=
  (Text.linesAtAnyBreak (Text.Utf8.decode octets)).map String.ofList

def TraceSource.ofFile : Except FileError (List UInt8) → TraceSource
  | .ok octets => ⟨fileLines octets, none⟩
  | .error e => ⟨[], some (.error e.message)⟩

end CallCost
