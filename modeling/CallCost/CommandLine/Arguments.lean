/-!
Command-line arguments. Reading goes from left to right and stops at the first argument that
asks for help or for the version or is unknown; flags may repeat and stand anywhere. What is
left over are the trace file and the top-level label.
-/

namespace CallCost

structure Flags where
  showSelf : Bool := false
  flat : Bool := false
  json : Bool := false
  strictSections : Bool := false
  deriving DecidableEq

inductive ArgumentError where
  | unknown (argument : String)
  | unexpected (argument : String)
  | missingPath
  | missingLabel
  deriving DecidableEq

def ArgumentError.message : ArgumentError → String
  | unknown argument => "Unknown argument: " ++ argument
  | unexpected argument => "Unexpected argument: " ++ argument
  | missingPath => "Missing trace file path"
  | missingLabel => "Missing top-level label"

/-- What a command line asks for. -/
inductive Request where
  | help
  | version
  | profile (tracePath topLevelLabel : String)
  | invalid (e : ArgumentError)
  deriving DecidableEq

/-- The request of the positional arguments. A third one is reported before an empty one. -/
def Request.ofPositionals : List String → Request
  | _ :: _ :: third :: _ => .invalid (.unexpected third)
  | path :: rest =>
      if path = "" then .invalid .missingPath
      else
        match rest with
        | [] => .invalid .missingLabel
        | label :: _ => if label = "" then .invalid .missingLabel else .profile path label
  | [] => .invalid .missingPath

/-- A command line read: the flags seen up to where reading stopped, and the request. -/
structure Arguments where
  flags : Flags
  request : Request
  deriving DecidableEq

namespace Arguments

/-- What one argument means by itself. -/
inductive Item where
  /-- Ends the reading. -/
  | stop (request : Request)
  | flag (set : Flags → Flags)
  | positional

def item (argument : String) : Item :=
  if argument = "--help" ∨ argument = "-h" then .stop .help
  else if argument = "--version" ∨ argument = "-v" then .stop .version
  else if argument = "--self" then .flag fun f => { f with showSelf := true }
  else if argument = "--flat" then .flag fun f => { f with flat := true }
  else if argument = "--json" then .flag fun f => { f with json := true }
  else if argument = "--strict-sections" then .flag fun f => { f with strictSections := true }
  else if argument.toList.head? = some '-' then .stop (.invalid (.unknown argument))
  else .positional

/-- Reads the arguments that follow those read already. -/
def readFrom (flags : Flags) (positionals : List String) : List String → Arguments
  | [] => ⟨flags, .ofPositionals positionals⟩
  | argument :: rest =>
      match item argument with
      | .stop r => ⟨flags, r⟩
      | .flag set => readFrom (set flags) positionals rest
      | .positional => readFrom flags (positionals ++ [argument]) rest

def read (arguments : List String) : Arguments :=
  readFrom {} [] arguments

end Arguments
end CallCost
