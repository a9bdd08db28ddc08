import HashedLiterals.Config.Settings

set_option autoImplicit false

namespace HashedLiterals

inductive Command where
  | run
  | check
  | expand
  | hash
  deriving DecidableEq, Repr

namespace Command

def all : List Command := [.run, .check, .expand, .hash]

def name : Command → String
  | .run => "run"
  | .check => "check"
  | .expand => "expand"
  | .hash => "hash"

def ofName? (text : String) : Option Command := all.find? fun c => c.name == text

end Command

inductive UsageError where
  | missingValue (option : String)
  | unknownOption (option : String)
  | noPaths (command : Command)
  | notASingleFile
  | noTexts
  | sameOutput (first second output : String)
  deriving DecidableEq, Repr

def UsageError.message : UsageError → String
  | .missingValue option => "Option " ++ option ++ " requires a value"
  | .unknownOption option => "Unknown option: " ++ option
  | .noPaths command => command.name ++ " requires at least one file or directory"
  | .notASingleFile => "expand requires a single file argument: strid expand <file>"
  | .noTexts => "hash requires at least one argument: strid hash <text...>"
  | .sameOutput first second output =>
    first ++ " and " ++ second ++ " would both be written to " ++ output

namespace Args

inductive Switch where
  | onlyPaths
  | set (key : OptionKey)
  | diff
  | help
  deriving DecidableEq, Repr

inductive Valued where
  | set (key : OptionKey)
  | outDir
  | extensions
  deriving DecidableEq, Repr

def switch? : String → Option Switch
  | "--" => some .onlyPaths
  | "--source-map" => some (.set .sourceMap)
  | "--detect-collisions" => some (.set .detectCollisions)
  | "-v" | "--verbose" => some (.set .verbose)
  | "--diff" => some .diff
  | "-h" | "--help" => some .help
  | _ => none

def valued? : String → Option Valued
  | "-m" | "--marker" => some (.set .marker)
  | "-a" | "--hash" => some (.set .hash)
  | "-o" | "--out-dir" => some .outDir
  | "-e" | "--ext" => some .extensions
  | _ => none

structure Reading where
  paths : List String := []
  given : Record Value := .empty
  extensions : List String := []
  outDir : Option String := none
  diff : Bool := false
  help : Bool := false

def Reading.switch (r : Reading) : Switch → Reading
  | .onlyPaths => r
  | .set key => { r with given := r.given.set key.name (.bool true) }
  | .diff => { r with diff := true }
  | .help => { r with help := true }

def Reading.valued (r : Reading) (value : String) : Valued → Reading
  | .set key => { r with given := r.given.set key.name (.text value) }
  | .outDir => { r with outDir := some value }
  | .extensions => { r with extensions := r.extensions ++ Settings.splitCommas value }

/-- Whether an argument is a path: it does not start with a dash or is a single dash. -/
def isPath (arg : String) : Bool := arg.toList.head? != some '-' || arg == "-"

def read (r : Reading) : List String → Except UsageError Reading
  | [] => .ok r
  | arg :: rest =>
    if isPath arg then read { r with paths := r.paths ++ [arg] } rest
    else
      match switch? arg with
      | some .onlyPaths => .ok { r with paths := r.paths ++ rest }
      | some s => read (r.switch s) rest
      | none =>
        match valued? arg with
        | none => .error (.unknownOption arg)
        | some v =>
          match rest with
          | [] => .error (.missingValue arg)
          | value :: rest => read (r.valued value v) rest

def Reading.fields (r : Reading) : List (String × Option Value) :=
  let given := if r.extensions.isEmpty then r.given
    else r.given.set OptionKey.extensions.name (.list (r.extensions.map Value.text))
  given.toList.map fun (n, v) => (n, some v)

end Args

structure Args where
  command : Command
  paths : List String
  overrides : Settings
  outDir : Option String
  diff : Bool
  help : Bool

namespace Args

inductive Error where
  | usage (e : UsageError)
  | config (e : ConfigError)

def ofReading (command : Command) (r : Reading) : Except Error Args :=
  match Settings.ofFields r.fields "command line" with
  | .error e => .error (.config e)
  | .ok overrides => .ok ⟨command, r.paths, overrides, r.outDir, r.diff, r.help⟩

def splitCommand : List String → Command × List String
  | [] => (.run, [])
  | first :: rest =>
    match Command.ofName? first with
    | some c => (c, rest)
    | none => (.run, first :: rest)

def parse (args : List String) : Except Error Args :=
  let (command, rest) := splitCommand args
  match read {} rest with
  | .error e => .error (.usage e)
  | .ok r => ofReading command r

end Args

end HashedLiterals
