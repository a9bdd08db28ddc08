import HashedLiterals.Collect
import HashedLiterals.Command.Args
import HashedLiterals.Command.Diff
import HashedLiterals.Config.File
import HashedLiterals.FileUpdate

/-!
Carrying out a command line on a disk. The result is an exit code, what is printed, and the disk
afterwards. Failures concern single files: the others are still processed.
-/
set_option autoImplicit false

namespace HashedLiterals

structure Report where
  out : List String := []
  err : List String := []
  deriving DecidableEq, Repr

namespace Report

def print (r : Report) (line : String) : Report := { r with out := r.out ++ [line] }

def complain (r : Report) (line : String) : Report := { r with err := r.err ++ [line] }

def diagnose (r : Report) (colors : Bool) (d : Diagnostic) : Report :=
  (r.complain (d.render colors false)).complain ""

def log (r : Report) (verbose : Bool) (line : String) : Report :=
  if verbose then r.print ("[strid] " ++ line) else r

end Report

namespace Command

def usage : String := "Usage: strid <run|check|expand|hash> [options] <paths...>"

def helpText : String := "
strid - Compile-time string hashing for C-family sources

USAGE:
  strid <command> [options] <paths...>

COMMANDS:
  run      Rewrite SID(\"...\") invocations in place (default)
  check    Report files that still contain invocations, without writing
  expand   Print a file's preprocessed output
  hash     Print the hash of each argument

OPTIONS:
  -m, --marker <name>    Marker macro name (default: SID)
  -a, --hash <name>      Hash algorithm: djb2 or fnv1a (default: djb2)
  -o, --out-dir <dir>    Write results under <dir> instead of in place
  -e, --ext <list>       Comma-separated extensions to visit in directories
  --source-map           Write a .map file beside each rewritten file
  --detect-collisions    Fail files whose strings collide with earlier ones
  --diff                 Show a line diff (expand command)
  -v, --verbose          Enable verbose logging
  -h, --help             Show this help message

Options can also be set in .stridrc, package.json#strid or STRID_* variables.

EXAMPLES:
  strid src
  strid check src include
  strid run --out-dir build/gen src
  strid expand --diff src/game.c
  strid hash player.jump
"

def plural (count : Nat) (noun : String) : String :=
  toString count ++ " " ++ noun ++ (if count = 1 then "" else "s")

structure Context where
  config : Config
  /-- The directory to which file arguments are related under an output directory. -/
  cwd : Key
  colors : Bool
  mapper : SourceMap.Mapper := .standard

/-- How files are processed: with or without writing, in place or under an output directory. -/
structure Plan where
  dryRun : Bool
  /-- The output directory; an empty one counts as none. -/
  outDir : Option String
  createDirectories : Bool

def Plan.ofArgs (args : Args) (dryRun : Bool) : Plan :=
  let chosen := if dryRun then none else args.outDir
  ⟨dryRun, chosen.filter fun dir => !dir.isEmpty, chosen.isSome⟩

def Plan.destination (p : Plan) (file : InputFile) : String :=
  match p.outDir with
  | some dir => Path.join dir file.relative
  | none => file.path

def clash? (cwd : Key) (outDir : String) (seen : List (Key × String)) :
    List InputFile → Option UsageError
  | [] => none
  | file :: rest =>
    let key := Path.toKey (Path.toKey cwd outDir) file.relative
    match seen.lookup key with
    | some other => some (.sameOutput other file.path (Path.join outDir file.relative))
    | none => clash? cwd outDir ((key, file.path) :: seen) rest

structure Batch where
  disk : Disk
  registry : Option Registry
  report : Report
  modified : Nat := 0
  failed : Nat := 0

def Batch.fail (b : Batch) (colors : Bool) (f : Failure) : Batch :=
  { b with failed := b.failed + 1, report := b.report.diagnose colors f.diagnostic }

/-- A file in which nothing was replaced is copied to an output directory that it does not lie in.
Directories made for the copy stay even if it fails. -/
def copyUnchanged (d : Disk) (p : Plan) (source destination : String) : Option DiskError × Disk :=
  if p.outDir.isSome && Path.toKey d.cwd destination != Path.toKey d.cwd source then
    match d.makeDirectories (Path.parent destination) with
    | (some e, d) => (some e, d)
    | (none, d) =>
      match d.copy source destination with
      | .error e => (some e, d)
      | .ok d => (none, d)
  else (none, d)

def Batch.unchanged (b : Batch) (c : Context) (p : Plan) (file : InputFile) : Batch :=
  let (failed, disk) := copyUnchanged b.disk p file.path (p.destination file)
  let b := { b with disk }
  match failed with
  | none => { b with report := b.report.log c.config.verbose (file.path ++ ": unchanged") }
  | some e => b.fail c.colors (.destinationUnwritable (p.destination file) e.cause)

def Batch.changed (b : Batch) (p : Plan) (file : InputFile) (count : Nat) : Batch :=
  let strings := plural count "string"
  let line := if p.dryRun then file.path ++ ": " ++ strings ++ " to hash"
    else p.destination file ++ ": hashed " ++ strings
  { b with modified := b.modified + 1, report := b.report.print line }

def fileOptions (c : Context) (p : Plan) : FileUpdate.Options :=
  ⟨c.config.marker, c.config.hash.function, c.config.sourceMap, p.dryRun, p.createDirectories, c.mapper⟩

def Batch.step (c : Context) (p : Plan) (b : Batch) (file : InputFile) : Batch :=
  let (result, disk, registry) :=
    FileUpdate.run b.disk b.registry (fileOptions c p) file.path (p.destination file)
  let b := { b with disk, registry }
  match result with
  | .error f => b.fail c.colors f
  | .ok outcome =>
    if outcome.modified then b.changed p file outcome.invocations.length
    else b.unchanged c p file

def Batch.run (c : Context) (p : Plan) (b : Batch) (files : List InputFile) : Batch :=
  files.foldl (Batch.step c p) b

/-- The exit code: one if a file failed or, in a dry run, would change. -/
def Batch.exit (b : Batch) (p : Plan) : Nat :=
  if 0 < b.failed ∨ (p.dryRun ∧ 0 < b.modified) then 1 else 0

def Batch.close (b : Batch) (c : Context) (p : Plan) (count : Nat) : Batch :=
  let report := if 0 < b.failed then
      b.report.complain ("[strid] Found " ++ plural b.failed "error" ++ " in " ++
        plural count "file" ++ ".")
    else b.report
  { b with report := report.log c.config.verbose (plural count "file" ++ " processed, " ++
      toString b.modified ++ " " ++ (if p.dryRun then "to rewrite" else "rewritten") ++ ".") }

structure Result where
  exit : Nat
  report : Report
  disk : Disk

def refuse (d : Disk) (r : Report) (e : UsageError) : Result :=
  ⟨1, r.complain (e.message ++ "\n" ++ usage), d⟩

def processFiles (d : Disk) (r : Report) (c : Context) (args : Args) (dryRun : Bool) : Result :=
  let p := Plan.ofArgs args dryRun
  let files := Collect.files d args.paths c.config.extensions c.cwd
  match p.outDir.bind fun dir => clash? d.cwd dir [] files with
  | some e => refuse d r e
  | none =>
    let start := r.log c.config.verbose ("Processing " ++ plural files.length "file" ++ " (marker " ++
      c.config.marker.text ++ ", hash " ++ c.config.hash.name ++ ")")
    let registry := if c.config.detectCollisions then some Registry.empty else none
    let b := Batch.run c p ⟨d, registry, start, 0, 0⟩ files
    let closed := b.close c p files.length
    ⟨b.exit p, closed.report, closed.disk⟩

def expandSource (d : Disk) (r : Report) (colors : Bool) (marker : Marker) (hash : HashFunction)
    (diff : Bool) (path : String) : Result :=
  match d.read path with
  | .error e => ⟨1, r.diagnose colors (Failure.sourceUnreadable path e.cause).diagnostic, d⟩
  | .ok input =>
    match Preprocess.run { marker, hash, fileName := path } none input with
    | (.error f, _) => ⟨1, r.diagnose colors f.diagnostic, d⟩
    | (.ok s, _) =>
      let lines := if diff then Hunk.print colors path (Utf8.decode input) s.code else [s.code]
      ⟨0, lines.foldl Report.print r, d⟩

def expandFile (d : Disk) (r : Report) (c : Context) (diff : Bool) (path : String) : Result :=
  expandSource d r c.colors c.config.marker c.config.hash.function diff path

def hashTexts (d : Disk) (r : Report) (c : Context) (texts : List String) : Result :=
  let line (text : String) := Hash.format (Hash.ofText c.config.hash.function text) ++ "  " ++ text
  ⟨0, (texts.map line).foldl Report.print r, d⟩

def perform (d : Disk) (r : Report) (c : Context) (args : Args) : Result :=
  match args.command, args.paths with
  | .run, [] => refuse d r (.noPaths .run)
  | .check, [] => refuse d r (.noPaths .check)
  | .run, _ => processFiles d r c args false
  | .check, _ => processFiles d r c args true
  | .expand, [path] => expandFile d r c args.diff path
  | .expand, _ => refuse d r .notASingleFile
  | .hash, [] => refuse d r .noTexts
  | .hash, texts => hashTexts d r c texts

def reject (d : Disk) (colors : Bool) (message : String) : Result :=
  let draft := (Diagnostic.Draft.ofDescriptor .badConfiguration).withArguments
    [("detail", some message)]
  ⟨1, ({} : Report).diagnose colors draft.build, d⟩

def answer (d : Disk) (colors : Bool) : ConfigFile.Error → Except Thrown Result
  | .rejected _ message => .ok (reject d colors message)
  | .thrown t => .error t

def execute (host : Host) (d : Disk) (args : List String) (environment : Environment)
    (cwd : Key) (terminal : Bool) : Except Thrown Result :=
  let colors := terminal && environment.colors
  match Args.parse args with
  | .error (.usage e) => .ok (refuse d {} e)
  | .error (.config e) => answer d colors (.raise host e)
  | .ok parsed =>
    if args.isEmpty || parsed.help then .ok ⟨0, ({} : Report).print helpText, d⟩
    else
      match ConfigFile.load host d cwd environment parsed.overrides.toFields with
      | .error e => answer d colors e
      | .ok (config, path) =>
        let start := match path with
          | some p => ({} : Report).log config.verbose ("Using config: " ++ p)
          | none => {}
        .ok (perform d start ⟨config, cwd, colors, host.mapper⟩ parsed)

end Command

end HashedLiterals
