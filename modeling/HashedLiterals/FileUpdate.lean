import HashedLiterals.Config.Resolve
import HashedLiterals.Disk.Atomic
import HashedLiterals.Preprocess

/-!
Preprocessing files. A file is read, preprocessed, and written only if something was replaced; a map
is written beside it when one is wanted. A failure leaves the registry as it was.
-/
set_option autoImplicit false

namespace HashedLiterals

def DiskError.cause (e : DiskError) : Cause := .error (some e.errno.code) e.message

namespace FileUpdate

structure Options where
  marker : Marker := .default
  hash : HashFunction := Hash.Algorithm.djb2.function
  sourceMap : Bool := false
  /-- Find out what would happen, but write nothing. -/
  dryRun : Bool := false
  /-- Make the directory of the destination if it is missing. -/
  createDirectories : Bool := false
  mapper : SourceMap.Mapper := .standard

structure Outcome where
  modified : Bool
  invocations : List Invocation
  /-- The new content of a file that was modified. -/
  output : Option Bytes
  map : Option SourceMap
  deriving DecidableEq, Repr

def rebase (d : Disk) (source destination : String) (m : SourceMap) : SourceMap :=
  { m with
    file := some (Path.baseName destination)
    sources := [Path.relative d.cwd (Path.parent destination) source] }

/-- The files to write: the map first, so that the new file lands last. -/
def pending (destination : String) (output : Bytes) (map : Option SourceMap) : List Disk.Pending :=
  (map.toList.map fun m => ⟨destination ++ ".map", Utf8.encode (m.write ++ "\n")⟩) ++
    [⟨destination, output⟩]

def writeOut (d : Disk) (o : Options) (destination : String) (files : List Disk.Pending) :
    Option DiskError × Disk :=
  let (failed, d) := if o.createDirectories then d.makeDirectories (Path.parent destination)
    else (none, d)
  match failed with
  | some e => (some e, d)
  | none => d.writeAll files

def update (d : Disk) (registry : Option Registry) (o : Options) (source destination : String)
    (input : Bytes) : Except Failure Outcome × Disk × Option Registry :=
  let options : Preprocess.Options := ⟨o.marker, o.hash, source, o.sourceMap, o.mapper⟩
  match Preprocess.run options (registry.map Registry.stage) input with
  | (.error f, _) => (.error f, d, registry)
  | (.ok s, staged) =>
    if !s.changed then (.ok ⟨false, [], none, none⟩, d, registry)
    else
      let map := s.map.map (rebase d source destination)
      let (failed, written) := if o.dryRun then (none, d)
        else writeOut d o destination (pending destination s.output map)
      match failed with
      | some e => (.error (.destinationUnwritable destination e.cause), written, registry)
      | none => (.ok ⟨true, s.invocations, some s.output, map⟩, written,
          staged.map fun r => r.commit.base)

def run (d : Disk) (registry : Option Registry) (o : Options) (source destination : String) :
    Except Failure Outcome × Disk × Option Registry :=
  match d.read source with
  | .error e => (.error (.sourceUnreadable source e.cause), d, registry)
  | .ok input => update d registry o source destination input

/-- As `run`, with a marker that is checked once the source has been read. -/
def runWith (d : Disk) (registry : Option Registry) (o : Options) (marker : String)
    (source destination : String) :
    Except ConfigError (Except Failure Outcome × Disk × Option Registry) :=
  match d.read source, Config.markerOption marker with
  | .error e, _ => .ok (.error (.sourceUnreadable source e.cause), d, registry)
  | .ok input, .ok m => .ok (update d registry { o with marker := m } source destination input)
  | .ok _, .error e => .error e

end FileUpdate

end HashedLiterals
