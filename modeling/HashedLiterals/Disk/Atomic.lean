import HashedLiterals.Disk.Write

/-!
Writing several files at once. Each is first written to a temporary file beside its target; only when
all of them are there, they are renamed into place in order. A failure removes the temporary files;
if one of them cannot even be looked for, that is the failure reported.
-/
set_option autoImplicit false

namespace HashedLiterals.Disk

structure Pending where
  destination : String
  data : Bytes

structure Staged where
  temporary : String
  target : String

/-- Where a destination leads through links; one that does not exist stands for itself. -/
def targetOf (d : Disk) (destination : String) : Except DiskError String :=
  match d.realPath destination with
  | .ok path => .ok path
  | .error e => if e.errno = .noEntry then .ok destination else .error e

def temporaryOf (d : Disk) (target : String) : String := target ++ "." ++ d.process ++ ".tmp"

def replacedMode (d : Disk) (target : String) : Except DiskError (Option Nat) :=
  match d.stat target with
  | .error .noEntry => .ok none
  | .error e => .error (.on "stat" target e)
  | .ok (_, .directory) => .error ⟨.isDirectory, "'" ++ target ++ "'"⟩
  | .ok (_, .file _ mode) => .ok (some mode)
  | .ok (_, .link _) => .ok none

def fill (d : Disk) (s : Staged) (data : Bytes) : Except DiskError Disk := do
  let mode ← d.replacedMode s.target
  let d ← d.write s.temporary data
  match mode with
  | none => return d
  | some mode => d.setMode s.temporary mode

/-- Stages files one after another; the names staged so far are returned in any case. -/
def stageAll (d : Disk) (staged : List Staged) : List Pending → List Staged × Disk × Option DiskError
  | [] => (staged, d, none)
  | p :: rest =>
    match d.targetOf p.destination with
    | .error e => (staged, d, some e)
    | .ok target =>
      let s : Staged := ⟨d.temporaryOf target, target⟩
      match d.fill s p.data with
      | .error e => (staged ++ [s], d, some e)
      | .ok d => stageAll d (staged ++ [s]) rest

def renameAll (d : Disk) : List Staged → Disk × Option DiskError
  | [] => (d, none)
  | s :: rest =>
    match d.rename s.temporary s.target with
    | .error e => (d, some e)
    | .ok d => renameAll d rest

def discardAll (d : Disk) : List Staged → Disk × Option DiskError
  | [] => (d, none)
  | s :: rest =>
    match d.discard s.temporary with
    | .error e => (d, some e)
    | .ok d => discardAll d rest

def abandon (d : Disk) (staged : List Staged) (e : DiskError) : Option DiskError × Disk :=
  let (d, failed) := d.discardAll staged
  (some (failed.getD e), d)

def writeAll (d : Disk) (files : List Pending) : Option DiskError × Disk :=
  match d.stageAll [] files with
  | (staged, d, some e) => d.abandon staged e
  | (staged, d, none) =>
    match d.renameAll staged with
    | (d, some e) => d.abandon staged e
    | (d, none) => (none, d)

end HashedLiterals.Disk
