import HashedLiterals.Disk.Lookup

set_option autoImplicit false

namespace HashedLiterals.Disk

def write (d : Disk) (path : String) (data : Bytes) : Except DiskError Disk :=
  match d.find true path with
  | .error e => .error (.on "open" path e)
  | .ok (.free key) => .ok (d.put key (.file data newMode))
  | .ok (.entry key (.file _ mode)) => .ok (d.put key (.file data mode))
  | .ok (.entry _ _) => .error (.on "open" path .isDirectory)

def setMode (d : Disk) (path : String) (mode : Nat) : Except DiskError Disk :=
  match d.stat path with
  | .error e => .error (.on "chmod" path e)
  | .ok (key, .file data _) => .ok (d.put key (.file data mode))
  | .ok _ => .ok d

def failedPair (verb source target : String) (errno : Errno) : DiskError :=
  ⟨errno, verb ++ " '" ++ source ++ "' -> '" ++ target ++ "'"⟩

def rename (d : Disk) (source target : String) : Except DiskError Disk :=
  let fail := failedPair "rename" source target
  match d.find false source, d.find false target with
  | .error e, _ => .error (fail e)
  | .ok (.free _), _ => .error (fail .noEntry)
  | .ok (.entry _ _), .error e => .error (fail e)
  | .ok (.entry _ _), .ok (.entry _ .directory) => .error (fail .isDirectory)
  | .ok (.entry old node), .ok (.entry new _) => .ok ((d.erase old).put new node)
  | .ok (.entry old node), .ok (.free new) => .ok ((d.erase old).put new node)

def discard (d : Disk) (path : String) : Except DiskError Disk :=
  match d.find false path with
  | .error .noEntry => .ok d
  | .error e => .error (.on "lstat" path e)
  | .ok (.entry key (.file _ _)) => .ok (d.erase key)
  | .ok (.entry key (.link _)) => .ok (d.erase key)
  | .ok _ => .ok d

def makeDirectory (d : Disk) (parts : List String) : Except Errno Disk :=
  let path := Path.joinParts parts
  match d.find false path with
  | .error e => .error e
  | .ok (.free key) => .ok (d.put key .directory)
  | .ok (.entry _ _) => .error .alreadyExists

/-- Something stands where a directory is wanted: it is fine if it leads to one. On the way to a
further directory anything else is no directory; at the end it is in the way. -/
def obstacle? (d : Disk) (onTheWay : Bool) (parts : List String) (errno : Errno) : Option Errno :=
  match d.stat (Path.joinParts parts) with
  | .error e => some e
  | .ok (_, .directory) => none
  | .ok _ => some (if errno = .alreadyExists ∧ onTheWay then .notDirectory else .alreadyExists)

def ensureDirectory (d : Disk) (onTheWay : Bool) (parts : List String) : Option Errno × Disk :=
  match d.makeDirectory parts with
  | .ok d => (none, d)
  | .error .notDirectory => (some .notDirectory, d)
  | .error e => (d.obstacle? onTheWay parts e, d)

def makeAll (d : Disk) (onTheWay : Bool) : List String → Option Errno × Disk
  | [] => (none, d)
  | part :: above =>
    let parts := (part :: above).reverse
    match d.makeDirectory parts with
    | .error .noEntry =>
      match d.makeAll true above with
      | (some e, d) => (some e, d)
      | (none, d) => d.ensureDirectory onTheWay parts
    | _ => d.ensureDirectory onTheWay parts

/-- Makes a directory and all that are missing above it; those made before a failure stay. -/
def makeDirectories (d : Disk) (path : String) : Option DiskError × Disk :=
  let (failed, d) := d.makeAll false (Path.parts path).reverse
  (failed.map (DiskError.on "mkdir" path), d)

def copy (d : Disk) (source target : String) : Except DiskError Disk :=
  let fail := failedPair "copyfile" source target
  match d.stat source, d.find true target with
  | .error e, _ => .error (fail e)
  | .ok (_, .file _ _), .error e => .error (fail e)
  | .ok (_, .file data mode), .ok (.free key) => .ok (d.put key (.file data mode))
  | .ok (_, .file data mode), .ok (.entry key (.file _ _)) => .ok (d.put key (.file data mode))
  | .ok _, _ => .error (fail .isDirectory)

end HashedLiterals.Disk
