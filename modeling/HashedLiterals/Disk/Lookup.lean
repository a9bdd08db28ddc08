import HashedLiterals.Disk.Basic
import HashedLiterals.Text.Quoted

set_option autoImplicit false

namespace HashedLiterals

inductive Errno where
  | noEntry
  | notDirectory
  | isDirectory
  | alreadyExists
  | tooManyLinks
  | nameTooLong
  /-- A zero byte in the path, which is refused before the disk is looked at. -/
  | zeroByte
  deriving DecidableEq, Repr

namespace Errno

def code : Errno → String
  | .noEntry => "ENOENT"
  | .notDirectory => "ENOTDIR"
  | .isDirectory => "EISDIR"
  | .alreadyExists => "EEXIST"
  | .tooManyLinks => "ELOOP"
  | .nameTooLong => "ENAMETOOLONG"
  | .zeroByte => "ERR_INVALID_ARG_VALUE"

def text : Errno → String
  | .noEntry => "no such file or directory"
  | .notDirectory => "not a directory"
  | .isDirectory => "illegal operation on a directory"
  | .alreadyExists => "file already exists"
  | .tooManyLinks => "too many symbolic links encountered"
  | .nameTooLong => "name too long"
  | .zeroByte => "The argument 'path' must be a string, Uint8Array, or URL without null bytes"

end Errno

structure DiskError where
  errno : Errno
  action : String
  deriving DecidableEq, Repr

def DiskError.message (e : DiskError) : String :=
  if e.errno = .zeroByte then e.errno.text ++ ". " ++ e.action
  else e.errno.code ++ ": " ++ e.errno.text ++ ", " ++ e.action

def DiskError.on (verb path : String) (errno : Errno) : DiskError :=
  if errno = .zeroByte then ⟨errno, "Received " ++ Quoted.write path⟩
  else ⟨errno, verb ++ " '" ++ path ++ "'"⟩

namespace Disk

inductive Found where
  | entry (key : Key) (node : Node)
  | free (key : Key)
  deriving DecidableEq, Repr

def linkLimit : Nat := 40

def nameLimit : Nat := 255

def pathLimit : Nat := 4095

def isTooLong (name : String) : Bool := nameLimit < name.utf8ByteSize

def steps (path : String) : List String :=
  let named := (Path.parts path).filter fun p => !p.isEmpty
  if path.toList.getLast? == some '/' then named ++ ["."] else named

/-- Walks components from a directory. At a link that is to be followed, `jump` goes on from the place
that the link counts from. -/
def walkParts (d : Disk) (follow : Bool) (jump : Key → List String → Except Errno Found) (key : Key) :
    List String → Except Errno Found
  | [] => .ok (.entry key .directory)
  | part :: rest =>
    if part = "." then d.walkParts follow jump key rest
    else if part = ".." then d.walkParts follow jump key.dropLast rest
    else if isTooLong part then .error .nameTooLong
    else
      match d.get? (key ++ [part]) with
      | none => if rest.isEmpty then .ok (.free (key ++ [part])) else .error .noEntry
      | some .directory => d.walkParts follow jump (key ++ [part]) rest
      | some (.file data mode) =>
        if rest.isEmpty then .ok (.entry (key ++ [part]) (.file data mode)) else .error .notDirectory
      | some (.link target) =>
        if rest.isEmpty && !follow then .ok (.entry (key ++ [part]) (.link target))
        else jump (if Path.isAbsolute target then [] else key) (steps target ++ rest)

def walk (d : Disk) (follow : Bool) : Nat → Key → List String → Except Errno Found
  | 0 => d.walkParts follow fun _ _ => .error .tooManyLinks
  | links + 1 => d.walkParts follow (d.walk follow links)

def hasZero (path : String) : Bool := path.toList.contains '\x00'

def find (d : Disk) (follow : Bool) (path : String) : Except Errno Found :=
  if hasZero path then .error .zeroByte
  else if path.isEmpty then .error .noEntry
  else if pathLimit < path.utf8ByteSize then .error .nameTooLong
  else d.walk follow linkLimit (if Path.isAbsolute path then [] else d.cwd) (steps path)

def stat (d : Disk) (path : String) : Except Errno (Key × Node) :=
  match d.find true path with
  | .error e => .error e
  | .ok (.free _) => .error .noEntry
  | .ok (.entry key node) => .ok (key, node)

def read (d : Disk) (path : String) : Except DiskError Bytes :=
  match d.stat path with
  | .error e => .error (.on "open" path e)
  | .ok (_, .file data _) => .ok data
  | .ok _ => .error ⟨.isDirectory, "read"⟩

def list (d : Disk) (path : String) : Except DiskError (List (String × Node)) :=
  match d.stat path with
  | .error e => .error (.on "scandir" path e)
  | .ok (key, .directory) => .ok (d.children key)
  | .ok _ => .error (.on "scandir" path .notDirectory)

/-- Replaces links by what they lead to, component by component. A link's target is taken as a text,
so `..` in it goes back in the path and not on the disk; `jump` goes on from the root, and is told the
link's own path. -/
def resolveParts (d : Disk) (jump : String → List String → Except DiskError Key) (key : Key) :
    List String → Except DiskError Key
  | [] => .ok key
  | part :: rest =>
    let path := Path.ofKey (key ++ [part])
    match d.get? key, d.get? (key ++ [part]) with
    | some .directory, none =>
      .error (.on "lstat" path (if isTooLong part then .nameTooLong else .noEntry))
    | some .directory, some (.link target) =>
      match d.stat path with
      | .error e => .error (.on "stat" path e)
      | .ok _ => jump path (Path.collapse true (Path.toKey key target ++ rest))
    | some .directory, some _ => d.resolveParts jump (key ++ [part]) rest
    | _, _ => .error (.on "lstat" path .notDirectory)

def resolve (d : Disk) : Nat → Key → List String → Except DiskError Key
  | 0 => d.resolveParts fun path _ => .error (.on "stat" path .tooManyLinks)
  | links + 1 => d.resolveParts fun _ parts => d.resolve links [] parts

def realPath (d : Disk) (path : String) : Except DiskError String :=
  let key := Path.toKey d.cwd path
  if hasZero path then .error (.on "lstat" path .zeroByte)
  else (d.resolve (linkLimit * (key.length + 1)) [] key).map Path.ofKey

end Disk

end HashedLiterals
