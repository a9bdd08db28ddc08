import HashedLiterals.Config.File
import HashedLiterals.Config.Yaml
import HashedLiterals.Disk.Lookup
import HashedLiterals.SourceMap.Mapper
import HashedLiterals.Text.Utf8

/-!
The host with which the program runs. Its explorer reads JSON, and YAML without anchors, tags and block
scalars. It runs no scripts: one that stands where settings are looked for is an error. Constructing it reads
the package description of the working directory, in which settings stand under the module's name; a null is
no package description.
-/
set_option autoImplicit false

namespace HashedLiterals.Explorer

open ConfigFile (Found)

inductive Format where
  | package
  | json
  | yaml
  | script
  deriving DecidableEq, Repr

def formatOf (name : String) : Format :=
  if name = ConfigFile.packageName then .package
  else if ".json".toList.isSuffixOf name.toList then .json
  else if ".js".toList.isSuffixOf name.toList || ".cjs".toList.isSuffixOf name.toList then .script
  else .yaml

def packageValue (field : String) : Value → Except Thrown (Option Value)
  | .null => .error ⟨"TypeError", "Cannot convert undefined or null to object"⟩
  | .object fields => .ok (fields.lookup field)
  | _ => .ok none

def isNull : Value → Bool
  | .null => true
  | _ => false

def orMalformed (kind : String) (v : Option Value) : Except Thrown (Option Value) :=
  v.elim (.error ⟨kind, "not well-formed"⟩) fun v => .ok (some v)

/-- The value that the contents of a file hold; empty ones and a null hold none. -/
def parse (field name : String) (data : Bytes) : Except Thrown (Option Value) :=
  let text := Utf8.decode data
  if (Blank.trim text).isEmpty then .ok none
  else
    let value : Except Thrown (Option Value) := match formatOf name with
      | .package =>
        match JsonFormat.parse? text with
        | none => .error ⟨"JSONError", "not well-formed"⟩
        | some v => packageValue field v
      | .json => orMalformed "JSONError" (JsonFormat.parse? text)
      | .yaml => orMalformed "YAMLException" (YamlFormat.parse? text)
      | .script => .error ⟨"Error", "scripts are not run"⟩
    value.map fun found => found.filter fun v => !isNull v

def isAbsence : Errno → Bool
  | .noEntry | .notDirectory | .isDirectory => true
  | .alreadyExists | .tooManyLinks | .nameTooLong | .zeroByte => false

def valueAt (d : Disk) (field : String) (dir : Key) (name : String) :
    Except Thrown (Option Value) :=
  match d.read (Path.ofKey (dir ++ [name])) with
  | .ok data => parse field name data
  | .error e => if isAbsence e.errno then .ok none else .error ⟨"Error", e.message⟩

def searchFrom (d : Disk) (field : String) (dir : Key) : List String → Except Thrown (Option Found)
  | [] => .ok none
  | name :: rest =>
    match valueAt d field dir name with
    | .error t => .error t
    | .ok none => searchFrom d field dir rest
    | .ok (some v) => .ok (some ⟨v, Path.ofKey (dir ++ [name]), false⟩)

def searchIn (d : Disk) (field : String) (places : List String) (dir : Key) :
    Except Thrown (Option Found) :=
  match d.stat (Path.ofKey dir) with
  | .ok (_, .directory) => searchFrom d field dir places
  | .ok _ => .ok none
  | .error .noEntry => .ok none
  | .error e => .error ⟨"Error", (DiskError.on "stat" (Path.ofKey dir) e).message⟩

def construct (d : Disk) (field : String) (places : List String) :
    Except Thrown (Key → Except Thrown (Option Found)) :=
  (valueAt d field d.cwd ConfigFile.packageName).map fun _ => searchIn d field places

def textOf (v : Value) : Except Thrown String :=
  v.describe.elim (.error ⟨"TypeError", "Cannot convert object to primitive value"⟩) .ok

def host : Host := ⟨construct, textOf, .standard⟩

end HashedLiterals.Explorer
