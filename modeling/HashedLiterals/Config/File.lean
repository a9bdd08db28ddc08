import HashedLiterals.Config.Resolve
import HashedLiterals.Host

/-!
Configuration files. A package that is not part of this library finds and parses them: an explorer is
constructed on a disk and then searches a directory. What it finds is checked as a layer of settings. An
error in the search is an error in the configuration; one in the construction is not caught.
-/
set_option autoImplicit false

namespace HashedLiterals.ConfigFile

def moduleName : String := "strid"

def packageName : String := "package.json"

def searchPlaces : List String :=
  [packageName, ".stridrc", ".stridrc.json", ".stridrc.yaml", ".stridrc.yml", ".stridrc.js",
    ".stridrc.cjs", "strid.config.js", "strid.config.cjs"]

inductive Error where
  | thrown (t : Thrown)
  | rejected (e : ConfigError) (message : String)

/-- Raises an error about the configuration. If its message cannot be made, the reason for that is raised
instead. -/
def Error.raise (host : Host) (e : ConfigError) : Error :=
  match e.message host.text with
  | .ok message => .rejected e message
  | .error t => .thrown t

def Found.settings (found : Option Found) : Except ConfigError (Settings × Option String) :=
  match found.filter fun f => !f.isEmpty with
  | none => .ok ({}, none)
  | some f => (Settings.ofValue f.value f.path).map fun s => (s, some f.path)

def search (host : Host) (d : Disk) (dir : Key) : Except Error (Settings × Option String) :=
  match host.explorer d moduleName searchPlaces with
  | .error t => .error (.thrown t)
  | .ok look =>
    match look dir with
    | .error t => .error (.raise host ⟨.unreadable t.message, "config file"⟩)
    | .ok found => (Found.settings found).mapError (.raise host)

def load (host : Host) (d : Disk) (dir : Key) (environment : Environment)
    (overrides : List (String × Option Value)) : Except Error (Config × Option String) := do
  let (file, path) ← search host d dir
  let config ← (Config.resolve file environment overrides).mapError (.raise host)
  return (config, path)

end HashedLiterals.ConfigFile
