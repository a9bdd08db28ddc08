import HashedLiterals.Disk.Lookup
import HashedLiterals.Text.Lowercase
import HashedLiterals.Text.Units

set_option autoImplicit false

namespace HashedLiterals

structure InputFile where
  /-- The path under which the file is opened. -/
  path : String
  /-- Its path under an output directory. -/
  relative : String
  deriving DecidableEq, Repr

namespace Collect

def isSkipped (name : String) : Bool := name.toList.head? == some '.' || name == "node_modules"

def isWanted (extensions : List String) (name : String) : Bool :=
  extensions.contains (Lowercase.lower (Path.extension name))

def sortNames (entries : List (String × Node)) : List (String × Node) :=
  entries.mergeSort fun a b => Units.le a.1 b.1

/-- The wanted files below a directory; the first argument bounds the depth. A directory that cannot
be listed stands for itself, so that opening it reports why. -/
def walk (d : Disk) (extensions : List String) (root : String) : Nat → String → List InputFile
  | 0, _ => []
  | depth + 1, dir =>
    match d.list dir with
    | .error _ =>
      let relative := Path.relative d.cwd root dir
      [⟨dir, if relative.isEmpty then Path.baseName dir else relative⟩]
    | .ok entries => (sortNames entries).flatMap fun (name, node) =>
      let path := Path.join dir name
      match node with
      | .directory => if isSkipped name then [] else walk d extensions root depth path
      | .file _ _ =>
        if isWanted extensions name then [⟨path, Path.relative d.cwd root path⟩] else []
      | .link _ => []

/-- The path of a file argument under an output directory: relative to the given directory, or only
the name if it lies outside. -/
def relativeTo (cwd : Key) (input : String) : String :=
  let relative := Path.joinParts (Path.relativeParts cwd (Path.toKey cwd input))
  if relative.isEmpty || "..".toList.isPrefixOf relative.toList || Path.isAbsolute relative then
    Path.baseName input
  else relative

def ofInput (d : Disk) (extensions : List String) (cwd : Key) (input : String) : List InputFile :=
  match d.stat input with
  | .ok (_, .directory) => walk d extensions input (d.entries.length + 2) input
  | _ => [⟨input, relativeTo cwd input⟩]

def files (d : Disk) (inputs extensions : List String) (cwd : Key) : List InputFile :=
  inputs.flatMap (ofInput d (extensions.map Lowercase.lower) cwd)

end Collect

end HashedLiterals
