import HashedLiterals.Command.Run
import HashedLiterals.Config.Explorer

set_option autoImplicit false

namespace HashedLiterals.Program

def binding (text : Bytes) : String × Option String :=
  (Utf8.decode (text.takeWhile (· != 0x3d)),
    some (Utf8.decode ((text.dropWhile (· != 0x3d)).drop 1)))

def environment (block : Bytes) : Environment :=
  .ofPairs (((block.splitOn 0).filter fun text => !text.isEmpty).map binding)

def process (status : String) : String := String.ofList (status.toList.takeWhile Char.isDigit)

def mentioned (args : List String) : List String :=
  match Args.parse args with
  | .error _ => []
  | .ok parsed => if parsed.command = .hash then [] else parsed.paths ++ parsed.outDir.toList

def discard (path : String) : IO Unit :=
  try IO.FS.removeFile path catch _ => pure ()

/-- Reads what stands at a key into a disk, a directory with everything below it except for the
directories that are never entered. Links are taken over without what they lead to. -/
partial def capture (top : Bool) (d : Disk) (key : Key) : IO Disk := do
  let path := System.mkFilePath [Path.ofKey key]
  try
    match (← path.symlinkMetadata).type with
    | .dir =>
      let mut d := d.makeWay key
      if top || !Collect.isSkipped (key.getLast?.getD "") then
        for entry in ← path.readDir do
          d ← capture false d (key ++ [entry.fileName])
      return d
    | .file =>
      let data ← IO.FS.readBinFile path
      return d.place key (.file data.toList Disk.newMode)
    | .symlink => return d.place key (.link (← IO.FS.realPath path).toString)
    | .other => return d
  catch _ => return d

def captureArgument (d : Disk) (path : String) : IO Disk := do
  let key := Path.toKey d.cwd path
  let d ← capture true d key
  match d.get? key with
  | some (.link target) => capture true d (Path.toKey [] target)
  | _ => return d

def restore (before after : Disk) : IO Unit := do
  for (key, node) in after.entries do
    if before.get? key != some node then
      let path := Path.ofKey key
      match node with
      | .directory => IO.FS.createDirAll path
      | .file data _ =>
        if (before.get? key).isNone then discard path
        IO.FS.writeBinFile path ⟨data.toArray⟩
      | .link _ => pure ()

def run (args : List String) : IO UInt32 := do
  let cwd := Path.toKey [] (← IO.currentDir).toString
  let status ← IO.FS.readFile "/proc/self/stat"
  let block ← IO.FS.readBinFile "/proc/self/environ"
  let start := Disk.makeWay ⟨[], cwd, process status⟩ cwd
  let before ← (ConfigFile.searchPlaces ++ mentioned args).foldlM captureArgument start
  let terminal ← (← IO.getStderr).isTty
  match Command.execute Explorer.host before args (environment block.toList) cwd terminal with
  | .error t =>
    IO.eprintln (t.kind ++ ": " ++ t.message)
    return 1
  | .ok result =>
    restore before result.disk
    for line in result.report.out do IO.println line
    for line in result.report.err do IO.eprintln line
    return result.exit.toUInt32

end HashedLiterals.Program

def main (args : List String) : IO UInt32 := HashedLiterals.Program.run args
