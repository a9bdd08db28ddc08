import HashedLiterals.Config.Settings
import HashedLiterals.Disk.Basic
import HashedLiterals.SourceMap

/-!
What is relied on from outside: packages that find configuration files, parse them, and map overwritten
texts, and the conversion of a value to a text.
-/
set_option autoImplicit false

namespace HashedLiterals

structure ConfigFile.Found where
  value : Value
  path : String
  /-- The file holds nothing, and its value does not count. -/
  isEmpty : Bool

structure Host where
  /-- Constructs an explorer, for a module's settings in files of some names, and gives its search of a
  directory. -/
  explorer : Disk → String → List String →
    Except Thrown (Key → Except Thrown (Option ConfigFile.Found))
  text : Value → Except Thrown String
  mapper : SourceMap.Mapper

end HashedLiterals
