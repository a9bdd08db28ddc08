import HashedLiterals.Config.Settings
import HashedLiterals.Text.Lowercase

set_option autoImplicit false

namespace HashedLiterals

structure Environment where
  bindings : List (String × Option String)

namespace Environment

def ofPairs (pairs : List (String × Option String)) : Environment := ⟨(Record.ofPairs pairs).toList⟩

def value? (e : Environment) (name : String) : Option String := (e.bindings.lookup name).join

def namePrefix : List Char := "STRID_".toList

def camel : List Char → List Char
  | [] => []
  | ['_'] => ['_']
  | '_' :: c :: rest => if c.isLower then c.toUpper :: camel rest else '_' :: camel (c :: rest)
  | c :: rest => c :: camel rest

def key? (name : String) : Option OptionKey :=
  if namePrefix.isPrefixOf name.toList then
    let words := Lowercase.lowerAfter [] (name.toList.drop namePrefix.length)
    OptionKey.ofName? (String.ofList (camel words))
  else none

/-- The options that are set, in the order in which they are first met, each with its last value. -/
def fields (e : Environment) : Record Value :=
  Record.ofPairs <| e.bindings.filterMap fun (name, value) => do
    let key ← key? name
    let text ← value
    pure (key.name, .text text)

def settings (e : Environment) : Except ConfigError Settings :=
  Settings.ofFields (e.fields.toList.map fun (n, v) => (n, some v)) "environment"

def colors (e : Environment) : Bool :=
  ((e.value? "NO_COLOR").getD "").isEmpty && ((e.value? "STRID_NO_COLOR").getD "").isEmpty &&
    e.value? "FORCE_COLOR" != some "0"

end Environment

end HashedLiterals
