import HashedLiterals.Text.Utf8

/-!
Source maps. A package that is not part of this library says what the mappings are of a text that was
overwritten by edits; the map is its answer together with the text.
-/
set_option autoImplicit false

namespace HashedLiterals

structure Edit where
  start : Nat
  stop : Nat
  text : Bytes
  deriving DecidableEq, Repr

structure SourceMap where
  /-- The name of the generated file, absent for a source without a name. -/
  file : Option String
  sources : List String
  content : String
  names : List String
  mappings : String
  deriving DecidableEq, Repr

namespace SourceMap

structure Generated where
  file : Option String
  sources : List String
  names : List String
  mappings : String

/-- What is relied on from outside: edits overwrite a text one after the other, and then it is mapped, with
a segment for every character, under a file name. -/
abbrev Mapper := Bytes → List Edit → String → Generated

def generate (mapper : Mapper) (text : Bytes) (edits : List Edit) (fileName : String) : SourceMap :=
  let g := mapper text edits fileName
  ⟨g.file, g.sources, Utf8.decode text, g.names, g.mappings⟩

def quoteChar (c : Char) : List Char :=
  match c with
  | '"' => ['\\', '"']
  | '\\' => ['\\', '\\']
  | '\n' => ['\\', 'n']
  | '\r' => ['\\', 'r']
  | '\t' => ['\\', 't']
  | '\x08' => ['\\', 'b']
  | '\x0c' => ['\\', 'f']
  | c =>
    if c.toNat < 0x20 then
      ['\\', 'u', '0', '0', Nat.digitChar (c.toNat / 16), Nat.digitChar (c.toNat % 16)]
    else [c]

def quote (text : String) : List Char := ['"'] ++ text.toList.flatMap quoteChar ++ ['"']

def field (name : String) (value : List Char) : List Char := quote name ++ [':'] ++ value

def array (items : List (List Char)) : List Char := ['['] ++ List.intercalate [','] items ++ [']']

def write (m : SourceMap) : String :=
  let file := match m.file with
    | none => []
    | some name => [field "file" (quote name)]
  let fields := [field "version" ['3']] ++ file ++
    [field "sources" (array (m.sources.map quote)), field "sourcesContent" (array [quote m.content]),
      field "names" (array (m.names.map quote)), field "mappings" (quote m.mappings)]
  String.ofList (['\x7b'] ++ List.intercalate [','] fields ++ ['\x7d'])

end SourceMap

end HashedLiterals
