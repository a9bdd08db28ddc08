import HashedLiterals.Bytes
import HashedLiterals.Diagnostic.Catalog
import HashedLiterals.Record

set_option autoImplicit false

namespace HashedLiterals

namespace Template

def replaceAll (pattern value : List Char) : List Char → List Char
  | [] => []
  | c :: rest =>
    if pattern.isPrefixOf (c :: rest) then
      value ++ replaceAll pattern value (rest.drop (pattern.length - 1))
    else c :: replaceAll pattern value rest
termination_by text => text.length
decreasing_by all_goals simp only [List.length_drop, List.length_cons]; omega

def hole (name : String) : List Char := ['\x7b'] ++ name.toList ++ ['\x7d']

/-- Fills the holes for one argument after another; a hole inside an earlier argument's value is
filled as well. -/
def fill (template : String) (arguments : List (String × String)) : String :=
  String.ofList <|
    arguments.foldl (fun text (name, value) => replaceAll (hole name) value.toList text)
      template.toList

end Template

structure Span where
  fileName : String
  text : Bytes
  start : Int
  length : Int
  deriving DecidableEq, Repr

structure Diagnostic where
  descriptor : Descriptor
  message : String
  fileName : Option String
  span : Option Span
  label : Option String
  notes : List String
  help : Option String
  deriving DecidableEq, Repr

namespace Diagnostic

structure Draft where
  diagnostic : Diagnostic
  arguments : Record String

namespace Draft

def ofDescriptor (d : Descriptor) : Draft := ⟨⟨d, d.template, none, none, none, [], none⟩, .empty⟩

def place (d : Draft) (span : Span) : Draft :=
  { d with diagnostic :=
      { d.diagnostic with span := some span, fileName := some span.fileName } }

def inFile (d : Draft) (fileName : String) : Draft :=
  { d with diagnostic := { d.diagnostic with fileName := some fileName } }

def reservedName : String := "__proto__"

def withArguments (d : Draft) (arguments : List (String × Option String)) : Draft :=
  let named := arguments.filter fun (name, _) => name != reservedName
  let given := named.filterMap fun (name, value) => value.map fun text => (name, text)
  { d with arguments := given.foldl (fun r (name, text) => r.set name text) d.arguments }

def label (d : Draft) (text : String) : Draft :=
  { d with diagnostic := { d.diagnostic with label := some text } }

def note (d : Draft) (text : String) : Draft :=
  { d with diagnostic := { d.diagnostic with notes := d.diagnostic.notes ++ [text] } }

def help (d : Draft) (text : String) : Draft :=
  { d with diagnostic := { d.diagnostic with help := some text } }

def build (d : Draft) : Diagnostic :=
  { d.diagnostic with
    message := Template.fill d.diagnostic.descriptor.template d.arguments.toList }

end Draft

end Diagnostic

end HashedLiterals
