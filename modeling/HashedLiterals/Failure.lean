import HashedLiterals.Diagnostic.Basic
import HashedLiterals.Registry
import HashedLiterals.Scan

set_option autoImplicit false

namespace HashedLiterals

inductive Cause where
  /-- An error with a message and, mostly, a code. -/
  | error (code : Option String) (message : String)
  /-- Anything else, as a text. -/
  | other (text : String)
  deriving DecidableEq, Repr

namespace Cause

def withoutCode (message : List Char) : List Char :=
  let capitals := message.takeWhile Char.isUpper
  match message.dropWhile Char.isUpper with
  | ':' :: ' ' :: rest => if capitals.isEmpty then message else rest
  | _ => message

def describe : Cause → String
  | .error code message =>
    (code.elim "" fun c => c ++ ": ") ++ String.ofList (withoutCode message.toList)
  | .other text => text

end Cause

structure Site where
  fileName : String
  text : Bytes
  marker : Marker
  start : Int
  body : Int

inductive Failure.Kind where
  | sourceUnreadable
  | notALiteral
  | unterminatedLiteral
  | unclosedInvocation
  | destinationUnwritable
  | hashCollision
  deriving DecidableEq, Repr

structure Failure where
  kind : Failure.Kind
  path : String
  diagnostic : Diagnostic
  /-- Offset of the token of the invocation at fault. -/
  offset : Option Int := none
  /-- The text at fault. -/
  snippet : Option String := none
  deriving DecidableEq, Repr

namespace Failure

open Diagnostic (Draft)

def message (f : Failure) : String := f.path ++ ": " ++ f.diagnostic.message

def ofFile (d : Descriptor) (path : String) (cause : Cause) : Diagnostic :=
  ((((Draft.ofDescriptor d).inFile path).withArguments [("path", some path)]).note
    cause.describe).build

def sourceUnreadable (path : String) (cause : Cause) : Failure :=
  ⟨.sourceUnreadable, path, ofFile .unreadableSource path cause, none, none⟩

def destinationUnwritable (path : String) (cause : Cause) : Failure :=
  ⟨.destinationUnwritable, path, ofFile .unwritableDestination path cause, none, none⟩

/-- The offset where the line around an offset ends, before its line break; an offset before the text
belongs to the first line. -/
def endOfLine (text : Bytes) (offset : Int) : Int :=
  offset.toNat + ((text.drop offset.toNat).takeWhile fun b =>
    b != Bytes.newline && b != Bytes.carriageReturn).length

def ofSpan (s : Site) (d : Descriptor) (start length : Int)
    (arguments : List (String × Option String)) (label : String) : Draft :=
  (((Draft.ofDescriptor d).place ⟨s.fileName, s.text, start, length⟩).withArguments arguments).label
    label

def notALiteral (s : Site) (found : Int) : Failure :=
  let stop := min (found + 1) s.text.length
  let draft := ofSpan s .notALiteral s.start (stop - s.start) [("marker", some s.marker.text)]
    "expected a string literal"
  { kind := .notALiteral
    path := s.fileName
    diagnostic := (draft.help
      ("Wrap the argument in double quotes: " ++ s.marker.text ++ "(\"...\")")).build
    offset := some s.start
    snippet := some (Utf8.decode (s.text.slice s.start (endOfLine s.text stop))) }

def unterminatedLiteral (s : Site) (quote : Int) : Failure :=
  let draft := ofSpan s .unterminatedLiteral quote (endOfLine s.text quote - quote)
    [("marker", some s.marker.text)] "string starts here"
  { kind := .unterminatedLiteral
    path := s.fileName
    diagnostic := (draft.help "Close the string with an unescaped \"").build
    offset := some s.start
    snippet := some (Utf8.decode (s.text.slice (quote + 1) (endOfLine s.text (quote + 1)))) }

def unclosedInvocation (s : Site) (span : Bytes) (found : Int) : Failure :=
  let literal := Utf8.decode span
  let stop := min (found + 1) s.text.length
  let draft := ofSpan s .unclosedInvocation s.start (stop - s.start)
    [("marker", some s.marker.text), ("literal", some literal)] "expected `)`"
  { kind := .unclosedInvocation
    path := s.fileName
    diagnostic := (draft.help "Close the invocation with `)`").build
    offset := some s.start
    snippet := some literal }

def ofFault (s : Site) : Scan.Fault → Failure
  | .notALiteral found => notALiteral s (s.body + found)
  | .unterminated quote => unterminatedLiteral s (s.body + quote)
  | .unclosed span found => unclosedInvocation s span (s.body + found)

def hashCollision (s : Site) (length : Nat) (literal : String) (hash : UInt32) (existing : Entry) :
    Failure :=
  let draft := ofSpan s .hashCollision s.start length
    [("hash", some (String.ofList (Hash.constant hash))), ("literal", some literal),
      ("existing", some existing.literal)] "this string"
  { kind := .hashCollision
    path := s.fileName
    diagnostic := (draft.note ("\"" ++ existing.literal ++ "\" was seen first in " ++
      existing.fileName ++ " at byte " ++ Number.text existing.offset)).build
    offset := some s.start
    snippet := some literal }

end Failure

end HashedLiterals
