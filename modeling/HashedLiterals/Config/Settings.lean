import HashedLiterals.Config.Value
import HashedLiterals.Hash
import HashedLiterals.Marker
import HashedLiterals.Text.Blank

set_option autoImplicit false

namespace HashedLiterals

structure Settings where
  marker : Option Marker := none
  hash : Option Hash.Algorithm := none
  extensions : Option (List String) := none
  sourceMap : Option Bool := none
  detectCollisions : Option Bool := none
  verbose : Option Bool := none

inductive OptionKey where
  | marker
  | hash
  | extensions
  | sourceMap
  | detectCollisions
  | verbose
  deriving DecidableEq, Repr

namespace OptionKey

def all : List OptionKey := [.marker, .hash, .extensions, .sourceMap, .detectCollisions, .verbose]

def name : OptionKey → String
  | .marker => "marker"
  | .hash => "hash"
  | .extensions => "extensions"
  | .sourceMap => "sourceMap"
  | .detectCollisions => "detectCollisions"
  | .verbose => "verbose"

def ofName? (text : String) : Option OptionKey := all.find? fun k => k.name == text

end OptionKey

structure Thrown where
  kind : String
  message : String
  deriving DecidableEq, Repr

inductive ConfigFault where
  | notAnObject
  | badMarker
  | unknownHash (text : String)
  /-- A value for the hash that is no text. -/
  | hashNotAText (v : Value)
  | badExtensions
  | notABoolean (key : OptionKey)
  | unknownOption (name : String)
  /-- The file that should hold the values could not be read as data. -/
  | unreadable (reason : String)

namespace ConfigFault

def ofHash (text : String) : String := "unknown hash algorithm `" ++ text ++ "`"

def detail (text : Value → Except Thrown String) : ConfigFault → Except Thrown String
  | .notAnObject => .ok "configuration must be an object"
  | .badMarker => .ok "`marker` must contain only ASCII letters and digits"
  | .unknownHash name => .ok (ofHash name)
  | .hashNotAText v => (text v).map ofHash
  | .badExtensions => .ok "`extensions` must be a list of file extensions"
  | .notABoolean key => .ok ("`" ++ key.name ++ "` must be a boolean")
  | .unknownOption name => .ok ("unknown option `" ++ name ++ "`")
  | .unreadable reason => .ok reason

end ConfigFault

structure ConfigError where
  fault : ConfigFault
  origin : String

def ConfigError.message (text : Value → Except Thrown String) (e : ConfigError) : Except Thrown String :=
  (e.fault.detail text).map fun detail => e.origin ++ ": " ++ detail

namespace Settings

def readMarker : Value → Except ConfigFault Marker
  | .text s =>
    match Marker.ofText? s with
    | some m => .ok m
    | none => .error .badMarker
  | _ => .error .badMarker

def readHash : Value → Except ConfigFault Hash.Algorithm
  | .text s =>
    match Hash.Algorithm.ofName? s with
    | some a => .ok a
    | none => .error (.unknownHash s)
  | v => .error (.hashNotAText v)

def readBool (key : OptionKey) : Value → Except ConfigFault Bool
  | .bool b => .ok b
  | .text s =>
    if s = "1" ∨ s = "true" then .ok true
    else if s = "0" ∨ s = "false" ∨ s = "" then .ok false
    else .error (.notABoolean key)
  | _ => .error (.notABoolean key)

/-- An extension without blanks around it and with a dot in front; nothing for an empty one. -/
def extension? (text : String) : Option String :=
  match Blank.trimChars text.toList with
  | [] => none
  | '.' :: rest => some (String.ofList ('.' :: rest))
  | trimmed => some (String.ofList ('.' :: trimmed))

def splitCommas (text : String) : List String := (text.toList.splitOn ',').map String.ofList

def readExtension : Value → Except ConfigFault (Option String)
  | .text s => .ok (extension? s)
  | _ => .error .badExtensions

def readExtensions : Value → Except ConfigFault (List String)
  | .text s => .ok ((splitCommas s).filterMap extension?)
  | .list items => (items.mapM readExtension).map fun found => found.filterMap id
  | _ => .error .badExtensions

def put (s : Settings) (key : OptionKey) (v : Value) : Except ConfigFault Settings :=
  match key with
  | .marker => (readMarker v).map fun m => { s with marker := some m }
  | .hash => (readHash v).map fun a => { s with hash := some a }
  | .extensions => (readExtensions v).map fun e => { s with extensions := some e }
  | .sourceMap => (readBool key v).map fun b => { s with sourceMap := some b }
  | .detectCollisions => (readBool key v).map fun b => { s with detectCollisions := some b }
  | .verbose => (readBool key v).map fun b => { s with verbose := some b }

def putNamed (s : Settings) (name : String) (v : Value) : Except ConfigFault Settings :=
  match OptionKey.ofName? name with
  | some key => s.put key v
  | none => .error (.unknownOption name)

def putAll (s : Settings) : List (String × Option Value) → Except ConfigFault Settings
  | [] => .ok s
  | (_, none) :: rest => s.putAll rest
  | (name, some v) :: rest => (s.putNamed name v).bind fun s => s.putAll rest

def ofFields (fields : List (String × Option Value)) (origin : String) :
    Except ConfigError Settings :=
  (putAll {} fields).mapError fun fault => ⟨fault, origin⟩

/-- The settings that a value describes, which must be an object; an instant is one without fields. -/
def ofValue (v : Value) (origin : String) : Except ConfigError Settings :=
  match v with
  | .object fields => ofFields (Record.listed (fields.map fun (n, v) => (n, some v))) origin
  | .instant _ => .ok {}
  | _ => .error ⟨.notAnObject, origin⟩

def boolField (key : OptionKey) (b : Option Bool) : String × Option Value :=
  (key.name, b.map Value.bool)

def toFields (s : Settings) : List (String × Option Value) :=
  [(OptionKey.marker.name, s.marker.map fun m => .text m.text),
    (OptionKey.hash.name, s.hash.map fun a => .text a.name),
    (OptionKey.extensions.name, s.extensions.map fun e => .list (e.map Value.text)),
    boolField .sourceMap s.sourceMap, boolField .detectCollisions s.detectCollisions,
    boolField .verbose s.verbose]

end Settings

end HashedLiterals
