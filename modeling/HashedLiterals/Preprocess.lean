import HashedLiterals.Failure
import HashedLiterals.SourceMap.Mapper

/-!
Preprocessing a source: every invocation is replaced by the hash of its literal, and everything else
is kept. A source with a malformed invocation, or with a literal that collides with another one, is
refused as a whole and leaves no trace in the registry.
-/
set_option autoImplicit false

namespace HashedLiterals

/-- An invocation: the bytes from `start` up to `stop`, its literal, and the literal's hash. -/
structure Invocation where
  start : Nat
  stop : Nat
  span : Bytes
  hash : UInt32
  deriving DecidableEq, Repr

namespace Invocation

def literal (i : Invocation) : String := Utf8.decode i.span

def replacement (i : Invocation) : Bytes := Literal.replacement i.hash.toNat i.span

def replacementText (i : Invocation) : String := Utf8.decode i.replacement

def edit (i : Invocation) : Edit := ⟨i.start, i.stop, i.replacement⟩

def ofPieces (hash : HashFunction) (offset : Nat) : List Scan.Piece → List Invocation
  | [] => []
  | p :: rest =>
    let start := offset + p.gap.length
    let stop := start + p.source.length
    ⟨start, stop, p.span, Hash.word (hash p.span)⟩ :: ofPieces hash stop rest

def entry (fileName : String) (i : Invocation) : Entry := ⟨i.hash.toNat, i.literal, fileName, i.start⟩

end Invocation

namespace Preprocess

structure Options where
  marker : Marker := .default
  hash : HashFunction := Hash.Algorithm.djb2.function
  fileName : String := "<input>"
  sourceMap : Bool := false
  mapper : SourceMap.Mapper := .standard

structure Success where
  changed : Bool
  output : Bytes
  map : Option SourceMap
  invocations : List Invocation
  deriving DecidableEq, Repr

def Success.code (s : Success) : String := Utf8.decode s.output

def output (hash : HashFunction) (s : Scan.Scanned) : Bytes :=
  (s.pieces.flatMap fun p => p.gap ++ Literal.replacement (hash p.span) p.span) ++ s.tail

def faultOffset (s : Scan.Scanned) : Nat :=
  s.pieces.foldr (fun p n => p.gap.length + p.source.length + n) s.tail.length

/-- An earlier entry of the same source or of the registry with this hash and another literal. The
same source comes first. -/
def earlier? (registry : Registry) (seen : List Entry) (hash : Int) (literal : String) :
    Option Entry :=
  (seen.find? fun e => e.hash == hash && e.literal != literal).or (registry.clash? hash literal)

def firstCollision? (registry : Registry) (fileName : String) (seen : List Entry) :
    List Invocation → Option (Invocation × Entry)
  | [] => none
  | i :: rest =>
    match earlier? registry seen i.hash.toNat i.literal with
    | some existing => some (i, existing)
    | none => firstCollision? registry fileName (seen ++ [i.entry fileName]) rest

def site (o : Options) (input : Bytes) (start : Nat) : Site :=
  ⟨o.fileName, input, o.marker, start, start + o.marker.token.length⟩

def failure? (o : Options) (registry : Option Registry) (input : Bytes) (s : Scan.Scanned) :
    Option Failure :=
  let invocations := Invocation.ofPieces o.hash 0 s.pieces
  let collision := registry.bind fun r => firstCollision? r o.fileName [] invocations
  match collision, s.fault with
  | some (i, existing), _ =>
    some (.hashCollision (site o input i.start) (i.stop - i.start) i.literal i.hash existing)
  | none, some fault => some (.ofFault (site o input (faultOffset s)) fault)
  | none, none => none

def success (o : Options) (input : Bytes) (s : Scan.Scanned) : Success :=
  let invocations := Invocation.ofPieces o.hash 0 s.pieces
  { changed := !s.pieces.isEmpty
    output := output o.hash s
    map := if o.sourceMap && !s.pieces.isEmpty then
        some (.generate o.mapper input (invocations.map Invocation.edit) o.fileName)
      else none
    invocations }

/-- Preprocesses a source. With a registry, collisions are looked for, and the entries of a source
that passes are recorded. -/
def run (o : Options) (registry : Option Registry) (input : Bytes) :
    Except Failure Success × Option Registry :=
  let scanned := Scan.scan o.marker input
  match failure? o registry input scanned with
  | some failure => (.error failure, registry)
  | none =>
    let result := success o input scanned
    (.ok result, registry.map fun r => r.recordAll (result.invocations.map (·.entry o.fileName)))

inductive Source where
  | bytes (content : Bytes)
  | text (content : String)
  deriving DecidableEq, Repr

def Source.toBytes : Source → Bytes
  | .bytes content => content
  | .text content => Utf8.encode content

/-- The output as a text. A text that is not changed is given back as it came. -/
def Source.code (source : Source) (s : Success) : String :=
  match source with
  | .bytes _ => s.code
  | .text content => if s.changed then s.code else content

def runSource (o : Options) (registry : Option Registry) (source : Source) :
    Except Failure (Success × String) × Option Registry :=
  let (result, registry) := run o registry source.toBytes
  (result.map fun s => (s, source.code s), registry)

end Preprocess

end HashedLiterals
