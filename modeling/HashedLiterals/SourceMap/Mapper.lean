import HashedLiterals.SourceMap

/-!
A mapper. Every generated line has segments that lead from a column to a line and column of the source,
all counted from zero and in bytes: one at each byte taken over, and one on each line of a replacement. In
the text form, numbers are differences in a base 64 code of five bits a digit.
-/
set_option autoImplicit false

namespace HashedLiterals

structure Location where
  line : Nat
  column : Nat
  deriving DecidableEq, Repr

namespace Location

def start : Location := ⟨0, 0⟩

def pass (l : Location) (b : UInt8) : Location :=
  if b = Bytes.newline then ⟨l.line + 1, 0⟩ else ⟨l.line, l.column + 1⟩

def passAll (l : Location) (bytes : Bytes) : Location := bytes.foldl pass l

end Location

structure Segment where
  /-- Column in the generated line. -/
  column : Nat
  source : Location
  deriving DecidableEq, Repr

inductive Chunk where
  | copied (bytes : Bytes)
  | edited (source replacement : Bytes)
  deriving DecidableEq, Repr

/-- What edits make of the text that is left from an offset on. They come in order. -/
def Edit.chunks (text : Bytes) (offset : Nat) : List Edit → List Chunk
  | [] => [.copied text]
  | e :: rest =>
    let behind := text.drop (e.start - offset)
    .copied (text.take (e.start - offset)) ::
      .edited (behind.take (e.stop - e.start)) e.text ::
        chunks (behind.drop (e.stop - e.start)) e.stop rest

namespace Mappings

abbrev Lines := List (List Segment)

def consSegment (s : Segment) : Lines → Lines
  | [] => [[s]]
  | line :: rest => (s :: line) :: rest

def copied (next : Nat → Location → Lines) : Nat → Location → Bytes → Lines
  | column, source, [] => next column source
  | column, source, b :: rest =>
    if b = Bytes.newline then [] :: copied next 0 (source.pass b) rest
    else consSegment ⟨column, source⟩ (copied next (column + 1) (source.pass b) rest)

/-- The rest of a line that began inside an edit; every further line starts with a segment. -/
def edited (next : Nat → Lines) (source : Location) : Nat → Bytes → Lines
  | column, [] => next column
  | column, b :: rest =>
    if b = Bytes.newline then [] :: consSegment ⟨0, source⟩ (edited next source 0 rest)
    else edited next source (column + 1) rest

def trace : Nat → Location → List Chunk → Lines
  | _, _, [] => [[]]
  | column, source, .copied bytes :: rest =>
    copied (fun column source => trace column source rest) column source bytes
  | column, source, .edited bytes replacement :: rest =>
    consSegment ⟨column, source⟩ <|
      edited (fun column => trace column (source.passAll bytes) rest) source column replacement

def lines (chunks : List Chunk) : Lines := trace 0 .start chunks

def alphabet : List Char :=
  "ABCDEFGHIJKLMNOPQRSTUVWXYZabcdefghijklmnopqrstuvwxyz0123456789+/".toList

def digit (n : Nat) : Char := alphabet.getD n 'A'

def digits (n : Nat) : List Char :=
  if n < 32 then [digit n] else digit (32 + n % 32) :: digits (n / 32)

def number (n : Int) : List Char := digits (if n < 0 then 2 * n.natAbs + 1 else 2 * n.natAbs)

/-- A segment as differences: the generated column from the one before it on the line, the index of
the source, always the same, and line and column from the last segment of the map. -/
def writeSegment (column : Nat) (last : Location) (s : Segment) : List Char :=
  number (s.column - column) ++ number 0 ++ number (s.source.line - last.line) ++
    number (s.source.column - last.column)

def writeLine (column : Nat) (last : Location) : List Segment → List (List Char) × Location
  | [] => ([], last)
  | s :: rest =>
    let (texts, final) := writeLine s.column s.source rest
    (writeSegment column last s :: texts, final)

def writeLines (last : Location) : Lines → List (List Char)
  | [] => []
  | line :: rest =>
    let (texts, final) := writeLine 0 last line
    List.intercalate [','] texts :: writeLines final rest

def write (ls : Lines) : String := String.ofList (List.intercalate [';'] (writeLines .start ls))

end Mappings

namespace SourceMap

def lastPart (fileName : String) : String :=
  String.ofList (fileName.toList.reverse.takeWhile fun c => c != '/' && c != '\\').reverse

def Mapper.standard : Mapper := fun text edits fileName =>
  { file := if fileName.isEmpty then none else some (lastPart fileName)
    sources := [lastPart fileName]
    names := []
    mappings := Mappings.write (Mappings.lines (Edit.chunks text 0 edits)) }

end SourceMap

end HashedLiterals
