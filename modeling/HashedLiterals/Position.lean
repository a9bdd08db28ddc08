import HashedLiterals.Bytes
import HashedLiterals.Number.Shortest

set_option autoImplicit false

namespace HashedLiterals

structure Position where
  line : Nat
  column : Int
  deriving DecidableEq, Repr

namespace Position

def lastLine (text : Bytes) : Bytes := (text.reverse.takeWhile (· != Bytes.newline)).reverse

/-- The start of a line noted last when the scan comes to the end: it notes the offset behind each
newline. -/
def scanStart (offset noted : Nat) : Bytes → Nat
  | [] => noted
  | b :: text => scanStart (offset + 1) (if b = Bytes.newline then offset + 1 else noted) text

def lineStart (text : Bytes) : Nat := scanStart 0 0 text

/-- The column of an offset outside the text, rounded after each step. -/
def roundedColumn (lineStart : Nat) (offset : Int) : Int :=
  Number.nearest (Number.nearest (offset - lineStart) + 1)

def ofOffset (text : Bytes) (offset : Int) : Position :=
  let before := text.take offset.toNat
  ⟨before.count Bytes.newline + 1,
    if 0 ≤ offset ∧ offset ≤ text.length then offset - lineStart before + 1
    else roundedColumn (lineStart before) offset⟩

theorem column_ofOffset {text : Bytes} {offset : Int} (h : 0 ≤ offset ∧ offset ≤ text.length) :
    (ofOffset text offset).column = offset - lineStart (text.take offset.toNat) + 1 :=
  if_pos h

end Position

structure Range where
  start : Int
  stop : Int
  deriving DecidableEq, Repr

namespace Range

def lineAt (text : Bytes) (offset : Int) : Range :=
  let offset := min offset text.length
  let before := text.take offset.toNat
  let after := text.drop offset.toNat
  let start := offset - (Position.lastLine before).length
  let stop := offset.toNat + (after.takeWhile (· != Bytes.newline)).length
  if start < stop ∧ text.at? (stop - 1) = some Bytes.carriageReturn then ⟨start, stop - 1⟩
  else ⟨start, stop⟩

end Range

end HashedLiterals
