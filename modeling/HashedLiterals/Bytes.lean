set_option autoImplicit false

namespace HashedLiterals

abbrev Bytes := List UInt8

namespace Bytes

def newline : UInt8 := 0x0a

def carriageReturn : UInt8 := 0x0d

def quote : UInt8 := 0x22

def backslash : UInt8 := 0x5c

def openParen : UInt8 := 0x28

def closeParen : UInt8 := 0x29

def ofChars (text : List Char) : Bytes := text.map fun c => c.toNat.toUInt8

@[simp] theorem ofChars_append (s t : List Char) : ofChars (s ++ t) = ofChars s ++ ofChars t := by
  simp [ofChars]

def isSpace (b : UInt8) : Bool := b == 0x20 || (0x09 ≤ b && b ≤ 0x0d)

def isAlnum (b : UInt8) : Bool :=
  (0x30 ≤ b && b ≤ 0x39) || (0x41 ≤ b && b ≤ 0x5a) || (0x61 ≤ b && b ≤ 0x7a)

def inClass (holds : UInt8 → Bool) (code : Int) : Bool :=
  0 ≤ code && code < 256 && holds code.toNat.toUInt8

def at? (text : Bytes) (i : Int) : Option UInt8 :=
  if i < 0 then none else text[i.toNat]?

/-- A cut position: a negative one counts from the end, and none lies outside the text. -/
def cut (text : Bytes) (i : Int) : Nat :=
  if i < 0 then (text.length + i).toNat else min i.toNat text.length

def slice (text : Bytes) (start stop : Int) : Bytes :=
  (text.take (text.cut stop)).drop (text.cut start)

def low (n : Int) : UInt8 := (n % 256).toNat.toUInt8

end Bytes

end HashedLiterals
