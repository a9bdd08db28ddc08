set_option autoImplicit false

namespace HashedLiterals.Units

def ofChar (c : Char) : List Nat :=
  if c.toNat < 0x10000 then [c.toNat]
  else [0xd800 + (c.toNat - 0x10000) / 0x400, 0xdc00 + (c.toNat - 0x10000) % 0x400]

def ofText (text : String) : List Nat := text.toList.flatMap ofChar

def count (text : String) : Nat := (ofText text).length

/-- Texts in the order of their units: an astral character stands before U+E000. -/
def le (s t : String) : Bool := !(ofText t).lex (ofText s) Nat.blt

end HashedLiterals.Units
