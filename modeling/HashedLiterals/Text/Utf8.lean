import HashedLiterals.Bytes

set_option autoImplicit false

namespace HashedLiterals.Utf8

def encode (text : String) : Bytes := text.toList.flatMap String.utf8EncodeChar

/-- What a lead byte announces: its payload, the number of bytes to follow, and the bounds of the
first of them. The bounds keep out overlong forms, surrogates and codes above U+10FFFF. -/
structure Lead where
  payload : Nat
  more : Nat
  low : UInt8 := 0x80
  high : UInt8 := 0xbf
  deriving DecidableEq, Repr

def lead? (b : UInt8) : Option Lead :=
  if b ≤ 0x7f then some ⟨b.toNat, 0, 0x80, 0xbf⟩
  else if 0xc2 ≤ b && b ≤ 0xdf then some ⟨b.toNat - 0xc0, 1, 0x80, 0xbf⟩
  else if b == 0xe0 then some ⟨0, 2, 0xa0, 0xbf⟩
  else if b == 0xed then some ⟨0xd, 2, 0x80, 0x9f⟩
  else if 0xe1 ≤ b && b ≤ 0xef then some ⟨b.toNat - 0xe0, 2, 0x80, 0xbf⟩
  else if b == 0xf0 then some ⟨0, 3, 0x90, 0xbf⟩
  else if 0xf1 ≤ b && b ≤ 0xf3 then some ⟨b.toNat - 0xf0, 3, 0x80, 0xbf⟩
  else if b == 0xf4 then some ⟨4, 3, 0x80, 0x8f⟩
  else none

def complete (low high : UInt8) (payload : Nat) : Nat → Bytes → Option Nat × Bytes
  | 0, rest => (some payload, rest)
  | _ + 1, [] => (none, [])
  | n + 1, b :: rest =>
    if low ≤ b && b ≤ high then complete 0x80 0xbf (payload * 64 + (b.toNat - 0x80)) n rest
    else (none, b :: rest)

theorem complete_length_le (low high : UInt8) (payload n : Nat) (bytes : Bytes) :
    (complete low high payload n bytes).2.length ≤ bytes.length := by
  induction n generalizing low high payload bytes with
  | zero => simp [complete]
  | succ n ih =>
    cases bytes with
    | nil => simp [complete]
    | cons b rest =>
      simp only [complete]
      split
      · exact Nat.le_succ_of_le (ih _ _ _ _)
      · simp

def replacement : Char := '\ufffd'

def head (b : UInt8) (rest : Bytes) : Char × Bytes :=
  match lead? b with
  | none => (replacement, rest)
  | some l =>
    match complete l.low l.high l.payload l.more rest with
    | (some code, rest) => (Char.ofNat code, rest)
    | (none, rest) => (replacement, rest)

theorem head_length_le (b : UInt8) (rest : Bytes) : (head b rest).2.length ≤ rest.length := by
  unfold head
  split
  · exact Nat.le_refl _
  · next l _ =>
    have h := complete_length_le l.low l.high l.payload l.more rest
    split <;> simp_all

def decodeChars : Bytes → List Char
  | [] => []
  | b :: rest => (head b rest).1 :: decodeChars (head b rest).2
termination_by bytes => bytes.length
decreasing_by
  have := head_length_le b rest
  simp only [List.length_cons]
  omega

def decode (bytes : Bytes) : String := String.ofList (decodeChars bytes)

@[simp] theorem encode_empty : encode "" = [] := by simp [encode]

@[simp] theorem encode_append (s t : String) : encode (s ++ t) = encode s ++ encode t := by
  simp [encode]

end HashedLiterals.Utf8
