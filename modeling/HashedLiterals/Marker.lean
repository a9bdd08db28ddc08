import HashedLiterals.Text.Utf8

set_option autoImplicit false

namespace HashedLiterals

structure Marker where
  name : Bytes
  name_ne_nil : name ≠ []
  isAlnum_of_mem : ∀ b ∈ name, Bytes.isAlnum b = true

namespace Marker

def ofText? (text : String) : Option Marker :=
  let name := Utf8.encode text
  if h : name ≠ [] ∧ name.all Bytes.isAlnum then some ⟨name, h.1, List.all_eq_true.1 h.2⟩ else none

def isValid (text : String) : Bool := (ofText? text).isSome

def refusal (text : String) : String :=
  "Invalid marker \"" ++ text ++ "\": only ASCII letters and digits are allowed"

def text (m : Marker) : String := Utf8.decode m.name

def token (m : Marker) : Bytes := m.name ++ [Bytes.openParen]

@[simp] theorem length_token (m : Marker) : m.token.length = m.name.length + 1 := by simp [token]

def default : Marker := ⟨[0x53, 0x49, 0x44], List.cons_ne_nil _ _, List.all_eq_true.1 rfl⟩

end Marker

end HashedLiterals
