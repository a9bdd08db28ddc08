import HashedLiterals.Hash

set_option autoImplicit false

namespace HashedLiterals.Literal

/-- The bytes before the first quote that is not escaped, and those behind it. -/
def read : Bytes → Option (Bytes × Bytes)
  | [] => none
  | [b] => if b = Bytes.quote then some ([], []) else none
  | b :: c :: rest =>
    if b = Bytes.quote then some ([], c :: rest)
    else if b = Bytes.backslash then (read rest).map fun (span, after) => (b :: c :: span, after)
    else (read (c :: rest)).map fun (span, after) => (b :: span, after)

theorem eq_of_read {text span after : Bytes} (h : read text = some (span, after)) :
    text = span ++ Bytes.quote :: after := by
  fun_induction read text generalizing span after with
  | case1 => simp at h
  | case2 => simp_all
  | case3 => simp at h
  | case4 => simp_all
  | case5 c rest _ ih =>
    obtain ⟨⟨s, a⟩, hr, he⟩ := Option.map_eq_some_iff.1 h
    simp only [Prod.mk.injEq] at he
    obtain ⟨rfl, rfl⟩ := he
    simp [ih hr]
  | case6 b c rest _ _ ih =>
    obtain ⟨⟨s, a⟩, hr, he⟩ := Option.map_eq_some_iff.1 h
    simp only [Prod.mk.injEq] at he
    obtain ⟨rfl, rfl⟩ := he
    simp [ih hr]

/-- How far an unclosed literal can be read: to the end, or up to a final backslash, which has nothing
to escape. -/
def openLength : Bytes → Nat
  | [] => 0
  | [b] => if b = Bytes.backslash then 0 else 1
  | b :: c :: rest => if b = Bytes.backslash then 2 + openLength rest else 1 + openLength (c :: rest)

def replacement (hash : Int) (span : Bytes) : Bytes :=
  Bytes.ofChars (Hash.constant (Hash.word hash)) ++ Bytes.ofChars " /* \"".toList ++ span ++
    Bytes.ofChars "\" */".toList

end HashedLiterals.Literal
