import HashedLiterals.Text.Utf8

set_option autoImplicit false

namespace HashedLiterals.Utf8

theorem toNat_ofNat_cases (n : Nat) : (Char.ofNat n).toNat = n ∨ Char.ofNat n = '\x00' := by
  by_cases h : n.isValidChar
  · have hchar : Char.ofNat n = Char.ofNatAux n h := dif_pos h
    rw [hchar]
    exact .inl rfl
  · exact .inr (dif_neg h)

theorem lead?_one {n : Nat} (h : n < 0x80) : lead? (UInt8.ofNat n) = some ⟨n, 0, 0x80, 0xbf⟩ := by
  revert n
  decide

theorem lead?_two {n : Nat} (h : n < 32) (hn : 2 ≤ n) :
    lead? (UInt8.ofNat (n + 0xc0)) = some ⟨n, 1, 0x80, 0xbf⟩ := by
  revert n
  decide

/-- The bounds of the second byte keep out overlong forms and surrogates. -/
theorem lead?_three {n : Nat} (h : n < 16) :
    lead? (UInt8.ofNat (n + 0xe0)) =
      some ⟨n, 2, if n = 0 then 0xa0 else 0x80, if n = 0xd then 0x9f else 0xbf⟩ := by
  revert n
  decide

/-- The bounds of the second byte keep out overlong forms and codes above U+10FFFF. -/
theorem lead?_four {n : Nat} (h : n < 5) :
    lead? (UInt8.ofNat (n + 0xf0)) =
      some ⟨n, 3, if n = 0 then 0x90 else 0x80, if n = 4 then 0x8f else 0xbf⟩ := by
  revert n
  decide

theorem complete_cons {low high : UInt8} {k : Nat} (hk : k < 64) (hl : low.toNat ≤ k + 0x80)
    (hh : k + 0x80 ≤ high.toNat) (payload n : Nat) (rest : Bytes) :
    complete low high payload (n + 1) (UInt8.ofNat (k + 0x80) :: rest) =
      complete 0x80 0xbf (payload * 64 + k) n rest := by
  have hb : (UInt8.ofNat (k + 0x80)).toNat = k + 0x80 := by simp; omega
  rw [complete, if_pos, hb, Nat.add_sub_cancel]
  simp only [Bool.and_eq_true, decide_eq_true_eq, UInt8.le_iff_toNat_le, hb]
  exact ⟨hl, hh⟩

theorem head_of_complete {b : UInt8} {l : Lead} {more rest : Bytes} {code : Nat}
    (hl : lead? b = some l) (hc : complete l.low l.high l.payload l.more more = (some code, rest)) :
    head b more = (Char.ofNat code, rest) := by
  simp [head, hl, hc]

theorem head_one {v : Nat} (h : v ≤ 0x7f) (rest : Bytes) :
    head (UInt8.ofNat v) rest = (Char.ofNat v, rest) :=
  head_of_complete (lead?_one (by omega)) rfl

theorem head_two {v : Nat} (h : 0x7f < v) (h' : v ≤ 0x7ff) (rest : Bytes) :
    head (UInt8.ofNat (v / 64 % 0x20 + 0xc0)) (UInt8.ofNat (v % 0x40 + 0x80) :: rest) =
      (Char.ofNat v, rest) := by
  refine head_of_complete (lead?_two (by omega) (by omega)) ?_
  rw [complete_cons (by omega) (by simp) (by simp; omega), complete]
  have hv : v / 64 % 0x20 * 64 + v % 0x40 = v := by omega
  rw [hv]

theorem head_three {v : Nat} (h : 0x7ff < v) (h' : v ≤ 0xffff) (hs : v < 0xd800 ∨ 0xdfff < v)
    (rest : Bytes) :
    head (UInt8.ofNat (v / 4096 % 0x10 + 0xe0))
      (UInt8.ofNat (v / 64 % 0x40 + 0x80) :: UInt8.ofNat (v % 0x40 + 0x80) :: rest) =
      (Char.ofNat v, rest) := by
  refine head_of_complete (lead?_three (by omega)) ?_
  rw [complete_cons (by omega), complete_cons (by omega) (by simp) (by simp; omega), complete]
  · have hv : (v / 4096 % 0x10 * 64 + v / 64 % 0x40) * 64 + v % 0x40 = v := by omega
    rw [hv]
  · dsimp only
    split <;> simp
    omega
  · dsimp only
    split <;> simp <;> omega

theorem head_four {v : Nat} (h : 0xffff < v) (h' : v < 0x110000) (rest : Bytes) :
    head (UInt8.ofNat (v / 262144 % 0x08 + 0xf0))
      (UInt8.ofNat (v / 4096 % 0x40 + 0x80) :: UInt8.ofNat (v / 64 % 0x40 + 0x80) ::
        UInt8.ofNat (v % 0x40 + 0x80) :: rest) = (Char.ofNat v, rest) := by
  refine head_of_complete (lead?_four (by omega)) ?_
  rw [complete_cons (by omega), complete_cons (by omega) (by simp) (by simp; omega),
    complete_cons (by omega) (by simp) (by simp; omega), complete]
  · have hv : ((v / 262144 % 0x08 * 64 + v / 4096 % 0x40) * 64 + v / 64 % 0x40) * 64 + v % 0x40 = v := by
      omega
    rw [hv]
  · dsimp only
    split <;> simp
    omega
  · dsimp only
    split <;> simp <;> omega

theorem decodeChars_of_head {b : UInt8} {more rest : Bytes} {c : Char} (h : head b more = (c, rest)) :
    decodeChars (b :: more) = c :: decodeChars rest := by
  rw [decodeChars, h]

theorem decodeChars_utf8EncodeChar (c : Char) (rest : Bytes) :
    decodeChars (String.utf8EncodeChar c ++ rest) = c :: decodeChars rest := by
  have hv : c.val.toNat < 0xd800 ∨ 0xdfff < c.val.toNat ∧ c.val.toNat < 0x110000 := c.valid
  have hc : Char.ofNat c.val.toNat = c := Char.ofNat_toNat c
  simp only [String.utf8EncodeChar]
  generalize c.val.toNat = v at hv hc ⊢
  subst hc
  split
  · next h₁ => exact decodeChars_of_head (head_one h₁ rest)
  · split
    · next h₁ h₂ => exact decodeChars_of_head (head_two (by omega) h₂ rest)
    · split
      · next h₁ h₂ h₃ =>
        exact decodeChars_of_head (head_three (by omega) h₃ (hv.imp_right And.left) rest)
      · next h₁ h₂ h₃ => exact decodeChars_of_head (head_four (by omega) (by omega) rest)

theorem decodeChars_flatMap (text : List Char) :
    decodeChars (text.flatMap String.utf8EncodeChar) = text := by
  induction text with
  | nil => simp [decodeChars]
  | cons c text ih => rw [List.flatMap_cons, decodeChars_utf8EncodeChar, ih]

@[simp] theorem decode_encode (text : String) : decode (encode text) = text := by
  rw [decode, encode, decodeChars_flatMap, String.ofList_toList]

theorem eq_of_decode_eq {x y : Bytes} (hx : ∃ s, encode s = x) (hy : ∃ t, encode t = y)
    (h : decode x = decode y) : x = y := by
  obtain ⟨s, rfl⟩ := hx
  obtain ⟨t, rfl⟩ := hy
  rw [decode_encode, decode_encode] at h
  rw [h]

end HashedLiterals.Utf8
