import HashedLiterals.Proofs.TextSources
import HashedLiterals.Text.Units
import Mathlib.Algebra.GroupWithZero.Nat

set_option autoImplicit false

namespace HashedLiterals

namespace Utf8

variable {x y : Bytes} {b : UInt8}

theorem low_of_lead? {l : Lead} (h : lead? b = some l) : 0x80 ≤ l.low := by
  have hall : ∀ b : UInt8, (lead? b).all fun l => 0x80 ≤ l.low := by
    intro b
    unfold lead?
    repeat' split
    all_goals rfl
  simpa [h] using hall b

/-- More bytes behind do not matter to a sequence that is complete or broken off; one that waits for
bytes breaks off at an ASCII byte. -/
theorem complete_cases (low high : UInt8) (payload n : Nat) (x : Bytes) (hlow : 0x80 ≤ low) :
    (∀ y, complete low high payload n (x ++ y) =
      ((complete low high payload n x).1, (complete low high payload n x).2 ++ y)) ∨
    complete low high payload n x = (none, []) ∧
      ∀ b y, b < 0x80 → complete low high payload n (x ++ b :: y) = (none, b :: y) := by
  induction n generalizing low high payload x with
  | zero => exact .inl fun y => rfl
  | succ n ih =>
    cases x with
    | nil =>
      refine .inr ⟨rfl, fun b y hb => ?_⟩
      have hno : ¬ low ≤ b := UInt8.not_le.2 (UInt8.lt_of_lt_of_le hb hlow)
      simp [complete, hno]
    | cons c x =>
      simp only [List.cons_append, complete]
      split
      · exact ih 0x80 0xbf _ x (UInt8.le_refl _)
      · exact .inl fun y => rfl

theorem head_cases (b : UInt8) (x : Bytes) :
    (∀ y, head b (x ++ y) = ((head b x).1, (head b x).2 ++ y)) ∨
    head b x = (replacement, []) ∧ ∀ c y, c < 0x80 → head b (x ++ c :: y) = (replacement, c :: y) := by
  cases hl : lead? b with
  | none => exact .inl fun y => by simp [head, hl]
  | some l =>
    obtain h | ⟨h, hcut⟩ := complete_cases l.low l.high l.payload l.more x (low_of_lead? hl)
    · refine .inl fun y => ?_
      simp only [head, hl, h y]
      obtain ⟨code, rest⟩ := complete l.low l.high l.payload l.more x
      cases code <;> rfl
    · refine .inr ⟨by simp [head, hl, h], fun c y hc => ?_⟩
      simp [head, hl, hcut c y hc]

theorem decodeChars_cons (b : UInt8) (x : Bytes) :
    decodeChars (b :: x) = (head b x).1 :: decodeChars (head b x).2 := by rw [decodeChars]

theorem decodeChars_append_of_lt (hb : b < 0x80) (x y : Bytes) :
    decodeChars (x ++ b :: y) = decodeChars x ++ decodeChars (b :: y) := by
  fun_induction decodeChars x with
  | case1 => rfl
  | case2 c x ih =>
    rw [List.cons_append, decodeChars_cons]
    obtain h | ⟨h, hcut⟩ := head_cases c x
    · rw [h, ih, List.cons_append]
    · rw [hcut b y hb, h, decodeChars, List.cons_append, List.nil_append]

theorem decode_append_of_lt (hb : b < 0x80) (x y : Bytes) :
    decode (x ++ b :: y) = decode x ++ decode (b :: y) := by
  rw [decode, decodeChars_append_of_lt hb, String.ofList_append]
  rfl

theorem decodeChars_cons_of_lt (hb : b < 0x80) (x : Bytes) :
    decodeChars (b :: x) = Char.ofNat b.toNat :: decodeChars x := by
  rw [UInt8.lt_iff_toNat_lt] at hb
  have h := head_one (v := b.toNat) (by simp only [UInt8.reduceToNat] at hb; omega) x
  rw [UInt8.ofNat_toNat] at h
  exact decodeChars_of_head h

theorem decodeChars_append_of_ascii (h : ∀ b ∈ x, b < 0x80) (y : Bytes) :
    decodeChars (x ++ y) = (x.map fun b => Char.ofNat b.toNat) ++ decodeChars y := by
  induction x with
  | nil => rfl
  | cons b x ih =>
    rw [List.cons_append, decodeChars_cons_of_lt (h b List.mem_cons_self),
      ih fun c hc => h c (List.mem_cons_of_mem b hc), List.map_cons, List.cons_append]

theorem decode_append_of_ascii (h : ∀ b ∈ x, b < 0x80) (y : Bytes) :
    decode (x ++ y) = decode x ++ decode y := by
  have hx := decodeChars_append_of_ascii h []
  rw [List.append_nil, decodeChars, List.append_nil] at hx
  rw [decode, decodeChars_append_of_ascii h, ← hx, String.ofList_append]
  rfl

theorem payload_le_of_complete {low high : UInt8} {payload n code : Nat} {x rest : Bytes}
    (h : complete low high payload n x = (some code, rest)) : payload * 64 ^ n ≤ code := by
  induction n generalizing low high payload x with
  | zero =>
    obtain ⟨hcode, -⟩ := Prod.mk.inj h
    obtain rfl := Option.some.inj hcode
    simp
  | succ n ih =>
    cases x with
    | nil => cases h
    | cons b x =>
      rw [complete] at h
      split at h
      · calc payload * 64 ^ (n + 1)
          _ = payload * 64 * 64 ^ n := by rw [Nat.pow_succ', Nat.mul_assoc]
          _ ≤ (payload * 64 + (b.toNat - 0x80)) * 64 ^ n := Nat.mul_le_mul_right _ (Nat.le_add_right _ _)
          _ ≤ code := ih h
      · cases h

theorem le_of_complete_succ {low high : UInt8} {payload n code : Nat} {x rest : Bytes}
    (h : complete low high payload (n + 1) x = (some code, rest)) :
    (payload * 64 + (low.toNat - 0x80)) * 64 ^ n ≤ code := by
  cases x with
  | nil => cases h
  | cons b x =>
    rw [complete] at h
    split at h
    · next hb =>
      simp only [Bool.and_eq_true, decide_eq_true_eq, UInt8.le_iff_toNat_le] at hb
      calc (payload * 64 + (low.toNat - 0x80)) * 64 ^ n
        _ ≤ (payload * 64 + (b.toNat - 0x80)) * 64 ^ n := Nat.mul_le_mul_right _ (by omega)
        _ ≤ code := payload_le_of_complete h
    · cases h

theorem lead?_cases {b : UInt8} {l : Lead} (h : lead? b = some l) :
    l.more = 0 ∧ l.payload = b.toNat ∨
      l.more ≠ 0 ∧ 0x80 ≤ (l.payload * 64 + (l.low.toNat - 0x80)) * 64 ^ (l.more - 1) := by
  have hall : ∀ n < 256, ∀ l ∈ lead? (UInt8.ofNat n), l.more = 0 ∧ l.payload = (UInt8.ofNat n).toNat ∨
      l.more ≠ 0 ∧ 0x80 ≤ (l.payload * 64 + (l.low.toNat - 0x80)) * 64 ^ (l.more - 1) := by
    decide +kernel
  have hb := hall b.toNat b.toNat_lt
  rw [UInt8.ofNat_toNat] at hb
  exact hb l h

/-- An ASCII character is read from its own byte only. The null character also stands for what is no
character. -/
theorem toNat_eq_of_head {b : UInt8} {c : Char} {x rest : Bytes} (hpos : 0 < c.toNat) (hlt : c.toNat < 0x80)
    (h : head b x = (c, rest)) : b.toNat = c.toNat := by
  unfold head at h
  split at h
  · obtain rfl := (Prod.mk.inj h).1
    exact absurd hlt (by decide)
  · next l hl =>
    split at h
    · next code after hc =>
      obtain ⟨hchar, -⟩ := Prod.mk.inj h
      have hcode : code = c.toNat := by
        obtain hnat | hnul := toNat_ofNat_cases code
        · rw [← hnat, hchar]
        · rw [hnul] at hchar
          rw [← hchar] at hpos
          exact absurd hpos (by decide)
      obtain ⟨hmore, hpayload⟩ | ⟨hmore, hle⟩ := lead?_cases hl
      · rw [hmore, complete] at hc
        have hsome : l.payload = code := Option.some.inj (Prod.mk.inj hc).1
        exact hpayload.symm.trans (hsome.trans hcode)
      · obtain ⟨n, hn⟩ := Nat.exists_eq_succ_of_ne_zero hmore
        rw [hn] at hc hle
        have hfloor := le_of_complete_succ hc
        rw [Nat.succ_sub_one] at hle
        omega
    · obtain rfl := (Prod.mk.inj h).1
      exact absurd hlt (by decide)

theorem complete_suffix (low high : UInt8) (payload n : Nat) (x : Bytes) :
    (complete low high payload n x).2 <:+ x := by
  induction n generalizing low high payload x with
  | zero => exact List.suffix_rfl
  | succ n ih =>
    cases x with
    | nil => exact List.suffix_rfl
    | cons b x =>
      rw [complete]
      split
      · exact (ih _ _ _ _).trans (List.suffix_cons b x)
      · exact List.suffix_rfl

theorem head_suffix (b : UInt8) (x : Bytes) : (head b x).2 <:+ x := by
  unfold head
  split
  · exact List.suffix_rfl
  · next l _ =>
    have h := complete_suffix l.low l.high l.payload l.more x
    split
    · next hc =>
      rw [hc] at h
      exact h
    · next hc =>
      rw [hc] at h
      exact h

theorem not_mem_decodeChars {c : Char} {x : Bytes} (hpos : 0 < c.toNat) (hlt : c.toNat < 0x80)
    (h : UInt8.ofNat c.toNat ∉ x) : c ∉ decodeChars x := by
  fun_induction decodeChars x with
  | case1 => exact List.not_mem_nil
  | case2 b x ih =>
    rw [List.mem_cons, not_or] at h ⊢
    refine ⟨fun he => h.1 ?_, ih fun hm => h.2 ((head_suffix b x).mem hm)⟩
    rw [← toNat_eq_of_head hpos hlt (Prod.ext he.symm rfl), UInt8.ofNat_toNat]

end Utf8

namespace Units

theorem length_ofChar_pos (c : Char) : 0 < (ofChar c).length := by
  unfold ofChar
  split <;> simp

theorem count_decode (x : Bytes) :
    count (Utf8.decode x) = ((Utf8.decodeChars x).flatMap ofChar).length := by
  rw [count, ofText, Utf8.decode, String.toList_ofList]

theorem count_decode_pos {x : Bytes} (h : x ≠ []) : 0 < count (Utf8.decode x) := by
  obtain ⟨b, x, rfl⟩ := List.exists_cons_of_ne_nil h
  rw [count_decode, Utf8.decodeChars_cons, List.flatMap_cons, List.length_append]
  exact Nat.add_pos_left (length_ofChar_pos _) _

theorem count_decode_le_append (x y : Bytes) :
    count (Utf8.decode x) ≤ count (Utf8.decode (x ++ y)) := by
  simp only [count_decode]
  fun_induction Utf8.decodeChars x with
  | case1 => exact Nat.zero_le _
  | case2 b x ih =>
    rw [List.cons_append, Utf8.decodeChars_cons, List.flatMap_cons, List.flatMap_cons,
      List.length_append, List.length_append]
    obtain h | ⟨h, -⟩ := Utf8.head_cases b x
    · rw [h]
      exact Nat.add_le_add_left ih _
    · -- The part ends inside a sequence: one character, which the whole shows in some way.
      have hone : (ofChar Utf8.replacement).length = 1 := by decide
      have hpos := length_ofChar_pos (Utf8.head b (x ++ y)).1
      rw [h, Utf8.decodeChars, hone]
      simp only [List.flatMap_nil, List.length_nil]
      omega

end Units

namespace Marker

theorem toList_text (m : Marker) : m.text.toList = m.name.map fun b => Char.ofNat b.toNat := by
  have h := Utf8.decodeChars_append_of_ascii (x := m.name)
    (fun b hb => Bytes.lt_of_isAlnum (m.isAlnum_of_mem b hb)) []
  rw [List.append_nil, Utf8.decodeChars, List.append_nil] at h
  rw [text, Utf8.decode, String.toList_ofList, h]

theorem lt_of_mem_token {m : Marker} {b : UInt8} (h : b ∈ m.token) : b < 0x80 := by
  obtain h | rfl := isAlnum_or_of_mem_token h
  · exact Bytes.lt_of_isAlnum h
  · decide

theorem decode_token (m : Marker) : Utf8.decode m.token = m.text ++ "(" := by
  have hparen : Utf8.decode [Bytes.openParen] = "(" := by decide +kernel
  rw [token, Utf8.decode_append_of_lt (by decide), hparen, text]

end Marker

end HashedLiterals
