import HashedLiterals.Scan

set_option autoImplicit false

namespace HashedLiterals

namespace Literal

/-- The bytes of a literal: plain ones, and escapes of two bytes each. -/
inductive IsSpan : Bytes → Prop where
  | nil : IsSpan []
  | plain {b : UInt8} {rest : Bytes} :
      b ≠ Bytes.quote → b ≠ Bytes.backslash → IsSpan rest → IsSpan (b :: rest)
  | escape (b : UInt8) {rest : Bytes} : IsSpan rest → IsSpan (Bytes.backslash :: b :: rest)

variable {b : UInt8} {text span after : Bytes}

theorem read_quote (after : Bytes) : read (Bytes.quote :: after) = some ([], after) := by
  cases after <;> simp [read]

theorem read_plain (hq : b ≠ Bytes.quote) (hb : b ≠ Bytes.backslash) (text : Bytes) :
    read (b :: text) = (read text).map fun (span, after) => (b :: span, after) := by
  cases text <;> simp [read, hq, hb]

theorem read_escape (b : UInt8) (text : Bytes) :
    read (Bytes.backslash :: b :: text) =
      (read text).map fun (span, after) => (Bytes.backslash :: b :: span, after) := by
  simp [read, show Bytes.backslash ≠ Bytes.quote by decide]

theorem IsSpan.read (h : IsSpan span) (after : Bytes) :
    read (span ++ Bytes.quote :: after) = some (span, after) := by
  induction h with
  | nil => exact read_quote after
  | plain hq hb _ ih => simp [read_plain hq hb, ih]
  | escape b _ ih => simp [read_escape, ih]

theorem isSpan_of_read (h : read text = some (span, after)) : IsSpan span := by
  fun_induction read text generalizing span after with
  | case1 => simp at h
  | case2 =>
    simp only [Option.some.injEq, Prod.mk.injEq] at h
    exact h.1 ▸ .nil
  | case3 => simp at h
  | case4 =>
    simp only [Option.some.injEq, Prod.mk.injEq] at h
    exact h.1 ▸ .nil
  | case5 c rest _ ih =>
    obtain ⟨⟨s, a⟩, hr, he⟩ := Option.map_eq_some_iff.1 h
    simp only [Prod.mk.injEq] at he
    exact he.1 ▸ .escape c (ih hr)
  | case6 b c rest hq hb ih =>
    obtain ⟨⟨s, a⟩, hr, he⟩ := Option.map_eq_some_iff.1 h
    simp only [Prod.mk.injEq] at he
    exact he.1 ▸ .plain hq hb (ih hr)

theorem read_eq_some_iff :
    read text = some (span, after) ↔ IsSpan span ∧ text = span ++ Bytes.quote :: after :=
  ⟨fun h => ⟨isSpan_of_read h, eq_of_read h⟩, fun ⟨hs, ht⟩ => ht ▸ hs.read after⟩

theorem read_eq_none_iff :
    read text = none ↔ ∀ span after, IsSpan span → text ≠ span ++ Bytes.quote :: after := by
  constructor
  · intro h span after hs ht
    rw [ht, hs.read] at h
    simp at h
  · intro h
    cases hr : read text with
    | none => rfl
    | some found => exact absurd (eq_of_read hr) (h found.1 found.2 (isSpan_of_read hr))

instance (span : Bytes) : Decidable (IsSpan span) :=
  decidable_of_iff (read (span ++ [Bytes.quote]) = some (span, [])) <| by
    simp [read_eq_some_iff]

end Literal

namespace Scan

/-- What stands behind the token of an invocation: white space, the literal in quotes, white space and
the closing parenthesis. -/
def IsBody (body span : Bytes) : Prop :=
  ∃ before after : Bytes, (∀ b ∈ before, Bytes.isSpace b = true) ∧
    (∀ b ∈ after, Bytes.isSpace b = true) ∧ Literal.IsSpan span ∧
    body = before ++ Bytes.quote :: (span ++ Bytes.quote :: (after ++ [Bytes.closeParen]))

/-- Behind white space there is the end, or something other than a quote. -/
def NoLiteral (input : Bytes) : Prop := (input.dropWhile Bytes.isSpace).head? ≠ some Bytes.quote

/-- A quote is opened behind white space, and no quote that is not escaped follows it. -/
def OpenLiteral (input : Bytes) : Prop :=
  ∃ inner, input.dropWhile Bytes.isSpace = Bytes.quote :: inner ∧
    ∀ span after, Literal.IsSpan span → inner ≠ span ++ Bytes.quote :: after

def OpenInvocation (input : Bytes) : Prop :=
  ∃ span after, Literal.IsSpan span ∧
    input.dropWhile Bytes.isSpace = Bytes.quote :: (span ++ Bytes.quote :: after) ∧
    (after.dropWhile Bytes.isSpace).head? ≠ some Bytes.closeParen

variable {input inner body span after rest : Bytes}

theorem dropWhile_isSpace_append {blank : Bytes} {b : UInt8} (h : ∀ c ∈ blank, Bytes.isSpace c = true)
    (hb : Bytes.isSpace b = false) (rest : Bytes) :
    (blank ++ b :: rest).dropWhile Bytes.isSpace = b :: rest := by
  rw [List.dropWhile_append_of_pos h, List.dropWhile_cons_of_neg (by simp [hb])]

theorem length_takeWhile_isSpace_append {blank : Bytes} {b : UInt8}
    (h : ∀ c ∈ blank, Bytes.isSpace c = true) (hb : Bytes.isSpace b = false) (rest : Bytes) :
    ((blank ++ b :: rest).takeWhile Bytes.isSpace).length = blank.length := by
  rw [List.takeWhile_append_of_pos h, List.takeWhile_cons_of_neg (by simp [hb]), List.append_nil]

theorem exists_blank_append (h : input.dropWhile Bytes.isSpace = rest) :
    ∃ blank : Bytes, (∀ b ∈ blank, Bytes.isSpace b = true) ∧ input = blank ++ rest :=
  ⟨input.takeWhile Bytes.isSpace, List.all_eq_true.1 List.all_takeWhile, by
    rw [← h, List.takeWhile_append_dropWhile]⟩

theorem drop_length_takeWhile (p : UInt8 → Bool) (input : Bytes) :
    input.drop (input.takeWhile p).length = input.dropWhile p :=
  calc input.drop (input.takeWhile p).length
      = (input.takeWhile p ++ input.dropWhile p).drop (input.takeWhile p).length := by
        rw [List.takeWhile_append_dropWhile]
    _ = input.dropWhile p := List.drop_left

theorem length_takeWhile_of_dropWhile {p : UInt8 → Bool} (h : input.dropWhile p = rest) :
    (input.takeWhile p).length + rest.length = input.length := by
  rw [← h, ← List.length_append, List.takeWhile_append_dropWhile]

theorem readClose_of_closeParen {blank : Bytes} (h : ∀ c ∈ blank, Bytes.isSpace c = true)
    (span rest : Bytes) (offset : Nat) :
    readClose span offset (blank ++ Bytes.closeParen :: rest) =
      .ok ⟨span, offset + blank.length + 1, rest⟩ := by
  have hc : Bytes.isSpace Bytes.closeParen = false := by decide
  simp only [readClose, dropWhile_isSpace_append h hc, length_takeWhile_isSpace_append h hc, if_true]

theorem readClose_of_not (h : (after.dropWhile Bytes.isSpace).head? ≠ some Bytes.closeParen)
    (span : Bytes) (offset : Nat) :
    readClose span offset after =
      .error (.unclosed span (offset + (after.takeWhile Bytes.isSpace).length)) := by
  unfold readClose
  split
  · rfl
  · next b rest hd =>
    rw [hd, List.head?_cons, ne_eq, Option.some.injEq] at h
    rw [if_neg h]

theorem readBody_of_noLiteral (h : NoLiteral input) :
    readBody input = .error (.notALiteral (input.takeWhile Bytes.isSpace).length) := by
  unfold readBody
  split
  · rfl
  · next b inner hd =>
    rw [NoLiteral, hd, List.head?_cons, ne_eq, Option.some.injEq] at h
    rw [if_neg h]

theorem readBody_of_quote (h : input.dropWhile Bytes.isSpace = Bytes.quote :: inner) :
    readBody input =
      match Literal.read inner with
      | none => .error (.unterminated (input.takeWhile Bytes.isSpace).length)
      | some (span, after) =>
        readClose span ((input.takeWhile Bytes.isSpace).length + span.length + 2) after := by
  cases hr : Literal.read inner with
  | none => simp [readBody, h, hr]
  | some r => simp [readBody, h, hr]

theorem readBody_of_openLiteral (h : OpenLiteral input) :
    readBody input = .error (.unterminated (input.takeWhile Bytes.isSpace).length) := by
  obtain ⟨inner, hd, hno⟩ := h
  rw [readBody_of_quote hd, Literal.read_eq_none_iff.2 hno]

theorem readBody_of_openInvocation (h : OpenInvocation input) :
    ∃ span found, found ≤ input.length ∧ readBody input = .error (.unclosed span found) := by
  obtain ⟨span, after, hs, hd, hc⟩ := h
  refine ⟨span, _, ?_, by rw [readBody_of_quote hd, hs.read]; exact readClose_of_not hc _ _⟩
  have hi := length_takeWhile_of_dropWhile hd
  have ha : (after.takeWhile Bytes.isSpace).length + (after.dropWhile Bytes.isSpace).length =
      after.length := length_takeWhile_of_dropWhile rfl
  simp only [List.length_cons, List.length_append] at hi
  omega

theorem readBody_of_isBody (h : IsBody body span) (rest : Bytes) :
    readBody (body ++ rest) = .ok ⟨span, body.length, rest⟩ := by
  obtain ⟨blank, last, hb, hl, hs, rfl⟩ := h
  have hq : Bytes.isSpace Bytes.quote = false := by decide
  have hi : blank ++ Bytes.quote :: (span ++ Bytes.quote :: (last ++ [Bytes.closeParen])) ++ rest =
      blank ++ Bytes.quote :: (span ++ Bytes.quote :: (last ++ Bytes.closeParen :: rest)) := by simp
  rw [hi, readBody_of_quote (dropWhile_isSpace_append hb hq _), hs.read,
    length_takeWhile_isSpace_append hb hq]
  simp only [readClose_of_closeParen hl]
  simp
  omega

/-- One of the four conditions holds of any text. -/
theorem body_cases (input : Bytes) :
    NoLiteral input ∨ OpenLiteral input ∨ OpenInvocation input ∨
      ∃ body span rest, IsBody body span ∧ input = body ++ rest := by
  by_cases hq : (input.dropWhile Bytes.isSpace).head? = some Bytes.quote
  · obtain ⟨inner, hd⟩ := List.head?_eq_some_iff.1 hq
    cases hr : Literal.read inner with
    | none => exact .inr (.inl ⟨inner, hd, Literal.read_eq_none_iff.1 hr⟩)
    | some found =>
      obtain ⟨span, after⟩ := found
      obtain ⟨hs, rfl⟩ := Literal.read_eq_some_iff.1 hr
      by_cases hc : (after.dropWhile Bytes.isSpace).head? = some Bytes.closeParen
      · obtain ⟨rest, ha⟩ := List.head?_eq_some_iff.1 hc
        obtain ⟨blank, hb, hi⟩ := exists_blank_append hd
        obtain ⟨last, hl, hr⟩ := exists_blank_append ha
        exact .inr (.inr (.inr ⟨_, span, rest, ⟨blank, last, hb, hl, hs, rfl⟩, by simp [hi, hr]⟩))
      · exact .inr (.inr (.inl ⟨span, after, hs, hd, hc⟩))
  · exact .inl hq

theorem isBody_of_readBody {b : Body} (h : readBody input = .ok b) :
    ∃ body, IsBody body b.span ∧ b.length = body.length ∧ input = body ++ b.rest := by
  obtain hc | hc | hc | ⟨body, span, rest, hb, rfl⟩ := body_cases input
  · rw [readBody_of_noLiteral hc] at h
    simp at h
  · rw [readBody_of_openLiteral hc] at h
    simp at h
  · obtain ⟨span, found, -, hr⟩ := readBody_of_openInvocation hc
    rw [hr] at h
    simp at h
  · rw [readBody_of_isBody hb, Except.ok.injEq] at h
    subst h
    exact ⟨body, hb, rfl, rfl⟩

end Scan

end HashedLiterals
