import HashedLiterals.Proofs.Texts

/-!
Texts as sources. The scanner looks at bytes and knows nothing of characters, but it cuts only next to
ASCII bytes, and such a byte is always a character of its own. Main statement: a text and its UTF-8
bytes are preprocessed alike, and whatever is read from the result is written back without loss.
-/
set_option autoImplicit false

namespace HashedLiterals

open Scan (Piece IsInvocation bytes)

theorem Bytes.lt_of_isAlnum {b : UInt8} (h : isAlnum b = true) : b < 0x80 := by
  simp only [isAlnum, Bool.or_eq_true, Bool.and_eq_true, decide_eq_true_eq, UInt8.le_iff_toNat_le,
    UInt8.lt_iff_toNat_lt, UInt8.reduceToNat] at h ⊢
  omega

namespace Utf8

/-- The bytes spell a text. -/
def WellFormed (b : Bytes) : Prop := ∃ text, encode text = b

variable {x y : Bytes} {b : UInt8}

theorem WellFormed.encode_decode (h : WellFormed x) : encode (decode x) = x := by
  obtain ⟨text, rfl⟩ := h
  rw [decode_encode]

theorem wellFormed_nil : WellFormed [] := ⟨"", encode_empty⟩

theorem WellFormed.append (hx : WellFormed x) (hy : WellFormed y) : WellFormed (x ++ y) := by
  obtain ⟨s, rfl⟩ := hx
  obtain ⟨t, rfl⟩ := hy
  exact ⟨s ++ t, encode_append s t⟩

theorem wellFormed_flatMap {α : Type} {f : α → Bytes} {l : List α} (h : ∀ a ∈ l, WellFormed (f a)) :
    WellFormed (l.flatMap f) := by
  induction l with
  | nil => exact wellFormed_nil
  | cons a l ih =>
    rw [List.flatMap_cons]
    exact (h a List.mem_cons_self).append (ih fun c hc => h c (List.mem_cons_of_mem a hc))

theorem utf8EncodeChar_of_mem {c : Char} (hb : b < 0x80) (h : b ∈ String.utf8EncodeChar c) :
    String.utf8EncodeChar c = [b] := by
  obtain ⟨-, hc⟩ | ⟨-, lead, more, hc, hhigh⟩ := utf8EncodeChar_cases c
  · rw [hc, List.mem_singleton] at h
    rw [hc, h]
  · rw [hc] at h
    exact absurd hb (UInt8.not_lt.2 (hhigh b h))

theorem exists_split_of_flatMap {text : List Char} (hb : b < 0x80)
    (h : text.flatMap String.utf8EncodeChar = x ++ b :: y) :
    ∃ before after : List Char, before.flatMap String.utf8EncodeChar = x ∧
      after.flatMap String.utf8EncodeChar = y := by
  induction text generalizing x with
  | nil => simp at h
  | cons c text ih =>
    rw [List.flatMap_cons] at h
    obtain ⟨x', rfl, hrest⟩ | ⟨z, hc, hrest⟩ := List.append_eq_append_iff.1 h
    · obtain ⟨before, after, rfl, hy⟩ := ih hrest
      exact ⟨c :: before, after, List.flatMap_cons, hy⟩
    · cases z with
      | nil =>
        obtain ⟨before, after, hx, hy⟩ := ih (x := []) hrest.symm
        exact ⟨c :: before, after, by simp [hx, hc], hy⟩
      | cons d z =>
        obtain ⟨rfl, rfl⟩ := List.cons.inj hrest
        have hmem : b ∈ String.utf8EncodeChar c := by simp [hc]
        rw [utf8EncodeChar_of_mem hb hmem, List.singleton_eq_append_iff] at hc
        obtain ⟨rfl, hz⟩ | ⟨-, hz⟩ := hc
        · obtain ⟨-, rfl⟩ := List.cons.inj hz
          exact ⟨[], text, rfl, rfl⟩
        · simp at hz

theorem WellFormed.split (hb : b < 0x80) (h : WellFormed (x ++ b :: y)) :
    WellFormed x ∧ WellFormed y := by
  obtain ⟨text, ht⟩ := h
  obtain ⟨before, after, rfl, rfl⟩ := exists_split_of_flatMap hb ht
  exact ⟨⟨String.ofList before, by simp [encode]⟩, ⟨String.ofList after, by simp [encode]⟩⟩

end Utf8

theorem Literal.wellFormed_replacement {span : Bytes} (hash : Int) (h : Utf8.WellFormed span) :
    Utf8.WellFormed (replacement hash span) := by
  obtain ⟨text, rfl⟩ := h
  exact ⟨_, (replacement_encode hash text).symm⟩

namespace Scan

variable {m : Marker} {source span before after : Bytes} {pieces : List Piece} {tail : Bytes}

/-- An invocation starts with a letter or digit, its literal stands between quotes, and it ends with a
parenthesis: all cuts of a text around them are cuts between characters. -/
theorem IsInvocation.wellFormed (h : IsInvocation m source span)
    (hw : Utf8.WellFormed (before ++ (source ++ after))) :
    Utf8.WellFormed before ∧ Utf8.WellFormed span ∧ Utf8.WellFormed after := by
  obtain ⟨_, ⟨blank, last, -, -, -, rfl⟩, rfl⟩ := h
  obtain ⟨b, name, hname⟩ := List.exists_cons_of_ne_nil m.name_ne_nil
  have hb : b < 0x80 := Bytes.lt_of_isAlnum (m.isAlnum_of_mem b (by simp [hname]))
  have hq : Bytes.quote < 0x80 := by decide
  have hc : Bytes.closeParen < 0x80 := by decide
  have hi : m.token ++ (blank ++ Bytes.quote :: (span ++ Bytes.quote :: (last ++ [Bytes.closeParen]))) ++
      after = b :: ((name ++ [Bytes.openParen] ++ blank) ++
        Bytes.quote :: (span ++ Bytes.quote :: (last ++ Bytes.closeParen :: after))) := by
    simp [Marker.token, hname]
  rw [hi] at hw
  obtain ⟨hbefore, hw⟩ := hw.split hb
  obtain ⟨hspan, hw⟩ := (hw.split hq).2.split hq
  exact ⟨hbefore, hspan, (hw.split hc).2⟩

theorem wellFormed_of_bytes (h : ∀ p ∈ pieces, IsInvocation m p.source p.span)
    (hw : Utf8.WellFormed (bytes pieces ++ tail)) :
    (∀ p ∈ pieces, Utf8.WellFormed p.gap ∧ Utf8.WellFormed p.span) ∧ Utf8.WellFormed tail := by
  induction pieces with
  | nil => exact ⟨by simp, hw⟩
  | cons p pieces ih =>
    rw [bytes_cons, List.append_assoc, List.append_assoc] at hw
    obtain ⟨hgap, hspan, hrest⟩ := (h p List.mem_cons_self).wellFormed hw
    obtain ⟨hpieces, htail⟩ := ih (fun q hq => h q (List.mem_cons_of_mem p hq)) hrest
    exact ⟨List.forall_mem_cons.2 ⟨⟨hgap, hspan⟩, hpieces⟩, htail⟩

end Scan

namespace Preprocess

variable {o : Options} {text : String} {s : Success}

theorem wellFormed_output (hash : HashFunction) {s : Scan.Scanned}
    (h : ∀ p ∈ s.pieces, Utf8.WellFormed p.gap ∧ Utf8.WellFormed p.span)
    (ht : Utf8.WellFormed s.tail) : Utf8.WellFormed (output hash s) := by
  refine (Utf8.wellFormed_flatMap fun p hp => ?_).append ht
  exact (h p hp).1.append (Literal.wellFormed_replacement _ (h p hp).2)

theorem wellFormed_of_run (h : (run o none (Utf8.encode text)).1 = .ok s) :
    Utf8.WellFormed s.output ∧ ∀ i ∈ s.invocations, Utf8.WellFormed i.span := by
  obtain ⟨pieces, tail, hs, rfl⟩ := exists_segmentation_of_run h
  have hin := hs.eq_append
  obtain ⟨hpieces, htail⟩ := Scan.wellFormed_of_bytes hs.isInvocation ⟨text, hin⟩
  refine ⟨wellFormed_output o.hash hpieces htail, fun i hi => ?_⟩
  obtain ⟨before, p, after, rfl, rfl⟩ := Invocation.mem_ofPieces hi
  exact (hpieces p (by simp)).2

theorem code_text (h : (run o none (Utf8.encode text)).1 = .ok s) :
    (Source.text text).code s = s.code := by
  obtain ⟨pieces, tail, hs, rfl⟩ := exists_segmentation_of_run h
  cases pieces with
  | nil =>
    have ht : tail = Utf8.encode text := by simpa using hs.input_eq.symm
    simp [Source.code, Success.code, success, output, ht]
  | cons p pieces => simp [Source.code, success]

theorem run_of_runSource {registry : Option Registry} {source : Source} {code : String}
    (h : (runSource o registry source).1 = .ok (s, code)) :
    (run o none source.toBytes).1 = .ok s ∧ code = source.code s := by
  simp only [runSource] at h
  cases hr : run o registry source.toBytes with
  | mk result registry' =>
    rw [hr] at h
    cases result with
    | error f => simp [Except.map] at h
    | ok s' =>
      simp only [Except.map, Except.ok.injEq, Prod.mk.injEq] at h
      obtain ⟨rfl, rfl⟩ := h
      exact ⟨run_none_of_ok hr, rfl⟩

theorem runSource_text (o : Options) (registry : Option Registry) (text : String) :
    runSource o registry (.text text) = runSource o registry (.bytes (Utf8.encode text)) := by
  simp only [runSource, Source.toBytes]
  cases hr : run o registry (Utf8.encode text) with
  | mk result registry' =>
    cases result with
    | error f => rfl
    | ok s =>
      simp only [Except.map, code_text (run_none_of_ok hr)]
      rfl

/-- A text and its UTF-8 bytes are preprocessed alike. The output of a text is well-formed, so its text
is written back to exactly the output, and so are the literals and the replacements of the edits. -/
theorem run_text_eq_run_bytes (o : Options) (registry : Option Registry) (text : String) :
    runSource o registry (.text text) = runSource o registry (.bytes (Utf8.encode text)) ∧
    ∀ s code, (runSource o registry (.text text)).1 = .ok (s, code) →
      s.output.toByteArray.IsValidUTF8 ∧ Utf8.encode code = s.output ∧ s.Edits (Utf8.encode text) ∧
      ∀ i ∈ s.invocations, i.StandsIn o.marker o.hash (Utf8.encode text) ∧
        Utf8.encode i.literal = i.span ∧ Utf8.encode i.replacementText = i.replacement := by
  refine ⟨runSource_text o registry text, ?_⟩
  intro s code h
  obtain ⟨hrun, rfl⟩ := run_of_runSource h
  obtain ⟨houtput, hspan⟩ := wellFormed_of_run hrun
  have hcode : Utf8.encode s.code = s.output := houtput.encode_decode
  obtain ⟨pieces, tail, hs, hsuccess⟩ := exists_segmentation_of_run hrun
  refine ⟨⟨s.code.toList, by rw [← hcode]; rfl⟩, ?_, by rw [hsuccess]; exact success_edits hs, ?_⟩
  · rw [code_text hrun, hcode]
  · intro i hi
    have hi' : i ∈ Invocation.ofPieces o.hash 0 pieces := by rwa [hsuccess] at hi
    exact ⟨Invocation.standsIn_of_segmentation hs hi', (hspan i hi).encode_decode,
      (Literal.wellFormed_replacement _ (hspan i hi)).encode_decode⟩

/-- The backslash takes only the first byte of the character behind it. -/
theorem run_text_escaped_character :
    ∃ s, (runSource {} none (.bytes (Utf8.encode "é = SID( \"\\é\" );"))).1 =
        .ok (s, "é = 0x0b88540d /* \"\\é\" */;") ∧
      Utf8.encode "é = 0x0b88540d /* \"\\é\" */;" = s.output := by
  obtain ⟨heq, hprops⟩ := run_text_eq_run_bytes {} none "é = SID( \"\\é\" );"
  obtain ⟨⟨s, code⟩, hrun, hcode⟩ : ∃ a,
      (runSource {} none (.text "é = SID( \"\\é\" );")).1 = .ok a ∧
        decide (a.2 = "é = 0x0b88540d /* \"\\é\" */;") = true :=
    Command.exists_eq_ok (by decide +kernel)
  obtain rfl : code = _ := of_decide_eq_true hcode
  exact ⟨s, heq ▸ hrun, (hprops _ _ hrun).2.1⟩

end Preprocess

end HashedLiterals
