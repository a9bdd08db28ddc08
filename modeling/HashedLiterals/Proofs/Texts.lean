import HashedLiterals.Command.Run
import HashedLiterals.Config.Explorer
import HashedLiterals.Proofs.Collisions
import HashedLiterals.Proofs.SecondPass

/-!
Texts as literals. A literal is read byte by byte, a text is written character by character; both see
the same escapes, because no byte of a longer UTF-8 sequence is a quote or a backslash. Main statement:
a text between the quotes of an invocation is hashed as the text itself exactly when its escapes are
complete, and the constant is the one that the command `hash` prints.
-/
set_option autoImplicit false

namespace HashedLiterals

open Scan (Piece Segmentation bytes)

namespace Utf8

theorem le_ofNat_add {k low : Nat} (hl : 0x80 ≤ low) (hk : k + low < 0x100) :
    (0x80 : UInt8) ≤ UInt8.ofNat (k + low) := by
  rw [UInt8.le_iff_toNat_le]
  simp
  omega

theorem utf8EncodeChar_cases (c : Char) :
    c.toNat < 0x80 ∧ String.utf8EncodeChar c = [c.toNat.toUInt8] ∨
      0x80 ≤ c.toNat ∧ ∃ b more, String.utf8EncodeChar c = b :: more ∧ ∀ x ∈ b :: more, 0x80 ≤ x := by
  have hv : c.val.toNat < 0xd800 ∨ 0xdfff < c.val.toNat ∧ c.val.toNat < 0x110000 := c.valid
  have hc : c.toNat = c.val.toNat := rfl
  simp only [String.utf8EncodeChar, hc]
  generalize c.val.toNat = v at hv
  have hmore : ∀ n, (0x80 : UInt8) ≤ UInt8.ofNat (n % 0x40 + 0x80) := fun n =>
    le_ofNat_add (Nat.le_refl _) (by omega)
  split
  · next h => exact .inl ⟨by omega, rfl⟩
  · next h =>
    refine .inr ⟨by omega, ?_⟩
    split
    · refine ⟨_, _, rfl, ?_⟩
      simp only [List.forall_mem_cons, hmore, true_and]
      exact ⟨le_ofNat_add (by decide) (by omega), by simp⟩
    · split
      · refine ⟨_, _, rfl, ?_⟩
        simp only [List.forall_mem_cons, hmore, true_and]
        exact ⟨le_ofNat_add (by decide) (by omega), by simp⟩
      · refine ⟨_, _, rfl, ?_⟩
        simp only [List.forall_mem_cons, hmore, true_and]
        exact ⟨le_ofNat_add (by decide) (by omega), by simp⟩

theorem utf8EncodeChar_of_lt {c : Char} (h : c.toNat < 0x80) :
    String.utf8EncodeChar c = [c.toNat.toUInt8] := by
  obtain ⟨-, hc⟩ | ⟨hc, -⟩ := utf8EncodeChar_cases c
  · exact hc
  · omega

theorem flatMap_of_ascii {text : List Char} (h : ∀ c ∈ text, c.toNat < 0x80) :
    text.flatMap String.utf8EncodeChar = Bytes.ofChars text := by
  induction text with
  | nil => rfl
  | cons c text ih =>
    rw [List.flatMap_cons, utf8EncodeChar_of_lt (h c List.mem_cons_self),
      ih fun d hd => h d (List.mem_cons_of_mem c hd)]
    rfl

end Utf8

namespace Literal

/-- The characters of a text whose escapes are complete: plain ones, and escapes of two characters. -/
inductive EscapeClosed : List Char → Prop where
  | nil : EscapeClosed []
  | plain {c : Char} {rest : List Char} :
      c ≠ '"' → c ≠ '\\' → EscapeClosed rest → EscapeClosed (c :: rest)
  | escape (c : Char) {rest : List Char} : EscapeClosed rest → EscapeClosed ('\\' :: c :: rest)

variable {b : UInt8} {rest : Bytes}

theorem isSpan_plain_iff (hq : b ≠ Bytes.quote) (hb : b ≠ Bytes.backslash) :
    IsSpan (b :: rest) ↔ IsSpan rest := by
  refine ⟨fun h => ?_, .plain hq hb⟩
  cases h with
  | plain _ _ h => exact h
  | escape => exact absurd rfl hb

theorem isSpan_escape_iff : IsSpan (Bytes.backslash :: b :: rest) ↔ IsSpan rest := by
  refine ⟨fun h => ?_, .escape b⟩
  cases h with
  | plain _ hb => exact absurd rfl hb
  | escape _ h => exact h

theorem not_isSpan_quote : ¬ IsSpan (Bytes.quote :: rest) := by
  intro h
  cases h with
  | plain hq => exact hq rfl

theorem not_isSpan_backslash : ¬ IsSpan [Bytes.backslash] := by
  intro h
  cases h with
  | plain _ hb => exact hb rfl

/-- The bytes from 0x80 on are plain. -/
theorem isSpan_high_append_iff {high : Bytes} (h : ∀ x ∈ high, 0x80 ≤ x) :
    IsSpan (high ++ rest) ↔ IsSpan rest := by
  induction high with
  | nil => rfl
  | cons x high ih =>
    have hx := h x List.mem_cons_self
    have hq : x ≠ Bytes.quote := by rintro rfl; revert hx; decide
    have hb : x ≠ Bytes.backslash := by rintro rfl; revert hx; decide
    rw [List.cons_append, isSpan_plain_iff hq hb, ih fun y hy => h y (List.mem_cons_of_mem x hy)]

theorem ofNat_ne {c d : Char} (hc : c.toNat < 0x80) (hd : d.toNat < 0x80) (h : c ≠ d) :
    c.toNat.toUInt8 ≠ d.toNat.toUInt8 := by
  intro he
  have hn := congrArg UInt8.toNat he
  simp only [Nat.toUInt8_eq, UInt8.toNat_ofNat'] at hn
  rw [Nat.mod_eq_of_lt (by omega), Nat.mod_eq_of_lt (by omega)] at hn
  exact h (Char.toNat_inj.1 hn)

theorem isSpan_plainChar_append_iff {c : Char} (hq : c ≠ '"') (hb : c ≠ '\\') :
    IsSpan (String.utf8EncodeChar c ++ rest) ↔ IsSpan rest := by
  obtain ⟨hc, he⟩ | ⟨-, b, more, he, hhigh⟩ := Utf8.utf8EncodeChar_cases c
  · rw [he]
    exact isSpan_plain_iff (ofNat_ne hc (by decide) hq) (ofNat_ne hc (by decide) hb)
  · rw [he]
    exact isSpan_high_append_iff hhigh

/-- A backslash takes the first byte of the next character; the others are plain. -/
theorem isSpan_escapedChar_append_iff (c : Char) :
    IsSpan (Bytes.backslash :: (String.utf8EncodeChar c ++ rest)) ↔ IsSpan rest := by
  obtain ⟨-, he⟩ | ⟨-, b, more, he, hhigh⟩ := Utf8.utf8EncodeChar_cases c
  · rw [he]
    exact isSpan_escape_iff
  · rw [he, List.cons_append, isSpan_escape_iff]
    exact isSpan_high_append_iff fun x hx => hhigh x (List.mem_cons_of_mem b hx)

theorem utf8EncodeChar_quote : String.utf8EncodeChar '"' = [Bytes.quote] := by decide

theorem utf8EncodeChar_backslash : String.utf8EncodeChar '\\' = [Bytes.backslash] := by decide

theorem EscapeClosed.isSpan {text : List Char} (h : EscapeClosed text) :
    IsSpan (text.flatMap String.utf8EncodeChar) := by
  induction h with
  | nil => exact .nil
  | plain hq hb _ ih =>
    rw [List.flatMap_cons]
    exact (isSpan_plainChar_append_iff hq hb).2 ih
  | escape c _ ih =>
    rw [List.flatMap_cons, List.flatMap_cons, utf8EncodeChar_backslash]
    exact (isSpan_escapedChar_append_iff c).2 ih

theorem escapeClosed_of_isSpan {text : List Char}
    (h : IsSpan (text.flatMap String.utf8EncodeChar)) : EscapeClosed text := by
  match text with
  | [] => exact .nil
  | c :: rest =>
    rw [List.flatMap_cons] at h
    by_cases hq : c = '"'
    · rw [hq, utf8EncodeChar_quote] at h
      exact absurd h not_isSpan_quote
    · by_cases hb : c = '\\'
      · rw [hb, utf8EncodeChar_backslash] at h
        match rest with
        | [] => exact absurd h not_isSpan_backslash
        | d :: rest =>
          rw [List.flatMap_cons] at h
          rw [hb]
          exact .escape d (escapeClosed_of_isSpan ((isSpan_escapedChar_append_iff d).1 h))
      · exact .plain hq hb (escapeClosed_of_isSpan ((isSpan_plainChar_append_iff hq hb).1 h))

/-- Bytes and characters see the same escapes. -/
theorem isSpan_encode_iff (text : String) : IsSpan (Utf8.encode text) ↔ EscapeClosed text.toList :=
  ⟨escapeClosed_of_isSpan, EscapeClosed.isSpan⟩

instance (text : List Char) : Decidable (EscapeClosed text) :=
  decidable_of_iff (IsSpan (text.flatMap String.utf8EncodeChar))
    ⟨escapeClosed_of_isSpan, EscapeClosed.isSpan⟩

theorem toNat_lt_of_mem_constant {w : UInt32} {c : Char} (h : c ∈ Hash.constant w) :
    c.toNat < 0x80 := by
  rw [Hash.constant, List.mem_append] at h
  obtain h | h := h
  · rw [List.mem_cons, List.mem_singleton] at h
    obtain rfl | rfl := h
    · decide
    · decide
  · obtain ⟨d, hd, rfl⟩ := mem_hexDigits h
    clear h
    revert d
    decide

theorem replacement_encode (hash : Int) (text : String) :
    replacement hash (Utf8.encode text) =
      Utf8.encode (Hash.format hash ++ " /* \"" ++ text ++ "\" */") := by
  have hc : Utf8.encode (Hash.format hash) = Bytes.ofChars (Hash.constant (Hash.word hash)) := by
    rw [Hash.format, Utf8.encode, String.toList_ofList]
    exact Utf8.flatMap_of_ascii fun c => toNat_lt_of_mem_constant
  have ho : Utf8.encode " /* \"" = Bytes.ofChars " /* \"".toList := by decide
  have he : Utf8.encode "\" */" = Bytes.ofChars "\" */".toList := by decide
  simp only [replacement, Utf8.encode_append, hc, ho, he]

end Literal

namespace Scan

variable {m : Marker} {span text : Bytes}

theorem isBody_bare (h : IsBody (Bytes.quote :: (text ++ [Bytes.quote, Bytes.closeParen])) span) :
    span = text ∧ Literal.IsSpan text := by
  obtain ⟨blank, last, hb, hl, hs, he⟩ := h
  cases blank with
  | cons b blank =>
    obtain ⟨rfl, -⟩ := List.cons.inj he
    exact absurd (hb _ List.mem_cons_self) (by decide)
  | nil =>
    have hc : (text ++ [Bytes.quote]) ++ [Bytes.closeParen] =
        (span ++ Bytes.quote :: last) ++ [Bytes.closeParen] := by simpa using he
    have ht := List.append_cancel_right hc
    obtain rfl | ⟨last, b, rfl⟩ := List.eq_nil_or_concat last
    · exact ⟨(List.append_cancel_right ht).symm, (List.append_cancel_right ht).symm ▸ hs⟩
    · have hq := congrArg List.getLast? ht
      simp only [List.concat_eq_append, List.getLast?_append, List.getLast?_cons] at hq
      simp at hq
      subst hq
      exact absurd (hl Bytes.quote (by simp)) (by decide)

theorem segmentation_single {p : Piece}
    (h : Segmentation m (m.token ++ Bytes.quote :: (text ++ [Bytes.quote, Bytes.closeParen])) [p] [] [])
    (hg : p.gap = []) : p.span = text ∧ Literal.IsSpan text := by
  obtain ⟨body, hb, hs⟩ := h.isInvocation p List.mem_cons_self
  have hi := h.input_eq
  simp only [bytes_cons, bytes_nil, hg, hs, List.nil_append, List.append_nil] at hi
  rw [← List.append_cancel_left hi] at hb
  exact isBody_bare hb

end Scan

namespace Marker

theorem name_of_ofText? {text : String} {m : Marker} (h : ofText? text = some m) :
    m.name = Utf8.encode text := by
  simp only [ofText?] at h
  split at h
  · rw [Option.some.injEq] at h
    rw [← h]
  · simp at h

theorem encode_invocation {marker : String} {m : Marker} (h : ofText? marker = some m) (text : String) :
    Utf8.encode (marker ++ "(\"" ++ text ++ "\")") = (Scan.bare m (Utf8.encode text)).source := by
  have ho : Utf8.encode "(\"" = [Bytes.openParen, Bytes.quote] := by decide
  have hc : Utf8.encode "\")" = [Bytes.quote, Bytes.closeParen] := by decide
  simp [Utf8.encode_append, ho, hc, ← name_of_ofText? h, Scan.bare, token]

end Marker

namespace Command

theorem exists_eq_ok {ε α : Type} {x : Except ε α} {p : α → Bool} (h : x.toOption.any p = true) :
    ∃ a, x = .ok a ∧ p a = true := by
  cases x with
  | error e => simp [Except.toOption] at h
  | ok a => exact ⟨a, rfl, by simpa [Except.toOption] using h⟩

theorem foldl_print (r : Report) (lines : List String) :
    lines.foldl Report.print r = { r with out := r.out ++ lines } := by
  induction lines generalizing r with
  | nil => simp
  | cons line lines ih => simp [ih, Report.print]

theorem out_foldl_print (r : Report) (lines : List String) :
    (lines.foldl Report.print r).out = r.out ++ lines := congrArg Report.out (foldl_print r lines)

theorem execute_hash {host : Host} {d : Disk} {args : List String} {environment : Environment} {cwd : Key}
    {parsed : Args} {config : Config} {path : Option String} (terminal : Bool)
    (hp : Args.parse args = .ok parsed) (hc : parsed.command = .hash) (hh : parsed.help = false)
    (hl : ConfigFile.load host d cwd environment parsed.overrides.toFields = .ok (config, path))
    {text : String} (ht : text ∈ parsed.paths) :
    ∃ r, execute host d args environment cwd terminal = .ok r ∧ r.exit = 0 ∧
      Hash.format (Hash.ofText config.hash.function text) ++ "  " ++ text ∈ r.report.out := by
  have ha : args.isEmpty = false := by
    cases args with
    | nil =>
      simp only [Args.parse, Args.splitCommand, Args.read, Args.ofReading] at hp
      split at hp
      · simp at hp
      · rw [Except.ok.injEq] at hp
        rw [← hp] at hc
        simp at hc
    | cons => rfl
  obtain ⟨first, rest, hpaths⟩ := List.exists_cons_of_ne_nil (List.ne_nil_of_mem ht)
  simp only [execute, hp, ha, hh, hl, Bool.or_self, Bool.false_eq_true, if_false]
  refine ⟨_, rfl, ?_⟩
  simp only [perform, hc, hpaths, hashTexts, out_foldl_print, true_and]
  rw [hpaths] at ht
  exact List.mem_append_right _ (List.mem_map_of_mem ht)

end Command

namespace Preprocess

variable {o : Options} {text : String} {s : Success} {i : Invocation}

theorem run_bare_of_escapeClosed (h : Literal.EscapeClosed text.toList) :
    ∃ s i, (run o none (Scan.bare o.marker (Utf8.encode text)).source).1 = .ok s ∧
      s.invocations = [i] ∧ i.start = 0 ∧
      i.stop = (Scan.bare o.marker (Utf8.encode text)).source.length ∧ i.literal = text ∧
      i.hash = Hash.word (Hash.ofText o.hash text) ∧
      s.code = Hash.format (Hash.ofText o.hash text) ++ " /* \"" ++ text ++ "\" */" := by
  have hspan : ∀ x ∈ [Utf8.encode text], Literal.IsSpan x := by
    simpa using (Literal.isSpan_encode_iff text).2 h
  have hs := Scan.segmentation_bare o.marker hspan
  have hrun := run_of_segmentation hs
  have hb : bytes ([Utf8.encode text].map (Scan.bare o.marker)) =
      (Scan.bare o.marker (Utf8.encode text)).source := by simp [Scan.bare]
  rw [hb] at hrun
  refine ⟨_, _, hrun, rfl, rfl, ?_, Utf8.decode_encode text, rfl, ?_⟩
  · simp [Scan.bare]
  · have ho : output o.hash ⟨[Scan.bare o.marker (Utf8.encode text)], [], none⟩ =
        Literal.replacement (o.hash (Utf8.encode text)) (Utf8.encode text) := by
      simp [output, Scan.bare]
    rw [Success.code, success, List.map_singleton, ho, Literal.replacement_encode, Utf8.decode_encode]
    rfl

theorem escapeClosed_of_run_bare
    (h : (run o none (Scan.bare o.marker (Utf8.encode text)).source).1 = .ok s)
    (hi : s.invocations = [i]) (hstart : i.start = 0)
    (hstop : i.stop = (Scan.bare o.marker (Utf8.encode text)).source.length) :
    Literal.EscapeClosed text.toList := by
  obtain ⟨pieces, tail, hs, rfl⟩ := exists_segmentation_of_run h
  simp only [success] at hi
  obtain ⟨p, rfl⟩ : ∃ p, pieces = [p] := by
    have hl := congrArg List.length hi
    rw [Invocation.length_ofPieces] at hl
    exact List.length_eq_one_iff.1 hl
  simp only [Invocation.ofPieces, Nat.zero_add, List.cons.injEq, and_true] at hi
  subst hi
  have hgap : p.gap = [] := List.eq_nil_of_length_eq_zero hstart
  have hlen := congrArg List.length hs.input_eq
  simp only [Scan.bytes_cons, Scan.bytes_nil, List.length_append, List.length_nil] at hlen
  have htail : tail = [] := List.eq_nil_of_length_eq_zero (by simp only at hstop; omega)
  subst htail
  exact (Literal.isSpan_encode_iff text).1 (Scan.segmentation_single hs hgap).2

/-- A text between the quotes of an invocation is hashed as the text itself exactly when its escapes are
complete. The constant is the one that the command `hash` prints for the text. -/
theorem run_invocation_iff_escapeClosed {marker : String} (hm : Marker.ofText? marker = some o.marker)
    (text : String) :
    ((∃ s i, (run o none (Utf8.encode (marker ++ "(\"" ++ text ++ "\")"))).1 = .ok s ∧
        s.invocations = [i] ∧ i.start = 0 ∧
        i.stop = (Utf8.encode (marker ++ "(\"" ++ text ++ "\")")).length ∧ i.literal = text ∧
        i.hash = Hash.word (Hash.ofText o.hash text) ∧
        s.code = Hash.format (Hash.ofText o.hash text) ++ " /* \"" ++ text ++ "\" */") ↔
      Literal.EscapeClosed text.toList) ∧
    ∀ host d args environment cwd terminal parsed config path, Args.parse args = .ok parsed →
      parsed.command = .hash → parsed.help = false → text ∈ parsed.paths →
      ConfigFile.load host d cwd environment parsed.overrides.toFields = .ok (config, path) →
      config.hash.function = o.hash →
      ∃ r, Command.execute host d args environment cwd terminal = .ok r ∧ r.exit = 0 ∧
        Hash.format (Hash.ofText o.hash text) ++ "  " ++ text ∈ r.report.out := by
  rw [Marker.encode_invocation hm]
  refine ⟨⟨?_, run_bare_of_escapeClosed⟩, ?_⟩
  · rintro ⟨s, i, hs, hi, hstart, hstop, -⟩
    exact escapeClosed_of_run_bare hs hi hstart hstop
  · intro host d args environment cwd terminal parsed config path hp hc hh ht hl hf
    rw [← hf]
    exact Command.execute_hash terminal hp hc hh hl ht

theorem run_invocation_escaped_accent :
    (∃ s, (run {} none (Utf8.encode ("SID" ++ "(\"" ++ "caf\\é" ++ "\")"))).1 = .ok s ∧
      s.code = "0xf5e293b7 /* \"caf\\é\" */") ∧
    ∃ r, Command.execute Explorer.host ⟨[], [], ""⟩ ["hash", "caf\\é"] ⟨[]⟩ [] false = .ok r ∧ r.exit = 0 ∧
      "0xf5e293b7  caf\\é" ∈ r.report.out := by
  have hm : Marker.ofText? "SID" = some ({} : Options).marker := rfl
  have hf : Hash.format (Hash.ofText ({} : Options).hash "caf\\é") = "0xf5e293b7" := by decide +kernel
  obtain ⟨hrun, hprint⟩ := run_invocation_iff_escapeClosed hm "caf\\é"
  rw [hf] at hrun hprint
  refine ⟨?_, ?_⟩
  · obtain ⟨s, i, hs, -, -, -, -, -, hc⟩ := hrun.2 (by decide +kernel)
    exact ⟨s, hs, by rw [hc]; decide +kernel⟩
  · obtain ⟨parsed, hp, h⟩ : ∃ p, Args.parse ["hash", "caf\\é"] = .ok p ∧
        (p.command = .hash && !p.help && p.paths.contains "caf\\é" &&
          (ConfigFile.load Explorer.host ⟨[], [], ""⟩ [] ⟨[]⟩ p.overrides.toFields).toOption.any fun c =>
            c.1.hash = .djb2) = true := Command.exists_eq_ok (by decide +kernel)
    simp only [Bool.and_eq_true, decide_eq_true_eq, Bool.not_eq_true', List.contains_iff_mem] at h
    obtain ⟨⟨⟨hc, hh⟩, ht⟩, hload⟩ := h
    obtain ⟨⟨config, path⟩, hl, ha⟩ := Command.exists_eq_ok hload
    have hfun : config.hash.function = ({} : Options).hash := by rw [of_decide_eq_true ha]
    exact hprint _ _ _ _ _ _ _ _ _ hp hc hh ht hl hfun

end Preprocess

end HashedLiterals
