import HashedLiterals.Proofs.Rewriting

/-!
How preprocessing fails without a registry. Main statement: it fails exactly when a first token opens no
invocation; the failure names the offset of this token, its kind is decided by what follows the
token, and its span lies in the source.
-/
set_option autoImplicit false

namespace HashedLiterals

open Scan (Piece Segmentation IsBody IsInvocation NoLiteral OpenLiteral OpenInvocation bytes)

namespace Scan

variable {m : Marker} {input tail rest after : Bytes} {pieces : List Piece}

/-- The first token that opens no invocation stands at the offset: before it there are only gaps and
invocations, and behind it no body. -/
def FaultAt (m : Marker) (input : Bytes) (i : Nat) : Prop :=
  ∃ pieces tail after, Segmentation m input pieces tail (m.token ++ after) ∧
    i = (bytes pieces).length + tail.length ∧ input.WordStart i ∧
    ¬ ∃ body span rest, IsBody body span ∧ after = body ++ rest

theorem readBody_eq_error {f : Fault} (h : readBody after = .error f) :
    NoLiteral after ∧ f = .notALiteral (after.takeWhile Bytes.isSpace).length ∨
    OpenLiteral after ∧ f = .unterminated (after.takeWhile Bytes.isSpace).length ∨
    OpenInvocation after ∧ ∃ span found, found ≤ after.length ∧ f = .unclosed span found := by
  obtain hc | hc | hc | ⟨body, span, rest, hb, rfl⟩ := body_cases after
  · rw [readBody_of_noLiteral hc, Except.error.injEq] at h
    exact .inl ⟨hc, h.symm⟩
  · rw [readBody_of_openLiteral hc, Except.error.injEq] at h
    exact .inr (.inl ⟨hc, h.symm⟩)
  · obtain ⟨span, found, hle, hr⟩ := readBody_of_openInvocation hc
    rw [hr, Except.error.injEq] at h
    exact .inr (.inr ⟨hc, span, found, hle, h.symm⟩)
  · simp [readBody_of_isBody hb] at h

theorem exists_readBody_error_iff :
    (∃ f, readBody after = .error f) ↔ ¬ ∃ body span rest, IsBody body span ∧ after = body ++ rest := by
  constructor
  · rintro ⟨f, hf⟩ ⟨body, span, rest, hb, rfl⟩
    simp [readBody_of_isBody hb] at hf
  · intro h
    cases hr : readBody after with
    | error f => exact ⟨f, rfl⟩
    | ok b =>
      obtain ⟨body, hb, -, hi⟩ := isBody_of_readBody hr
      exact absurd ⟨body, b.span, b.rest, hb, hi⟩ h

/-- The token that ends a segmentation stands where a word can start if the gap before it ends with
no word. -/
theorem Segmentation.wordStart_iff (h : Segmentation m input pieces tail rest) :
    input.WordStart ((bytes pieces).length + tail.length) ↔ tail.Parted := by
  rw [h.input_eq, Bytes.wordStart_append_right (parted_bytes h.isInvocation),
    Bytes.wordStart_append_length]

/-- The scan ends with a fault exactly at such a token. -/
theorem faultAt_iff {i : Nat} :
    FaultAt m input i ↔ ∃ pieces tail f, scan m input = ⟨pieces, tail, some f⟩ ∧
      i = (bytes pieces).length + tail.length := by
  constructor
  · rintro ⟨pieces, tail, after, hs, rfl, hw, hno⟩
    obtain ⟨f, hf⟩ := exists_readBody_error_iff.2 hno
    exact ⟨pieces, tail, f, scan_eq_fault_iff.2 ⟨after, hs, hs.wordStart_iff.1 hw, hf⟩, rfl⟩
  · rintro ⟨pieces, tail, f, hscan, rfl⟩
    obtain ⟨after, hs, hp, hf⟩ := scan_eq_fault_iff.1 hscan
    exact ⟨pieces, tail, after, hs, rfl, hs.wordStart_iff.2 hp, exists_readBody_error_iff.1 ⟨f, hf⟩⟩

theorem readBody_of_scan_fault {f : Fault} (h : scan m input = ⟨pieces, tail, some f⟩) :
    (bytes pieces).length + tail.length + m.token.length ≤ input.length ∧
      readBody (input.drop ((bytes pieces).length + tail.length + m.token.length)) = .error f := by
  obtain ⟨after, hs, -, hf⟩ := scan_eq_fault_iff.1 h
  have hi := hs.input_eq
  refine ⟨?_, ?_⟩
  · rw [hi]
    simp only [List.length_append]
    omega
  · rw [← List.append_assoc, ← List.append_assoc] at hi
    rw [hi, ← List.length_append, ← List.length_append, List.drop_left, hf]

theorem Segmentation.tokenAt (h : Segmentation m input pieces tail (m.token ++ after))
    (hp : tail.Parted) : m.TokenAt input ((bytes pieces).length + tail.length) := by
  rw [h.input_eq, Marker.tokenAt_append_right (.inl (parted_bytes h.isInvocation))]
  exact m.tokenAt_append_token hp after

theorem exists_piece_of_lt {i : Nat} (h : i < (bytes pieces).length) :
    ∃ before p after, pieces = before ++ p :: after ∧ (bytes before).length ≤ i ∧
      i < (bytes before).length + p.gap.length + p.source.length := by
  induction pieces generalizing i with
  | nil => simp at h
  | cons p pieces ih =>
    simp only [bytes_cons, List.length_append] at h
    by_cases hp : i < p.gap.length + p.source.length
    · exact ⟨[], p, pieces, rfl, Nat.zero_le i, by simpa using hp⟩
    · have hlt : i - (p.gap.length + p.source.length) < (bytes pieces).length := by omega
      obtain ⟨before, q, after, rfl, hle, hlt⟩ := ih hlt
      refine ⟨p :: before, q, after, rfl, ?_, ?_⟩
      all_goals
        simp only [bytes_cons, List.length_append]
        omega

/-- A token before the end of a segmentation stands in one of its invocations. -/
theorem Segmentation.tokenAt_inside {i : Nat} (h : Segmentation m input pieces tail rest)
    (hi : i < (bytes pieces).length + tail.length) (ht : m.TokenAt input i) :
    ∃ start source span, IsInvocation m source span ∧ input.WordStart start ∧
      source <+: input.drop start ∧ start ≤ i ∧ i < start + source.length ∧
      start + source.length ≤ (bytes pieces).length := by
  have hlt : i < (bytes pieces).length := Nat.lt_of_not_le fun hle => h.tail_free i hle hi ht
  obtain ⟨before, p, after, hs, hle, hlt⟩ := exists_piece_of_lt hlt
  have hgap : (bytes before).length + p.gap.length ≤ i :=
    Nat.le_of_not_lt fun hg => h.gap_free before p after hs i hle hg ht
  refine ⟨(bytes before).length + p.gap.length, p.source, p.span, h.isInvocation p (by simp [hs]),
    h.wordStart before p after hs, ?_, hgap, hlt, ?_⟩
  · rw [h.input_eq, hs, bytes_append, bytes_cons, List.append_assoc, List.drop_length_add_append,
      List.append_assoc, List.drop_left, List.append_assoc]
    exact List.prefix_append _ _
  · simp only [hs, bytes_append, bytes_cons, List.length_append]
    omega

end Scan

namespace Failure

@[simp] theorem offset_ofFault (s : Site) (f : Scan.Fault) : (ofFault s f).offset = some s.start := by
  cases f <;> rfl

theorem kind_ofFault {after : Bytes} {f : Scan.Fault} (s : Site) (h : Scan.readBody after = .error f) :
    ((ofFault s f).kind = .notALiteral ↔ NoLiteral after) ∧
    ((ofFault s f).kind = .unterminatedLiteral ↔ OpenLiteral after) ∧
    ((ofFault s f).kind = .unclosedInvocation ↔ OpenInvocation after) ∧
    ((ofFault s f).kind = .notALiteral ∨ (ofFault s f).kind = .unterminatedLiteral ∨
      (ofFault s f).kind = .unclosedInvocation) := by
  -- Each condition determines the fault, so no two of them hold together.
  have h₁ : NoLiteral after → (ofFault s f).kind = .notALiteral := by
    intro hc
    rw [Scan.readBody_of_noLiteral hc, Except.error.injEq] at h
    exact h ▸ rfl
  have h₂ : OpenLiteral after → (ofFault s f).kind = .unterminatedLiteral := by
    intro hc
    rw [Scan.readBody_of_openLiteral hc, Except.error.injEq] at h
    exact h ▸ rfl
  have h₃ : OpenInvocation after → (ofFault s f).kind = .unclosedInvocation := by
    intro hc
    obtain ⟨span, found, -, hr⟩ := Scan.readBody_of_openInvocation hc
    rw [hr, Except.error.injEq] at h
    exact h ▸ rfl
  have hc : NoLiteral after ∨ OpenLiteral after ∨ OpenInvocation after :=
    (Scan.readBody_eq_error h).imp And.left (Or.imp And.left And.left)
  grind

theorem endOfLine_bounds {text rest : Bytes} {b : UInt8} {i : Nat} (h : text.drop i = b :: rest)
    (hn : b ≠ Bytes.newline) (hr : b ≠ Bytes.carriageReturn) :
    (i : Int) + 1 ≤ endOfLine text i ∧ endOfLine text i ≤ text.length := by
  have hl := congrArg List.length h
  have ht := (rest.takeWhile_prefix fun c => c != Bytes.newline && c != Bytes.carriageReturn).length_le
  simp only [List.length_drop, List.length_cons] at hl
  simp only [endOfLine, Int.toNat_natCast, h]
  rw [List.takeWhile_cons_of_pos (by simp [hn, hr]), List.length_cons]
  omega

end Failure

namespace Preprocess

variable {o : Options} {input : Bytes} {i : Nat} {f : Scan.Fault}

theorem faultOffset_eq (s : Scan.Scanned) :
    faultOffset s = (bytes s.pieces).length + s.tail.length := by
  simp only [faultOffset]
  induction s.pieces with
  | nil => simp
  | cons p pieces ih =>
    rw [List.foldr_cons, ih]
    simp only [Scan.bytes_cons, List.length_append]
    omega

theorem span_ofFault (hi : i + o.marker.token.length ≤ input.length)
    (hf : Scan.readBody (input.drop (i + o.marker.token.length)) = .error f) :
    ∃ span, (Failure.ofFault (site o input i) f).diagnostic.span = some span ∧ span.text = input ∧
      0 ≤ span.start ∧ 1 ≤ span.length ∧ span.start + span.length ≤ input.length := by
  have ht : 0 < o.marker.token.length := List.length_pos_iff.2 o.marker.token_ne_nil
  obtain ⟨-, rfl⟩ | ⟨⟨inner, hd, -⟩, rfl⟩ | ⟨-, span, found, hle, rfl⟩ := Scan.readBody_eq_error hf
  · refine ⟨_, rfl, rfl, ?_⟩
    simp only [site]
    omega
  · refine ⟨_, rfl, rfl, ?_⟩
    rw [← Scan.drop_length_takeWhile, List.drop_drop] at hd
    have hb := Failure.endOfLine_bounds hd (by decide) (by decide)
    simp only [site, Int.natCast_add] at hb ⊢
    omega
  · refine ⟨_, rfl, rfl, ?_⟩
    simp only [site]
    omega

/-- Preprocessing fails exactly when a first token opens no invocation. The failure stands at this
token, every token before it belongs to an invocation, and what follows it decides the kind. -/
theorem run_error_iff_faultAt (o : Options) (input : Bytes) :
    ((∃ e, (run o none input).1 = .error e) ↔ ∃ i, Scan.FaultAt o.marker input i) ∧
    ∀ i, Scan.FaultAt o.marker input i →
      (∀ j, Scan.FaultAt o.marker input j → j = i) ∧
      o.marker.TokenAt input i ∧
      (∀ j < i, o.marker.TokenAt input j → ∃ start source span,
        IsInvocation o.marker source span ∧ input.WordStart start ∧ source <+: input.drop start ∧
        start ≤ j ∧ j < start + source.length ∧ start + source.length ≤ i) ∧
      ∃ e, (run o none input).1 = .error e ∧ e.offset = some (i : Int) ∧
        (e.kind = .notALiteral ↔ NoLiteral (input.drop (i + o.marker.token.length))) ∧
        (e.kind = .unterminatedLiteral ↔ OpenLiteral (input.drop (i + o.marker.token.length))) ∧
        (e.kind = .unclosedInvocation ↔ OpenInvocation (input.drop (i + o.marker.token.length))) ∧
        (e.kind = .notALiteral ∨ e.kind = .unterminatedLiteral ∨ e.kind = .unclosedInvocation) ∧
        ∃ span, e.diagnostic.span = some span ∧ span.text = input ∧ 0 ≤ span.start ∧
          1 ≤ span.length ∧ span.start + span.length ≤ input.length := by
  refine ⟨⟨?_, ?_⟩, ?_⟩
  · rintro ⟨e, he⟩
    cases hf : (Scan.scan o.marker input).fault with
    | none => simp [run_of_fault_none hf] at he
    | some f => exact ⟨_, Scan.faultAt_iff.2 ⟨_, _, f, by rw [← hf], rfl⟩⟩
  · rintro ⟨i, hi⟩
    obtain ⟨pieces, tail, f, hs, -⟩ := Scan.faultAt_iff.1 hi
    exact ⟨_, run_of_fault (by rw [hs])⟩
  · intro i hi
    obtain ⟨pieces, tail, f, hscan, rfl⟩ := Scan.faultAt_iff.1 hi
    obtain ⟨after, hs, hp, -⟩ := Scan.scan_eq_fault_iff.1 hscan
    obtain ⟨hle, hf⟩ := Scan.readBody_of_scan_fault hscan
    refine ⟨fun j hj => ?_, hs.tokenAt hp, fun j hj ht => ?_, _, run_of_fault (by rw [hscan]), ?_⟩
    · obtain ⟨pieces', tail', f', hscan', rfl⟩ := Scan.faultAt_iff.1 hj
      obtain ⟨rfl, rfl, -⟩ := Scan.Scanned.mk.inj (hscan.symm.trans hscan')
      rfl
    · obtain ⟨start, source, span, hinv, hw, hpre, hge, hlt, hend⟩ := hs.tokenAt_inside hj ht
      exact ⟨start, source, span, hinv, hw, hpre, hge, hlt, by omega⟩
    · rw [hscan, faultOffset_eq]
      obtain ⟨h₁, h₂, h₃, h₄⟩ := Failure.kind_ofFault (site o input _) hf
      exact ⟨Failure.offset_ofFault _ _, h₁, h₂, h₃, h₄, span_ofFault hle hf⟩

end Preprocess

end HashedLiterals
