import HashedLiterals.Proofs.Faults
import HashedLiterals.Proofs.Reports

set_option autoImplicit false

namespace HashedLiterals

open Scan (Segmentation IsInvocation bytes)

namespace Scan

variable {m : Marker} {input after span : Bytes}

theorem exists_bytes_append (m : Marker) (input : Bytes) :
    (∀ p ∈ (scan m input).pieces, IsInvocation m p.source p.span) ∧
      ∃ rest, input = bytes (scan m input).pieces ++ rest := by
  obtain ⟨hv, -, ⟨-, hi⟩ | ⟨_, _, -, -, -, hi⟩⟩ := scan_cases m input
  all_goals exact ⟨fun p hp => (hv p hp).isInvocation, _, hi⟩

theorem literal_of_unclosed {found : Nat} (h : readBody after = .error (.unclosed span found)) :
    Literal.IsSpan span ∧ ∃ blank rest : Bytes, (∀ b ∈ blank, Bytes.isSpace b = true) ∧
      after = blank ++ Bytes.quote :: (span ++ Bytes.quote :: rest) := by
  obtain ⟨-, hf⟩ | ⟨-, hf⟩ | ⟨⟨span', rest, hs, hd, hc⟩, -⟩ := readBody_eq_error h
  · simp at hf
  · simp at hf
  · rw [readBody_of_quote hd, hs.read] at h
    simp only [readClose_of_not hc, Except.error.injEq, Fault.unclosed.injEq] at h
    obtain ⟨blank, hb, hi⟩ := exists_blank_append hd
    exact ⟨h.1 ▸ hs, blank, rest, hb, by rw [hi, h.1]⟩

end Scan

namespace Preprocess

variable {o : Options} {registry : Option Registry} {input : Bytes} {f : Failure} {i : Invocation}

theorem exists_source_of_mem (h : i ∈ Invocation.ofPieces o.hash 0 (Scan.scan o.marker input).pieces) :
    ∃ before source after, input = before ++ (source ++ after) ∧ before.length = i.start ∧
      source.length = i.stop - i.start ∧ IsInvocation o.marker source i.span := by
  obtain ⟨hinv, rest, hi⟩ := Scan.exists_bytes_append o.marker input
  obtain ⟨before, p, after, hp, rfl⟩ := Invocation.mem_ofPieces h
  rw [hp] at hi hinv
  refine ⟨bytes before ++ p.gap, p.source, bytes after ++ rest, ?_, ?_, ?_, hinv p (by simp)⟩
  · simp [hi]
  · simp
  · simp

theorem run_of_firstCollision? {r : Registry} {existing : Entry}
    (h : firstCollision? r o.fileName []
      (Invocation.ofPieces o.hash 0 (Scan.scan o.marker input).pieces) = some (i, existing)) :
    (run o (some r) input).1 =
      .error (.hashCollision (site o input i.start) (i.stop - i.start) i.literal i.hash existing) := by
  simp [run, failure?, h]

theorem run_error_cases (h : (run o registry input).1 = .error f) :
    (∃ r i existing before source after, registry = some r ∧
        firstCollision? r o.fileName []
          (Invocation.ofPieces o.hash 0 (Scan.scan o.marker input).pieces) = some (i, existing) ∧
        input = before ++ (source ++ after) ∧ IsInvocation o.marker source i.span ∧
        f = .hashCollision (site o input before.length) source.length i.literal i.hash existing) ∨
    ∃ before after fault, input = before ++ (o.marker.token ++ after) ∧
        Scan.readBody after = .error fault ∧ f = .ofFault (site o input before.length) fault := by
  unfold run at h
  simp only at h
  split at h
  · next e hf =>
    rw [Except.error.injEq] at h
    subst h
    simp only [failure?] at hf
    split at hf
    · next i existing hc =>
      obtain ⟨r, rfl, hc⟩ := Option.bind_eq_some_iff.1 hc
      obtain ⟨earlier, later, hi, -⟩ := firstCollision?_eq_some hc
      have hmem : i ∈ Invocation.ofPieces o.hash 0 (Scan.scan o.marker input).pieces := by
        rw [hi]
        exact List.mem_append_right _ List.mem_cons_self
      obtain ⟨before, source, after, hin, hstart, hlength, hinv⟩ := exists_source_of_mem hmem
      exact .inl ⟨r, i, existing, before, source, after, rfl, hc, hin, hinv,
        by rw [hstart, hlength, ← Option.some.inj hf]⟩
    · next fault _ hs =>
      obtain ⟨after, hseg, -, hr⟩ := Scan.scan_eq_fault_iff.1
        (show Scan.scan o.marker input = ⟨_, _, some fault⟩ by rw [← hs])
      refine .inr ⟨bytes (Scan.scan o.marker input).pieces ++ (Scan.scan o.marker input).tail, after,
        fault, by rw [List.append_assoc]; exact hseg.input_eq, hr, ?_⟩
      rw [List.length_append, ← faultOffset_eq, ← Option.some.inj hf]
    · simp at hf
  · simp at h

end Preprocess

end HashedLiterals
