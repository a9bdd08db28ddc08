import HashedLiterals.Proofs.Invocations
import HashedLiterals.Proofs.Tokens

set_option autoImplicit false

namespace HashedLiterals.Scan

/-- The bytes of an invocation of the marker with the given literal. -/
def IsInvocation (m : Marker) (source span : Bytes) : Prop :=
  ∃ body, IsBody body span ∧ source = m.token ++ body

def bytes (pieces : List Piece) : Bytes := pieces.flatMap fun p => p.gap ++ p.source

/-- The pieces and the gap behind them cover the input up to `rest`. All offsets count from the start
of the input. -/
structure Segmentation (m : Marker) (input : Bytes) (pieces : List Piece) (tail rest : Bytes) :
    Prop where
  input_eq : input = bytes pieces ++ (tail ++ rest)
  isInvocation : ∀ p ∈ pieces, IsInvocation m p.source p.span
  wordStart : ∀ before p after, pieces = before ++ p :: after →
    input.WordStart ((bytes before).length + p.gap.length)
  gap_free : ∀ before p after, pieces = before ++ p :: after →
    ∀ i, (bytes before).length ≤ i → i < (bytes before).length + p.gap.length →
      ¬ m.TokenAt input i
  tail_free : ∀ i, (bytes pieces).length ≤ i → i < (bytes pieces).length + tail.length →
    ¬ m.TokenAt input i

/-- What a piece shows by itself: its gap holds no token and ends with no word, and an invocation
follows. -/
structure Piece.Valid (m : Marker) (p : Piece) : Prop where
  parted : p.gap.Parted
  absent : m.Absent p.gap
  isInvocation : IsInvocation m p.source p.span

@[simp] theorem bytes_nil : bytes [] = [] := rfl

@[simp] theorem bytes_cons (p : Piece) (pieces : List Piece) :
    bytes (p :: pieces) = p.gap ++ (p.source ++ bytes pieces) := by simp [bytes]

@[simp] theorem bytes_append (ps qs : List Piece) : bytes (ps ++ qs) = bytes ps ++ bytes qs := by
  simp [bytes]

variable {m : Marker} {input tail rest source span : Bytes} {pieces : List Piece} {p : Piece}

theorem IsInvocation.parted (h : IsInvocation m source span) : source.Parted := by
  obtain ⟨_, ⟨blank, last, -, -, -, rfl⟩, rfl⟩ := h
  have hc : Bytes.isAlnum Bytes.closeParen = false := by decide
  have hs : m.token ++ (blank ++ Bytes.quote :: (span ++ Bytes.quote :: (last ++ [Bytes.closeParen]))) =
      (m.token ++ blank ++ Bytes.quote :: span ++ Bytes.quote :: last) ++ [Bytes.closeParen] := by simp
  rw [hs, Bytes.parted_concat, hc]

theorem IsInvocation.ne_nil (h : IsInvocation m source span) : source ≠ [] := by
  obtain ⟨body, -, rfl⟩ := h
  simp [m.token_ne_nil]

theorem Segmentation.source_ne_nil (h : Segmentation m input pieces tail rest) :
    ∀ p ∈ pieces, p.source ≠ [] :=
  fun p hp => (h.isInvocation p hp).ne_nil

theorem Segmentation.eq_append (h : Segmentation m input pieces tail []) :
    input = bytes pieces ++ tail := by
  simpa using h.input_eq

theorem parted_bytes (h : ∀ p ∈ pieces, IsInvocation m p.source p.span) : (bytes pieces).Parted := by
  induction pieces with
  | nil => exact Bytes.parted_nil
  | cons p pieces ih =>
    have hp := h p List.mem_cons_self
    rw [bytes_cons, Bytes.parted_append (by simp [hp.ne_nil])]
    exact hp.parted.append (ih fun q hq => h q (List.mem_cons_of_mem p hq))

theorem Segmentation.valid (h : Segmentation m input pieces tail rest) (hp : p ∈ pieces) :
    p.Valid m := by
  obtain ⟨before, after, hs⟩ := List.append_of_mem hp
  have hb : (bytes before).Parted := parted_bytes (m := m) fun q hq =>
    h.isInvocation q (by simp [hs, hq])
  have hi : input = bytes before ++ (p.gap ++ (p.source ++ bytes after ++ (tail ++ rest))) := by
    simp [h.input_eq, hs]
  have hw := h.wordStart before p after hs
  have hg := h.gap_free before p after hs
  rw [hi] at hw hg
  refine ⟨?_, fun i ht => ?_, h.isInvocation p hp⟩
  · exact (Bytes.wordStart_append_length _ _).1 ((Bytes.wordStart_append_right hb).1 hw)
  · refine hg ((bytes before).length + i) (Nat.le_add_right _ _)
      (Nat.add_lt_add_left ht.lt_length _) ?_
    exact (Marker.tokenAt_append_right (.inl hb)).2 (ht.append _)

/-- A segmentation can be checked piece by piece. -/
theorem segmentation_iff :
    Segmentation m input pieces tail rest ↔ input = bytes pieces ++ (tail ++ rest) ∧
      (∀ p ∈ pieces, p.Valid m) ∧ ∀ i < tail.length, ¬ m.TokenAt (tail ++ rest) i := by
  constructor
  · intro h
    refine ⟨h.input_eq, fun p => h.valid, fun i hi ht => ?_⟩
    refine h.tail_free ((bytes pieces).length + i) (Nat.le_add_right _ _)
      (Nat.add_lt_add_left hi _) ?_
    rw [h.input_eq]
    exact (Marker.tokenAt_append_right (.inl (parted_bytes h.isInvocation))).2 ht
  · rintro ⟨hi, hv, ht⟩
    -- Behind earlier pieces the input starts afresh, so offsets can be counted from there.
    have hsplit : ∀ before p after, pieces = before ++ p :: after →
        (bytes before).Parted ∧ p.Valid m ∧
          input = bytes before ++ (p.gap ++ (p.source ++ bytes after ++ (tail ++ rest))) := by
      intro before p after hs
      subst hs
      refine ⟨parted_bytes (m := m) fun q hq => (hv q ?_).isInvocation, hv p ?_, ?_⟩
      · exact List.mem_append_left _ hq
      · exact List.mem_append_right _ List.mem_cons_self
      · simp [hi]
    refine ⟨hi, fun p hp => (hv p hp).isInvocation, ?_, ?_, ?_⟩
    · intro before p after hs
      obtain ⟨hb, hp, rfl⟩ := hsplit before p after hs
      rw [Bytes.wordStart_append_right hb, Bytes.wordStart_append_length]
      exact hp.parted
    · intro before p after hs i hle hlt htok
      obtain ⟨hb, hp, rfl⟩ := hsplit before p after hs
      obtain ⟨j, rfl⟩ := Nat.exists_eq_add_of_le hle
      rw [Marker.tokenAt_append_right (.inl hb)] at htok
      have := Marker.le_of_tokenAt hp.parted hp.absent htok
      omega
    · intro i hle hlt htok
      obtain ⟨j, rfl⟩ := Nat.exists_eq_add_of_le hle
      have hb : (bytes pieces).Parted := parted_bytes fun q hq => (hv q hq).isInvocation
      rw [hi, Marker.tokenAt_append_right (.inl hb)] at htok
      exact ht j (by omega) htok

theorem segmentation_nil_iff :
    Segmentation m input pieces tail [] ↔
      input = bytes pieces ++ tail ∧ (∀ p ∈ pieces, p.Valid m) ∧ m.Absent tail := by
  rw [segmentation_iff, List.append_nil]
  exact and_congr_right fun _ => and_congr_right fun _ =>
    ⟨fun h i ht => h i ht.lt_length ht, fun h i _ => h i⟩

theorem segmentation_token_iff {after : Bytes} :
    Segmentation m input pieces tail (m.token ++ after) ∧ tail.Parted ↔
      input = bytes pieces ++ (tail ++ (m.token ++ after)) ∧ (∀ p ∈ pieces, p.Valid m) ∧
        m.Absent tail ∧ tail.Parted := by
  rw [segmentation_iff, and_assoc, and_assoc]
  refine and_congr_right fun _ => and_congr_right fun _ => and_congr_left fun hp => ?_
  refine ⟨fun h i ht => h i ht.lt_length (ht.append _), fun h i hi ht => ?_⟩
  exact h i ((Marker.tokenAt_append_left (.inl hp) hi).1 ht)

theorem scan_of_readBody_error {after : Bytes} {f : Fault} (h : gap m input = (tail, some after))
    (hf : readBody after = .error f) : scan m input = ⟨[], tail, some f⟩ := by
  rw [scan]
  split
  · next hg => simp [h] at hg
  · next before after' hg =>
    rw [h, Prod.mk.injEq, Option.some.injEq] at hg
    obtain ⟨rfl, rfl⟩ := hg
    split
    · next f' hf' => rw [Except.error.inj (hf.symm.trans hf')]
    · next hb => simp [hf] at hb

theorem scan_of_readBody_ok {before after : Bytes} {b : Body}
    (h : gap m input = (before, some after)) (hb : readBody after = .ok b) :
    scan m input = ⟨⟨before, m.token ++ after.take b.length, b.span⟩ :: (scan m b.rest).pieces,
      (scan m b.rest).tail, (scan m b.rest).fault⟩ := by
  rw [scan]
  split
  · next hg => simp [h] at hg
  · next before' after' hg =>
    rw [h, Prod.mk.injEq, Option.some.injEq] at hg
    obtain ⟨rfl, rfl⟩ := hg
    split
    · next hf => simp [hb] at hf
    · next b' hb' => rw [Except.ok.inj (hb.symm.trans hb')]

theorem scan_of_absent (h : m.Absent input) : scan m input = ⟨[], input, none⟩ := by
  rw [scan]
  split
  · next before hg =>
    rw [gap_of_absent h, Prod.mk.injEq] at hg
    rw [hg.1]
  · next hg => simp [gap_of_absent h] at hg

theorem scan_of_fault {after : Bytes} {f : Fault} (ha : m.Absent tail) (hp : tail.Parted)
    (hf : readBody after = .error f) : scan m (tail ++ (m.token ++ after)) = ⟨[], tail, some f⟩ :=
  scan_of_readBody_error (gap_of_token hp ha after) hf

theorem scan_cons (hp : p.Valid m) (more : Bytes) :
    scan m (p.gap ++ (p.source ++ more)) =
      ⟨p :: (scan m more).pieces, (scan m more).tail, (scan m more).fault⟩ := by
  obtain ⟨hparted, habsent, body, hb, hs⟩ := hp
  rw [hs, List.append_assoc, scan_of_readBody_ok (gap_of_token hparted habsent _)
    (readBody_of_isBody hb more), List.take_left, ← hs]

theorem scan_bytes_append (h : ∀ p ∈ pieces, p.Valid m) (rest : Bytes) :
    scan m (bytes pieces ++ rest) =
      ⟨pieces ++ (scan m rest).pieces, (scan m rest).tail, (scan m rest).fault⟩ := by
  induction pieces with
  | nil => rfl
  | cons p pieces ih =>
    have hp := h p List.mem_cons_self
    rw [bytes_cons, List.append_assoc, List.append_assoc, scan_cons hp,
      ih fun q hq => h q (List.mem_cons_of_mem p hq)]
    rfl

/-- A scan ends at the end of the source, or at a token behind which the body goes wrong. -/
theorem scan_cases (m : Marker) (input : Bytes) :
    (∀ p ∈ (scan m input).pieces, p.Valid m) ∧ m.Absent (scan m input).tail ∧
      ((scan m input).fault = none ∧ input = bytes (scan m input).pieces ++ (scan m input).tail ∨
        ∃ f after, (scan m input).fault = some f ∧ readBody after = .error f ∧
          (scan m input).tail.Parted ∧
          input = bytes (scan m input).pieces ++ ((scan m input).tail ++ (m.token ++ after))) := by
  fun_induction scan m input with
  | case1 input before hg =>
    obtain ⟨hi, habs⟩ := gap_eq_none (congrArg Prod.snd hg)
    rw [hg] at hi
    subst hi
    exact ⟨by simp, habs, .inl ⟨rfl, rfl⟩⟩
  | case2 input before after hg f hf =>
    obtain ⟨hi, hp, habs⟩ := gap_eq_some (congrArg Prod.snd hg)
    rw [hg] at hi hp habs
    exact ⟨by simp, habs, .inr ⟨f, after, rfl, hf, hp, hi⟩⟩
  | case3 input before after hg b hb h₁ h₂ more source ih =>
    obtain ⟨hi, hp, habs⟩ := gap_eq_some (congrArg Prod.snd hg)
    rw [hg] at hi hp habs
    obtain ⟨body, hbody, hl, rfl⟩ := isBody_of_readBody hb
    obtain ⟨hv, ht, hrest⟩ := ih
    have hsource : source = m.token ++ body := by simp [source, hl]
    have hpiece : Piece.Valid m ⟨before, source, b.span⟩ := ⟨hp, habs, body, hbody, hsource⟩
    have hcover : ∀ last, b.rest = bytes more.pieces ++ last →
        input = bytes (⟨before, source, b.span⟩ :: more.pieces) ++ last := by
      intro last he
      rw [hi, he, hsource]
      simp
    refine ⟨List.forall_mem_cons.2 ⟨hpiece, hv⟩, ht, ?_⟩
    obtain ⟨hf, he⟩ | ⟨f, after, hf, hr, htp, he⟩ := hrest
    · exact .inl ⟨hf, hcover _ he⟩
    · exact .inr ⟨f, after, hf, hr, htp, hcover _ he⟩

/-- A scan without a fault is the segmentation of the whole source. -/
theorem scan_eq_iff :
    scan m input = ⟨pieces, tail, none⟩ ↔ Segmentation m input pieces tail [] := by
  rw [segmentation_nil_iff]
  constructor
  · intro h
    obtain ⟨hv, ha, ⟨-, hi⟩ | ⟨f, after, hf, -⟩⟩ := scan_cases m input
    · simp only [h] at hv ha hi
      exact ⟨hi, hv, ha⟩
    · simp [h] at hf
  · rintro ⟨rfl, hv, ha⟩
    rw [scan_bytes_append hv, scan_of_absent ha, List.append_nil]

theorem Segmentation.unique {pieces' : List Piece} {tail' : Bytes}
    (h : Segmentation m input pieces tail []) (h' : Segmentation m input pieces' tail' []) :
    pieces' = pieces ∧ tail' = tail := by
  have := (scan_eq_iff.2 h').symm.trans (scan_eq_iff.2 h)
  simpa using this

theorem scan_eq_fault_iff {f : Fault} :
    scan m input = ⟨pieces, tail, some f⟩ ↔
      ∃ after, Segmentation m input pieces tail (m.token ++ after) ∧ tail.Parted ∧
        readBody after = .error f := by
  constructor
  · intro h
    obtain ⟨hv, ha, ⟨hf, -⟩ | ⟨f', after, hf, hr, hp, hi⟩⟩ := scan_cases m input
    · simp [h] at hf
    · simp only [h, Option.some.injEq] at hv ha hf hp hi
      subst hf
      obtain ⟨hs, hp⟩ := segmentation_token_iff.2 ⟨hi, hv, ha, hp⟩
      exact ⟨after, hs, hp, hr⟩
  · rintro ⟨after, hs, hp, hr⟩
    obtain ⟨rfl, hv, ha, -⟩ := segmentation_token_iff.1 ⟨hs, hp⟩
    rw [scan_bytes_append hv, scan_of_fault ha hp hr, List.append_nil]

end HashedLiterals.Scan
