import HashedLiterals.Proofs.Rewriting

/-!
Preprocessing an output again. Main statement: the tokens of an output are exactly the tokens of the
literals that its comments hold, so a second pass changes nothing exactly when no literal holds one.
-/
set_option autoImplicit false

namespace HashedLiterals

open Scan (Piece Segmentation bytes)

namespace Literal

def opening (hash : Int) : Bytes :=
  Bytes.ofChars (Hash.constant (Hash.word hash)) ++ Bytes.ofChars " /* \"".toList

def closing : Bytes := Bytes.ofChars "\" */".toList

theorem replacement_eq (hash : Int) (span : Bytes) :
    replacement hash span = opening hash ++ (span ++ closing) := by
  simp [replacement, opening, closing]

theorem mem_hexDigits {c : Char} {k n : Nat} (h : c ∈ Hash.hexDigits k n) :
    ∃ d < 16, c = Nat.digitChar d := by
  induction k with
  | zero => simp [Hash.hexDigits] at h
  | succ k ih =>
    simp only [Hash.hexDigits, List.mem_cons] at h
    obtain rfl | h := h
    · exact ⟨_, Nat.mod_lt _ (by decide), rfl⟩
    · exact ih h

theorem isAlnum_of_mem_constant {b : UInt8} {w : UInt32} (h : b ∈ Bytes.ofChars (Hash.constant w)) :
    Bytes.isAlnum b = true := by
  rw [Hash.constant, Bytes.ofChars_append, List.mem_append] at h
  obtain h | h := h
  · exact List.all_eq_true.1 (by decide) b h
  · obtain ⟨c, hc, rfl⟩ := List.mem_map.1 h
    obtain ⟨d, hd, rfl⟩ := mem_hexDigits hc
    clear h hc
    revert d
    decide

theorem not_mem_opening {b : UInt8} (hb : Bytes.isAlnum b = false)
    (hc : b ∉ Bytes.ofChars " /* \"".toList) (hash : Int) : b ∉ opening hash := by
  rw [opening, List.mem_append]
  rintro (h | h)
  · simp [isAlnum_of_mem_constant h] at hb
  · exact hc h

variable {m : Marker}

theorem absent_opening (m : Marker) (hash : Int) : m.Absent (opening hash) :=
  Marker.absent_of_openParen_not_mem (not_mem_opening (by decide) (by decide) hash)

theorem parted_opening (hash : Int) : (opening hash).Parted :=
  (Bytes.parted_append (by decide)).2 (by decide)

theorem absent_closing (m : Marker) : m.Absent closing :=
  Marker.absent_of_openParen_not_mem (by decide)

theorem parted_closing : closing.Parted := by decide

theorem parted_replacement (hash : Int) (span : Bytes) : (replacement hash span).Parted := by
  rw [replacement_eq, ← List.append_assoc]
  exact (Bytes.parted_append (by decide)).2 parted_closing

theorem tokenAt_replacement {hash : Int} {span : Bytes} {i : Nat} :
    m.TokenAt (replacement hash span) i ↔
      ∃ j, i = (opening hash).length + j ∧ m.TokenAt span j := by
  have hs : ∀ j, m.TokenAt (span ++ closing) j ↔ m.TokenAt span j := by
    intro j
    rw [Marker.tokenAt_append (.inr (by decide +kernel)), or_iff_left]
    rintro ⟨k, -, hk⟩
    exact absent_closing m k hk
  rw [replacement_eq, Marker.tokenAt_append_of_absent (.inl (parted_opening hash))
    (absent_opening m hash)]
  simp only [hs]

end Literal

namespace Preprocess

variable {m : Marker} {o : Options} {input tail : Bytes} {pieces : List Piece}

/-- Preprocessing changes nothing exactly in a source without a token. -/
theorem run_unchanged_iff (o : Options) (input : Bytes) :
    (∃ s, (run o none input).1 = .ok s ∧ s.changed = false) ↔ o.marker.Absent input := by
  constructor
  · rintro ⟨s, hs, hc⟩
    cases hf : (Scan.scan o.marker input).fault with
    | some f => simp [run_of_fault hf] at hs
    | none =>
      rw [run_of_fault_none hf, Except.ok.injEq] at hs
      subst hs
      have hp : (Scan.scan o.marker input).pieces = [] := by simpa [success] using hc
      have hscan : Scan.scan o.marker input = ⟨[], (Scan.scan o.marker input).tail, none⟩ := by
        rw [← hp, ← hf]
      obtain ⟨hi, -, ha⟩ := Scan.segmentation_nil_iff.1 (Scan.scan_eq_iff.1 hscan)
      rw [hi]
      exact ha
  · intro h
    have hs := Scan.scan_of_absent h
    exact ⟨_, run_of_fault_none (by rw [hs]), by rw [hs]; rfl⟩

theorem output_cons (hash : HashFunction) (p : Piece) (pieces : List Piece) (tail : Bytes)
    (f : Option Scan.Fault) :
    output hash ⟨p :: pieces, tail, f⟩ =
      p.gap ++ (Literal.replacement (hash p.span) p.span ++ output hash ⟨pieces, tail, f⟩) := by
  simp [output]

/-- The tokens of an output are those of the literals in it, each in its place. -/
theorem tokenAt_output (hash : HashFunction) (hv : ∀ p ∈ pieces, p.Valid m) (ht : m.Absent tail)
    (f : Option Scan.Fault) (i : Nat) :
    m.TokenAt (output hash ⟨pieces, tail, f⟩) i ↔
      ∃ before p after j, pieces = before ++ p :: after ∧ m.TokenAt p.span j ∧
        i = (output hash ⟨before, p.gap, none⟩ ++ Literal.opening (hash p.span)).length + j := by
  induction pieces generalizing i with
  | nil =>
    refine iff_of_false (by simpa [output] using ht i) ?_
    rintro ⟨before, p, after, j, hs, -⟩
    simp at hs
  | cons p pieces ih =>
    have hp := hv p List.mem_cons_self
    have ih := ih fun q hq => hv q (List.mem_cons_of_mem p hq)
    -- Neither the gap nor the replacement ends with a word, so what follows is scanned afresh.
    rw [output_cons, Marker.tokenAt_append_of_absent (.inl hp.parted) hp.absent]
    simp only [Marker.tokenAt_append (.inl (Literal.parted_replacement _ _)),
      Literal.tokenAt_replacement, ih]
    constructor
    · rintro ⟨-, rfl, ⟨j, rfl, hj⟩ | ⟨-, rfl, before, q, after, j, rfl, hj, rfl⟩⟩
      · exact ⟨[], p, pieces, j, rfl, hj, by simp [output, Nat.add_assoc]⟩
      · refine ⟨p :: before, q, after, j, rfl, hj, ?_⟩
        simp only [output_cons, List.length_append]
        omega
    · rintro ⟨before, q, after, j, hs, hj, rfl⟩
      cases before with
      | nil =>
        obtain ⟨rfl, rfl⟩ := List.cons.inj hs
        exact ⟨_, by simp [output, Nat.add_assoc], .inl ⟨j, rfl, hj⟩⟩
      | cons p' before =>
        obtain ⟨rfl, rfl⟩ := List.cons.inj hs
        refine ⟨_, ?_, .inr ⟨_, rfl, before, q, after, j, rfl, hj, rfl⟩⟩
        simp only [output_cons, List.length_append]
        omega

theorem absent_output_iff (hash : HashFunction) (hv : ∀ p ∈ pieces, p.Valid m) (ht : m.Absent tail)
    (f : Option Scan.Fault) :
    m.Absent (output hash ⟨pieces, tail, f⟩) ↔ ∀ p ∈ pieces, m.Absent p.span := by
  constructor
  · intro h p hp j hj
    obtain ⟨before, after, hs⟩ := List.append_of_mem hp
    exact h _ ((tokenAt_output hash hv ht f _).2 ⟨before, p, after, j, hs, hj, rfl⟩)
  · intro h i hi
    obtain ⟨before, p, after, j, hs, hj, -⟩ := (tokenAt_output hash hv ht f i).1 hi
    exact h p (by simp [hs]) j hj

/-- A second pass with the same marker changes nothing exactly when no literal holds a token, for the
tokens of the output are those of the literals in its comments. -/
theorem rerun_unchanged_iff {o' : Options} {s : Success} (h : (run o none input).1 = .ok s)
    (ho : o'.marker = o.marker) :
    ((∃ t, (run o' none s.output).1 = .ok t ∧ t.changed = false) ↔
      ∀ i ∈ s.invocations, o.marker.Absent i.span) ∧
    ∀ pieces tail, Segmentation o.marker input pieces tail [] →
      ∀ i, o.marker.TokenAt s.output i ↔ ∃ before p after j, pieces = before ++ p :: after ∧
        o.marker.TokenAt p.span j ∧
        i = (output o.hash ⟨before, p.gap, none⟩ ++ Literal.opening (o.hash p.span)).length + j := by
  obtain ⟨pieces, tail, hs, rfl⟩ := exists_segmentation_of_run h
  obtain ⟨-, hv, ht⟩ := Scan.segmentation_nil_iff.1 hs
  refine ⟨?_, fun pieces' tail' hs' => ?_⟩
  · have hspans := Invocation.map_span_ofPieces o.hash 0 pieces
    rw [run_unchanged_iff, ho, show (success o input _).output = output o.hash _ from rfl,
      absent_output_iff o.hash hv ht, ← List.forall_mem_map, ← hspans, List.forall_mem_map]
    rfl
  · obtain ⟨rfl, rfl⟩ := hs.unique hs'
    exact tokenAt_output o.hash hv ht none

def constantOptions : Options :=
  ⟨⟨Utf8.encode "0x0f923099", by decide +kernel, by decide +kernel⟩, Hash.Algorithm.djb2.function, "", false,
    .standard⟩

theorem rerun_constant_marker :
    ∃ s, (run constantOptions none (Utf8.encode "y=0x0f923099( \"hello\" );")).1 = .ok s ∧
      s.output = Utf8.encode "y=0x0f923099 /* \"hello\" */;" ∧
      ∃ t, (run constantOptions none s.output).1 = .ok t ∧ t.changed = false := by
  have hf : (Scan.scan constantOptions.marker (Utf8.encode "y=0x0f923099( \"hello\" );")).fault =
      none := by decide +kernel
  have h := run_of_fault_none hf
  exact ⟨_, h, by decide +kernel, (rerun_unchanged_iff h rfl).1.2 (by decide +kernel)⟩

end Preprocess

end HashedLiterals
