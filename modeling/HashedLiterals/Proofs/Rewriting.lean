import HashedLiterals.Preprocess
import HashedLiterals.Proofs.Segmentation

/-!
What preprocessing does to a source without a registry. Main statement: it succeeds exactly on the
sources that have a segmentation, and then it keeps the gaps, puts the replacement of each literal in
the place of its invocation, and lists the invocations with their offsets.
-/
set_option autoImplicit false

namespace HashedLiterals

open Scan (Piece Segmentation bytes)

namespace Invocation

variable {hash : HashFunction} {pieces : List Piece}

@[simp] theorem length_ofPieces (hash : HashFunction) (offset : Nat) (pieces : List Piece) :
    (ofPieces hash offset pieces).length = pieces.length := by
  induction pieces generalizing offset with
  | nil => rfl
  | cons p pieces ih => simp [ofPieces, ih]

theorem ofPieces_append (hash : HashFunction) (offset : Nat) (ps qs : List Piece) :
    ofPieces hash offset (ps ++ qs) =
      ofPieces hash offset ps ++ ofPieces hash (offset + (bytes ps).length) qs := by
  induction ps generalizing offset with
  | nil => rfl
  | cons p ps ih => simp [ofPieces, ih, Nat.add_assoc]

theorem getElem?_ofPieces (hash : HashFunction) (offset : Nat) (before after : List Piece) (p : Piece) :
    (ofPieces hash offset (before ++ p :: after))[before.length]? =
      some ⟨offset + (bytes before).length + p.gap.length,
        offset + (bytes before).length + p.gap.length + p.source.length, p.span,
        Hash.word (hash p.span)⟩ := by
  rw [ofPieces_append, List.getElem?_append_right (by simp)]
  simp [ofPieces]

@[simp] theorem map_span_ofPieces (hash : HashFunction) (offset : Nat) (pieces : List Piece) :
    (ofPieces hash offset pieces).map span = pieces.map Piece.span := by
  induction pieces generalizing offset with
  | nil => rfl
  | cons p pieces ih => simp [ofPieces, ih]

theorem bounds_ofPieces {offset : Nat} {i : Invocation} (h : i ∈ ofPieces hash offset pieces) :
    offset ≤ i.start ∧ i.stop ≤ offset + (bytes pieces).length := by
  induction pieces generalizing offset with
  | nil => simp [ofPieces] at h
  | cons p pieces ih =>
    simp only [ofPieces, List.mem_cons] at h
    simp only [Scan.bytes_cons, List.length_append]
    obtain rfl | h := h
    · simp only
      omega
    · have := ih h
      omega

theorem start_lt_stop_ofPieces {offset : Nat} {i : Invocation} (hne : ∀ p ∈ pieces, p.source ≠ [])
    (h : i ∈ ofPieces hash offset pieces) : i.start < i.stop := by
  induction pieces generalizing offset with
  | nil => simp [ofPieces] at h
  | cons p pieces ih =>
    simp only [ofPieces, List.mem_cons] at h
    obtain rfl | h := h
    · have := List.length_pos_iff.2 (hne p List.mem_cons_self)
      simp only
      omega
    · exact ih (fun q hq => hne q (List.mem_cons_of_mem p hq)) h

theorem pairwise_ofPieces (hash : HashFunction) (offset : Nat) (pieces : List Piece) :
    (ofPieces hash offset pieces).Pairwise fun i j => i.stop ≤ j.start := by
  induction pieces generalizing offset with
  | nil => exact .nil
  | cons p pieces ih => exact .cons (fun j hj => (bounds_ofPieces hj).1) (ih _)

def splice (offset : Nat) (text : Bytes) : List Invocation → Bytes
  | [] => text
  | i :: rest =>
    text.take (i.start - offset) ++ (i.replacement ++ splice i.stop (text.drop (i.stop - offset)) rest)

theorem splice_ofPieces (hash : HashFunction) (offset : Nat) (pieces : List Piece) (tail : Bytes) :
    splice offset (bytes pieces ++ tail) (ofPieces hash offset pieces) =
      (pieces.flatMap fun p =>
        p.gap ++ Literal.replacement (Hash.word (hash p.span)).toNat p.span) ++ tail := by
  induction pieces generalizing offset with
  | nil => simp [splice, ofPieces]
  | cons p pieces ih =>
    have hg : offset + p.gap.length - offset = p.gap.length := Nat.add_sub_cancel_left _ _
    have hs : offset + p.gap.length + p.source.length - offset = p.gap.length + p.source.length := by
      omega
    simp only [ofPieces, splice, replacement, hg, hs, Scan.bytes_cons, List.append_assoc,
      List.flatMap_cons, List.take_left]
    rw [List.drop_length_add_append, List.drop_left, ih]

end Invocation

namespace Preprocess

variable {o : Options} {input : Bytes}

theorem run_of_fault_none (h : (Scan.scan o.marker input).fault = none) :
    (run o none input).1 = .ok (success o input (Scan.scan o.marker input)) := by
  simp [run, failure?, h]

theorem run_of_fault {f : Scan.Fault} (h : (Scan.scan o.marker input).fault = some f) :
    (run o none input).1 =
      .error (.ofFault (site o input (faultOffset (Scan.scan o.marker input))) f) := by
  simp [run, failure?, h]

/-- What a success shows of the pieces of its source. -/
structure Success.Follows (s : Success) (hash : HashFunction) (pieces : List Piece) (tail : Bytes) :
    Prop where
  length_invocations : s.invocations.length = pieces.length
  invocation : ∀ before p after, pieces = before ++ p :: after →
    ∃ i, s.invocations[before.length]? = some i ∧
      i.start = (bytes before).length + p.gap.length ∧ i.stop = i.start + p.source.length ∧
      i.span = p.span ∧ i.literal = Utf8.decode p.span ∧ i.hash = Hash.word (hash p.span)
  output : s.output = (pieces.flatMap fun p =>
    p.gap ++ Literal.replacement (Hash.word (hash p.span)).toNat p.span) ++ tail
  changed : s.changed = true ↔ pieces ≠ []

/-- The invocations are edits of the input, in order, that turn it into the output. -/
structure Success.Edits (s : Success) (input : Bytes) : Prop where
  start_lt_stop : ∀ i ∈ s.invocations, i.start < i.stop
  stop_le : ∀ i ∈ s.invocations, i.stop ≤ input.length
  pairwise : s.invocations.Pairwise fun i j => i.start < j.start ∧ i.stop ≤ j.start
  output : s.output = Invocation.splice 0 input s.invocations

theorem output_eq_word (hash : HashFunction) (s : Scan.Scanned) :
    output hash s = (s.pieces.flatMap fun p =>
      p.gap ++ Literal.replacement (Hash.word (hash p.span)).toNat p.span) ++ s.tail := by
  simp [output, Literal.replacement]

theorem success_follows (o : Options) (input : Bytes) (s : Scan.Scanned) :
    (success o input s).Follows o.hash s.pieces s.tail where
  length_invocations := Invocation.length_ofPieces o.hash 0 s.pieces
  invocation := by
    intro before p after hs
    have hi := Invocation.getElem?_ofPieces o.hash 0 before after p
    rw [← hs, Nat.zero_add] at hi
    exact ⟨_, hi, rfl, rfl, rfl, rfl, rfl⟩
  output := output_eq_word o.hash s
  changed := by simp [success]

theorem success_edits {s : Scan.Scanned} (h : Segmentation o.marker input s.pieces s.tail []) :
    (success o input s).Edits input := by
  have hne := h.source_ne_nil
  have hin := h.eq_append
  have hlt : ∀ i ∈ (success o input s).invocations, i.start < i.stop := fun i hi =>
    Invocation.start_lt_stop_ofPieces hne hi
  refine ⟨hlt, fun i hi => ?_, ?_, ?_⟩
  · have := (Invocation.bounds_ofPieces hi).2
    rw [hin, List.length_append]
    omega
  · refine (Invocation.pairwise_ofPieces o.hash 0 s.pieces).imp_of_mem fun hi _ hij => ?_
    exact ⟨Nat.lt_of_lt_of_le (hlt _ hi) hij, hij⟩
  · rw [hin]
    exact (output_eq_word o.hash s).trans (Invocation.splice_ofPieces o.hash 0 s.pieces s.tail).symm

theorem run_of_segmentation {pieces : List Piece} {tail : Bytes}
    (h : Segmentation o.marker input pieces tail []) :
    (run o none input).1 = .ok (success o input ⟨pieces, tail, none⟩) := by
  have hs := Scan.scan_eq_iff.2 h
  rw [run_of_fault_none (by rw [hs]), hs]

theorem exists_segmentation_of_run {s : Success} (h : (run o none input).1 = .ok s) :
    ∃ pieces tail, Segmentation o.marker input pieces tail [] ∧
      s = success o input ⟨pieces, tail, none⟩ := by
  cases hf : (Scan.scan o.marker input).fault with
  | none =>
    have hs := Scan.scan_eq_iff.1 (show Scan.scan o.marker input = ⟨_, _, none⟩ by rw [← hf])
    exact ⟨_, _, hs, Except.ok.inj (h.symm.trans (run_of_segmentation hs))⟩
  | some f => simp [run_of_fault hf] at h

/-- Preprocessing succeeds on exactly the sources with a segmentation. The segmentation is then the
only one, and it determines the invocations and the output. -/
theorem run_ok_iff_segmentation (o : Options) (input : Bytes) :
    ((∃ s, (run o none input).1 = .ok s) ↔
      ∃ pieces tail, Segmentation o.marker input pieces tail []) ∧
    ∀ pieces tail, Segmentation o.marker input pieces tail [] →
      (∀ pieces' tail', Segmentation o.marker input pieces' tail' [] →
        pieces' = pieces ∧ tail' = tail) ∧
      ∃ s, (run o none input).1 = .ok s ∧ s.Follows o.hash pieces tail ∧ s.Edits input := by
  refine ⟨⟨?_, ?_⟩, ?_⟩
  · rintro ⟨s, hs⟩
    obtain ⟨pieces, tail, h, -⟩ := exists_segmentation_of_run hs
    exact ⟨pieces, tail, h⟩
  · rintro ⟨pieces, tail, h⟩
    exact ⟨_, run_of_segmentation h⟩
  · intro pieces tail h
    exact ⟨fun pieces' tail' => h.unique, _, run_of_segmentation h, success_follows _ _ _,
      success_edits h⟩

end Preprocess

end HashedLiterals
