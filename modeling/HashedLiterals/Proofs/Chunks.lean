import HashedLiterals.Proofs.Faults

/-!
Preprocessing a source in chunks. Main statement: where a chunk ends outside words and can be
preprocessed by itself, the rest of the source is preprocessed as if it stood alone; outputs and
invocations follow each other, and offsets count on.
-/
set_option autoImplicit false

namespace HashedLiterals

open Scan (Piece Scanned bytes)

namespace Scan

variable {m : Marker} {before : Bytes}

theorem gap_append (hp : before.Parted) (ha : m.Absent before) (y : Bytes) :
    gap m (before ++ y) = (before ++ (gap m y).1, (gap m y).2) := by
  cases hg : (gap m y).2 with
  | none =>
    obtain ⟨hy, habs⟩ := gap_eq_none hg
    have h : m.Absent (before ++ y) := by
      intro i hi
      obtain ⟨j, -, hj⟩ := (Marker.tokenAt_append_of_absent (.inl hp) ha).1 hi
      exact habs j hj
    rw [gap_of_absent h, hy]
  | some after =>
    obtain ⟨hy, hparted, habs⟩ := gap_eq_some hg
    have h : m.Absent (before ++ (gap m y).1) := by
      intro i hi
      obtain ⟨j, -, hj⟩ := (Marker.tokenAt_append_of_absent (.inl hp) ha).1 hi
      exact habs j hj
    have hb := gap_of_token (hp.append hparted) h after
    rwa [List.append_assoc, ← hy] at hb

def Scanned.prepend (before : Bytes) : Scanned → Scanned
  | ⟨[], tail, fault⟩ => ⟨[], before ++ tail, fault⟩
  | ⟨p :: pieces, tail, fault⟩ => ⟨{ p with gap := before ++ p.gap } :: pieces, tail, fault⟩

@[simp] theorem Scanned.fault_prepend (before : Bytes) (s : Scanned) :
    (s.prepend before).fault = s.fault := by
  obtain ⟨pieces, tail, fault⟩ := s
  cases pieces <;> rfl

theorem Scanned.bytes_prepend (before : Bytes) (s : Scanned) :
    bytes (s.prepend before).pieces ++ (s.prepend before).tail =
      before ++ (bytes s.pieces ++ s.tail) := by
  obtain ⟨pieces, tail, fault⟩ := s
  cases pieces <;> simp [prepend]

theorem scan_of_gap_none {input : Bytes} (h : gap m input = (before, none)) :
    scan m input = ⟨[], before, none⟩ := by
  rw [scan]
  split
  · next before' hg =>
    rw [h, Prod.mk.injEq] at hg
    rw [hg.1]
  · next hg => simp [h] at hg

theorem scan_prepend (hp : before.Parted) (ha : m.Absent before) (y : Bytes) :
    scan m (before ++ y) = (scan m y).prepend before := by
  have hg := gap_append hp ha y
  cases hy : gap m y with
  | mk first more =>
    rw [hy] at hg
    cases more with
    | none => rw [scan_of_gap_none hg, scan_of_gap_none hy, Scanned.prepend]
    | some after =>
      cases hb : readBody after with
      | error f =>
        rw [scan_of_readBody_error hg hb, scan_of_readBody_error hy hb, Scanned.prepend]
      | ok b => rw [scan_of_readBody_ok hg hb, scan_of_readBody_ok hy hb, Scanned.prepend]

/-- Behind a chunk that ends outside words the scan starts afresh. -/
theorem scan_append {x tail : Bytes} {pieces : List Piece} (hx : scan m x = ⟨pieces, tail, none⟩)
    (hp : x.Parted) (y : Bytes) :
    scan m (x ++ y) = ⟨pieces ++ ((scan m y).prepend tail).pieces, ((scan m y).prepend tail).tail,
      (scan m y).fault⟩ := by
  obtain ⟨rfl, hv, ha⟩ := segmentation_nil_iff.1 (scan_eq_iff.1 hx)
  have ht : tail.Parted := by
    by_cases hn : tail = []
    · rw [hn]
      exact Bytes.parted_nil
    · exact (Bytes.parted_append hn).1 hp
  rw [List.append_assoc, scan_bytes_append hv, scan_prepend ht ha, Scanned.fault_prepend]

end Scan

namespace Invocation

def shift (n : Nat) (i : Invocation) : Invocation := { i with start := i.start + n, stop := i.stop + n }

theorem ofPieces_add (hash : HashFunction) (n offset : Nat) (pieces : List Piece) :
    ofPieces hash (offset + n) pieces = (ofPieces hash offset pieces).map (shift n) := by
  induction pieces generalizing offset with
  | nil => rfl
  | cons p pieces ih =>
    have hs : offset + n + p.gap.length = offset + p.gap.length + n := by omega
    have he : offset + p.gap.length + n + p.source.length =
        offset + p.gap.length + p.source.length + n := by omega
    simp only [ofPieces, List.map_cons, shift, hs, he, ih]

theorem ofPieces_prepend (hash : HashFunction) (offset : Nat) (before : Bytes) (s : Scanned) :
    ofPieces hash offset (s.prepend before).pieces =
      ofPieces hash (offset + before.length) s.pieces := by
  obtain ⟨pieces, tail, fault⟩ := s
  cases pieces with
  | nil => rfl
  | cons p pieces => simp [Scanned.prepend, ofPieces, Nat.add_assoc]

end Invocation

namespace Failure

theorem kind_ofFault_eq (s s' : Site) (f : Scan.Fault) :
    (ofFault s f).kind = (ofFault s' f).kind := by
  cases f <;> rfl

end Failure

namespace Preprocess

variable {o : Options} {x : Bytes}

theorem output_prepend (hash : HashFunction) (before : Bytes) (s : Scanned) :
    output hash (s.prepend before) = before ++ output hash s := by
  obtain ⟨pieces, tail, fault⟩ := s
  cases pieces <;> simp [Scanned.prepend, output]

theorem faultOffset_append (pieces : List Piece) (tail : Bytes) (s : Scanned) (f : Option Scan.Fault) :
    faultOffset ⟨pieces ++ (s.prepend tail).pieces, (s.prepend tail).tail, f⟩ =
      (bytes pieces).length + tail.length + faultOffset s := by
  have hs := congrArg List.length (Scan.Scanned.bytes_prepend tail s)
  simp only [List.length_append] at hs
  simp only [faultOffset_eq, Scan.bytes_append, List.length_append]
  omega

theorem output_append (hash : HashFunction) (pieces : List Piece) (tail : Bytes) (s : Scanned)
    (f : Option Scan.Fault) :
    output hash ⟨pieces ++ (s.prepend tail).pieces, (s.prepend tail).tail, f⟩ =
      output hash ⟨pieces, tail, none⟩ ++ output hash s := by
  have hs := output_prepend hash tail s
  simp only [output] at hs
  simp only [output, List.flatMap_append, List.append_assoc, hs]

theorem isEmpty_append_prepend (pieces : List Piece) (tail : Bytes) (s : Scanned) :
    (pieces ++ (s.prepend tail).pieces).isEmpty = (pieces.isEmpty && s.pieces.isEmpty) := by
  obtain ⟨qs, last, fault⟩ := s
  cases pieces <;> cases qs <;> rfl

/-- A chunk that ends outside words and can be preprocessed by itself does not matter for what follows:
the rest is accepted or refused as if it stood alone. -/
theorem run_append {s : Success} (hx : (run o none x).1 = .ok s) (hp : x.Parted) (y : Bytes) :
    ((∃ t, (run o none (x ++ y)).1 = .ok t) ↔ ∃ t, (run o none y).1 = .ok t) ∧
    (∀ t, (run o none y).1 = .ok t → ∃ u, (run o none (x ++ y)).1 = .ok u ∧
      u.output = s.output ++ t.output ∧
      u.invocations = s.invocations ++ t.invocations.map (Invocation.shift x.length) ∧
      u.changed = (s.changed || t.changed)) ∧
    ∀ e, (run o none y).1 = .error e → ∃ e' i, (run o none (x ++ y)).1 = .error e' ∧
      e'.kind = e.kind ∧ e.offset = some i ∧ e'.offset = some (i + x.length) := by
  obtain ⟨pieces, tail, hseg, rfl⟩ := exists_segmentation_of_run hx
  have hscan := Scan.scan_append (Scan.scan_eq_iff.2 hseg) hp y
  have hlen : x.length = (bytes pieces).length + tail.length := by simp [hseg.input_eq]
  cases hf : (Scan.scan o.marker y).fault with
  | none =>
    have hy := run_of_fault_none hf
    have hxy : (run o none (x ++ y)).1 = _ := run_of_fault_none (by rw [hscan, hf])
    refine ⟨iff_of_true ⟨_, hxy⟩ ⟨_, hy⟩, fun t ht => ⟨_, hxy, ?_⟩, fun e he => ?_⟩
    · rw [hy, Except.ok.injEq] at ht
      subst ht
      simp only [success, hscan]
      refine ⟨output_append _ _ _ _ _, ?_, by rw [isEmpty_append_prepend, Bool.not_and]⟩
      rw [Invocation.ofPieces_append, Invocation.ofPieces_prepend, Nat.add_assoc, ← hlen,
        Invocation.ofPieces_add]
    · simp [hy] at he
  | some f =>
    have hy := run_of_fault hf
    have hxy : (run o none (x ++ y)).1 = _ := run_of_fault (by rw [hscan, hf])
    refine ⟨iff_of_false (by simp [hxy]) (by simp [hy]), fun t ht => by simp [hy] at ht,
      fun e he => ?_⟩
    rw [hy, Except.error.injEq] at he
    subst he
    refine ⟨_, faultOffset (Scan.scan o.marker y), hxy, Failure.kind_ofFault_eq _ _ f,
      Failure.offset_ofFault _ f, ?_⟩
    rw [Failure.offset_ofFault, hscan, faultOffset_append, ← hlen, Nat.add_comm]
    rfl

theorem run_append_invocations :
    ∃ u, (run {} none (Utf8.encode "MY_SID(\"a\");\t" ++ Utf8.encode " SID( \"b\" )x")).1 = .ok u ∧
      u.output = Utf8.encode "MY_0x0002b606 /* \"a\" */;\t 0x0002b607 /* \"b\" */x" ∧
      u.invocations.map Invocation.start = [3, 14] := by
  have hx : (Scan.scan Marker.default (Utf8.encode "MY_SID(\"a\");\t")).fault = none := by
    decide +kernel
  have hy : (Scan.scan Marker.default (Utf8.encode " SID( \"b\" )x")).fault = none := by
    decide +kernel
  obtain ⟨u, hu, ho, hi, -⟩ := (run_append (o := {}) (run_of_fault_none hx) (by decide +kernel)
    (Utf8.encode " SID( \"b\" )x")).2.1 _ (run_of_fault_none hy)
  refine ⟨u, hu, ?_, ?_⟩
  · rw [ho]
    decide +kernel
  · rw [hi]
    decide +kernel

end Preprocess

end HashedLiterals
