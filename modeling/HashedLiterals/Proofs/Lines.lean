import Mathlib.Algebra.GroupWithZero.Nat
import HashedLiterals.Proofs.Chunks
import HashedLiterals.Proofs.Collisions
import HashedLiterals.Proofs.SecondPass

/-!
Lines of a source and of its output. Main statement: an output has the newlines of its source but for
those in the white space around the literals of invocations, which are lost; a line that no invocation
reaches across is rewritten by itself, and its number falls by the newlines lost before it.
-/
set_option autoImplicit false

namespace HashedLiterals

open Scan (Piece Scanned Segmentation IsInvocation bytes)

namespace Bytes

structure IsLine (before line after : Bytes) : Prop where
  before : before = [] ∨ ∃ x, before = x ++ [newline]
  line : newline ∉ line
  after : after = [] ∨ ∃ y, after = newline :: y

theorem IsLine.parted {before line after : Bytes} (h : IsLine before line after) : before.Parted := by
  obtain rfl | ⟨x, rfl⟩ := h.before
  · exact parted_nil
  · rw [parted_concat]
    decide

end Bytes

namespace Scan

variable {m : Marker} {source span x y tail : Bytes} {pieces : List Piece}

/-- The newlines of an invocation outside its literal. -/
def Piece.lostBreaks (p : Piece) : Nat := p.source.count Bytes.newline - p.span.count Bytes.newline

theorem IsInvocation.eq_concat (h : IsInvocation m source span) :
    ∃ x, source = x ++ [Bytes.closeParen] := by
  obtain ⟨_, ⟨blank, last, -, -, -, rfl⟩, rfl⟩ := h
  exact ⟨m.token ++ blank ++ Bytes.quote :: span ++ Bytes.quote :: last, by simp⟩

theorem newline_not_mem_token (m : Marker) : Bytes.newline ∉ m.token := by
  intro h
  obtain h | h := Marker.isAlnum_or_of_mem_token h
  · revert h
    decide
  · revert h
    decide

/-- Outside its literal an invocation has newlines only in the white space around the literal. -/
theorem IsInvocation.count_newline (h : IsInvocation m source span) :
    ∃ blank last : Bytes, (∀ b ∈ blank ++ last, Bytes.isSpace b = true) ∧
      source = m.token ++ (blank ++ Bytes.quote :: (span ++ Bytes.quote :: (last ++ [Bytes.closeParen]))) ∧
      source.count Bytes.newline =
        span.count Bytes.newline + (blank ++ last).count Bytes.newline := by
  obtain ⟨_, ⟨blank, last, hb, hl, -, rfl⟩, rfl⟩ := h
  refine ⟨blank, last, ?_, rfl, ?_⟩
  · intro b hmem
    obtain hmem | hmem := List.mem_append.1 hmem
    · exact hb b hmem
    · exact hl b hmem
  · have ht := List.count_eq_zero.2 (newline_not_mem_token m)
    have hq : Bytes.quote ≠ Bytes.newline := by decide
    have hc : Bytes.closeParen ≠ Bytes.newline := by decide
    simp only [List.count_append, List.count_cons_of_ne hq, List.count_cons_of_ne hc, List.count_nil, ht]
    omega

theorem Piece.count_source {p : Piece} (h : IsInvocation m p.source p.span) :
    p.source.count Bytes.newline = p.span.count Bytes.newline + p.lostBreaks := by
  obtain ⟨blank, last, -, -, hc⟩ := h.count_newline
  simp only [lostBreaks]
  omega

/-- A cut that no invocation runs across leaves pieces before it. -/
theorem exists_pieces_of_cut (hash : HashFunction) {n : Nat} (h : x ++ y = bytes pieces ++ tail)
    (hv : ∀ p ∈ pieces, p.Valid m) (ha : m.Absent tail)
    (hi : ∀ i ∈ Invocation.ofPieces hash n pieces, i.stop ≤ n + x.length ∨ n + x.length ≤ i.start) :
    ∃ ps t, x = bytes ps ++ t ∧ (∀ p ∈ ps, p.Valid m) ∧ m.Absent t := by
  induction pieces generalizing n x with
  | nil =>
    refine ⟨[], x, rfl, by simp, fun j hj => ha j ?_⟩
    rw [bytes_nil, List.nil_append] at h
    exact h ▸ hj.append y
  | cons p pieces ih =>
    have hp := hv p List.mem_cons_self
    rw [bytes_cons, List.append_assoc, List.append_assoc] at h
    simp only [Invocation.ofPieces, List.forall_mem_cons] at hi
    obtain hstop | hstart := hi.1
    · -- The first invocation lies before the cut.
      have hl : (p.gap ++ p.source).length ≤ x.length := by simp only [List.length_append]; omega
      have hpre : p.gap ++ p.source <+: x :=
        List.prefix_of_prefix_length_le ⟨bytes pieces ++ tail, by rw [h, List.append_assoc]⟩
          (List.prefix_append x y) hl
      obtain ⟨x', rfl⟩ := hpre
      rw [List.append_assoc, List.append_assoc] at h
      have h' := List.append_cancel_left (List.append_cancel_left h)
      obtain ⟨ps, t, rfl, hps, ht⟩ := ih (n := n + p.gap.length + p.source.length) h'
        (fun q hq => hv q (List.mem_cons_of_mem p hq)) (fun i hmem => by
          have := hi.2 i hmem
          simp only [List.length_append] at this
          omega)
      exact ⟨p :: ps, t, by simp, List.forall_mem_cons.2 ⟨hp, hps⟩, ht⟩
    · have hpre : x <+: p.gap :=
        List.prefix_of_prefix_length_le (List.prefix_append x y) ⟨_, h.symm⟩ (by omega)
      obtain ⟨more, hgap⟩ := hpre
      exact ⟨[], x, rfl, by simp, fun j hj => hp.absent j (hgap ▸ hj.append more)⟩

theorem segmentation_of_fault_none {input : Bytes} (h : (scan m input).fault = none) :
    Segmentation m input (scan m input).pieces (scan m input).tail [] :=
  scan_eq_iff.1 (by rw [← h])

theorem scan_of_cut (hash : HashFunction) (h : (scan m (x ++ y)).fault = none)
    (hi : ∀ i ∈ Invocation.ofPieces hash 0 (scan m (x ++ y)).pieces,
      i.stop ≤ x.length ∨ x.length ≤ i.start) : (scan m x).fault = none := by
  obtain ⟨hxy, hv, ha⟩ := segmentation_nil_iff.1 (segmentation_of_fault_none h)
  obtain ⟨ps, t, hx, hps, ht⟩ := exists_pieces_of_cut hash (n := 0) hxy hv ha (by simpa using hi)
  rw [scan_eq_iff.2 (segmentation_nil_iff.2 ⟨hx, hps, ht⟩)]

theorem scan_concat_newline (h : scan m x = ⟨pieces, tail, none⟩) :
    scan m (x ++ [Bytes.newline]) = ⟨pieces, tail ++ [Bytes.newline], none⟩ := by
  obtain ⟨rfl, hv, ha⟩ := segmentation_nil_iff.1 (scan_eq_iff.1 h)
  refine scan_eq_iff.2 (segmentation_nil_iff.2 ⟨by simp, hv, fun j hj => ?_⟩)
  have hn : m.Absent [Bytes.newline] := Marker.absent_of_openParen_not_mem (by decide)
  have hb : Bytes.isAlnum Bytes.newline = false ∧ Bytes.newline ≠ Bytes.openParen := by decide
  have hcut : Bytes.Apart tail [Bytes.newline] := .inr (by simpa using hb)
  obtain ⟨k, -, hk⟩ := (Marker.tokenAt_append_of_absent hcut ha).1 hj
  exact hn k hk

theorem tail_concat_newline (h : scan m (x ++ [Bytes.newline]) = ⟨pieces, tail, none⟩) :
    ∃ t, tail = t ++ [Bytes.newline] := by
  obtain ⟨hx, hv, -⟩ := segmentation_nil_iff.1 (scan_eq_iff.1 h)
  obtain rfl | ⟨t, b, rfl⟩ := List.eq_nil_or_concat tail
  · obtain rfl | ⟨ps, p, rfl⟩ := List.eq_nil_or_concat pieces
    · simp at hx
    · obtain ⟨z, hz⟩ := (hv p (by simp)).isInvocation.eq_concat
      have hlast := congrArg List.getLast? hx
      simp [hz] at hlast
      exact absurd hlast (by decide)
  · rw [List.concat_eq_append, ← List.append_assoc] at hx
    have := List.append_inj_right' hx rfl
    exact ⟨t, by rw [List.concat_eq_append, ← this]⟩

end Scan

namespace Literal

theorem count_newline_replacement (hash : Int) (span : Bytes) :
    (replacement hash span).count Bytes.newline = span.count Bytes.newline := by
  have ho : (opening hash).count Bytes.newline = 0 :=
    List.count_eq_zero.2 (not_mem_opening (by decide) (by decide) hash)
  have hc : closing.count Bytes.newline = 0 := by decide
  rw [replacement_eq, List.count_append, List.count_append, ho, hc]
  omega

end Literal

namespace Invocation

def lostBreaks (input : Bytes) (i : Invocation) : Nat :=
  ((input.take i.stop).drop i.start).count Bytes.newline - i.span.count Bytes.newline

theorem lostBreaks_of_standsIn {m : Marker} {hash : HashFunction} {input : Bytes} {i : Invocation}
    (h : i.StandsIn m hash input) :
    ∃ blank last : Bytes, (∀ b ∈ blank ++ last, Bytes.isSpace b = true) ∧
      (input.take i.stop).drop i.start =
        m.token ++ (blank ++ Bytes.quote :: (i.span ++ Bytes.quote :: (last ++ [Bytes.closeParen]))) ∧
      i.lostBreaks input = (blank ++ last).count Bytes.newline := by
  obtain ⟨blank, last, hspace, hsource, hcount⟩ := h.isInvocation.count_newline
  refine ⟨blank, last, hspace, hsource, ?_⟩
  unfold lostBreaks
  omega

theorem map_lostBreaks_ofPieces (hash : HashFunction) (before : Bytes) (pieces : List Piece)
    (tail : Bytes) :
    (ofPieces hash before.length pieces).map (lostBreaks (before ++ (bytes pieces ++ tail))) =
      pieces.map Piece.lostBreaks := by
  induction pieces generalizing before with
  | nil => rfl
  | cons p pieces ih =>
    have hlen : before.length + p.gap.length + p.source.length =
        (before ++ (p.gap ++ p.source)).length := by simp [Nat.add_assoc]
    have hin : before ++ (bytes (p :: pieces) ++ tail) =
        (before ++ (p.gap ++ p.source)) ++ (bytes pieces ++ tail) := by simp
    have hslice : ((before ++ (p.gap ++ p.source)).drop (before.length + p.gap.length)) = p.source := by
      rw [← List.append_assoc, ← List.length_append, List.drop_left]
    simp only [ofPieces, List.map_cons, hlen, hin, ih, lostBreaks, List.take_left, hslice]
    rfl

theorem ofPieces_scan_append {m : Marker} {x : Bytes} (hash : HashFunction)
    (hx : (Scan.scan m x).fault = none) (hp : x.Parted) (y : Bytes) :
    ofPieces hash 0 (Scan.scan m (x ++ y)).pieces =
      ofPieces hash 0 (Scan.scan m x).pieces ++
        (ofPieces hash 0 (Scan.scan m y).pieces).map (shift x.length) := by
  have hs := Scan.segmentation_of_fault_none hx
  have hlen : x.length = (bytes (Scan.scan m x).pieces).length + (Scan.scan m x).tail.length := by
    have := congrArg List.length hs.input_eq
    simpa using this
  rw [Scan.scan_append (Scan.scan_eq_iff.2 hs) hp, ofPieces_append, ofPieces_prepend,
    Nat.add_assoc, ← hlen, ofPieces_add]

end Invocation

namespace Preprocess

variable {m : Marker} {o : Options} {input x before line after : Bytes} {pieces : List Piece}

theorem count_newline_output (hash : HashFunction) (tail : Bytes) (f : Option Scan.Fault)
    (h : ∀ p ∈ pieces, IsInvocation m p.source p.span) :
    (bytes pieces ++ tail).count Bytes.newline =
      (output hash ⟨pieces, tail, f⟩).count Bytes.newline + (pieces.map Piece.lostBreaks).sum := by
  induction pieces with
  | nil => simp [output]
  | cons p pieces ih =>
    have hp := Piece.count_source (h p List.mem_cons_self)
    have ih := ih fun q hq => h q (List.mem_cons_of_mem p hq)
    simp only [Scan.bytes_cons, output_cons, List.count_append, List.map_cons, List.sum_cons,
      Literal.count_newline_replacement] at ih ⊢
    omega

theorem output_scan_append (hash : HashFunction) (hx : (Scan.scan m x).fault = none) (hp : x.Parted)
    (y : Bytes) :
    output hash (Scan.scan m (x ++ y)) =
      output hash (Scan.scan m x) ++ output hash (Scan.scan m y) := by
  have hs := Scan.scan_eq_iff.2 (Scan.segmentation_of_fault_none hx)
  rw [Scan.scan_append hs hp, output_append, ← hs]

theorem output_concat_newline (hash : HashFunction) (hx : (Scan.scan m x).fault = none) :
    output hash (Scan.scan m (x ++ [Bytes.newline])) =
      output hash (Scan.scan m x) ++ [Bytes.newline] := by
  have hs := Scan.scan_eq_iff.2 (Scan.segmentation_of_fault_none hx)
  rw [Scan.scan_concat_newline hs]
  simp [output]

theorem output_before_line (hash : HashFunction) (hl : Bytes.IsLine before line after)
    (hf : (Scan.scan m before).fault = none) :
    output hash (Scan.scan m before) = [] ∨
      ∃ x, output hash (Scan.scan m before) = x ++ [Bytes.newline] := by
  obtain rfl | ⟨x, rfl⟩ := hl.before
  · refine .inl ?_
    rw [Scan.scan_of_absent m.absent_nil]
    rfl
  · have hs := Scan.scan_eq_iff.2 (Scan.segmentation_of_fault_none hf)
    obtain ⟨t, ht⟩ := Scan.tail_concat_newline hs
    exact .inr ⟨_, by rw [output, ht, ← List.append_assoc]⟩

/-- A line that no invocation reaches across is rewritten by itself. -/
theorem output_line (hash : HashFunction) (hl : Bytes.IsLine before line after)
    (hf : (Scan.scan m (before ++ (line ++ after))).fault = none)
    (hi : ∀ i ∈ Invocation.ofPieces hash 0 (Scan.scan m (before ++ (line ++ after))).pieces,
      i.stop ≤ before.length ∨ before.length + line.length ≤ i.start ∨
        before.length ≤ i.start ∧ i.stop ≤ before.length + line.length) :
    (Scan.scan m before).fault = none ∧ (Scan.scan m line).fault = none ∧
      ∃ rest, output hash (Scan.scan m (before ++ (line ++ after))) =
        output hash (Scan.scan m before) ++ (output hash (Scan.scan m line) ++ rest) ∧
        (rest = [] ∨ ∃ y, rest = Bytes.newline :: y) := by
  have hb : (Scan.scan m before).fault = none := Scan.scan_of_cut hash hf fun i hmem => by
    have := hi i hmem
    omega
  have hscan := Scan.scan_append (Scan.scan_eq_iff.2 (Scan.segmentation_of_fault_none hb)) hl.parted
    (line ++ after)
  have hrest : (Scan.scan m (line ++ after)).fault = none := by rw [hscan] at hf; exact hf
  have hline : (Scan.scan m line).fault = none := by
    refine Scan.scan_of_cut hash hrest fun i hmem => ?_
    rw [Invocation.ofPieces_scan_append hash hb hl.parted] at hi
    have := hi (i.shift before.length) (List.mem_append_right _ (List.mem_map_of_mem hmem))
    simp only [Invocation.shift] at this
    omega
  refine ⟨hb, hline, ?_⟩
  rw [output_scan_append hash hb hl.parted]
  obtain rfl | ⟨y, rfl⟩ := hl.after
  · exact ⟨[], by simp, .inl rfl⟩
  · have hn : (Scan.scan m (line ++ [Bytes.newline])).fault = none := by
      rw [Scan.scan_concat_newline (Scan.scan_eq_iff.2 (Scan.segmentation_of_fault_none hline))]
    have hp : (line ++ [Bytes.newline]).Parted := by
      rw [Bytes.parted_concat]
      decide
    have hsplit : line ++ Bytes.newline :: y = (line ++ [Bytes.newline]) ++ y := by simp
    refine ⟨Bytes.newline :: output hash (Scan.scan m y), ?_, .inr ⟨_, rfl⟩⟩
    rw [hsplit, output_scan_append hash hn hp, output_concat_newline hash hline]
    simp

theorem fault_of_run {s : Success} (h : (run o none input).1 = .ok s) :
    (Scan.scan o.marker input).fault = none ∧ s = success o input (Scan.scan o.marker input) := by
  obtain ⟨pieces, tail, hs, rfl⟩ := exists_segmentation_of_run h
  rw [Scan.scan_eq_iff.2 hs]
  exact ⟨rfl, rfl⟩

theorem count_newline_run {s : Success} (h : (run o none input).1 = .ok s) :
    input.count Bytes.newline =
      s.output.count Bytes.newline + (s.invocations.map (Invocation.lostBreaks input)).sum := by
  obtain ⟨pieces, tail, hs, rfl⟩ := exists_segmentation_of_run h
  have hin : input = [] ++ (bytes pieces ++ tail) := by simpa using hs.input_eq
  have hlost := Invocation.map_lostBreaks_ofPieces o.hash [] pieces tail
  rw [← hin] at hlost
  simp only [success]
  rw [show Invocation.ofPieces o.hash 0 pieces = Invocation.ofPieces o.hash [].length pieces from rfl,
    hlost, hin, List.nil_append]
  exact count_newline_output o.hash tail none hs.isInvocation

/-- Before a cut between two gaps or lines stand the invocations of what is before it. -/
theorem filter_stop_le (hash : HashFunction) (hb : (Scan.scan m before).fault = none)
    (hp : before.Parted) (rest : Bytes) :
    (Invocation.ofPieces hash 0 (Scan.scan m (before ++ rest)).pieces).filter
        (fun i => i.stop ≤ before.length) = Invocation.ofPieces hash 0 (Scan.scan m before).pieces := by
  have hs := Scan.segmentation_of_fault_none hb
  rw [Invocation.ofPieces_scan_append hash hb hp, List.filter_append]
  have hfirst : ∀ i ∈ Invocation.ofPieces hash 0 (Scan.scan m before).pieces,
      decide (i.stop ≤ before.length) = true := by
    intro i hi
    have hstop := (Invocation.bounds_ofPieces hi).2
    have hlen := congrArg List.length hs.input_eq
    simp only [List.length_append, List.length_nil] at hlen
    simp only [decide_eq_true_eq]
    omega
  have hlater : ∀ i ∈ (Invocation.ofPieces hash 0 (Scan.scan m rest).pieces).map
      (Invocation.shift before.length), ¬ decide (i.stop ≤ before.length) = true := by
    intro i hi
    obtain ⟨j, hj, rfl⟩ := List.mem_map.1 hi
    have hne : ∀ p ∈ (Scan.scan m rest).pieces, p.source ≠ [] := fun p hmem =>
      ((Scan.scan_cases m rest).1 p hmem).isInvocation.ne_nil
    have hlt := Invocation.start_lt_stop_ofPieces hne hj
    rw [decide_eq_true_eq]
    simp only [Invocation.shift]
    omega
  rw [List.filter_eq_self.2 hfirst, List.filter_eq_nil_iff.2 hlater, List.append_nil]

/-- The number of a line falls by the newlines lost before it. -/
theorem count_newline_before (hash : HashFunction) (hb : (Scan.scan m before).fault = none)
    (hp : before.Parted) (rest : Bytes) :
    before.count Bytes.newline = (output hash (Scan.scan m before)).count Bytes.newline +
      (((Invocation.ofPieces hash 0 (Scan.scan m (before ++ rest)).pieces).filter
        (fun i => i.stop ≤ before.length)).map (Invocation.lostBreaks (before ++ rest))).sum := by
  have hs := Scan.segmentation_of_fault_none hb
  have hin : before = bytes (Scan.scan m before).pieces ++ (Scan.scan m before).tail := by
    simpa using hs.input_eq
  have hlost := Invocation.map_lostBreaks_ofPieces hash [] (Scan.scan m before).pieces
    ((Scan.scan m before).tail ++ rest)
  rw [List.nil_append, ← List.append_assoc, ← hin, List.length_nil] at hlost
  rw [filter_stop_le hash hb hp, hlost]
  have hc := count_newline_output hash (Scan.scan m before).tail none hs.isInvocation
  rwa [← hin] at hc

/-- An output has lost the newlines that its source has in the white space around literals, so the lines
of both agree in number exactly when there are none. A line that no invocation reaches across is
preprocessed as if it stood alone, and its number falls by the newlines lost before it. -/
theorem newlines_of_run {s : Success} (h : (run o none input).1 = .ok s) :
    input.count Bytes.newline =
      s.output.count Bytes.newline + (s.invocations.map (Invocation.lostBreaks input)).sum ∧
    (∀ i ∈ s.invocations, ∃ blank last : Bytes, (∀ b ∈ blank ++ last, Bytes.isSpace b = true) ∧
      (input.take i.stop).drop i.start = o.marker.token ++
        (blank ++ Bytes.quote :: (i.span ++ Bytes.quote :: (last ++ [Bytes.closeParen]))) ∧
      i.lostBreaks input = (blank ++ last).count Bytes.newline) ∧
    (s.output.count Bytes.newline = input.count Bytes.newline ↔
      ∀ i ∈ s.invocations, i.lostBreaks input = 0) ∧
    ∀ before line after, input = before ++ (line ++ after) → Bytes.IsLine before line after →
      (∀ i ∈ s.invocations, i.stop ≤ before.length ∨ before.length + line.length ≤ i.start ∨
        before.length ≤ i.start ∧ i.stop ≤ before.length + line.length) →
      ∃ t before' after', (run o none line).1 = .ok t ∧ s.output = before' ++ (t.output ++ after') ∧
        Bytes.IsLine before' t.output after' ∧
        before.count Bytes.newline = before'.count Bytes.newline +
          ((s.invocations.filter (fun i => i.stop ≤ before.length)).map
            (Invocation.lostBreaks input)).sum := by
  have hcount := count_newline_run h
  refine ⟨hcount, ?_, ?_, ?_⟩
  · intro i hi
    obtain ⟨pieces, tail, hs, rfl⟩ := exists_segmentation_of_run h
    exact Invocation.lostBreaks_of_standsIn (Invocation.standsIn_of_segmentation hs hi)
  · rw [hcount, Nat.left_eq_add, List.sum_eq_zero_iff_forall_eq_nat, List.forall_mem_map]
  · intro before line after hin hl hi
    obtain ⟨hf, rfl⟩ := fault_of_run h
    subst hin
    obtain ⟨hb, hline, rest, hout, hrest⟩ := output_line o.hash hl hf hi
    refine ⟨_, output o.hash (Scan.scan o.marker before), rest, run_of_fault_none hline, hout,
      ⟨output_before_line o.hash hl hb, ?_, hrest⟩, ?_⟩
    · -- What is rewritten of the line has no more newlines than the line.
      have hc := count_newline_run (run_of_fault_none (o := o) hline)
      rw [List.count_eq_zero.2 hl.line] at hc
      exact List.count_eq_zero.1 (by omega)
    · exact count_newline_before o.hash hb hl.parted (line ++ after)

def broken : Bytes := Utf8.encode "x=SID(\n\"a\");\ny=SID(\"b\");\n"

theorem newlines_of_run_broken :
    ∃ s t before' after', (run {} none broken).1 = .ok s ∧ s.output.count Bytes.newline = 2 ∧
      (run {} none (Utf8.encode "y=SID(\"b\");")).1 = .ok t ∧
      s.output = before' ++ (t.output ++ after') ∧ before'.count Bytes.newline = 1 := by
  have hf : (Scan.scan Marker.default broken).fault = none := by decide +kernel
  have hrun := run_of_fault_none (o := {}) hf
  obtain ⟨-, -, -, hlines⟩ := newlines_of_run hrun
  obtain ⟨t, before', after', ht, hout, -, hn⟩ := hlines (Utf8.encode "x=SID(\n\"a\");\n")
    (Utf8.encode "y=SID(\"b\");") (Utf8.encode "\n") (by decide +kernel)
    ⟨.inr ⟨Utf8.encode "x=SID(\n\"a\");", by decide +kernel⟩, by decide +kernel,
      .inr ⟨[], by decide +kernel⟩⟩ (by decide +kernel)
  refine ⟨_, t, before', after', hrun, by decide +kernel, ht, hout, ?_⟩
  have hbefore : (Utf8.encode "x=SID(\n\"a\");\n").count Bytes.newline = 2 := by decide +kernel
  have hlost : (((success {} broken (Scan.scan Marker.default broken)).invocations.filter
      (fun i => i.stop ≤ (Utf8.encode "x=SID(\n\"a\");\n").length)).map
        (Invocation.lostBreaks broken)).sum = 1 := by decide +kernel
  rw [hbefore, hlost] at hn
  omega

/-- A newline between the token and the literal is not in the output. -/
theorem newline_lost_before_literal :
    ¬ ∀ (o : Options) (input : Bytes) (s : Success), (run o none input).1 = .ok s →
      s.output.count Bytes.newline = input.count Bytes.newline := by
  intro h
  have hf : (Scan.scan Marker.default (Utf8.encode "SID(\n\"a\")")).fault = none := by decide +kernel
  have := h {} _ _ (run_of_fault_none hf)
  revert this
  decide +kernel

end Preprocess

end HashedLiterals
