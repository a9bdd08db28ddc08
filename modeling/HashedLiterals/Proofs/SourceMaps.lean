import HashedLiterals.Position
import HashedLiterals.Proofs.Collisions
import HashedLiterals.Proofs.SecondPass
import HashedLiterals.Proofs.Texts
import HashedLiterals.Proofs.Tracing
import Mathlib.Algebra.GroupWithZero.Nat
import Mathlib.Data.List.Induction

/-!
Maps of outputs. Main statement: the text of a map is read back as segments that stand exactly at the
bytes taken over and at the replacements of the output, and lead to where these come from in the source.
-/
set_option autoImplicit false

namespace HashedLiterals

open Scan (Piece Segmentation bytes)

namespace Location

/-- The location of an offset: the newlines before it, and the bytes behind the last of them. -/
def ofOffset (text : Bytes) (n : Nat) : Location :=
  ⟨(text.take n).count Bytes.newline, (Position.lastLine (text.take n)).length⟩

theorem passAll_start (text : Bytes) :
    start.passAll text = ⟨text.count Bytes.newline, (Position.lastLine text).length⟩ := by
  induction text using List.reverseRecOn with
  | nil => rfl
  | append_singleton text b ih =>
    rw [passAll_append, ih, List.count_append, passAll_cons, pass]
    by_cases hb : b = Bytes.newline
    · subst hb
      simp [passAll, Position.lastLine]
    · simp [passAll, Position.lastLine, hb, bne]

theorem passAll_take (text : Bytes) (n : Nat) : start.passAll (text.take n) = ofOffset text n :=
  passAll_start _

end Location

namespace Preprocess

variable {hash : HashFunction} {pieces before after : List Piece} {p : Piece} {tail g x : Bytes}
  {fault : Option Scan.Fault}

def chunks (hash : HashFunction) (s : Scan.Scanned) : List Chunk :=
  (s.pieces.flatMap fun p =>
    [.copied p.gap, .edited p.source (Literal.replacement (hash p.span) p.span)]) ++
    [.copied s.tail]

def rewritten (hash : HashFunction) (pieces : List Piece) : Bytes := output hash ⟨pieces, [], none⟩

def gapBefore (tail : Bytes) : List Piece → Bytes
  | [] => tail
  | p :: _ => p.gap

theorem rewritten_nil : rewritten hash [] = [] := rfl

@[simp] theorem rewritten_cons : rewritten hash (p :: pieces) =
    p.gap ++ (Literal.replacement (hash p.span) p.span ++ rewritten hash pieces) := by
  simp [rewritten, output]

theorem output_eq_rewritten : output hash ⟨pieces, tail, fault⟩ = rewritten hash pieces ++ tail := by
  simp [rewritten, output]

theorem rewritten_append : rewritten hash (before ++ after) =
    rewritten hash before ++ rewritten hash after := by
  simp [rewritten, output]

/-- Where the segments of an output stand: at the bytes of gaps, and at places in replacements. -/
theorem linksAll_chunks : Chunk.LinksAll (chunks hash ⟨pieces, tail, fault⟩) g x ↔
    (∃ before after y, pieces = before ++ after ∧ (Chunk.copied (gapBefore tail after)).Links y y ∧
      g = rewritten hash before ++ y ∧ x = bytes before ++ y) ∨
    ∃ before p after y, pieces = before ++ p :: after ∧
      (Chunk.edited p.source (Literal.replacement (hash p.span) p.span)).Links y [] ∧
      g = rewritten hash before ++ (p.gap ++ y) ∧ x = bytes before ++ p.gap := by
  induction pieces generalizing g x with
  | nil =>
    have hchunks : chunks hash ⟨[], tail, fault⟩ = [.copied tail] := rfl
    rw [hchunks]
    constructor
    · rintro (⟨rfl, hy⟩ | ⟨_, _, _, _, hf⟩)
      · exact .inl ⟨[], [], g, rfl, ⟨rfl, hy⟩, rfl, rfl⟩
      · cases hf
    · rintro (⟨before, after, y, hnil, hy, rfl, rfl⟩ | ⟨before, p, after, y, hnil, -⟩)
      · obtain ⟨rfl, rfl⟩ := List.append_eq_nil_iff.1 hnil.symm
        exact .inl hy
      · cases before <;> cases hnil
  | cons p pieces ih =>
    have hchunks : chunks hash ⟨p :: pieces, tail, fault⟩ = .copied p.gap ::
        .edited p.source (Literal.replacement (hash p.span) p.span) ::
          chunks hash ⟨pieces, tail, fault⟩ := rfl
    rw [hchunks]
    -- a segment stands in the first gap, in the first replacement, or behind both
    simp only [Chunk.LinksAll, ih]
    constructor
    · rintro (⟨rfl, hy⟩ | ⟨g', x', rfl, rfl, ⟨rfl, hy⟩ | ⟨g'', x'', rfl, rfl,
        ⟨before, after, y, rfl, hy, rfl, rfl⟩ | ⟨before, q, after, y, rfl, hy, rfl, rfl⟩⟩⟩)
      · exact .inl ⟨[], p :: pieces, g, rfl, ⟨rfl, hy⟩, rfl, rfl⟩
      · exact .inr ⟨[], p, pieces, g', rfl, ⟨rfl, hy⟩, rfl, by simp [Chunk.source]⟩
      · exact .inl ⟨p :: before, after, y, rfl, hy, by simp [Chunk.generated],
          by simp [Chunk.source]⟩
      · exact .inr ⟨p :: before, q, after, y, rfl, hy, by simp [Chunk.generated],
          by simp [Chunk.source]⟩
    · rintro (⟨before, after, y, hcons, hy, rfl, rfl⟩ | ⟨before, q, after, y, hcons, hy, rfl, rfl⟩)
      · cases before with
        | nil =>
          obtain rfl : p :: pieces = after := hcons
          exact .inl hy
        | cons r before =>
          obtain ⟨rfl, rfl⟩ := List.cons.inj hcons
          refine .inr ⟨_, _, ?_, ?_, .inr ⟨_, _, rfl, rfl, .inl ⟨before, after, y, rfl, hy, rfl, rfl⟩⟩⟩
          all_goals simp [Chunk.generated, Chunk.source]
      · cases before with
        | nil =>
          obtain ⟨rfl, rfl⟩ := List.cons.inj hcons
          exact .inr ⟨y, [], rfl, by simp [Chunk.source], .inl hy⟩
        | cons r before =>
          obtain ⟨rfl, rfl⟩ := List.cons.inj hcons
          refine .inr ⟨_, _, ?_, ?_,
            .inr ⟨_, _, rfl, rfl, .inr ⟨before, q, after, y, rfl, hy, rfl, rfl⟩⟩⟩
          all_goals simp [Chunk.generated, Chunk.source]

theorem exists_behind (before after : List Piece) (tail : Bytes) :
    ∃ rest, bytes (before ++ after) ++ tail = bytes before ++ (gapBefore tail after ++ rest) := by
  cases after with
  | nil => exact ⟨[], by simp [gapBefore]⟩
  | cons p after => exact ⟨p.source ++ (bytes after ++ tail), by simp [gapBefore, Scan.bytes]⟩

theorem exists_behind_rewritten (hash : HashFunction) (before after : List Piece) (tail : Bytes) :
    ∃ rest, rewritten hash (before ++ after) ++ tail =
      rewritten hash before ++ (gapBefore tail after ++ rest) := by
  rw [rewritten_append]
  cases after with
  | nil => exact ⟨[], by simp [gapBefore, rewritten_nil]⟩
  | cons p after =>
    exact ⟨Literal.replacement (hash p.span) p.span ++ (rewritten hash after ++ tail),
      by simp [gapBefore]⟩

theorem getElem?_behind {pre gap rest : Bytes} {n : Nat} (hn : n < gap.length) :
    (pre ++ (gap ++ rest))[pre.length + n]? = gap[n]? := by
  rw [List.getElem?_append_right (Nat.le_add_right _ _), Nat.add_sub_cancel_left,
    List.getElem?_append_left hn]

theorem take_behind {pre gap rest : Bytes} {n : Nat} (hn : n ≤ gap.length) :
    (pre ++ (gap ++ rest)).take (pre.length + n) = pre ++ gap.take n := by
  rw [List.take_length_add_append, List.take_append_of_le_length hn]

end Preprocess

namespace Invocation

variable {hash : HashFunction} {pieces before after : List Piece} {tail : Bytes} {offset n : Nat}
  {i : Invocation}

theorem le_start_ofPieces (tail : Bytes) (h : i ∈ ofPieces hash offset pieces) :
    offset + (Preprocess.gapBefore tail pieces).length ≤ i.start := by
  cases pieces with
  | nil => cases h
  | cons p pieces =>
    obtain rfl | hm := List.mem_cons.1 h
    · exact Nat.le_refl _
    · exact Nat.le_trans (Nat.le_add_right _ _) (bounds_ofPieces hm).1

theorem filter_ofPieces (hne : ∀ p ∈ after, p.source ≠ [])
    (hn : n ≤ (Preprocess.gapBefore tail after).length) :
    (ofPieces hash 0 (before ++ after)).filter (fun i => i.stop ≤ (bytes before).length + n) =
      ofPieces hash 0 before := by
  have hfirst : ∀ i ∈ ofPieces hash 0 before, decide (i.stop ≤ (bytes before).length + n) = true := by
    intro i hi
    have hstop := (bounds_ofPieces hi).2
    rw [decide_eq_true_eq]
    omega
  have hlater : ∀ i ∈ ofPieces hash (0 + (bytes before).length) after,
      ¬ decide (i.stop ≤ (bytes before).length + n) = true := by
    intro i hi
    have hstart := le_start_ofPieces tail hi
    have hlt := start_lt_stop_ofPieces hne hi
    rw [decide_eq_true_eq]
    omega
  rw [ofPieces_append, List.filter_append, List.filter_eq_self.2 hfirst, List.filter_eq_nil_iff.2 hlater,
    List.append_nil]

theorem length_rewritten (hash : HashFunction) (offset : Nat) (pieces : List Piece) :
    (Preprocess.rewritten hash pieces).length +
        ((ofPieces hash offset pieces).map fun i => i.stop - i.start).sum =
      (bytes pieces).length + ((ofPieces hash offset pieces).map (·.replacement.length)).sum := by
  induction pieces generalizing offset with
  | nil => rfl
  | cons p pieces ih =>
    have hr : Literal.replacement (Hash.word (hash p.span)).toNat p.span =
        Literal.replacement (hash p.span) p.span := by
      simp [Literal.replacement]
    have hrest := ih (offset + p.gap.length + p.source.length)
    simp only [replacement] at hrest
    simp only [ofPieces, List.map_cons, List.sum_cons, Preprocess.rewritten_cons, Scan.bytes_cons,
      List.length_append, replacement, hr]
    omega

theorem exists_gap (hash : HashFunction) (offset : Nat) {j : Nat} (hj : j < (bytes pieces ++ tail).length)
    (hgap : ∀ i ∈ ofPieces hash offset pieces, offset + j < i.start ∨ i.stop ≤ offset + j) :
    ∃ before after n, pieces = before ++ after ∧ j = (bytes before).length + n ∧
      n < (Preprocess.gapBefore tail after).length := by
  induction pieces generalizing offset j with
  | nil => exact ⟨[], [], j, rfl, by simp, hj⟩
  | cons p pieces ih =>
    by_cases hp : j < p.gap.length
    · exact ⟨[], p :: pieces, j, rfl, by simp, hp⟩
    · obtain ⟨hfirst, hrest⟩ := List.forall_mem_cons.1 hgap
      have hbehind : p.gap.length + p.source.length ≤ j := by
        simp only at hfirst
        omega
      simp only [Scan.bytes_cons, List.length_append] at hj
      have hoff : offset + p.gap.length + p.source.length + (j - (p.gap.length + p.source.length)) =
          offset + j := by omega
      obtain ⟨before, after, n, rfl, hjn, hn⟩ := ih (offset + p.gap.length + p.source.length)
        (j := j - (p.gap.length + p.source.length)) (by simp only [List.length_append]; omega)
        (fun i hi => by rw [hoff]; exact hrest i hi)
      refine ⟨p :: before, after, n, rfl, ?_, hn⟩
      simp only [Scan.bytes_cons, List.length_append]
      omega

end Invocation

namespace Preprocess

namespace Success

def InGap (s : Success) (j : Nat) : Prop := ∀ i ∈ s.invocations, j < i.start ∨ i.stop ≤ j

/-- Where what begins at an offset of the input begins in the output: the replacements before it take
the place of the invocations. -/
def outputOffset (s : Success) (j : Nat) : Nat :=
  let done := s.invocations.filter fun i => i.stop ≤ j
  j + (done.map (·.replacement.length)).sum - (done.map fun i => i.stop - i.start).sum

/-- What a map should say: a byte taken over leads to itself, and a replacement, at its start and
behind each newline, to the start of its invocation. -/
def Maps (s : Success) (input : Bytes) (generated source : Location) : Prop :=
  (∃ j b, input[j]? = some b ∧ b ≠ Bytes.newline ∧ s.InGap j ∧
    generated = .ofOffset s.output (s.outputOffset j) ∧ source = .ofOffset input j) ∨
  ∃ i ∈ s.invocations, ∃ k < i.replacement.length,
    (k = 0 ∨ i.replacement[k - 1]? = some Bytes.newline) ∧
    generated = .ofOffset s.output (s.outputOffset i.start + k) ∧ source = .ofOffset input i.start

end Success

variable {o : Options} {input tail : Bytes} {pieces before after : List Piece} {p : Piece} {n : Nat}
  {fault : Option Scan.Fault}

theorem invocations_success : (success o input ⟨pieces, tail, fault⟩).invocations =
    Invocation.ofPieces o.hash 0 pieces := rfl

theorem outputOffset_success (hne : ∀ p ∈ after, p.source ≠ [])
    (hn : n ≤ (gapBefore tail after).length) :
    (success o input ⟨before ++ after, tail, fault⟩).outputOffset ((bytes before).length + n) =
      (rewritten o.hash before).length + n := by
  have hlen := Invocation.length_rewritten o.hash 0 before
  rw [Success.outputOffset, invocations_success, Invocation.filter_ofPieces hne hn]
  omega

theorem inGap_success (hn : n < (gapBefore tail after).length) :
    (success o input ⟨before ++ after, tail, fault⟩).InGap ((bytes before).length + n) := by
  intro i hi
  rw [invocations_success, Invocation.ofPieces_append] at hi
  obtain hi | hi := List.mem_append.1 hi
  · have hstop := (Invocation.bounds_ofPieces hi).2
    exact .inr (by omega)
  · have hstart := Invocation.le_start_ofPieces tail hi
    exact .inl (by omega)

theorem output_success : (success o input ⟨pieces, tail, fault⟩).output =
    rewritten o.hash pieces ++ tail := output_eq_rewritten

theorem solid_replacement (h : Int) (source span : Bytes) :
    (Chunk.edited source (Literal.replacement h span)).Solid := by
  have hlast : (Literal.replacement h span).getLast? = some 0x2f := by
    rw [Literal.replacement_eq, List.getLast?_append, List.getLast?_append]
    rfl
  refine ⟨fun he => ?_, by rw [hlast]; decide⟩
  rw [he] at hlast
  cases hlast

theorem generated_chunks (hash : HashFunction) (s : Scan.Scanned) :
    (chunks hash s).flatMap Chunk.generated = output hash s := by
  simp only [chunks, output, List.flatMap_append, List.flatMap_assoc, List.flatMap_cons, List.flatMap_nil,
    Chunk.generated, List.append_nil]

theorem ofOffset_input (before : List Piece) (hn : n ≤ (gapBefore tail after).length) :
    Location.ofOffset (bytes (before ++ after) ++ tail) ((bytes before).length + n) =
      Location.start.passAll (bytes before ++ (gapBefore tail after).take n) := by
  obtain ⟨rest, hrest⟩ := exists_behind before after tail
  rw [hrest, ← Location.passAll_take, take_behind hn]

theorem ofOffset_output (hne : ∀ p ∈ after, p.source ≠ []) (hn : n ≤ (gapBefore tail after).length) :
    let s := success o input ⟨before ++ after, tail, fault⟩
    Location.ofOffset s.output (s.outputOffset ((bytes before).length + n)) =
      Location.start.passAll (rewritten o.hash before ++ (gapBefore tail after).take n) := by
  dsimp only
  obtain ⟨rest, hrest⟩ := exists_behind_rewritten o.hash before after tail
  rw [outputOffset_success hne hn, output_success, hrest, ← Location.passAll_take, take_behind hn]

theorem output_replacement (o : Options) (before after : List Piece) (p : Piece) (tail : Bytes) :
    rewritten o.hash (before ++ p :: after) ++ tail = (rewritten o.hash before ++ p.gap) ++
      (Literal.replacement (o.hash p.span) p.span ++ (rewritten o.hash after ++ tail)) := by
  simp [rewritten_append]

theorem outputOffset_start (hne : ∀ q ∈ p :: after, q.source ≠ []) :
    (success o input ⟨before ++ p :: after, tail, fault⟩).outputOffset
      ((bytes before).length + p.gap.length) = (rewritten o.hash before ++ p.gap).length := by
  exact (outputOffset_success hne (Nat.le_refl p.gap.length)).trans List.length_append.symm

theorem ofOffset_start : Location.ofOffset (bytes (before ++ p :: after) ++ tail)
    ((bytes before).length + p.gap.length) = Location.start.passAll (bytes before ++ p.gap) := by
  have hlen : p.gap.length ≤ (gapBefore tail (p :: after)).length := Nat.le_refl _
  rw [ofOffset_input before hlen]
  simp [gapBefore]

theorem ofOffset_replacement {k : Nat} (hne : ∀ q ∈ p :: after, q.source ≠ [])
    (hk : k ≤ (Literal.replacement (o.hash p.span) p.span).length) :
    let s := success o input ⟨before ++ p :: after, tail, fault⟩
    Location.ofOffset s.output (s.outputOffset ((bytes before).length + p.gap.length) + k) =
      Location.start.passAll (rewritten o.hash before ++
        (p.gap ++ (Literal.replacement (o.hash p.span) p.span).take k)) := by
  dsimp only
  rw [outputOffset_start hne, output_success, output_replacement, ← Location.passAll_take,
    take_behind hk, List.append_assoc]

theorem replacement_word (hash : HashFunction) (span : Bytes) :
    Literal.replacement (Hash.word (hash span)).toNat span = Literal.replacement (hash span) span := by
  simp [Literal.replacement]

/-- The edits, which only know offsets, cut the source where the scan did. -/
theorem chunks_edits (hash : HashFunction) (offset : Nat) (pieces : List Piece) (tail : Bytes)
    (fault : Option Scan.Fault) :
    Edit.chunks (bytes pieces ++ tail) offset ((Invocation.ofPieces hash offset pieces).map Invocation.edit) =
      chunks hash ⟨pieces, tail, fault⟩ := by
  induction pieces generalizing offset with
  | nil => rfl
  | cons p pieces ih =>
    have hrest := ih (offset + p.gap.length + p.source.length)
    have hgap : offset + p.gap.length - offset = p.gap.length := by omega
    have hsource : offset + p.gap.length + p.source.length - (offset + p.gap.length) = p.source.length := by
      omega
    simp only [Invocation.ofPieces, List.map_cons, Invocation.edit, Edit.chunks, Scan.bytes_cons,
      List.append_assoc, hgap, hsource, List.take_left, List.drop_left, hrest, Invocation.replacement,
      replacement_word]
    rfl

theorem solid_edits (hash : HashFunction) (offset : Nat) (pieces : List Piece) :
    ∀ e ∈ (Invocation.ofPieces hash offset pieces).map Invocation.edit, e.Solid := by
  intro e he
  obtain ⟨i, -, rfl⟩ := List.mem_map.1 he
  exact solid_replacement _ [] _

theorem ordered_edits (hs : Segmentation o.marker input pieces tail []) :
    Edit.Ordered input ((Invocation.ofPieces o.hash 0 pieces).map Invocation.edit) where
  inside := by
    have hin := hs.eq_append
    intro e he
    obtain ⟨i, hi, rfl⟩ := List.mem_map.1 he
    have hstop := (Invocation.bounds_ofPieces hi).2
    refine ⟨Invocation.start_lt_stop_ofPieces hs.source_ne_nil hi, ?_⟩
    rw [hin, List.length_append]
    simp only [Invocation.edit]
    omega
  pairwise := List.pairwise_map.2 (Invocation.pairwise_ofPieces o.hash 0 pieces)

theorem links_edited_iff {source r y : Bytes} (h : (Chunk.edited source r).Solid) :
    (Chunk.edited source r).Links y [] ↔
      ∃ k < r.length, (k = 0 ∨ r[k - 1]? = some Bytes.newline) ∧ y = r.take k := by
  constructor
  · rintro ⟨-, ⟨rest, rfl⟩, hy⟩
    have hrest : rest ≠ [] := by
      rintro rfl
      obtain ⟨hne, hlast⟩ := h
      rw [List.append_nil] at hlast hne
      exact hy.elim hne hlast
    have hlen := List.length_pos_iff.2 hrest
    refine ⟨y.length, by rw [List.length_append]; omega, ?_, by simp⟩
    obtain rfl | hy := hy
    · exact .inl rfl
    · by_cases h0 : y.length = 0
      · exact .inl h0
      · rw [List.getLast?_eq_getElem?] at hy
        exact .inr (by rw [List.getElem?_append_left (by omega), hy])
  · rintro ⟨k, hk, hstart, rfl⟩
    refine ⟨rfl, List.take_prefix _ _, ?_⟩
    obtain rfl | hstart := hstart
    · exact .inl rfl
    · by_cases h0 : k = 0
      · exact .inl (by rw [h0, List.take_zero])
      · refine .inr ?_
        rw [List.getLast?_eq_getElem?, List.length_take, Nat.min_eq_left (Nat.le_of_lt hk),
          List.getElem?_take_of_lt (by omega), hstart]

variable {g x : Bytes}

theorem maps_of_linksAll (hs : Segmentation o.marker input pieces tail [])
    (hl : Chunk.LinksAll (chunks o.hash ⟨pieces, tail, fault⟩) g x) :
    (success o input ⟨pieces, tail, fault⟩).Maps input (Location.start.passAll g)
      (Location.start.passAll x) := by
  have hin := hs.eq_append
  have hne := hs.source_ne_nil
  obtain ⟨before, after, y, rfl, ⟨-, b, rest, hy, hb⟩, rfl, rfl⟩ |
    ⟨before, r, after, y, rfl, hy, rfl, rfl⟩ := linksAll_chunks.1 hl
  · have hn : y.length < (gapBefore tail after).length := by simp [hy]
    have htake : (gapBefore tail after).take y.length = y := by simp [hy]
    have hafter : ∀ r ∈ after, r.source ≠ [] := fun r hr => hne r (List.mem_append_right _ hr)
    refine .inl ⟨(bytes before).length + y.length, b, ?_, hb, inGap_success hn, ?_, ?_⟩
    · obtain ⟨more, hmore⟩ := exists_behind before after tail
      rw [hin, hmore, getElem?_behind hn, hy]
      simp
    · rw [ofOffset_output hafter (Nat.le_of_lt hn), htake]
    · rw [hin, ofOffset_input _ (Nat.le_of_lt hn), htake]
  · have hafter : ∀ q ∈ r :: after, q.source ≠ [] := fun q hq => hne q (List.mem_append_right _ hq)
    obtain ⟨k, hk, hstart, rfl⟩ := (links_edited_iff (solid_replacement _ _ _)).1 hy
    have hi := Invocation.getElem?_ofPieces o.hash 0 before after r
    simp only [Nat.zero_add] at hi
    refine .inr ⟨_, List.mem_of_getElem? hi, k, ?_, ?_, ?_, ?_⟩
    · simpa only [Invocation.replacement, replacement_word] using hk
    · simpa only [Invocation.replacement, replacement_word] using hstart
    · exact (ofOffset_replacement hafter (Nat.le_of_lt hk)).symm
    · rw [hin, ofOffset_start]

theorem linksAll_of_maps (hs : Segmentation o.marker input pieces tail []) {generated source : Location}
    (hm : (success o input ⟨pieces, tail, fault⟩).Maps input generated source) :
    ∃ g x, Chunk.LinksAll (chunks o.hash ⟨pieces, tail, fault⟩) g x ∧
      Location.start.passAll g = generated ∧ Location.start.passAll x = source := by
  have hin := hs.eq_append
  have hne := hs.source_ne_nil
  obtain ⟨j, b, hj, hb, hgap, rfl, rfl⟩ | ⟨i, hi, k, hk, hstart, rfl, rfl⟩ := hm
  · -- the offset lies in a gap, so the byte there begins what is left of that gap
    have hlt : j < (bytes pieces ++ tail).length := by
      rw [← hin]
      exact (List.getElem?_eq_some_iff.1 hj).1
    obtain ⟨before, after, n, rfl, rfl, hn⟩ := Invocation.exists_gap o.hash 0 hlt
      (by simpa [Success.InGap, invocations_success] using hgap)
    have hafter : ∀ r ∈ after, r.source ≠ [] := fun r hr => hne r (List.mem_append_right _ hr)
    have hb' : (gapBefore tail after)[n]? = some b := by
      obtain ⟨more, hmore⟩ := exists_behind before after tail
      rw [← hj, hin, hmore, getElem?_behind hn]
    have hsplit : gapBefore tail after =
        (gapBefore tail after).take n ++ b :: (gapBefore tail after).drop (n + 1) := by
      obtain ⟨_, rfl⟩ := List.getElem?_eq_some_iff.1 hb'
      rw [List.getElem_cons_drop, List.take_append_drop]
    refine ⟨_, _, linksAll_chunks.2 (.inl ⟨before, after, (gapBefore tail after).take n, rfl,
      ⟨rfl, b, _, hsplit, hb⟩, rfl, rfl⟩), ?_, ?_⟩
    · exact (ofOffset_output hafter (Nat.le_of_lt hn)).symm
    · rw [hin, ofOffset_input _ (Nat.le_of_lt hn)]
  · rw [invocations_success] at hi
    obtain ⟨before, r, after, rfl, rfl⟩ := Invocation.mem_ofPieces hi
    simp only [Invocation.replacement, replacement_word] at hk hstart
    have hafter : ∀ q ∈ r :: after, q.source ≠ [] := fun q hq => hne q (List.mem_append_right _ hq)
    have hy := (links_edited_iff (solid_replacement (o.hash r.span) r.source r.span)).2
      ⟨k, hk, hstart, rfl⟩
    refine ⟨_, _, linksAll_chunks.2 (.inr ⟨before, r, after, _, rfl, hy, rfl, rfl⟩), ?_, ?_⟩
    · simp only [Nat.zero_add]
      exact (ofOffset_replacement hafter (Nat.le_of_lt hk)).symm
    · simp only [Nat.zero_add]
      rw [hin, ofOffset_start]

/-- Bytes of gaps and replacements stand where they are said to. -/
theorem getElem?_outputOffset (hs : Segmentation o.marker input pieces tail []) :
    let s := success o input ⟨pieces, tail, fault⟩
    (∀ j < input.length, s.InGap j → s.output[s.outputOffset j]? = input[j]?) ∧
      ∀ i ∈ s.invocations, ∀ k < i.replacement.length,
        s.output[s.outputOffset i.start + k]? = i.replacement[k]? := by
  have hin := hs.eq_append
  have hne := hs.source_ne_nil
  dsimp only
  constructor
  · intro j hj hgap
    obtain ⟨before, after, n, rfl, rfl, hn⟩ := Invocation.exists_gap o.hash 0 (hin ▸ hj)
      (by simpa [Success.InGap, invocations_success] using hgap)
    have hafter : ∀ r ∈ after, r.source ≠ [] := fun r hr => hne r (List.mem_append_right _ hr)
    obtain ⟨more, hmore⟩ := exists_behind before after tail
    obtain ⟨rest, hrest⟩ := exists_behind_rewritten o.hash before after tail
    rw [outputOffset_success hafter (Nat.le_of_lt hn), output_success, hrest, getElem?_behind hn, hin,
      hmore, getElem?_behind hn]
  · intro i hi k hk
    rw [invocations_success] at hi
    obtain ⟨before, r, after, rfl, rfl⟩ := Invocation.mem_ofPieces hi
    have hafter : ∀ q ∈ r :: after, q.source ≠ [] := fun q hq => hne q (List.mem_append_right _ hq)
    simp only [Invocation.replacement, replacement_word] at hk ⊢
    simp only [Nat.zero_add]
    rw [outputOffset_start hafter, output_success, output_replacement, getElem?_behind hk]

/-- A map that is asked for is read back as the segments that it should have, and no others. -/
theorem map_of_run {s : Success} {registry registry' : Option Registry} (hires : o.mapper.Hires)
    (h : run o registry input = (.ok s, registry')) (hc : s.changed = true)
    (hmap : o.sourceMap = true) :
    (∃ m lines, s.map = some m ∧ Mappings.read m.mappings = some lines ∧
      lines.length = s.output.count Bytes.newline + 1 ∧
      (∀ line ∈ lines, line.Pairwise fun a b => a.column < b.column) ∧
      ∀ generated source, Mappings.Has lines generated source ↔ s.Maps input generated source) ∧
    (∀ j < input.length, s.InGap j → s.output[s.outputOffset j]? = input[j]?) ∧
    ∀ i ∈ s.invocations, ∀ k < i.replacement.length,
      s.output[s.outputOffset i.start + k]? = i.replacement[k]? := by
  obtain ⟨pieces, tail, hs, hsuccess⟩ := exists_segmentation_of_run (run_none_of_ok h)
  have hin := hs.eq_append
  have hpieces : (!pieces.isEmpty) = true := by
    rw [hsuccess] at hc
    exact hc
  let edits := (Invocation.ofPieces o.hash 0 pieces).map Invocation.edit
  have hwritten : s.map = some (.generate o.mapper input edits o.fileName) := by
    rw [hsuccess, success]
    simp only [hmap, hpieces, Bool.and_self, if_true]
    rfl
  obtain ⟨lines, hread, htraces⟩ := hires input edits o.fileName (ordered_edits hs)
    (solid_edits o.hash 0 pieces)
  have hchunks : Edit.chunks input 0 edits = chunks o.hash ⟨pieces, tail, none⟩ := by
    rw [hin]
    exact chunks_edits o.hash 0 pieces tail none
  rw [hchunks] at htraces
  refine ⟨⟨_, lines, hwritten, hread, ?_, htraces.ascending, fun p q => ?_⟩, ?_⟩
  · rw [htraces.length, generated_chunks, hsuccess]
    rfl
  · rw [hsuccess, htraces.has_iff]
    refine ⟨?_, linksAll_of_maps hs⟩
    rintro ⟨g, x, hl, rfl, rfl⟩
    exact maps_of_linksAll hs hl
  · rw [hsuccess]
    exact getElem?_outputOffset hs

theorem map_of_run_across_lines :
    let o : Options := { sourceMap := true }
    let input := Utf8.encode "a\nSID( \"p\nq\")+SID(\"r\")"
    o.mapper.Hires ∧ ∃ s m lines, run o none input = (.ok s, none) ∧ s.map = some m ∧
      Mappings.read m.mappings = some lines ∧
      (∀ generated source, Mappings.Has lines generated source ↔ s.Maps input generated source) ∧
      m.mappings = "AAAA;AACA;AAAA,KACG,CAAC" ∧
      lines = [[⟨0, 0, 0⟩], [⟨0, 1, 0⟩], [⟨0, 1, 0⟩, ⟨5, 2, 3⟩, ⟨6, 2, 4⟩]] := by
  intro o input
  have hchanged : ((run o none input).1.toOption.any (·.changed)) = true := by decide +kernel
  obtain ⟨s, hs, hc⟩ := Command.exists_eq_ok hchanged
  have hrun : run o none input = (.ok s, none) := by
    refine Prod.ext hs ?_
    rw [run]
    split <;> rfl
  have hires : o.mapper.Hires := SourceMap.Mapper.hires_standard
  obtain ⟨⟨m, lines, hm, hread, -, -, hall⟩, -⟩ := map_of_run hires hrun hc rfl
  have htext : ((run o none input).1.toOption.bind (·.map)).map (·.mappings) =
      some "AAAA;AACA;AAAA,KACG,CAAC" := by decide +kernel
  have hlines : Mappings.read "AAAA;AACA;AAAA,KACG,CAAC" =
      some [[⟨0, 0, 0⟩], [⟨0, 1, 0⟩], [⟨0, 1, 0⟩, ⟨5, 2, 3⟩, ⟨6, 2, 4⟩]] := by decide +kernel
  rw [hs] at htext
  have hmappings : m.mappings = "AAAA;AACA;AAAA,KACG,CAAC" := by
    simpa [Except.toOption, hm] using htext
  refine ⟨hires, s, m, lines, hrun, hm, hread, hall, hmappings, ?_⟩
  rw [hmappings, hlines] at hread
  exact (Option.some.inj hread).symm

end Preprocess

end HashedLiterals
