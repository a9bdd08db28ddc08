import Mathlib.Data.List.Forall2
import HashedLiterals.Proofs.Collisions
import HashedLiterals.Proofs.SecondPass

/-!
Reading an output back. Main statement: a replacement gives back its hash and its literal whatever
follows it, so an output and the offsets of its invocations determine the gaps and the literals of the
source; sources that agree in both differ only in the white space inside invocations.
-/
set_option autoImplicit false

namespace HashedLiterals

open Scan (Piece Segmentation IsInvocation bytes)

def Bytes.behind? (start text : Bytes) : Option Bytes :=
  if start.isPrefixOf text then some (text.drop start.length) else none

theorem Bytes.behind?_append (start rest : Bytes) : Bytes.behind? start (start ++ rest) = some rest := by
  simp [behind?]

namespace Hash

def digit? (b : UInt8) : Option Nat :=
  if 0x30 ≤ b ∧ b ≤ 0x39 then some (b.toNat - 0x30)
  else if 0x61 ≤ b ∧ b ≤ 0x66 then some (b.toNat - 0x57)
  else none

def readDigits : Nat → Nat → Bytes → Option (Nat × Bytes)
  | 0, n, rest => some (n, rest)
  | _ + 1, _, [] => none
  | k + 1, n, b :: rest => (digit? b).bind fun d => readDigits k (n * 16 + d) rest

theorem digit?_digitChar {d : Nat} (h : d < 16) : digit? (Nat.digitChar d).toNat.toUInt8 = some d := by
  revert d
  decide

theorem readDigits_hexDigits (k n start : Nat) (rest : Bytes) :
    readDigits k start (Bytes.ofChars (hexDigits k n) ++ rest) =
      some (start * Nat.pow 16 k + n % Nat.pow 16 k, rest) := by
  induction k generalizing start with
  | zero => simp [readDigits, hexDigits, Bytes.ofChars, Nat.mod_one]
  | succ k ih =>
    have hd : n / Nat.pow 16 k % 16 < 16 := Nat.mod_lt _ (by decide)
    have hvalue : (start * 16 + n / Nat.pow 16 k % 16) * Nat.pow 16 k + n % Nat.pow 16 k =
        start * Nat.pow 16 (k + 1) + n % Nat.pow 16 (k + 1) := by
      simp only [Nat.pow_eq]
      rw [Nat.mod_pow_succ, Nat.add_mul, Nat.mul_assoc, ← Nat.pow_add_one', Nat.mul_comm (16 ^ k)]
      omega
    rw [← hvalue, ← ih]
    simp only [hexDigits, Bytes.ofChars, List.map_cons, List.cons_append, readDigits,
      digit?_digitChar hd, Option.bind_some]

end Hash

namespace Literal

variable {span : Bytes}

def readReplacement (text : Bytes) : Option (UInt32 × Bytes × Bytes) := do
  let text ← Bytes.behind? (Bytes.ofChars "0x".toList) text
  let (n, text) ← Hash.readDigits 8 0 text
  let text ← Bytes.behind? (Bytes.ofChars " /* \"".toList) text
  let (span, text) ← read text
  let text ← Bytes.behind? (Bytes.ofChars " */".toList) text
  pure (UInt32.ofNat n, span, text)

theorem readReplacement_replacement (hash : Int) (h : IsSpan span) (rest : Bytes) :
    readReplacement (replacement hash span ++ rest) = some (Hash.word hash, span, rest) := by
  have hc : closing = Bytes.quote :: Bytes.ofChars " */".toList := rfl
  have hsplit : replacement hash span ++ rest = Bytes.ofChars "0x".toList ++
      (Bytes.ofChars (Hash.hexDigits 8 (Hash.word hash).toNat) ++ (Bytes.ofChars " /* \"".toList ++
        (span ++ Bytes.quote :: (Bytes.ofChars " */".toList ++ rest)))) := by
    have ho : opening hash = Bytes.ofChars "0x".toList ++
        (Bytes.ofChars (Hash.hexDigits 8 (Hash.word hash).toNat) ++ Bytes.ofChars " /* \"".toList) := rfl
    rw [replacement_eq, ho, hc]
    simp only [List.append_assoc, List.cons_append]
  have hdigits : 0 * Nat.pow 16 8 + (Hash.word hash).toNat % Nat.pow 16 8 = (Hash.word hash).toNat := by
    have := (Hash.word hash).toNat_lt
    rw [Nat.pow_eq]
    omega
  rw [hsplit]
  simp only [readReplacement, Bytes.behind?_append, Hash.readDigits_hexDigits, hdigits, h.read,
    Option.bind_eq_bind, Option.bind_some, UInt32.ofNat_toNat]
  rfl

end Literal

namespace Scan

/-- Two pieces that differ at most in the white space of their invocations, of which they have equally
much. -/
structure Piece.Respaced (m : Marker) (p q : Piece) : Prop where
  gap : q.gap = p.gap
  span : q.span = p.span
  length_source : q.source.length = p.source.length
  source : ∃ blank last blank' last' : Bytes,
    (∀ b ∈ blank ++ last ++ (blank' ++ last'), Bytes.isSpace b = true) ∧
    p.source = m.token ++ (blank ++ Bytes.quote :: (p.span ++ Bytes.quote :: (last ++ [Bytes.closeParen]))) ∧
    q.source = m.token ++ (blank' ++ Bytes.quote :: (p.span ++ Bytes.quote :: (last' ++ [Bytes.closeParen])))

def Respaced (m : Marker) (x y : Bytes) : Prop :=
  ∃ ps qs tail, Segmentation m x ps tail [] ∧ Segmentation m y qs tail [] ∧
    List.Forall₂ (Piece.Respaced m) ps qs

theorem Piece.respaced_of_isInvocation {m : Marker} {p q : Piece} (hp : IsInvocation m p.source p.span)
    (hq : IsInvocation m q.source q.span) (hgap : q.gap = p.gap) (hspan : q.span = p.span)
    (hlength : q.source.length = p.source.length) : p.Respaced m q := by
  obtain ⟨_, ⟨blank, last, hb, hl, -, rfl⟩, hsource⟩ := hp
  obtain ⟨_, ⟨blank', last', hb', hl', -, rfl⟩, hsource'⟩ := hq
  refine ⟨hgap, hspan, hlength, blank, last, blank', last', ?_, hsource, hspan ▸ hsource'⟩
  intro b hmem
  simp only [List.mem_append] at hmem
  obtain (h | h) | h | h := hmem
  · exact hb b h
  · exact hl b h
  · exact hb' b h
  · exact hl' b h

end Scan

namespace Preprocess

variable {o o' : Options} {registry registry' : Option Registry} {input input' tail : Bytes}
  {s s' : Success} {ps qs : List Piece}

/-- What an output shows of a piece. -/
structure Kept where
  gap : Bytes
  hash : UInt32
  span : Bytes
  deriving DecidableEq, Repr

def Kept.ofPiece (hash : HashFunction) (p : Piece) : Kept := ⟨p.gap, Hash.word (hash p.span), p.span⟩

def bounds (i : Invocation) : Nat × Nat := (i.start, i.stop)

/-- Reads an output back by the bounds that the invocations have in the source: the distance from the end
of one to the start of the next is the length of the gap between them. -/
def recover (offset : Nat) (output : Bytes) : List (Nat × Nat) → Option (List Kept × Bytes)
  | [] => some ([], output)
  | (start, stop) :: rest => do
    let (hash, span, after) ← Literal.readReplacement (output.drop (start - offset))
    let (more, tail) ← recover stop after rest
    pure (⟨output.take (start - offset), hash, span⟩ :: more, tail)

theorem recover_output (hash : HashFunction) (offset : Nat) (h : ∀ p ∈ ps, Literal.IsSpan p.span)
    (tail : Bytes) (f : Option Scan.Fault) :
    recover offset (output hash ⟨ps, tail, f⟩) ((Invocation.ofPieces hash offset ps).map bounds) =
      some (ps.map (Kept.ofPiece hash), tail) := by
  induction ps generalizing offset with
  | nil => rfl
  | cons p ps ih =>
    have ih := ih (offset + p.gap.length + p.source.length) fun q hq => h q (List.mem_cons_of_mem p hq)
    have hread := Literal.readReplacement_replacement (hash p.span) (h p List.mem_cons_self)
      (output hash ⟨ps, tail, f⟩)
    rw [output_cons]
    simp only [Invocation.ofPieces, List.map_cons, bounds, recover, Nat.add_sub_cancel_left,
      List.take_left, List.drop_left, hread]
    simp only [Option.bind_eq_bind, Option.bind_some]
    rw [ih]
    rfl

theorem respaced_of_kept_eq {m : Marker} {hash hash' : HashFunction} {offset : Nat}
    (hp : ∀ p ∈ ps, IsInvocation m p.source p.span) (hq : ∀ q ∈ qs, IsInvocation m q.source q.span)
    (hkept : qs.map (Kept.ofPiece hash') = ps.map (Kept.ofPiece hash))
    (hbounds : (Invocation.ofPieces hash' offset qs).map bounds =
      (Invocation.ofPieces hash offset ps).map bounds) :
    List.Forall₂ (Piece.Respaced m) ps qs := by
  induction ps generalizing qs offset with
  | nil =>
    obtain rfl := List.map_eq_nil_iff.1 hkept
    exact .nil
  | cons p ps ih =>
    obtain ⟨q, qs, rfl, hfirst, hrest⟩ := List.map_eq_cons_iff.1 hkept
    simp only [Kept.ofPiece, Kept.mk.injEq] at hfirst
    simp only [Invocation.ofPieces, List.map_cons, List.cons.injEq, bounds, Prod.mk.injEq] at hbounds
    obtain ⟨⟨hstart, hstop⟩, hmore⟩ := hbounds
    have hlength : q.source.length = p.source.length := by omega
    refine .cons ?_ (ih (fun r hr => hp r (List.mem_cons_of_mem p hr))
      (fun r hr => hq r (List.mem_cons_of_mem q hr)) hrest (hstop ▸ hmore))
    exact Scan.Piece.respaced_of_isInvocation (hp p List.mem_cons_self) (hq q List.mem_cons_self)
      hfirst.1 hfirst.2.2 hlength

theorem recover_of_segmentation (hs : Segmentation o.marker input ps tail []) :
    recover 0 (success o input ⟨ps, tail, none⟩).output
        ((success o input ⟨ps, tail, none⟩).invocations.map bounds) =
      some (ps.map (Kept.ofPiece o.hash), tail) :=
  recover_output o.hash 0 (fun p hp => (hs.isInvocation p hp).isSpan) tail none

theorem respaced_of_run (h : (run o registry input).1 = .ok s) (h' : (run o' registry' input').1 = .ok s')
    (hm : o'.marker = o.marker) (houtput : s'.output = s.output)
    (hbounds : s'.invocations.map bounds = s.invocations.map bounds) :
    Scan.Respaced o.marker input input' := by
  obtain ⟨ps, tail, hs, rfl⟩ := exists_segmentation_of_run (run_none_of_ok (Prod.ext h rfl))
  obtain ⟨qs, tail', hs', rfl⟩ := exists_segmentation_of_run (run_none_of_ok (Prod.ext h' rfl))
  have hsame : some (qs.map (Kept.ofPiece o'.hash), tail') = some (ps.map (Kept.ofPiece o.hash), tail) := by
    rw [← recover_of_segmentation hs, ← recover_of_segmentation hs', houtput, hbounds]
  simp only [Option.some.injEq, Prod.mk.injEq] at hsame
  obtain ⟨hkept, rfl⟩ := hsame
  rw [hm] at hs'
  exact ⟨ps, qs, tail', hs, hs', respaced_of_kept_eq hs.isInvocation hs'.isInvocation hkept hbounds⟩

/-- A replacement gives back the residue of its hash modulo 2 ^ 32 and its literal, whatever the literal
holds and whatever follows. So an output is read back, by the bounds of its invocations, into the gaps
and the literals of the source, and sources with the same output and bounds differ only in the white
space inside invocations. -/
theorem replacement_lossless :
    (∀ (hash : Int) (span rest : Bytes), Literal.IsSpan span →
      Literal.readReplacement (Literal.replacement hash span ++ rest) =
        some (Hash.word hash, span, rest) ∧
      ((Hash.word hash).toNat : Int) = hash % 4294967296) ∧
    ∀ (o : Options) (registry : Option Registry) (input : Bytes) (s : Success),
      (run o registry input).1 = .ok s →
      (∃ pieces tail, Segmentation o.marker input pieces tail [] ∧
        recover 0 s.output (s.invocations.map bounds) =
          some (pieces.map (Kept.ofPiece o.hash), tail)) ∧
      ∀ (o' : Options) (registry' : Option Registry) (input' : Bytes) (s' : Success),
        (run o' registry' input').1 = .ok s' → o'.marker = o.marker → s'.output = s.output →
        s'.invocations.map bounds = s.invocations.map bounds →
        Scan.Respaced o.marker input input' := by
  refine ⟨fun hash span rest h => ?_, fun o registry input s h => ⟨?_, ?_⟩⟩
  · exact ⟨Literal.readReplacement_replacement hash h rest, Hash.toNat_word hash⟩
  · obtain ⟨ps, tail, hs, rfl⟩ := exists_segmentation_of_run (run_none_of_ok (Prod.ext h rfl))
    exact ⟨ps, tail, hs, recover_of_segmentation hs⟩
  · exact fun o' registry' input' s' h' => respaced_of_run h h'

/-- Two sources with the same literal, which holds a whole replacement: only the blank stands
elsewhere. -/
theorem replacement_lossless_nested :
    Scan.Respaced Marker.default (Utf8.encode "SID( \"0x0002b606 /* \\\"a\\\" */\");")
      (Utf8.encode "SID(\"0x0002b606 /* \\\"a\\\" */\" );") ∧
    Literal.readReplacement (Literal.replacement (-1) (Utf8.encode "0x0002b606 /* \\\"a\\\" */") ++
      Utf8.encode "\" */") =
        some (0xffffffff, Utf8.encode "0x0002b606 /* \\\"a\\\" */", Utf8.encode "\" */") := by
  have hfault : (Scan.scan .default (Utf8.encode "SID( \"0x0002b606 /* \\\"a\\\" */\");")).fault =
      none := by decide +kernel
  have hfault' : (Scan.scan .default (Utf8.encode "SID(\"0x0002b606 /* \\\"a\\\" */\" );")).fault =
      none := by decide +kernel
  have h := run_of_fault_none (o := {}) hfault
  have h' := run_of_fault_none (o := {}) hfault'
  refine ⟨?_, ?_⟩
  · exact (replacement_lossless.2 _ _ _ _ h).2 _ _ _ _ h' rfl (by decide +kernel) (by decide +kernel)
  · have hword : Hash.word (-1) = 0xffffffff := by decide
    rw [(replacement_lossless.1 (-1) _ _ (by decide +kernel)).1, hword]

end Preprocess

end HashedLiterals
