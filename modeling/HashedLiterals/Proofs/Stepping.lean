import HashedLiterals.Proofs.Tokens
import HashedLiterals.Scan.Cursor
import Mathlib.Order.Bounds.Basic

/-!
Cursors on their way to the next token. Going on to the next token is stepping until a step copies
nothing. Main statement: the cursor copies everything up to the least offset where the token stands at the
place it set out from or behind a byte of no word, stops behind the token, and copies all the rest if there
is no such offset; each step but the last moves it forward.
-/
set_option autoImplicit false

namespace HashedLiterals.Scan

variable {m : Marker} {input : Bytes}

theorem gap_of_finished (h : step m input = .finished) : gap m input = ([], none) := by
  rw [gap]
  split <;> simp_all

theorem gap_of_step_token (h : step m input = .token) :
    gap m input = ([], some (input.drop m.token.length)) := by
  rw [gap]
  split <;> simp_all

theorem gap_of_copy {n : Nat} (h : step m input = .copy n) :
    gap m input = (input.take n ++ (gap m (input.drop n)).1, (gap m (input.drop n)).2) := by
  rw [gap]
  split <;> simp_all

theorem le_length_of_copy {n : Nat} (h : step m input = .copy n) : n ≤ input.length := by
  obtain ⟨unit, rest, rfl, rfl, -⟩ := step_copy_cases h
  simp

theorem isLeast_gap {after : Bytes} (h : (gap m input).2 = some after) :
    IsLeast {i | m.TokenAt input i} (gap m input).1.length := by
  obtain ⟨hinput, hparted, habsent⟩ := gap_eq_some h
  generalize (gap m input).1 = before at hinput hparted habsent
  subst hinput
  exact ⟨m.tokenAt_append_token hparted after, fun i hi => Marker.le_of_tokenAt hparted habsent hi⟩

namespace Cursor

variable {c : Cursor} {n : Nat}

theorem enter_of_nonneg (h : 0 ≤ c.read) : c.enter = c := by
  have hread : max 0 c.read = c.read := by omega
  have hzeros : (-c.read).toNat = 0 := by omega
  rw [enter, hread, hzeros, List.replicate_zero, Buffer.append_nil]

/-- Passing one place before the source is the first step of passing all of them. -/
theorem enter_copyZero (h : c.read < 0) : c.copyZero.enter = c.enter := by
  have hread : max 0 (c.read + 1) = max 0 c.read := by omega
  have hzeros : (-c.read).toNat = (-(c.read + 1)).toNat + 1 := by omega
  simp only [enter, copyZero, hread, Buffer.append_append]
  rw [hzeros, List.replicate_succ, List.singleton_append]

theorem copy_zero (c : Cursor) : c.copy 0 = c := by
  simp [copy]

theorem rest_copy (h : 0 ≤ c.read) (n : Nat) : (c.copy n).rest = c.rest.drop n := by
  have hread : (c.read + n).toNat = c.read.toNat + n := by omega
  simp only [rest, copy, hread, List.drop_drop]

theorem copy_copy (h : 0 ≤ c.read) (n k : Nat) : (c.copy n).copy k = c.copy (n + k) := by
  have hrest := rest_copy h n
  simp only [copy] at hrest ⊢
  simp only [hrest, Buffer.append_append, ← List.take_add, mk.injEq, true_and, and_true]
  omega

theorem next_of_gap_none {before : Bytes} (h : 0 ≤ c.read) (hgap : gap c.marker c.rest = (before, none)) :
    c.next = (.finished, c.copy before.length) := by
  simp only [next, enter_of_nonneg h, hgap]

theorem next_of_gap_some {before more : Bytes} (h : 0 ≤ c.read)
    (hgap : gap c.marker c.rest = (before, some more)) :
    c.next = (.invocation, (c.copy before.length).pass) := by
  simp only [next, enter_of_nonneg h, hgap]

theorem next_copy (h : 0 ≤ c.read) (hs : Scan.step c.marker c.rest = .copy n) :
    (c.copy n).next = c.next := by
  have hread : 0 ≤ (c.copy n).read := Int.add_nonneg h (Int.natCast_nonneg n)
  have hlength : (c.rest.take n).length = n := List.length_take_of_le (le_length_of_copy hs)
  have hgap := gap_of_copy hs
  rw [← rest_copy h] at hgap
  cases hmore : gap (c.copy n).marker (c.copy n).rest with
  | mk before more =>
    have hmore' : gap c.marker (c.copy n).rest = (before, more) := hmore
    rw [hmore'] at hgap
    cases more with
    | none =>
      rw [next_of_gap_none hread hmore, next_of_gap_none h hgap, copy_copy h, List.length_append, hlength]
    | some more =>
      rw [next_of_gap_some hread hmore, next_of_gap_some h hgap, copy_copy h, List.length_append, hlength]

/-- Going on to the next token is stepping until a step copies nothing. -/
theorem next_eq (c : Cursor) : c.next = if c.step.1 = .copied then c.step.2.next else c.step := by
  by_cases hneg : c.read < 0
  · have hstep : c.step = (.copied, c.copyZero) := if_pos hneg
    simp only [hstep, if_true, next, enter_copyZero hneg]
  · have hpos : 0 ≤ c.read := by omega
    rw [step, if_neg hneg]
    cases hs : Scan.step c.marker c.rest with
    | finished =>
      rw [next_of_gap_none hpos (gap_of_finished hs), List.length_nil, copy_zero]
      rfl
    | token =>
      rw [next_of_gap_some hpos (gap_of_step_token hs), List.length_nil, copy_zero]
      rfl
    | copy n => exact (next_copy hpos hs).symm

def after (c : Cursor) : Nat → Cursor
  | 0 => c
  | k + 1 => c.step.2.after k

theorem exists_steps (c : Cursor) :
    ∃ k, (∀ i < k, (c.after i).step.1 = .copied) ∧ (c.after k).step = c.next ∧ c.next.1 ≠ .copied := by
  induction hn : c.remaining using Nat.strongRecOn generalizing c with
  | ind n ih =>
    subst hn
    have hnext := c.next_eq
    by_cases hcopied : c.step.1 = .copied
    · obtain ⟨k, hbefore, hstep, hlast⟩ := ih _ (remaining_step hcopied) c.step.2 rfl
      rw [if_pos hcopied] at hnext
      rw [hnext]
      refine ⟨k + 1, fun i hi => ?_, hstep, hlast⟩
      cases i with
      | zero => exact hcopied
      | succ i => exact hbefore i (by omega)
    · rw [if_neg hcopied] at hnext
      exact ⟨0, by simp, hnext.symm, hnext ▸ hcopied⟩

theorem read_lt_step (h : c.step.1 ≠ .finished) : c.read < c.step.2.read := by
  by_cases hneg : c.read < 0
  · rw [step, if_pos hneg]
    exact Int.lt_succ c.read
  · rw [step, if_neg hneg] at h ⊢
    cases hs : Scan.step c.marker c.rest with
    | finished =>
      rw [hs] at h
      exact absurd rfl h
    | token =>
      have hlength := c.marker.length_token
      simp only [pass]
      omega
    | copy n =>
      have hn := (step_eq_copy hs).1
      simp only [copy]
      omega

/-- The token stands at an offset, from the place of the cursor on: at this place or behind a byte of no
word. -/
def OpensAt (c : Cursor) (q : Nat) : Prop :=
  c.read ≤ q ∧ c.marker.token <+: c.text.drop q ∧
    (c.read = q ∨ ∃ b ∈ c.text[q - 1]?, Bytes.isAlnum b = false)

instance (c : Cursor) (q : Nat) : Decidable (c.OpensAt q) := inferInstanceAs (Decidable (_ ∧ _ ∧ _))

theorem opensAt_add (h : 0 ≤ c.read) (i : Nat) :
    c.OpensAt (c.read.toNat + i) ↔ c.marker.TokenAt c.rest i := by
  have hle : c.read ≤ (c.read.toNat + i : Nat) := by omega
  have hstart : (c.read = (c.read.toNat + i : Nat) ∨
      ∃ b ∈ c.text[c.read.toNat + i - 1]?, Bytes.isAlnum b = false) ↔ Bytes.WordStart c.rest i := by
    cases i with
    | zero => exact iff_of_true (.inl (by omega)) (Bytes.wordStart_zero c.rest)
    | succ i =>
      have hne : c.read ≠ (c.read.toNat + (i + 1) : Nat) := by omega
      rw [or_iff_right hne, Bytes.wordStart_succ, rest, List.getElem?_drop]
      rfl
  rw [OpensAt, hstart, Marker.TokenAt, rest, List.drop_drop, and_iff_right hle, and_comm]

theorem isLeast_opensAt {q : Nat} (h : 0 ≤ c.read) (hq : IsLeast {q | c.OpensAt q} q) :
    ∃ i, q = c.read.toNat + i ∧ IsLeast {i | c.marker.TokenAt c.rest i} i := by
  obtain ⟨hopens, hleast⟩ := hq
  obtain ⟨i, rfl⟩ : ∃ i, q = c.read.toNat + i := Nat.exists_eq_add_of_le (Int.toNat_le.2 hopens.1)
  refine ⟨i, rfl, (opensAt_add h i).1 hopens, fun j hj => ?_⟩
  have hle := hleast ((opensAt_add h j).2 hj)
  omega

theorem next_of_isLeast {i : Nat} (h : 0 ≤ c.read) (hi : IsLeast {i | c.marker.TokenAt c.rest i} i) :
    c.next = (.invocation, (c.copy i).pass) := by
  cases hgap : gap c.marker c.rest with
  | mk before more =>
    cases more with
    | none => exact absurd hi.1 ((gap_eq_none (congrArg Prod.snd hgap)).2 i)
    | some more =>
      have hleast := isLeast_gap (congrArg Prod.snd hgap)
      rw [hgap] at hleast
      rw [next_of_gap_some h hgap, hi.unique hleast]

theorem toBytes_copy (c : Cursor) (n : Nat) :
    (c.copy n).out.toBytes = c.out.toBytes ++ (c.text.take (c.read.toNat + n)).drop c.read.toNat := by
  rw [copy, Buffer.toBytes_append, List.drop_take, Nat.add_sub_cancel_left]
  rfl

/-- From every place in the text the steps to the next token come to an end. With the least offset where the
token stands at this place or behind a byte of no word, the cursor has copied what lies before this offset,
has noted it, and stands behind the token; without one it has copied the rest. Each step but the last moves
the cursor forward. -/
theorem next_stops (c : Cursor) (hfrom : 0 ≤ c.read) (hto : c.read ≤ c.text.length) :
    (∃ k, (∀ i < k, (c.after i).step.1 = .copied) ∧ (c.after k).step = c.next ∧ c.next.1 ≠ .copied) ∧
    (∀ q, IsLeast {q | c.OpensAt q} q → c.next.1 = .invocation ∧
      c.next.2.out.toBytes = c.out.toBytes ++ (c.text.take q).drop c.read.toNat ∧
      c.next.2.invocationStart = q ∧ c.next.2.read = q + c.marker.name.length + 1) ∧
    ((∀ q, ¬ c.OpensAt q) → c.next.1 = .finished ∧
      c.next.2.out.toBytes = c.out.toBytes ++ c.text.drop c.read.toNat ∧
      c.next.2.invocationStart = c.invocationStart ∧ c.next.2.read = c.text.length) ∧
    (c.step.1 ≠ .finished → c.read < c.step.2.read) := by
  refine ⟨c.exists_steps, fun q hq => ?_, fun hnone => ?_, read_lt_step⟩
  · obtain ⟨i, rfl, hi⟩ := isLeast_opensAt hfrom hq
    have hnoted : (c.copy i).read.toNat = c.read.toNat + i := by
      simp only [copy]
      omega
    have hlength := c.marker.length_token
    rw [next_of_isLeast hfrom hi]
    refine ⟨rfl, toBytes_copy c i, congrArg Int.ofNat hnoted, ?_⟩
    simp only [pass, copy]
    omega
  · have habsent : c.marker.Absent c.rest := fun i hi => hnone _ ((opensAt_add hfrom i).2 hi)
    have hlength : c.rest.length = c.text.length - c.read.toNat := List.length_drop
    have hend : c.read.toNat + c.rest.length = c.text.length := by omega
    rw [next_of_gap_none hfrom (gap_of_absent habsent)]
    refine ⟨rfl, ?_, rfl, ?_⟩
    · rw [toBytes_copy, hend, List.take_length]
    · simp only [copy]
      omega

def inWord : Cursor := { text := Utf8.encode "aSID(b\tSID(c", marker := .default, read := 2 }

theorem next_stops_in_word : 0 ≤ inWord.read ∧ inWord.read ≤ inWord.text.length ∧
    inWord.next.1 = .invocation ∧ inWord.next.2.out.toBytes = Utf8.encode "ID(b\t" ∧
    inWord.next.2.invocationStart = 7 ∧ inWord.next.2.read = 11 := by
  have hto : inWord.read ≤ inWord.text.length := by decide +kernel
  have hleast : IsLeast {q | inWord.OpensAt q} 7 := by
    have hopens : inWord.OpensAt 7 := by decide +kernel
    have hbefore : ∀ q < 7, ¬ inWord.OpensAt q := by decide +kernel
    exact ⟨hopens, fun q hq => Nat.le_of_not_lt fun hlt => hbefore q hlt hq⟩
  obtain ⟨hresult, hcopied, hnoted, hread⟩ := (next_stops inWord (by decide) hto).2.1 7 hleast
  have htext : (inWord.text.take 7).drop 2 = Utf8.encode "ID(b\t" := by decide +kernel
  exact ⟨by decide, hto, hresult, hcopied.trans htext, hnoted, hread⟩

end Cursor

end HashedLiterals.Scan
