import HashedLiterals.Proofs.Positions
import Mathlib.Data.Int.ConditionallyCompleteOrder
import Mathlib.Data.Prod.Lex
import Mathlib.Order.ConditionallyCompleteLattice.Basic

/-!
Offsets, lines and columns. The column of an offset is found by a scan from the front of the text, the
bounds of its line by scans from the offset in both directions. Main statement: both find the same line, which
is the piece of the text between newlines that has the line's number, and line and column grow with the
offset.
-/
set_option autoImplicit false

namespace HashedLiterals.Position

open Bytes (newline trimReturn)

variable {text : Bytes} {i j : Nat}

theorem exists_piece (h : i ≤ text.length) :
    ∃ piece, (text.splitOn newline)[(ofOffset text i).line - 1]? = some piece ∧
      (Range.lineAt text i).start = i - (ofOffset text i).column + 1 ∧
      0 ≤ (Range.lineAt text i).start ∧ (Range.lineAt text i).start ≤ i ∧
      (Range.lineAt text i).start ≤ (Range.lineAt text i).stop ∧
      (Range.lineAt text i).stop ≤ text.length ∧
      text.slice (Range.lineAt text i).start (Range.lineAt text i).stop = trimReturn piece := by
  obtain ⟨before, head, rest, after, htake, hdrop, hline⟩ :=
    Bytes.exists_isLine (List.not_mem_nil : newline ∉ ([] : Bytes)) (text.take i) (text.drop i)
  rw [List.nil_append] at hline
  have hlength : i = before.length + head.length := by
    rw [← List.length_append, ← htake, List.length_take_of_le h]
  have htext : text = before ++ (head ++ rest ++ after) := by
    rw [← List.take_append_drop i text, htake, hdrop]
    simp only [List.append_assoc]
  have hle := (Bytes.trimReturn_prefix (head ++ rest)).length_le
  have hslice := Range.slice_lineAt hline
  rw [Range.lineAt_of_isLine hline] at hslice
  rw [hlength, htext, ofOffset_of_isLine hline, Range.lineAt_of_isLine hline]
  refine ⟨head ++ rest, hline.getElem?_splitOn, ?_, ?_, ?_, ?_, ?_, hslice⟩
  · simp only
    omega
  · exact Int.natCast_nonneg _
  · simp only
    omega
  · simp only
    omega
  · simp only [List.length_append] at hle ⊢
    omega

/-- Farther on in the text an offset stands in a later line, or farther on in the line. -/
theorem ofOffset_lt (hij : i < j) (hj : j ≤ text.length) :
    (ofOffset text i).line < (ofOffset text j).line ∨
      (ofOffset text i).line = (ofOffset text j).line ∧
        (ofOffset text i).column < (ofOffset text j).column := by
  obtain ⟨passed, hpassed⟩ : text.take i <+: text.take j :=
    List.take_prefix_take_left (Nat.le_of_lt hij)
  have hlines : (text.take j).count newline = (text.take i).count newline + passed.count newline := by
    rw [← hpassed, List.count_append]
  by_cases hnewline : newline ∈ passed
  · left
    have hpos := List.count_pos_iff.2 hnewline
    simp only [ofOffset, Int.toNat_natCast, hlines]
    omega
  · right
    have hstart : lineStart (text.take j) = lineStart (text.take i) := by
      rw [← hpassed, lineStart_append_of_not_mem hnewline]
    have hzero := List.count_eq_zero.2 hnewline
    constructor
    · simp only [ofOffset, Int.toNat_natCast, hlines, hzero, Nat.add_zero]
    · rw [column_ofOffset (by omega), column_ofOffset (by omega), Int.toNat_natCast, Int.toNat_natCast,
        hstart]
      omega

/-- The line of an offset is one more than the newlines before it. Its bounds begin where the column counts
from, and between them stands the piece of the text that has the line's number, without a carriage return at
its end. Line and column grow with the offset, so no two offsets share them. -/
theorem offsets_by_line (text : Bytes) :
    (∀ offset ∈ Set.Icc 0 (text.length : Int),
      (ofOffset text offset).line = (text.take offset.toNat).count newline + 1 ∧
      (Range.lineAt text offset).start = offset - (ofOffset text offset).column + 1 ∧
      0 ≤ (Range.lineAt text offset).start ∧ (Range.lineAt text offset).start ≤ offset ∧
      (Range.lineAt text offset).start ≤ (Range.lineAt text offset).stop ∧
      (Range.lineAt text offset).stop ≤ text.length ∧
      ∃ piece, (text.splitOn newline)[(ofOffset text offset).line - 1]? = some piece ∧
        text.slice (Range.lineAt text offset).start (Range.lineAt text offset).stop = trimReturn piece) ∧
    StrictMonoOn (fun offset => toLex ((ofOffset text offset).line, (ofOffset text offset).column))
      (Set.Icc 0 (text.length : Int)) ∧
    Set.InjOn (ofOffset text) (Set.Icc 0 (text.length : Int)) := by
  have hmono : StrictMonoOn
      (fun offset => toLex ((ofOffset text offset).line, (ofOffset text offset).column))
      (Set.Icc 0 (text.length : Int)) := by
    rintro i ⟨hi, -⟩ j ⟨hj, hlast⟩ hij
    obtain ⟨i, rfl⟩ := Int.eq_ofNat_of_zero_le hi
    obtain ⟨j, rfl⟩ := Int.eq_ofNat_of_zero_le hj
    exact Prod.Lex.toLex_lt_toLex.2 (ofOffset_lt (Int.ofNat_lt.1 hij) (Int.ofNat_le.1 hlast))
  refine ⟨?_, hmono, fun i hi j hj heq => hmono.injOn hi hj ?_⟩
  · rintro i ⟨hi, hlast⟩
    obtain ⟨i, rfl⟩ := Int.eq_ofNat_of_zero_le hi
    obtain ⟨piece, hpiece, hstart, hfrom, hat, hle, hto, hslice⟩ := exists_piece (Int.ofNat_le.1 hlast)
    exact ⟨rfl, hstart, hfrom, hat, hle, hto, piece, hpiece, hslice⟩
  · simp only [heq]

def returns : Bytes := Utf8.encode "a\r\n\r\nb\r"

theorem offsets_by_line_returns : (2 : Int) ∈ Set.Icc 0 (returns.length : Int) ∧
    ofOffset returns 2 = ⟨1, 3⟩ ∧ (Range.lineAt returns 2).start = 0 ∧
    returns.slice (Range.lineAt returns 2).start (Range.lineAt returns 2).stop = Utf8.encode "a" := by
  have hin : (2 : Int) ∈ Set.Icc 0 (returns.length : Int) := ⟨by decide, by decide +kernel⟩
  have hposition : ofOffset returns 2 = ⟨1, 3⟩ := by decide +kernel
  have hfirst : (returns.splitOn newline)[0]? = some (Utf8.encode "a\r") := by decide +kernel
  obtain ⟨-, hstart, -, -, -, -, piece, hpiece, hslice⟩ := (offsets_by_line returns).1 2 hin
  rw [hposition] at hstart hpiece
  obtain rfl := Option.some.inj (hfirst.symm.trans hpiece)
  exact ⟨hin, hposition, hstart, hslice⟩

end HashedLiterals.Position
