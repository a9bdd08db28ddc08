import HashedLiterals.Position
import HashedLiterals.Proofs.Lines

set_option autoImplicit false

namespace HashedLiterals

namespace Bytes

variable {before line after head rest x y : Bytes} {b : UInt8}

def trimReturn (line : Bytes) : Bytes :=
  if line.getLast? = some carriageReturn then line.dropLast else line

@[simp] theorem trimReturn_nil : trimReturn [] = [] := rfl

theorem trimReturn_append (hy : y ≠ []) (x : Bytes) : trimReturn (x ++ y) = x ++ trimReturn y := by
  have hlast : (x ++ y).getLast? = y.getLast? := by
    rw [List.getLast?_append, List.getLast?_eq_some_getLast hy, Option.some_or]
  unfold trimReturn
  rw [hlast, List.dropLast_append_of_ne_nil hy]
  split <;> rfl

theorem trimReturn_append_of_not_mem (hx : carriageReturn ∉ x) (y : Bytes) :
    trimReturn (x ++ y) = x ++ trimReturn y := by
  cases y with
  | nil =>
    have hlast : x.getLast? ≠ some carriageReturn := fun h => hx (List.mem_of_getLast? h)
    rw [List.append_nil, trimReturn, if_neg hlast, trimReturn_nil, List.append_nil]
  | cons b y => exact trimReturn_append (List.cons_ne_nil b y) x

theorem trimReturn_prefix (line : Bytes) : trimReturn line <+: line := by
  unfold trimReturn
  split
  · exact List.dropLast_prefix line
  · exact List.prefix_rfl

theorem exists_first_newline (y : Bytes) :
    ∃ rest after, y = rest ++ after ∧ newline ∉ rest ∧ (after = [] ∨ ∃ z, after = newline :: z) := by
  by_cases h : newline ∈ y
  · obtain ⟨rest, z, rfl, hn⟩ := List.eq_append_cons_of_mem h
    exact ⟨rest, newline :: z, rfl, hn, .inr ⟨z, rfl⟩⟩
  · exact ⟨y, [], by simp, h, .inl rfl⟩

theorem exists_isLine {opening : Bytes} (h : newline ∉ opening) (x y : Bytes) :
    ∃ before head rest after, x = before ++ head ∧ y = rest ++ after ∧
      IsLine before (head ++ (opening ++ rest)) after := by
  obtain ⟨rest, after, rfl, hrest, hafter⟩ := exists_first_newline y
  obtain ⟨head, before, hx, hhead, hbefore⟩ := exists_first_newline x.reverse
  refine ⟨before.reverse, head.reverse, rest, after, ?_, rfl, ?_, ?_, hafter⟩
  · rw [← List.reverse_append, ← hx, List.reverse_reverse]
  · obtain rfl | ⟨z, rfl⟩ := hbefore
    · exact .inl rfl
    · exact .inr ⟨z.reverse, List.reverse_cons⟩
  · simp only [List.mem_append, List.mem_reverse, not_or]
    exact ⟨hhead, h, hrest⟩

theorem takeWhile_append (h : IsLine before (head ++ rest) after) :
    (rest ++ after).takeWhile (· != newline) = rest := by
  have hrest : ∀ b ∈ rest, (b != newline) = true := by
    intro b hb
    rw [bne_iff_ne]
    rintro rfl
    exact h.line (List.mem_append_right head hb)
  have hafter : after.takeWhile (· != newline) = [] := by
    obtain hnil | ⟨y, hy⟩ := h.after
    · rw [hnil]
      rfl
    · rw [hy]
      rfl
  rw [List.takeWhile_append_of_pos hrest, hafter, List.append_nil]

theorem length_splitOn (text : Bytes) : (text.splitOn newline).length = text.count newline + 1 := by
  induction text with
  | nil => rfl
  | cons b text ih =>
    rw [List.splitOn_cons_eq_if_modifyHead, List.count_cons]
    split <;> simp [ih]

/-- A line is the piece of the text whose number is that of the newlines before it. -/
theorem IsLine.getElem?_splitOn (h : IsLine before line after) :
    ((before ++ (line ++ after)).splitOn newline)[before.count newline]? = some line := by
  have hline : ((line ++ after).splitOn newline)[0]? = some line := by
    obtain rfl | ⟨y, rfl⟩ := h.after
    · rw [List.append_nil, List.splitOn_eq_singleton h.line]
      rfl
    · rw [List.splitOn_append_cons_self, List.splitOn_eq_singleton h.line]
      rfl
  obtain rfl | ⟨x, rfl⟩ := h.before
  · exact hline
  · have hx : (x ++ [newline] ++ (line ++ after)).splitOn newline =
        x.splitOn newline ++ (line ++ after).splitOn newline := by
      rw [List.append_assoc, List.singleton_append, List.splitOn_append_cons_self]
    have hcount : (x ++ [newline]).count newline = (x.splitOn newline).length := by
      rw [length_splitOn, List.count_append]
      rfl
    rw [hx, hcount, List.getElem?_append_right (Nat.le_refl _), Nat.sub_self, hline]

theorem slice_natCast (text : Bytes) (i j : Nat) : text.slice i j = (text.take j).drop i := by
  have hcut : ∀ n : Nat, text.cut n = min n text.length := fun n => if_neg (by omega)
  rw [slice, hcut, hcut, ← List.take_eq_take_min]
  obtain hi | hi := Nat.le_total i text.length
  · rw [Nat.min_eq_left hi]
  · rw [Nat.min_eq_right hi, List.drop_eq_nil_of_le (List.length_take_le' ..),
      List.drop_eq_nil_of_le (Nat.le_trans (List.length_take_le' ..) hi)]

theorem slice_append (before line after : Bytes) {i j : Nat} (hj : j ≤ line.length) :
    (before ++ (line ++ after)).slice ((before.length + i : Nat) : Int) ((before.length + j : Nat) : Int) =
      (line.take j).drop i := by
  rw [slice_natCast, List.take_length_add_append, List.drop_length_add_append,
    List.take_append_of_le_length hj]

end Bytes

namespace Position

open Bytes (IsLine newline)

variable {before head rest after : Bytes}

theorem lastLine_append (h : IsLine before (head ++ rest) after) : lastLine (before ++ head) = head := by
  have hhead : ∀ b ∈ head.reverse, (b != newline) = true := by
    intro b hb
    rw [bne_iff_ne]
    rintro rfl
    exact h.line (by simpa using Or.inl (List.mem_reverse.1 hb))
  have hbefore : before.reverse.takeWhile (· != newline) = [] := by
    obtain rfl | ⟨x, rfl⟩ := h.before
    · rfl
    · rw [List.reverse_append]
      rfl
  rw [lastLine, List.reverse_append, List.takeWhile_append_of_pos hhead, hbefore, List.append_nil,
    List.reverse_reverse]

theorem scanStart_append (offset noted : Nat) (x y : Bytes) :
    scanStart offset noted (x ++ y) = scanStart (offset + x.length) (scanStart offset noted x) y := by
  induction x generalizing offset noted with
  | nil => rfl
  | cons b x ih =>
    have hlength : offset + 1 + x.length = offset + (b :: x).length := by
      rw [List.length_cons]
      omega
    rw [List.cons_append, scanStart, ih, hlength, scanStart]

theorem scanStart_of_not_mem {y : Bytes} (h : newline ∉ y) (offset noted : Nat) :
    scanStart offset noted y = noted := by
  induction y generalizing offset with
  | nil => rfl
  | cons b y ih =>
    rw [List.mem_cons, not_or] at h
    rw [scanStart, if_neg (Ne.symm h.1), ih h.2]

theorem lineStart_append_of_not_mem {y : Bytes} (h : newline ∉ y) (x : Bytes) :
    lineStart (x ++ y) = lineStart x := by
  rw [lineStart, scanStart_append, scanStart_of_not_mem h, lineStart]

theorem lineStart_append (h : IsLine before (head ++ rest) after) :
    lineStart (before ++ head) = before.length := by
  rw [lineStart_append_of_not_mem fun hm => h.line (List.mem_append_left rest hm)]
  obtain rfl | ⟨x, rfl⟩ := h.before
  · rfl
  · rw [lineStart, scanStart_append, scanStart, if_pos rfl, scanStart, List.length_append, Nat.zero_add]
    rfl

theorem ofOffset_of_isLine (h : IsLine before (head ++ rest) after) :
    ofOffset (before ++ (head ++ rest ++ after)) ((before.length + head.length : Nat) : Int) =
      ⟨before.count newline + 1, head.length + 1⟩ := by
  have htake : (before ++ (head ++ rest ++ after)).take (before.length + head.length) =
      before ++ head := by
    rw [List.append_assoc head, ← List.append_assoc, ← List.length_append, List.take_left]
  have hhead : newline ∉ head := fun hm => h.line (List.mem_append_left rest hm)
  have hlength : ((before.length + head.length : Nat) : Int) ≤
      ((before ++ (head ++ rest ++ after)).length : Nat) := by
    simp only [List.length_append]
    omega
  have hline : (before ++ head).count newline = before.count newline := by
    rw [List.count_append, List.count_eq_zero_of_not_mem hhead, Nat.add_zero]
  simp only [ofOffset, Int.toNat_natCast, htake, lineStart_append h, hline, Position.mk.injEq, true_and]
  rw [if_pos ⟨Int.natCast_nonneg _, hlength⟩]
  omega

end Position

namespace Range

open Bytes (IsLine trimReturn newline carriageReturn)

variable {before line head rest after : Bytes}

theorem at?_of_getLast (hne : line ≠ []) (before after : Bytes) :
    (before ++ (line ++ after)).at? (((before.length + line.length : Nat) : Int) - 1) =
      line.getLast? := by
  have hpos := List.length_pos_iff.2 hne
  have hindex : (((before.length + line.length : Nat) : Int) - 1).toNat =
      before.length + (line.length - 1) := by omega
  rw [Bytes.at?, if_neg (by omega), hindex, List.getElem?_append_right (by omega),
    Nat.add_sub_cancel_left, List.getElem?_append_left (by omega), List.getLast?_eq_getElem?]

theorem lineAt_of_isLine (h : IsLine before (head ++ rest) after) :
    lineAt (before ++ (head ++ rest ++ after)) ((before.length + head.length : Nat) : Int) =
      ⟨before.length, ((before.length + (trimReturn (head ++ rest)).length : Nat) : Int)⟩ := by
  have hsplit : before ++ (head ++ rest ++ after) = (before ++ head) ++ (rest ++ after) := by simp
  have hmin : min ((before.length + head.length : Nat) : Int)
      ((before ++ (head ++ rest ++ after)).length : Nat) = (before.length + head.length : Nat) := by
    simp only [List.length_append]
    omega
  have htake : (before ++ (head ++ rest ++ after)).take (before.length + head.length) =
      before ++ head := by
    rw [hsplit, ← List.length_append, List.take_left]
  have hdrop : (before ++ (head ++ rest ++ after)).drop (before.length + head.length) =
      rest ++ after := by
    rw [hsplit, ← List.length_append, List.drop_left]
  have hstart : ((before.length + head.length : Nat) : Int) - head.length = before.length := by omega
  have hstop : before.length + head.length + rest.length = before.length + (head ++ rest).length := by
    rw [List.length_append, Nat.add_assoc]
  simp only [lineAt, hmin, Int.toNat_natCast, htake, hdrop, Position.lastLine_append h,
    Bytes.takeWhile_append h, hstart, hstop]
  by_cases hne : head ++ rest = []
  · have hno : ¬ (before.length : Int) < ((before.length + (head ++ rest).length : Nat) : Int) := by
      rw [hne, List.length_nil, Nat.add_zero]
      omega
    rw [if_neg fun hcut => hno hcut.1, hne]
    rfl
  · have hpos := List.length_pos_iff.2 hne
    rw [at?_of_getLast hne, trimReturn]
    split
    · next hcut =>
      rw [if_pos hcut.2, List.length_dropLast]
      congr 1
      omega
    · next hcut =>
      rw [if_neg fun hlast => hcut ⟨by omega, hlast⟩]

theorem slice_lineAt (h : IsLine before (head ++ rest) after) :
    (before ++ (head ++ rest ++ after)).slice
        (lineAt (before ++ (head ++ rest ++ after)) ((before.length + head.length : Nat) : Int)).start
        (lineAt (before ++ (head ++ rest ++ after)) ((before.length + head.length : Nat) : Int)).stop =
      trimReturn (head ++ rest) := by
  have hprefix := Bytes.trimReturn_prefix (head ++ rest)
  have hcut := Bytes.slice_append before (head ++ rest) after (i := 0) hprefix.length_le
  rw [List.drop_zero, ← List.prefix_iff_eq_take.1 hprefix] at hcut
  rw [lineAt_of_isLine h]
  exact hcut

end Range

end HashedLiterals
