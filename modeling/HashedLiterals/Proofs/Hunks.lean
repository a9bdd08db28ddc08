import Mathlib.Data.List.Pairwise
import HashedLiterals.Command.Diff

/-!
Hunks as runs of indices. Two lists of lines differ at an index if their lines there differ, where a
list that has ended counts as going on with empty lines. Main statement: what is printed of two texts
are the maximal runs of such indices in ascending order, each with the lines that either text has in it;
with added lines in the place of removed ones a text becomes the other one, if that has as many lines.
-/
set_option autoImplicit false

namespace HashedLiterals

theorem Diagnostic.joinLines_splitLines (text : String) : joinLines (splitLines text) = text := by
  have hid : String.toList ∘ String.ofList = id := funext fun _ => String.toList_ofList
  rw [String.ext_iff, joinLines, String.toList_intercalate, splitLines, List.map_map, hid, List.map_id]
  exact List.intercalate_splitOn '\n'

namespace Hunk

variable {a b : List String} {index : Nat}

def Differ (a b : List String) (i : Nat) : Prop := a.getD i "" ≠ b.getD i ""

instance (a b : List String) (i : Nat) : Decidable (Differ a b i) :=
  inferInstanceAs (Decidable (_ ≠ _))

structure Run where
  start : Nat
  stop : Nat
  deriving DecidableEq, Repr

/-- The lines differ at every index of the run, and neither before nor behind it. -/
structure Run.IsMaximal (a b : List String) (r : Run) : Prop where
  start_lt_stop : r.start < r.stop
  differ : ∀ i, r.start ≤ i → i < r.stop → Differ a b i
  before : 0 < r.start → ¬ Differ a b (r.start - 1)
  after : ¬ Differ a b r.stop

/-- The indices from `index` on at which lines differ make up the runs. -/
structure Decomposes (a b : List String) (index : Nat) (runs : List Run) : Prop where
  le_start : ∀ r ∈ runs, index ≤ r.start
  start_lt_stop : ∀ r ∈ runs, r.start < r.stop
  apart : runs.Pairwise fun r s => r.stop < s.start
  differ_iff : ∀ i, index ≤ i → (Differ a b i ↔ ∃ r ∈ runs, r.start ≤ i ∧ i < r.stop)

/-- The hunk of a run: the lines that either list has there. -/
def ofRun (a b : List String) (r : Run) : Hunk :=
  ⟨r.start, a.extract r.start r.stop, b.extract r.start r.stop⟩

def Run.extend (index : Nat) : List Run → List Run
  | [] => [⟨index, index + 1⟩]
  | r :: rest =>
    if r.start = index + 1 then ⟨index, r.stop⟩ :: rest else ⟨index, index + 1⟩ :: r :: rest

theorem extract_append (l : List String) {i j k : Nat} (hij : i ≤ j) (hjk : j ≤ k) :
    l.extract i j ++ l.extract j k = l.extract i k := by
  obtain ⟨m, rfl⟩ := Nat.exists_eq_add_of_le hij
  obtain ⟨n, rfl⟩ := Nat.exists_eq_add_of_le hjk
  have hsum : i + m + n - i = m + n := by omega
  simp only [List.extract_eq_take_drop, Nat.add_sub_cancel_left, hsum, List.take_add, List.drop_drop]

theorem extend_map_ofRun {runs : List Run} (h : ∀ r ∈ runs, r.start < r.stop) :
    extend index (a.extract index (index + 1)) (b.extract index (index + 1)) (runs.map (ofRun a b)) =
      (Run.extend index runs).map (ofRun a b) := by
  cases runs with
  | nil => rfl
  | cons r rest =>
    rw [List.map_cons, extend, Run.extend]
    split
    · next hstart =>
      have hstart : r.start = index + 1 := hstart
      have hstop := h r List.mem_cons_self
      rw [if_pos hstart]
      simp only [ofRun, hstart, List.map_cons]
      rw [extract_append a (by omega) (by omega), extract_append b (by omega) (by omega)]
    · next hstart =>
      have hstart : r.start ≠ index + 1 := hstart
      rw [if_neg hstart]
      rfl

theorem compare_drop (h : index < max a.length b.length) :
    compare index (a.drop index) (b.drop index) =
      if Differ a b index then
        extend index (a.extract index (index + 1)) (b.extract index (index + 1))
          (compare (index + 1) (a.drop (index + 1)) (b.drop (index + 1)))
      else compare (index + 1) (a.drop (index + 1)) (b.drop (index + 1)) := by
  have hone : index + 1 - index = 1 := by omega
  have hcons : ∀ {l : List String} (hl : index < l.length),
      l.drop index = l[index] :: l.drop (index + 1) ∧ l.extract index (index + 1) = [l[index]] ∧
        l.getD index "" = l[index] := by
    intro l hl
    have hdrop := List.drop_eq_getElem_cons hl
    refine ⟨hdrop, ?_, by simp [hl]⟩
    rw [List.extract_eq_take_drop, hone, hdrop]
    rfl
  have hnil : ∀ {l : List String}, l.length ≤ index →
      l.drop index = [] ∧ l.drop (index + 1) = [] ∧ l.extract index (index + 1) = [] ∧
        l.getD index "" = "" := by
    intro l hl
    have hdrop := List.drop_eq_nil_of_le hl
    refine ⟨hdrop, List.drop_eq_nil_of_le (by omega), ?_, by simp [hl]⟩
    rw [List.extract_eq_take_drop, hdrop, List.take_nil]
  obtain ha | ha := Nat.lt_or_ge index a.length
  · obtain ⟨hda, hea, hga⟩ := hcons ha
    obtain hb | hb := Nat.lt_or_ge index b.length
    · obtain ⟨hdb, heb, hgb⟩ := hcons hb
      simp only [hda, hdb, hea, heb, compare, Differ, hga, hgb, ite_not]
    · obtain ⟨hdb, hdb', heb, hgb⟩ := hnil hb
      simp only [hda, hdb, hea, heb, hdb', compare, Differ, hga, hgb, ite_not]
  · obtain ⟨hda, hda', hea, hga⟩ := hnil ha
    obtain ⟨hdb, heb, hgb⟩ := hcons (l := b) (by omega)
    simp only [hda, hdb, hea, heb, hda', compare, Differ, hga, hgb, ite_not]

theorem Decomposes.skip {runs : List Run} (h : Decomposes a b (index + 1) runs)
    (hd : ¬ Differ a b index) : Decomposes a b index runs where
  le_start r hr := Nat.le_of_succ_le (h.le_start r hr)
  start_lt_stop := h.start_lt_stop
  apart := h.apart
  differ_iff i hi := by
    obtain rfl | hlt := Nat.eq_or_lt_of_le hi
    · refine iff_of_false hd ?_
      rintro ⟨r, hr, hstart, -⟩
      exact absurd (h.le_start r hr) (by omega)
    · exact h.differ_iff i hlt

theorem exists_mem_extend {runs : List Run} (hle : ∀ r ∈ runs, index + 1 ≤ r.start)
    (hlt : ∀ r ∈ runs, r.start < r.stop) (i : Nat) :
    (∃ r ∈ Run.extend index runs, r.start ≤ i ∧ i < r.stop) ↔
      i = index ∨ ∃ r ∈ runs, r.start ≤ i ∧ i < r.stop := by
  cases runs with
  | nil =>
    simp only [Run.extend, List.mem_singleton, exists_eq_left, List.not_mem_nil, false_and,
      exists_false, or_false]
    omega
  | cons r rest =>
    have hstart := hle r List.mem_cons_self
    have hstop := hlt r List.mem_cons_self
    rw [Run.extend]
    split
    · simp only [List.mem_cons, exists_eq_or_imp]
      rw [← or_assoc]
      exact or_congr_left (by omega)
    · simp only [List.mem_cons, exists_eq_or_imp]
      exact or_congr_left (by omega)

theorem Decomposes.extend {runs : List Run} (h : Decomposes a b (index + 1) runs)
    (hd : Differ a b index) : Decomposes a b index (Run.extend index runs) := by
  have hcovers : ∀ i, index ≤ i →
      (Differ a b i ↔ ∃ r ∈ Run.extend index runs, r.start ≤ i ∧ i < r.stop) := by
    intro i hi
    rw [exists_mem_extend h.le_start h.start_lt_stop]
    obtain rfl | hlt := Nat.eq_or_lt_of_le hi
    · exact iff_of_true hd (.inl rfl)
    · rw [h.differ_iff i hlt, or_iff_right (Nat.ne_of_gt hlt)]
  cases runs with
  | nil => exact ⟨by simp [Run.extend], by simp [Run.extend], List.pairwise_singleton _ _, hcovers⟩
  | cons r rest =>
    have hle := List.forall_mem_cons.1 h.le_start
    have hlt := List.forall_mem_cons.1 h.start_lt_stop
    have hapart := List.pairwise_cons.1 h.apart
    have hrest : ∀ s ∈ rest, index ≤ s.start := fun s hs => Nat.le_of_succ_le (hle.2 s hs)
    rw [Run.extend] at hcovers ⊢
    split
    · next hstart =>
      rw [if_pos hstart] at hcovers
      refine ⟨List.forall_mem_cons.2 ⟨Nat.le_refl _, hrest⟩, List.forall_mem_cons.2 ⟨?_, hlt.2⟩,
        List.pairwise_cons.2 hapart, hcovers⟩
      have := hlt.1
      simp only
      omega
    · next hstart =>
      rw [if_neg hstart] at hcovers
      have hfar : index + 1 < r.start := by have := hle.1; omega
      refine ⟨List.forall_mem_cons.2 ⟨Nat.le_refl _, fun s hs => Nat.le_of_succ_le (h.le_start s hs)⟩,
        List.forall_mem_cons.2 ⟨Nat.lt_succ_self _, h.start_lt_stop⟩,
        List.pairwise_cons.2 ⟨List.forall_mem_cons.2 ⟨hfar, fun s hs => ?_⟩, h.apart⟩, hcovers⟩
      have := hapart.1 s hs
      have := hlt.1
      simp only
      omega

theorem exists_runs (a b : List String) (index : Nat) :
    ∃ runs, compare index (a.drop index) (b.drop index) = runs.map (ofRun a b) ∧
      Decomposes a b index runs := by
  induction hn : max a.length b.length - index generalizing index with
  | zero =>
    have ha : a.length ≤ index := by omega
    have hb : b.length ≤ index := by omega
    refine ⟨[], ?_, by simp, by simp, .nil, fun i hi => ?_⟩
    · rw [List.drop_eq_nil_of_le ha, List.drop_eq_nil_of_le hb, compare, List.map_nil]
    · have hai : a.length ≤ i := Nat.le_trans ha hi
      have hbi : b.length ≤ i := Nat.le_trans hb hi
      simp [Differ, hai, hbi]
  | succ n ih =>
    obtain ⟨runs, hruns, hdec⟩ := ih (index + 1) (by omega)
    rw [compare_drop (by omega), hruns]
    by_cases hd : Differ a b index
    · rw [if_pos hd, extend_map_ofRun hdec.start_lt_stop]
      exact ⟨_, rfl, hdec.extend hd⟩
    · rw [if_neg hd]
      exact ⟨runs, rfl, hdec.skip hd⟩

namespace Decomposes

variable {runs : List Run} {r s : Run} (h : Decomposes a b 0 runs)

include h

theorem stop_lt_start (hr : r ∈ runs) (hs : s ∈ runs) (hne : r ≠ s) :
    r.stop < s.start ∨ s.stop < r.start := by
  have : Std.Symm fun r s : Run => r.stop < s.start ∨ s.stop < r.start := ⟨fun _ _ => Or.symm⟩
  have hapart : runs.Pairwise fun r s => r.stop < s.start ∨ s.stop < r.start := h.apart.imp .inl
  exact hapart.forall hr hs hne

theorem isMaximal (hr : r ∈ runs) : r.IsMaximal a b := by
  have hpos := h.start_lt_stop r hr
  refine ⟨hpos, fun i hstart hstop => (h.differ_iff i (Nat.zero_le i)).2 ⟨r, hr, hstart, hstop⟩, ?_, ?_⟩
  · intro hzero hd
    obtain ⟨s, hs, hstart, hstop⟩ := (h.differ_iff _ (Nat.zero_le _)).1 hd
    have hne : r ≠ s := by rintro rfl; omega
    have := h.stop_lt_start hr hs hne
    omega
  · intro hd
    obtain ⟨s, hs, hstart, hstop⟩ := (h.differ_iff _ (Nat.zero_le _)).1 hd
    have hne : r ≠ s := by rintro rfl; omega
    have := h.stop_lt_start hr hs hne
    omega

theorem mem_iff : r ∈ runs ↔ r.IsMaximal a b := by
  refine ⟨h.isMaximal, fun hr => ?_⟩
  obtain ⟨s, hs, hstart, hstop⟩ :=
    (h.differ_iff r.start (Nat.zero_le _)).1 (hr.differ _ (Nat.le_refl _) hr.start_lt_stop)
  have hmax := h.isMaximal hs
  -- Both runs hold the start of `r`, and neither can go on where the other one ends.
  have hst : s.start = r.start := by
    by_contra hne
    exact hr.before (by omega) (hmax.differ _ (by omega) (by omega))
  have hsp : s.stop = r.stop := by
    obtain hlt | heq | hgt := Nat.lt_trichotomy s.stop r.stop
    · exact absurd (hr.differ _ (by omega) hlt) hmax.after
    · exact heq
    · exact absurd (hmax.differ _ (by have := hr.start_lt_stop; omega) hgt) hr.after
  obtain ⟨start, stop⟩ := r
  obtain rfl : s = ⟨start, stop⟩ := by
    cases s
    simp_all
  exact hs

theorem exists_first {i : Nat} (hd : Differ a b i) (hbefore : ∀ j < i, ¬ Differ a b j) :
    ∃ r rest, runs = r :: rest ∧ r.start = i := by
  obtain ⟨s, hs, hstart, hstop⟩ := (h.differ_iff i (Nat.zero_le i)).1 hd
  cases runs with
  | nil => cases hs
  | cons r rest =>
    refine ⟨r, rest, rfl, ?_⟩
    have hr := h.isMaximal List.mem_cons_self
    have hle : i ≤ r.start := by
      by_contra hlt
      exact hbefore _ (by omega) (hr.differ _ (Nat.le_refl _) hr.start_lt_stop)
    have hapart := (List.pairwise_cons.1 h.apart).1
    obtain rfl | hs := List.mem_cons.1 hs
    · omega
    · have := hapart s hs
      have := hr.start_lt_stop
      omega

theorem eq_nil_iff : runs = [] ↔ ∀ i, ¬ Differ a b i := by
  constructor
  · rintro rfl i hd
    obtain ⟨r, hr, -⟩ := (h.differ_iff i (Nat.zero_le i)).1 hd
    cases hr
  · intro hno
    refine List.eq_nil_iff_forall_not_mem.2 fun r hr => ?_
    have hmax := h.isMaximal hr
    exact hno _ (hmax.differ _ (Nat.le_refl _) hmax.start_lt_stop)

end Decomposes

/-- The lines, the first of which has the given index, with the added lines of each hunk in the place of
the removed ones. -/
def patch (index : Nat) (lines : List String) : List Hunk → List String
  | [] => lines
  | h :: rest =>
    lines.take (h.start - index) ++ (h.added ++
      patch (h.start + h.removed.length) (lines.drop (h.start - index + h.removed.length)) rest)

theorem patch_cons {hunks : List Hunk} (h : ∀ k ∈ hunks, index + 1 ≤ k.start) (line : String)
    (lines : List String) :
    patch index (line :: lines) hunks = line :: patch (index + 1) lines hunks := by
  cases hunks with
  | nil => rfl
  | cons k rest =>
    have hle := h k List.mem_cons_self
    have hskip : k.start - index = k.start - (index + 1) + 1 := by omega
    have hnext : k.start - (index + 1) + 1 + k.removed.length =
        k.start - (index + 1) + k.removed.length + 1 := by omega
    rw [patch, patch, hskip, hnext, List.take_succ_cons, List.drop_succ_cons, List.cons_append]

theorem patch_extend (line other : String) (lines : List String) (hunks : List Hunk) :
    patch index (line :: lines) (extend index [line] [other] hunks) =
      other :: patch (index + 1) lines hunks := by
  cases hunks with
  | nil => simp [extend, patch]
  | cons k rest =>
    rw [extend]
    split
    · next hstart =>
      have hend : index + (k.removed.length + 1) = index + 1 + k.removed.length := by omega
      simp [patch, hstart, hend]
    · simp [patch]

theorem le_start_extend {removed added : List String} {hunks : List Hunk}
    (h : ∀ k ∈ hunks, index + 1 ≤ k.start) : ∀ k ∈ extend index removed added hunks, index ≤ k.start := by
  have hle : ∀ k ∈ hunks, index ≤ k.start := fun k hk => Nat.le_of_succ_le (h k hk)
  cases hunks with
  | nil => simp [extend]
  | cons k rest =>
    rw [extend]
    split
    · exact List.forall_mem_cons.2 ⟨Nat.le_refl _, (List.forall_mem_cons.1 hle).2⟩
    · exact List.forall_mem_cons.2 ⟨Nat.le_refl _, hle⟩

theorem le_start_compare (index : Nat) (a b : List String) : ∀ k ∈ compare index a b, index ≤ k.start := by
  fun_induction compare index a b with
  | case1 => simp
  | case2 index as rest ih => exact fun k hk => Nat.le_of_succ_le (ih k hk)
  | case3 index a as rest ha ih => exact le_start_extend ih
  | case4 index bs rest ih => exact fun k hk => Nat.le_of_succ_le (ih k hk)
  | case5 index b bs rest hb ih => exact le_start_extend ih
  | case6 index as b bs rest ih => exact fun k hk => Nat.le_of_succ_le (ih k hk)
  | case7 index a as b bs rest hab ih => exact le_start_extend ih

theorem patch_compare (index : Nat) (h : a.length = b.length) : patch index a (compare index a b) = b := by
  fun_induction compare index a b with
  | case1 => rfl
  | case2 | case3 | case4 | case5 => simp at h
  | case6 index as b bs rest ih =>
    rw [patch_cons (le_start_compare _ _ _), ih (by simpa using h)]
  | case7 index a as b bs rest hab ih =>
    rw [patch_extend, ih (by simpa using h)]

def unchanged : String := "(no changes, no strings hashed)"

def title (path : String) : List String :=
  ["--- " ++ path ++ " (original)", "+++ " ++ path ++ " (expanded)", ""]

def Run.shown (colors : Bool) (a b : List String) (r : Run) : List String :=
  let removed := a.extract r.start r.stop
  let added := b.extract r.start r.stop
  ["@@ -" ++ (toString (r.start + 1) ++ "," ++ toString removed.length) ++ " +" ++
      (toString (r.start + 1) ++ "," ++ toString added.length) ++ " @@"] ++
    (removed.map fun line => Styled.paint colors ⟨"- " ++ line, [.red]⟩) ++
    (added.map fun line => Styled.paint colors ⟨"+ " ++ line, [.green]⟩) ++ [""]

theorem map_paint_lines (colors : Bool) (a b : List String) (r : Run) :
    ((ofRun a b r).lines).map (Styled.paint colors) = r.shown colors a b := by
  have hplain : ∀ text, Styled.paint colors ⟨text, []⟩ = text := fun text => by simp [Styled.paint]
  simp only [lines, ofRun, Run.shown, range, List.map_append, List.map_cons, List.map_nil, List.map_map,
    hplain]
  rfl

theorem print_of_ofTexts {before after : String} {runs : List Run}
    (h : ofTexts before after =
      runs.map (ofRun (Diagnostic.splitLines before) (Diagnostic.splitLines after)))
    (colors : Bool) (path : String) :
    print colors path before after =
      if runs = [] then [unchanged]
      else title path ++
        runs.flatMap (Run.shown colors (Diagnostic.splitLines before) (Diagnostic.splitLines after)) := by
  rw [print, h]
  cases runs with
  | nil => rfl
  | cons r rest =>
    simp only [List.map_cons, reduceCtorEq, if_false, title, List.flatMap_cons, List.map_append,
      map_paint_lines, List.flatMap_map, List.map_flatMap]

theorem exists_runs_of_texts (before after : String) :
    ∃ runs, ofTexts before after =
        runs.map (ofRun (Diagnostic.splitLines before) (Diagnostic.splitLines after)) ∧
      Decomposes (Diagnostic.splitLines before) (Diagnostic.splitLines after) 0 runs := by
  have h := exists_runs (Diagnostic.splitLines before) (Diagnostic.splitLines after) 0
  rwa [List.drop_zero, List.drop_zero] at h

theorem eq_of_not_differ (hlength : a.length = b.length) (h : ∀ i, ¬ Differ a b i) : a = b := by
  refine List.ext_getElem hlength fun i ha hb => ?_
  have hi := not_not.1 (h i)
  simpa [ha, hb] using hi

/-- What is printed of two texts are the maximal runs of indices at which their lines differ, in
ascending order, or the line that says that there are none. If the texts have as many lines, the added
lines of all hunks in the place of the removed ones make the one text into the other, and that line is
printed for equal texts only. -/
theorem print_eq_maximal_runs (colors : Bool) (path before after : String) :
    let a := Diagnostic.splitLines before
    let b := Diagnostic.splitLines after
    ∃ runs : List Run, (∀ r, r ∈ runs ↔ r.IsMaximal a b) ∧
      runs.Pairwise (fun r s => r.stop < s.start) ∧
      print colors path before after =
        (if runs = [] then [unchanged] else title path ++ runs.flatMap (Run.shown colors a b)) ∧
      (print colors path before after = [unchanged] ↔ ∀ i, a.getD i "" = b.getD i "") ∧
      (a.length = b.length →
        Diagnostic.joinLines (patch 0 a (runs.map (ofRun a b))) = after ∧
        (print colors path before after = [unchanged] ↔ before = after)) := by
  intro a b
  obtain ⟨runs, hruns, hdec⟩ := exists_runs_of_texts before after
  have hprint := print_of_ofTexts hruns colors path
  have hnil : print colors path before after = [unchanged] ↔ runs = [] := by
    rw [hprint]
    split
    · next h => simp [h]
    · next h => simp [h, title]
  have hsame : runs = [] ↔ ∀ i, a.getD i "" = b.getD i "" := by
    rw [hdec.eq_nil_iff]
    exact forall_congr' fun i => not_not
  refine ⟨runs, fun r => hdec.mem_iff, hdec.apart, hprint, hnil.trans hsame, fun hlength => ⟨?_, ?_⟩⟩
  · rw [← hruns, ofTexts, patch_compare 0 hlength, Diagnostic.joinLines_splitLines]
  · rw [hnil, hdec.eq_nil_iff]
    constructor
    · intro hno
      rw [← Diagnostic.joinLines_splitLines before, ← Diagnostic.joinLines_splitLines after]
      exact congrArg _ (eq_of_not_differ hlength hno)
    · rintro rfl i hd
      exact hd rfl

end Hunk

end HashedLiterals
