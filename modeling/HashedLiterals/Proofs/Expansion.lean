import HashedLiterals.Command.Run
import HashedLiterals.Proofs.Collisions
import HashedLiterals.Proofs.Hunks
import HashedLiterals.Proofs.Positions
import HashedLiterals.Proofs.Decoding

/-!
Differences between a source and its output. A text is read line by line from the lines of its bytes, and
no constant begins as a token does. Main statement: the printed differences are none exactly when
nothing is replaced, and else begin in the line of the first invocation.
-/
set_option autoImplicit false

namespace HashedLiterals

open Bytes (newline)
open Scan (bytes bytes_cons)

namespace Utf8

theorem newline_not_mem_decodeChars {x : Bytes} (h : newline ∉ x) : '\n' ∉ decodeChars x :=
  not_mem_decodeChars (by decide) (by decide) h

theorem decodeChars_around {opening : Bytes} (hne : opening ≠ []) (hascii : ∀ b ∈ opening, b < 0x80)
    (x y : Bytes) : decodeChars (x ++ (opening ++ y)) =
      decodeChars x ++ ((opening.map fun b => Char.ofNat b.toNat) ++ decodeChars y) := by
  obtain ⟨b, more, rfl⟩ := List.exists_cons_of_ne_nil hne
  rw [← decodeChars_append_of_ascii hascii y, List.cons_append,
    decodeChars_append_of_lt (hascii b List.mem_cons_self)]

theorem splitLines_decode (x : Bytes) :
    Diagnostic.splitLines (decode x) = (x.splitOn newline).map decode := by
  induction hn : x.length using Nat.strongRecOn generalizing x with
  | ind n ih =>
    have hlines : ∀ chars : List Char, Diagnostic.splitLines (String.ofList chars) =
        (chars.splitOn '\n').map String.ofList := fun chars => by
      rw [Diagnostic.splitLines, String.toList_ofList]
    obtain ⟨line, after, rfl, hline, rfl | ⟨rest, rfl⟩⟩ := Bytes.exists_first_newline x
    · rw [List.append_nil, decode, hlines, List.splitOn_eq_singleton (newline_not_mem_decodeChars hline),
        List.splitOn_eq_singleton hline]
      rfl
    · have hlt : rest.length < n := by
        rw [← hn, List.length_append, List.length_cons]
        omega
      have hchar : Char.ofNat newline.toNat = '\n' := by decide
      have hascii : newline < 0x80 := by decide
      rw [decode, decodeChars_append_of_lt hascii, decodeChars_cons_of_lt hascii, hchar, hlines,
        List.splitOn_append_cons_self, List.splitOn_append_cons_self, List.map_append, List.map_append,
        List.splitOn_eq_singleton (newline_not_mem_decodeChars hline), List.splitOn_eq_singleton hline,
        ← ih _ hlt rest rfl, decode, hlines]
      rfl

end Utf8

namespace Bytes

variable {before : Bytes}

theorem getElem?_splitOn_before (h : before = [] ∨ ∃ z, before = z ++ [newline]) (x y : Bytes) {i : Nat}
    (hi : i < before.count newline) :
    ((before ++ x).splitOn newline)[i]? = ((before ++ y).splitOn newline)[i]? := by
  obtain rfl | ⟨z, rfl⟩ := h
  · cases hi
  · have hlt : i < (z.splitOn newline).length := by
      rw [length_splitOn]
      rwa [List.count_append] at hi
    rw [List.append_assoc, List.append_assoc, List.singleton_append, List.singleton_append,
      List.splitOn_append_cons_self, List.splitOn_append_cons_self, List.getElem?_append_left hlt,
      List.getElem?_append_left hlt]

end Bytes

namespace Literal

theorem opening_ne_nil (hash : Int) : opening hash ≠ [] := by
  rw [opening, ne_eq, List.append_eq_nil_iff, not_and]
  exact fun _ => by decide

theorem lt_of_mem_opening {hash : Int} {b : UInt8} (h : b ∈ opening hash) : b < 0x80 := by
  have hcomment : (Bytes.ofChars " /* \"".toList).all (fun b => decide (b < 0x80)) = true := by decide
  rw [opening, List.mem_append] at h
  obtain h | h := h
  · exact Bytes.lt_of_isAlnum (isAlnum_of_mem_constant h)
  · exact of_decide_eq_true (List.all_eq_true.1 hcomment b h)

theorem mem_map_ofNat {b : UInt8} {x : Bytes} :
    Char.ofNat b.toNat ∈ (x.map fun b => Char.ofNat b.toNat) ↔ b ∈ x := by
  have hchar : ∀ n < 256, (Char.ofNat n).toNat = n := by decide +kernel
  refine ⟨fun h => ?_, List.mem_map_of_mem⟩
  obtain ⟨c, hc, hcb⟩ := List.mem_map.1 h
  have hnat := congrArg Char.toNat hcb
  rw [hchar c.toNat c.toNat_lt, hchar b.toNat b.toNat_lt] at hnat
  exact UInt8.toNat_inj.1 hnat ▸ hc

theorem token_append_ne (m : Marker) (hash : Int) (u v : List Char) :
    (m.token.map fun b => Char.ofNat b.toNat) ++ u ≠
      ((opening hash).map fun b => Char.ofNat b.toNat) ++ v := by
  intro h
  obtain ⟨z, hz, -⟩ | ⟨z, hz, -⟩ := List.append_eq_append_iff.1 h
  · have hparen : Bytes.openParen ∈ m.token := by simp [Marker.token]
    have hmem := List.mem_append_left z (mem_map_ofNat.2 hparen)
    rw [← hz, mem_map_ofNat] at hmem
    exact not_mem_opening (by decide) (by decide) hash hmem
  · have hblank : (0x20 : UInt8) ∈ opening hash := by
      rw [opening]
      exact List.mem_append_right _ (by decide)
    have hmem := List.mem_append_left z (mem_map_ofNat.2 hblank)
    rw [← hz, mem_map_ofNat] at hmem
    obtain halnum | hparen := Marker.isAlnum_or_of_mem_token hmem
    · exact absurd halnum (by decide)
    · exact absurd hparen (by decide)

end Literal

namespace Hunk

open Diagnostic (splitLines)

variable {z before line gap : Bytes}

theorem getElem?_splitLines_decode (h : Bytes.IsLine before line z) :
    (splitLines (Utf8.decode (before ++ (line ++ z))))[before.count newline]? = some (Utf8.decode line) := by
  rw [Utf8.splitLines_decode, List.getElem?_map, h.getElem?_splitOn, Option.map_some]

theorem not_differ_before (h : before = [] ∨ ∃ z, before = z ++ [newline]) (x y : Bytes) {i : Nat}
    (hi : i < before.count newline) :
    ¬ Differ (splitLines (Utf8.decode (before ++ x))) (splitLines (Utf8.decode (before ++ y))) i := by
  rw [Differ, List.getD_eq_getElem?_getD, List.getD_eq_getElem?_getD, Utf8.splitLines_decode,
    Utf8.splitLines_decode, List.getElem?_map, List.getElem?_map, Bytes.getElem?_splitOn_before h x y hi]
  exact not_not.2 rfl

/-- A token and an opening in one place of a line make the line read differently. -/
theorem decode_token_ne (m : Marker) (hash : Int) (head x y : Bytes) :
    Utf8.decode (head ++ (m.token ++ x)) ≠ Utf8.decode (head ++ (Literal.opening hash ++ y)) := by
  intro h
  rw [Utf8.decode, Utf8.decode, String.ofList_inj,
    Utf8.decodeChars_around m.token_ne_nil fun _ hb => Marker.lt_of_mem_token hb,
    Utf8.decodeChars_around (Literal.opening_ne_nil hash) fun _ hb => Literal.lt_of_mem_opening hb,
    List.append_cancel_left_eq] at h
  exact Literal.token_append_ne m hash _ _ h

/-- Two texts that are alike up to a token in the one and an opening in the other differ first in the
line where these stand. -/
theorem differ_first (m : Marker) (hash : Int) (gap x y : Bytes) :
    Differ (splitLines (Utf8.decode (gap ++ (m.token ++ x))))
        (splitLines (Utf8.decode (gap ++ (Literal.opening hash ++ y)))) (gap.count newline) ∧
      ∀ i < gap.count newline, ¬ Differ (splitLines (Utf8.decode (gap ++ (m.token ++ x))))
        (splitLines (Utf8.decode (gap ++ (Literal.opening hash ++ y)))) i := by
  obtain ⟨before, head, rest, after, rfl, rfl, hline⟩ :=
    Bytes.exists_isLine (Scan.newline_not_mem_token m) gap x
  obtain ⟨rest', after', rfl, hrest, hafter⟩ := Bytes.exists_first_newline y
  have hhead : newline ∉ head := fun h => hline.line (List.mem_append_left _ h)
  have hline' : Bytes.IsLine before (head ++ (Literal.opening hash ++ rest')) after' := by
    refine ⟨hline.before, ?_, hafter⟩
    simp only [List.mem_append, not_or]
    exact ⟨hhead, Literal.not_mem_opening (by decide) (by decide) hash, hrest⟩
  have hcount : (before ++ head).count newline = before.count newline := by
    rw [List.count_append, List.count_eq_zero_of_not_mem hhead, Nat.add_zero]
  rw [hcount]
  refine ⟨?_, fun i hi => ?_⟩
  · have hleft := getElem?_splitLines_decode hline
    have hright := getElem?_splitLines_decode hline'
    simp only [List.append_assoc] at hleft hright ⊢
    rw [Differ, List.getD_eq_getElem?_getD, List.getD_eq_getElem?_getD, hleft, hright]
    exact decode_token_ne m hash head rest rest'
  · rw [List.append_assoc, List.append_assoc]
    exact not_differ_before hline.before _ _ hi

end Hunk

namespace Preprocess

variable {o : Options} {input : Bytes} {s : Success} {i : Invocation} {more : List Invocation}

/-- The output goes on like the source up to the first invocation, and with an opening in place of its
token. -/
theorem exists_first_of_run (h : (run o none input).1 = .ok s) (hi : s.invocations = i :: more) :
    ∃ gap x y, input = gap ++ (o.marker.token ++ x) ∧
      s.output = gap ++ (Literal.opening (o.hash i.span) ++ y) ∧ i.start = gap.length := by
  obtain ⟨pieces, tail, hs, rfl⟩ := exists_segmentation_of_run h
  cases pieces with
  | nil => cases hi
  | cons p pieces =>
    obtain ⟨body, -, hsource⟩ := hs.isInvocation p List.mem_cons_self
    obtain ⟨rfl, -⟩ := List.cons.inj hi
    refine ⟨p.gap, body ++ (bytes pieces ++ tail),
      p.span ++ Literal.closing ++ output o.hash ⟨pieces, tail, none⟩, ?_, ?_, Nat.zero_add _⟩
    · rw [hs.input_eq, bytes_cons, hsource, List.append_nil]
      simp only [List.append_assoc]
    · rw [success, output_cons, Literal.replacement_eq, List.append_assoc]

theorem output_of_run (h : (run o none input).1 = .ok s) (hi : s.invocations = []) : s.output = input := by
  obtain ⟨pieces, tail, hs, rfl⟩ := exists_segmentation_of_run h
  rw [(success_edits hs).output, hi]
  rfl

end Preprocess

namespace Command

open Diagnostic (splitLines)
open FileUpdate (Call)

/-- The differences of a source from its output are none exactly when nothing is replaced. Else the first
run of lines that differ begins with the line of the first invocation. -/
theorem expandSource_diff {d : Disk} {path : String} {input : Bytes} {m : Marker} {hash : HashFunction}
    {s : Preprocess.Success} (hread : d.read path = .ok input)
    (hrun : (Preprocess.run ⟨m, hash, path, false, .standard⟩ none input).1 = .ok s) (r : Report) (colors : Bool) :
    ∃ printed, expandSource d r colors m hash true path = ⟨0, { r with out := r.out ++ printed }, d⟩ ∧
      (printed = [Hunk.unchanged] ↔ s.invocations = []) ∧
      ∀ i more, s.invocations = i :: more → ∃ (run : Hunk.Run) (rest : List Hunk.Run),
        printed = Hunk.title path ++
          (run :: rest).flatMap (Hunk.Run.shown colors (splitLines (Utf8.decode input)) (splitLines s.code)) ∧
        run.IsMaximal (splitLines (Utf8.decode input)) (splitLines s.code) ∧
        run.start + 1 = (Position.ofOffset input i.start).line := by
  obtain ⟨runs, hruns, hdec⟩ := Hunk.exists_runs_of_texts (Utf8.decode input) s.code
  have hprint := Hunk.print_of_ofTexts hruns colors path
  have hfirst : ∀ i more, s.invocations = i :: more →
      ∃ run rest, runs = run :: rest ∧ run.start + 1 = (Position.ofOffset input i.start).line := by
    intro i more hi
    obtain ⟨gap, x, y, hinput, houtput, hstart⟩ := Preprocess.exists_first_of_run hrun hi
    obtain ⟨hdiffer, hbefore⟩ := Hunk.differ_first m (hash i.span) gap x y
    rw [← hinput, ← houtput] at hdiffer hbefore
    obtain ⟨run, rest, hcons, hline⟩ := hdec.exists_first hdiffer hbefore
    refine ⟨run, rest, hcons, ?_⟩
    rw [hline, Position.ofOffset, Int.toNat_natCast, hstart, hinput, List.take_left]
  refine ⟨Hunk.print colors path (Utf8.decode input) s.code, ?_, ?_, ?_⟩
  · simp only [expandSource, hread]
    split
    · next f _ h => simp [h] at hrun
    · next t _ h =>
      rw [h] at hrun
      obtain rfl := Except.ok.inj hrun
      simp only [if_true, foldl_print]
  · constructor
    · intro hunchanged
      by_contra hsome
      obtain ⟨i, more, hi⟩ := List.exists_cons_of_ne_nil hsome
      obtain ⟨run, rest, rfl, -⟩ := hfirst i more hi
      rw [hprint, if_neg (List.cons_ne_nil _ _)] at hunchanged
      simp [Hunk.title] at hunchanged
    · intro hnone
      rw [hprint, if_pos]
      refine hdec.eq_nil_iff.2 fun i hd => hd ?_
      rw [Preprocess.Success.code, Preprocess.output_of_run hrun hnone]
  · intro i more hi
    obtain ⟨run, rest, rfl, hline⟩ := hfirst i more hi
    exact ⟨run, rest, by rw [hprint, if_neg (List.cons_ne_nil _ _)], hdec.isMaximal List.mem_cons_self, hline⟩

def secondLine : Bytes := 0xff :: newline :: Utf8.encode "y = SID(\"a\");"

theorem expandSource_diff_second_line :
    ∃ (out : List String) (run : Hunk.Run) (rest : List Hunk.Run),
      expandSource (Call.trial secondLine).disk {} false .default Hash.Algorithm.djb2.function true "a" =
        ⟨0, { out }, (Call.trial secondLine).disk⟩ ∧
      out = Hunk.title "a" ++ (run :: rest).flatMap (Hunk.Run.shown false ["\ufffd", "y = SID(\"a\");"]
        ["\ufffd", "y = 0x0002b606 /* \"a\" */;"]) ∧
      run.start = 1 := by
  have hfault : (Scan.scan Marker.default secondLine).fault = none := by decide +kernel
  have hrun := Preprocess.run_of_fault_none (o := { fileName := "a" }) hfault
  have hbefore : splitLines (Utf8.decode secondLine) = ["\ufffd", "y = SID(\"a\");"] := by decide +kernel
  have hafter : splitLines (Preprocess.success { fileName := "a" } secondLine
      (Scan.scan Marker.default secondLine)).code = ["\ufffd", "y = 0x0002b606 /* \"a\" */;"] := by
    decide +kernel
  obtain ⟨out, hout, -, hfirst⟩ := expandSource_diff (FileUpdate.read_trial secondLine) hrun {} false
  obtain ⟨run, rest, hshown, -, hline⟩ := hfirst ⟨6, 14, Utf8.encode "a", 0x0002b606⟩ [] (by decide +kernel)
  refine ⟨out, run, rest, hout, ?_, ?_⟩
  · rw [hshown, hbefore, hafter]
  · have htwo : (Position.ofOffset secondLine (6 : Nat)).line = 2 := by decide +kernel
    exact Nat.succ.inj (hline.trans htwo)

end Command

end HashedLiterals
