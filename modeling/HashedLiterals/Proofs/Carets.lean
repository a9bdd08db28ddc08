import HashedLiterals.Diagnostic.Render
import HashedLiterals.Proofs.Decoding
import HashedLiterals.Proofs.Positions
import HashedLiterals.Proofs.Refusals

/-!
Carets under a source line. Main statement: the plain rendering of every failure of a source shows the line
of its span with the number of the line, and under it carets that begin where the marker begins, or the
quote of a literal that is not closed, and end no later than the line.
-/
set_option autoImplicit false

namespace HashedLiterals

structure Span.BeginsIn (span : Span) (before head rest after : Bytes) : Prop where
  text_eq : span.text = before ++ (head ++ rest ++ after)
  isLine : Bytes.IsLine before (head ++ rest) after
  start_eq : span.start = ((before.length + head.length : Nat) : Int)

namespace Span.BeginsIn

open Bytes (newline trimReturn)

variable {span : Span} {before head rest after : Bytes} (h : span.BeginsIn before head rest after)

include h

theorem line_eq : (Position.ofOffset span.text span.start).line = before.count newline + 1 := by
  rw [h.text_eq, h.start_eq, Position.ofOffset_of_isLine h.isLine]

theorem lineAt_eq : Range.lineAt span.text span.start =
    ⟨before.length, ((before.length + (trimReturn (head ++ rest)).length : Nat) : Int)⟩ := by
  rw [h.text_eq, h.start_eq, Range.lineAt_of_isLine h.isLine]

theorem slice_line : span.text.slice (Range.lineAt span.text span.start).start
    (Range.lineAt span.text span.start).stop = trimReturn (head ++ rest) := by
  rw [h.text_eq, h.start_eq]
  exact Range.slice_lineAt h.isLine

theorem slice_head :
    span.text.slice (Range.lineAt span.text span.start).start span.start = head := by
  have hcut := Bytes.slice_append before (head ++ rest) after (i := 0) (j := head.length) (by simp)
  rw [List.drop_zero, List.take_left] at hcut
  rw [h.lineAt_eq, h.text_eq, h.start_eq]
  exact hcut

theorem slice_span (hrest : rest ≠ []) (hlength : 0 ≤ span.length) :
    span.text.slice span.start
        (min (span.start + span.length) (Range.lineAt span.text span.start).stop) =
      (trimReturn rest).take span.length.toNat := by
  have hprefix := Bytes.trimReturn_prefix (head ++ rest)
  have hle := hprefix.length_le
  have hstop : min (span.start + span.length) (Range.lineAt span.text span.start).stop =
      ((before.length + min (head.length + span.length.toNat) (trimReturn (head ++ rest)).length : Nat)
        : Int) := by
    rw [h.lineAt_eq, h.start_eq]
    simp only
    omega
  rw [hstop, h.text_eq, h.start_eq, Bytes.slice_append _ _ _ (by omega), ← List.take_take,
    ← List.prefix_iff_eq_take.1 hprefix, Bytes.trimReturn_append hrest, List.take_length_add_append,
    List.drop_left]

end Span.BeginsIn

namespace Diagnostic

open Bytes (newline trimReturn)

def sourceLine (number : Nat) (text : String) : String :=
  " " ++ alignRight (max 3 (toString number).length) (toString number) ++ " | " ++ text

def caretLine (number indent carets : Nat) (label : String) : String :=
  " " ++ blanks (max 3 (toString number).length) ++ " | " ++
    (blanks indent ++ String.ofList (List.replicate carets '^') ++ (" " ++ label))

def Shows (d : Diagnostic) (explain : Bool) (number : Nat) (text : String) (indent carets : Nat) :
    Prop :=
  ∃ above label below, d.render false explain =
    joinLines (above ++ sourceLine number text :: caretLine number indent carets label :: below)

def plain (line : List Styled) : String := String.join (line.map Styled.text)

variable {d : Diagnostic} {span : Span} {before head rest after : Bytes} {label : String}

theorem render_plain (d : Diagnostic) (explain : Bool) :
    d.render false explain = joinLines ((d.lines explain).map plain) := by
  have hpaint : Styled.paintLine false = plain := by
    funext line
    rw [Styled.paintLine, funext Styled.paint_plain]
    rfl
  rw [render, hpaint]

theorem plain_source (margin : Nat) (number text : String) (style : List Style) :
    plain [⟨" ", []⟩, ⟨alignRight margin number, style⟩, ⟨" ", []⟩, ⟨"|", style⟩, ⟨" " ++ text, []⟩] =
      " " ++ alignRight margin number ++ " | " ++ text := by
  have hbar : " | " = " " ++ "|" ++ " " := by decide
  simp only [plain, String.join, List.map_cons, List.map_nil, List.foldl_cons, List.foldl_nil,
    String.empty_append, hbar, String.append_assoc]

theorem plain_carets (margin : Nat) (carets : String) (style style' : List Style) :
    plain [⟨" " ++ blanks margin ++ " ", []⟩, ⟨"|", style⟩, ⟨" ", []⟩, ⟨carets, style'⟩] =
      " " ++ blanks margin ++ " | " ++ carets := by
  have hbar : " | " = " " ++ "|" ++ " " := by decide
  simp only [plain, String.join, List.map_cons, List.map_nil, List.foldl_cons, List.foldl_nil,
    String.empty_append, hbar, String.append_assoc]

theorem plain_excerpt (h : span.BeginsIn before head rest after) (hrest : rest ≠ [])
    (hlength : 0 ≤ span.length) (hl : d.label = some label) (hne : label.isEmpty = false) :
    ∃ place frame, (d.excerpt span).map plain =
      [place, frame,
        sourceLine (before.count newline + 1) (Utf8.decode (trimReturn (head ++ rest))),
        caretLine (before.count newline + 1) (Units.count (Utf8.decode head))
          (max 1 (Units.count (Utf8.decode ((trimReturn rest).take span.length.toNat)))) label,
        frame] := by
  simp only [excerpt, h.line_eq, h.slice_line, h.slice_head, h.slice_span hrest hlength, hl, hne,
    List.map_cons, List.map_nil, plain_source, plain_carets, Bool.false_eq_true, if_false]
  exact ⟨_, _, rfl⟩

theorem shows_of_beginsIn (hs : d.span = some span) (h : span.BeginsIn before head rest after)
    (hrest : rest ≠ []) (hlength : 0 ≤ span.length) (hl : d.label = some label)
    (hne : label.isEmpty = false) (explain : Bool) :
    d.Shows explain (before.count newline + 1) (Utf8.decode (trimReturn (head ++ rest)))
      (Units.count (Utf8.decode head))
      (max 1 (Units.count (Utf8.decode ((trimReturn rest).take span.length.toNat)))) := by
  obtain ⟨place, frame, he⟩ := plain_excerpt h hrest hlength hl hne
  rw [Shows, render_plain]
  simp only [lines, location, hs, List.map_append, he, List.append_assoc, List.map_cons, List.map_nil]
  exact ⟨[plain d.header, place, frame], label, _, rfl⟩

/-- The plain rendering points at what stands at an offset of the text, which begins with `opening`: it
shows the line of the offset with its number, and carets that begin under the opening and end no later
than the line. -/
def PointsAt (d : Diagnostic) (explain : Bool) (text : Bytes) (offset : Nat) (opening : String) : Prop :=
  ∃ (before line after head : Bytes) (shown : String) (carets : Nat),
    text = before ++ (line ++ after) ∧ Bytes.IsLine before line after ∧
    (text.splitOn newline)[before.count newline]? = some line ∧
    head <+: line ∧ offset = before.length + head.length ∧
    Utf8.decode (trimReturn line) = Utf8.decode head ++ (opening ++ shown) ∧
    1 ≤ carets ∧ carets ≤ Units.count (opening ++ shown) ∧
    d.Shows explain (before.count newline + 1) (Utf8.decode (trimReturn line))
      (Units.count (Utf8.decode head)) carets

theorem pointsAt_of_span {x opening y : Bytes} (hs : d.span = some span) (hl : d.label = some label)
    (hne : label.isEmpty = false) (htext : span.text = x ++ (opening ++ y))
    (hstart : span.start = x.length) (hlength : 0 ≤ span.length) (hopening : opening ≠ [])
    (hascii : ∀ b ∈ opening, b < 0x80 ∧ b ≠ newline ∧ b ≠ Bytes.carriageReturn) (explain : Bool) :
    d.PointsAt explain span.text x.length (Utf8.decode opening) := by
  have hnewline : newline ∉ opening := fun h => (hascii _ h).2.1 rfl
  have hreturn : Bytes.carriageReturn ∉ opening := fun h => (hascii _ h).2.2 rfl
  obtain ⟨before, head, rest, after, rfl, rfl, hline⟩ := Bytes.exists_isLine hnewline x y
  have hrest : opening ++ rest ≠ [] := by simp [hopening]
  have hin : span.BeginsIn before head (opening ++ rest) after :=
    ⟨by rw [htext]; simp, hline, by rw [hstart, List.length_append]⟩
  have htrim : trimReturn (opening ++ rest) = opening ++ trimReturn rest :=
    Bytes.trimReturn_append_of_not_mem hreturn rest
  have hdecode : Utf8.decode (opening ++ trimReturn rest) =
      Utf8.decode opening ++ Utf8.decode (trimReturn rest) :=
    Utf8.decode_append_of_ascii (fun b hb => (hascii b hb).1) _
  refine ⟨before, head ++ (opening ++ rest), after, head, Utf8.decode (trimReturn rest), _, hin.text_eq,
    hline, ?_, List.prefix_append _ _, List.length_append, ?_, ?_, ?_,
    shows_of_beginsIn hs hin hrest hlength hl hne explain⟩
  · rw [hin.text_eq]
    exact hline.getElem?_splitOn
  · obtain ⟨b, more, rfl⟩ := List.exists_cons_of_ne_nil hopening
    rw [Bytes.trimReturn_append hrest, htrim, List.cons_append,
      Utf8.decode_append_of_lt (hascii b List.mem_cons_self).1, ← List.cons_append, hdecode]
  · exact Nat.le_max_left _ _
  · have hpos : 0 < Units.count (Utf8.decode (opening ++ trimReturn rest)) :=
      Units.count_decode_pos (by simp [hopening])
    have hle := Units.count_decode_le_append ((opening ++ trimReturn rest).take span.length.toNat)
      ((opening ++ trimReturn rest).drop span.length.toNat)
    rw [List.take_append_drop] at hle
    rw [htrim, ← hdecode]
    omega

end Diagnostic

namespace Preprocess

open Diagnostic (PointsAt)

variable {o : Options} {registry : Option Registry} {input x y : Bytes} {f : Failure} {m : Marker}
  {span : Span} {label : String}

theorem token_shown {b : UInt8} (h : b ∈ m.token) :
    b < 0x80 ∧ b ≠ Bytes.newline ∧ b ≠ Bytes.carriageReturn := by
  have hreturn : Bytes.carriageReturn ∉ m.token := by
    intro hm
    obtain hc | hc := Marker.isAlnum_or_of_mem_token hm
    · exact absurd hc (by decide)
    · exact absurd hc (by decide)
  refine ⟨Marker.lt_of_mem_token h, ?_, ?_⟩
  · rintro rfl
    exact Scan.newline_not_mem_token m h
  · rintro rfl
    exact hreturn h

/-- What a failure points at: the token of the invocation, or the quote of a literal that is not closed. -/
def pointed (m : Marker) (f : Failure) : String :=
  if f.kind = .unterminatedLiteral then "\"" else m.text ++ "("

theorem pointsAt_token (hk : f.kind ≠ .unterminatedLiteral) (hs : f.diagnostic.span = some span)
    (hl : f.diagnostic.label = some label) (hne : label.isEmpty = false) (htext : span.text = input)
    (hi : input = x ++ (m.token ++ y)) (hstart : span.start = x.length) (hlength : 0 ≤ span.length)
    (explain : Bool) : f.diagnostic.PointsAt explain input x.length (pointed m f) := by
  rw [pointed, if_neg hk, ← m.decode_token, ← htext]
  exact Diagnostic.pointsAt_of_span hs hl hne (htext.trans hi) hstart hlength m.token_ne_nil
    (fun b => token_shown) explain

theorem pointsAt_quote (hk : f.kind = .unterminatedLiteral) (hs : f.diagnostic.span = some span)
    (hl : f.diagnostic.label = some label) (hne : label.isEmpty = false) (htext : span.text = input)
    (hi : input = x ++ Bytes.quote :: y) (hstart : span.start = x.length) (hlength : 0 ≤ span.length)
    (explain : Bool) : f.diagnostic.PointsAt explain input x.length (pointed m f) := by
  have hdecode : Utf8.decode [Bytes.quote] = "\"" := by decide +kernel
  rw [pointed, if_pos hk, ← hdecode, ← htext]
  refine Diagnostic.pointsAt_of_span hs hl hne (htext.trans hi) hstart hlength (List.cons_ne_nil _ _)
    (fun b hb => ?_) explain
  rw [List.mem_singleton.1 hb]
  decide

theorem pointsAt_ofFault {fault : Scan.Fault} (hi : input = x ++ (o.marker.token ++ y))
    (hr : Scan.readBody y = .error fault) (explain : Bool) :
    ∃ span offset, (Failure.ofFault (site o input x.length) fault).diagnostic.span = some span ∧
      span.text = input ∧ span.start = (offset : Nat) ∧
      ((Failure.ofFault (site o input x.length) fault).kind ≠ .unterminatedLiteral → offset = x.length) ∧
      (Failure.ofFault (site o input x.length) fault).diagnostic.PointsAt explain input offset
        (pointed o.marker (Failure.ofFault (site o input x.length) fault)) := by
  have hle : x.length + o.marker.token.length ≤ input.length := by
    rw [hi]
    simp only [List.length_append]
    omega
  have hdrop : input.drop (x.length + o.marker.token.length) = y := by
    rw [hi, ← List.append_assoc, ← List.length_append, List.drop_left]
  obtain ⟨span, hs, htext, -, hpos, -⟩ := span_ofFault hle (hdrop.symm ▸ hr)
  obtain ⟨-, rfl⟩ | ⟨⟨inner, hd, -⟩, rfl⟩ | ⟨-, literal, found, -, rfl⟩ := Scan.readBody_eq_error hr
  · have hstart : span.start = x.length := Option.some.inj hs ▸ rfl
    refine ⟨span, x.length, hs, htext, hstart, fun _ => rfl, ?_⟩
    refine pointsAt_token ?_ hs rfl ?_ htext hi hstart (by omega) explain
    · exact fun hk => by cases hk
    · decide
  · -- The quote stands behind the token and the white space that follows it.
    have hstart : span.start =
        (x ++ (o.marker.token ++ y.takeWhile Bytes.isSpace)).length := by
      rw [← Option.some.inj hs]
      simp only [site, List.length_append]
      omega
    have hquote : input = (x ++ (o.marker.token ++ y.takeWhile Bytes.isSpace)) ++ Bytes.quote :: inner := by
      rw [hi, List.append_assoc, List.append_assoc, ← hd, List.takeWhile_append_dropWhile]
    refine ⟨span, _, hs, htext, hstart, fun hk => absurd rfl hk, ?_⟩
    refine pointsAt_quote rfl hs rfl ?_ htext hquote hstart (by omega) explain
    decide
  · have hstart : span.start = x.length := Option.some.inj hs ▸ rfl
    refine ⟨span, x.length, hs, htext, hstart, fun _ => rfl, ?_⟩
    refine pointsAt_token ?_ hs rfl ?_ htext hi hstart (by omega) explain
    · exact fun hk => by cases hk
    · decide

/-- Whatever a source is refused for, the plain rendering points at it: at the token of the invocation,
or at the quote of a literal that is not closed. -/
theorem carets_point (h : (run o registry input).1 = .error f) (explain : Bool) :
    ∃ span offset, f.diagnostic.span = some span ∧ span.text = input ∧ span.start = (offset : Nat) ∧
      (f.kind ≠ .unterminatedLiteral → f.offset = some (offset : Int)) ∧
      f.diagnostic.PointsAt explain input offset (pointed o.marker f) := by
  obtain ⟨r, i, existing, before, source, after, -, -, hi, ⟨body, -, rfl⟩, rfl⟩ |
    ⟨before, after, fault, hi, hr, rfl⟩ := run_error_cases h
  · rw [List.append_assoc] at hi
    have hs : (Failure.hashCollision (site o input before.length) (o.marker.token ++ body).length
        i.literal i.hash existing).diagnostic.span =
          some ⟨o.fileName, input, before.length, (o.marker.token ++ body).length⟩ := rfl
    refine ⟨_, before.length, hs, rfl, rfl, fun _ => rfl, ?_⟩
    refine pointsAt_token ?_ hs rfl ?_ rfl hi rfl (Int.natCast_nonneg _) explain
    · exact fun hk => by cases hk
    · decide
  · obtain ⟨span, offset, hs, htext, hstart, hoffset, hpoint⟩ := pointsAt_ofFault hi hr explain
    refine ⟨span, offset, hs, htext, hstart, fun hk => ?_, hpoint⟩
    rw [hoffset hk, Failure.offset_ofFault]
    rfl

def spread : Bytes := Utf8.encode "x;\r\n" ++ [0xe2, 0x82] ++ Utf8.encode " SID(\r\n7);"

theorem carets_point_spread :
    ∃ f, (run {} none spread).1 = .error f ∧ f.kind = .notALiteral ∧
      f.diagnostic.PointsAt true spread 7 "SID(" := by
  have hfault : (Scan.scan .default spread).fault = some (.notALiteral 2) := by decide +kernel
  have hrun := run_of_fault (o := {}) hfault
  refine ⟨_, hrun, rfl, ?_⟩
  obtain ⟨span, offset, -, -, -, hoffset, hpoint⟩ := carets_point hrun true
  have hstart : faultOffset (Scan.scan .default spread) = 7 := by decide +kernel
  have heq := hoffset nofun
  rw [Failure.offset_ofFault, Option.some.injEq] at heq
  have hseven : offset = 7 := Int.natCast_inj.1 (heq.symm.trans (congrArg Nat.cast hstart))
  have htext : Marker.default.text ++ "(" = "SID(" := by decide +kernel
  rw [← htext, ← hseven]
  exact hpoint

end Preprocess

end HashedLiterals
