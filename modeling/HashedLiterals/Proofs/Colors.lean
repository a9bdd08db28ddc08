import HashedLiterals.Diagnostic.Render
import HashedLiterals.Proofs.Decoding
import HashedLiterals.Proofs.Hunks
import HashedLiterals.Proofs.Mappings
import Mathlib.Data.List.Forall2

/-!
Colours in rendered diagnostics. A terminal reads a text as characters and escape sequences, of which
none begins another one. Main statement: without its escape sequences a coloured report is the plain
one, and in it no style stays open where a diagnostic begins or ends.
-/
set_option autoImplicit false

namespace HashedLiterals

/-- What a terminal takes from a text: a character to show, a style to open, or the reset. -/
inductive Signal where
  | char (c : Char)
  | opens (s : Style)
  | reset
  deriving DecidableEq, Repr

namespace Signal

def text : Signal → List Char
  | .char c => [c]
  | .opens s => s.sequence.toList
  | .reset => Style.reset.toList

def escapes : List Signal :=
  .reset :: [Style.bold, .red, .yellow, .blue, .cyan, .green].map .opens

def escapeChar : Char := '\x1b'

def escape? (text : List Char) : Option Signal := escapes.find? fun e => e.text.isPrefixOf text

def read : List Char → List Signal
  | [] => []
  | c :: rest =>
    match escape? (c :: rest) with
    | none => .char c :: read rest
    | some e => e :: read (rest.drop (e.text.length - 1))
termination_by text => text.length
decreasing_by all_goals simp only [List.length_drop, List.length_cons]; omega

def char? : Signal → Option Char
  | .char c => some c
  | _ => none

def shown (signals : List Signal) : List Char := signals.filterMap char?

def Closed (signals : List Signal) : Prop :=
  (signals.filter fun s => s.char?.isNone).getLast?.all (· == .reset)

variable {c : Char} {e : Signal} {a b : List Signal}

theorem head?_text : ∀ e ∈ escapes, e.text.head? = some escapeChar := by decide +kernel

theorem exists_text_eq (he : e ∈ escapes) : ∃ rest, e.text = escapeChar :: rest := by
  have hhead := head?_text e he
  cases ht : e.text with
  | nil => simp [ht] at hhead
  | cons c rest =>
    simp only [ht, List.head?_cons, Option.some.injEq] at hhead
    exact ⟨rest, by rw [hhead]⟩

theorem eq_of_isPrefixOf : ∀ e ∈ escapes, ∀ f ∈ escapes, e.text.isPrefixOf f.text → e = f := by
  decide +kernel

theorem escape?_cons (h : c ≠ escapeChar) (rest : List Char) : escape? (c :: rest) = none := by
  refine List.find?_eq_none.2 fun e he hp => ?_
  obtain ⟨more, hmore⟩ := exists_text_eq he
  rw [hmore, List.isPrefixOf_iff_prefix, List.cons_prefix_cons] at hp
  exact h hp.1.symm

theorem escape?_append (he : e ∈ escapes) (rest : List Char) : escape? (e.text ++ rest) = some e := by
  have hp : e.text <+: e.text ++ rest := List.prefix_append _ _
  cases hf : escape? (e.text ++ rest) with
  | none => exact absurd (List.isPrefixOf_iff_prefix.2 hp) (List.find?_eq_none.1 hf e he)
  | some f =>
    have hmem : f ∈ escapes := List.mem_of_find?_eq_some hf
    have hq := List.find?_some hf
    simp only [List.isPrefixOf_iff_prefix] at hq
    obtain h | h := List.prefix_or_prefix_of_prefix hp hq
    · rw [eq_of_isPrefixOf e he f hmem (List.isPrefixOf_iff_prefix.2 h)]
    · rw [eq_of_isPrefixOf f hmem e he (List.isPrefixOf_iff_prefix.2 h)]

theorem read_char (h : c ≠ escapeChar) (rest : List Char) : read (c :: rest) = .char c :: read rest := by
  rw [read, escape?_cons h]

theorem read_escape (he : e ∈ escapes) (rest : List Char) : read (e.text ++ rest) = e :: read rest := by
  have hfind := escape?_append he rest
  obtain ⟨more, hmore⟩ := exists_text_eq he
  rw [hmore, List.cons_append] at hfind
  rw [hmore, List.cons_append, read, hfind]
  simp [hmore]

theorem read_chars {text : List Char} (h : escapeChar ∉ text) (rest : List Char) :
    read (text ++ rest) = text.map .char ++ read rest := by
  induction text with
  | nil => rfl
  | cons c text ih =>
    rw [List.mem_cons, not_or] at h
    rw [List.cons_append, read_char (Ne.symm h.1), ih h.2, List.map_cons, List.cons_append]

theorem opens_mem_escapes {s : Style} (h : s ≠ .unstyled) : opens s ∈ escapes := by
  cases s with
  | unstyled => exact absurd rfl h
  | _ => decide

theorem read_sequences (styles : List Style) (rest : List Char) :
    read ((String.join (styles.map Style.sequence)).toList ++ rest) =
      (styles.filter (· != .unstyled)).map .opens ++ read rest := by
  induction styles with
  | nil => rfl
  | cons s styles ih =>
    rw [List.map_cons, String.join_cons, String.toList_append, List.append_assoc]
    by_cases hs : s = .unstyled
    · subst hs
      exact ih
    · have hread := read_escape (opens_mem_escapes hs)
        ((String.join (styles.map Style.sequence)).toList ++ rest)
      rw [text] at hread
      rw [hread, ih, List.filter_cons_of_pos (by simpa using hs), List.map_cons, List.cons_append]

theorem read_reset (rest : List Char) : read (Style.reset.toList ++ rest) = .reset :: read rest :=
  read_escape (e := .reset) (by decide) rest

theorem Closed.append (ha : Closed a) (hb : Closed b) : Closed (a ++ b) := by
  rw [Closed, List.filter_append, List.getLast?_append]
  cases hl : (b.filter fun s => s.char?.isNone).getLast? with
  | none => exact ha
  | some e => simpa [Closed, hl] using hb

theorem closed_chars (text : List Char) : Closed (text.map .char) := by
  have hnone : (text.map Signal.char).filter (fun s => s.char?.isNone) = [] := by
    simp [List.filter_eq_nil_iff, char?]
  rw [Closed, hnone]
  rfl

theorem closed_concat_reset (a : List Signal) : Closed (a ++ [.reset]) := by
  simp [Closed, char?, List.filter_append]

@[simp] theorem shown_append (a b : List Signal) : shown (a ++ b) = shown a ++ shown b :=
  List.filterMap_append

@[simp] theorem shown_chars (text : List Char) : shown (text.map .char) = text := by
  rw [shown, List.filterMap_map]
  exact List.filterMap_some

@[simp] theorem shown_opens (styles : List Style) : shown (styles.map .opens) = [] := by
  simp [shown, char?]

@[simp] theorem shown_reset : shown [.reset] = [] := rfl

end Signal

def strip (text : String) : String := String.ofList (Signal.shown (Signal.read text.toList))

/-- No style is open at the end of the text: its last escape sequence, if any, is the reset. -/
def Settled (text : String) : Prop := Signal.Closed (Signal.read text.toList)

def EscapeFree (text : String) : Prop := Signal.escapeChar ∉ text.toList

instance (text : String) : Decidable (EscapeFree text) := inferInstanceAs (Decidable (_ ∉ _))

namespace EscapeFree

variable {s t : String} {chars : List Char}

@[simp] theorem append_iff : EscapeFree (s ++ t) ↔ EscapeFree s ∧ EscapeFree t := by
  simp [EscapeFree]

@[simp] theorem ofList_iff : EscapeFree (String.ofList chars) ↔ Signal.escapeChar ∉ chars := by
  simp [EscapeFree]

theorem joinLines_iff {lines : List String} :
    EscapeFree (Diagnostic.joinLines lines) ↔ ∀ line ∈ lines, EscapeFree line := by
  have hnewline : ∀ c ∈ "\n".toList, c ≠ Signal.escapeChar := by simp [Signal.escapeChar]
  have h := Mappings.forall_mem_intercalate hnewline (lines.map String.toList)
  rw [← String.toList_intercalate, List.forall_mem_map] at h
  simpa [EscapeFree, Diagnostic.joinLines, List.forall_mem_ne'] using h

theorem of_mem_splitLines (h : EscapeFree t) : ∀ line ∈ Diagnostic.splitLines t, EscapeFree line :=
  joinLines_iff.1 (by rwa [Diagnostic.joinLines_splitLines])

theorem replicate {c : Char} (h : c ≠ Signal.escapeChar) (n : Nat) :
    Signal.escapeChar ∉ List.replicate n c := fun hm => h (List.eq_of_mem_replicate hm).symm

theorem blanks (n : Nat) : EscapeFree (Diagnostic.blanks n) := ofList_iff.2 (replicate (by decide) n)

theorem digits (n : Nat) : Signal.escapeChar ∉ Nat.toDigits 10 n := fun hm =>
  absurd (Nat.isDigit_of_mem_toDigits (by decide) (by decide) hm) (by decide)

theorem toString_nat (n : Nat) : EscapeFree (toString n) := ofList_iff.2 (digits n)

theorem toString_int (n : Int) : EscapeFree (toString n) := by
  cases n with
  | ofNat n => exact toString_nat n
  | negSucc n =>
    have hsign : EscapeFree "-" := by decide
    exact append_iff.2 ⟨hsign, toString_nat (n + 1)⟩

theorem layout (f : NumberFormat) (h : Signal.escapeChar ∉ chars) (point : Int) :
    Signal.escapeChar ∉ f.layout chars point := by
  have hzeros : ∀ n, Signal.escapeChar ∉ NumberFormat.zeros n := replicate (by decide)
  have htake : ∀ n, Signal.escapeChar ∉ chars.take n := fun n hm => h (List.mem_of_mem_take hm)
  have hdrop : ∀ n, Signal.escapeChar ∉ chars.drop n := fun n hm => h (List.mem_of_mem_drop hm)
  have htail : Signal.escapeChar ∉ chars.tail := fun hm => h (List.mem_of_mem_tail hm)
  have hexponent := digits (point - 1).natAbs
  have hsigns : ∀ c ∈ ['.', '0', 'e', '-', '+'], Signal.escapeChar ≠ c := by simp [Signal.escapeChar]
  simp only [NumberFormat.layout]
  repeat' split
  all_goals simp_all

theorem dropZeros (h : Signal.escapeChar ∉ chars) :
    Signal.escapeChar ∉ (NumberFormat.dropZeros chars).1 := fun hm =>
  have hkept := (List.dropWhile_sublist _).mem (List.mem_reverse.1 hm)
  h (List.mem_reverse.1 hkept)

theorem write (d : Decimal) : EscapeFree (NumberFormat.standard.write d) := by
  have hsign : EscapeFree (if d.negative then "-" else "") := by split <;> decide
  rw [NumberFormat.write]
  split
  · exact append_iff.2 ⟨hsign, by decide⟩
  · split
    · decide
    · exact append_iff.2 ⟨hsign, ofList_iff.2 (layout _ (dropZeros (digits _)) _)⟩

theorem number (n : Int) : EscapeFree (Number.text n) := by
  rw [Number.text]
  split
  · exact toString_int n
  · exact write _

theorem decode_slice {text : Bytes} (h : UInt8.ofNat Signal.escapeChar.toNat ∉ text) (start stop : Int) :
    EscapeFree (Utf8.decode (text.slice start stop)) := by
  refine ofList_iff.2 (Utf8.not_mem_decodeChars (by decide) (by decide) fun hm => h ?_)
  exact List.mem_of_mem_take (List.mem_of_mem_drop hm)

end EscapeFree

def Styled.FreeLine (line : List Styled) : Prop := ∀ s ∈ line, EscapeFree s.text

open Styled (FreeLine)

/-- The first text shows as the second one, whatever follows, and closes each style it opens. -/
def ShowsAs (colored plain : String) : Prop :=
  ∃ signals, (∀ rest, Signal.read (colored.toList ++ rest) = signals ++ Signal.read rest) ∧
    Signal.shown signals = plain.toList ∧ Signal.Closed signals

namespace ShowsAs

variable {s s' t t' : String} {p : Styled} {line : List Styled}

theorem read_toList (h : ShowsAs s t) :
    Signal.shown (Signal.read s.toList) = t.toList ∧ Signal.Closed (Signal.read s.toList) := by
  obtain ⟨signals, hread, hshown, hclosed⟩ := h
  have hall := hread []
  rw [List.append_nil, Signal.read, List.append_nil] at hall
  rw [hall]
  exact ⟨hshown, hclosed⟩

theorem strip_eq (h : ShowsAs s t) : strip s = t := by
  rw [strip, h.read_toList.1, String.ofList_toList]

theorem settled (h : ShowsAs s t) : Settled s := h.read_toList.2

theorem append (h : ShowsAs s t) (h' : ShowsAs s' t') : ShowsAs (s ++ s') (t ++ t') := by
  obtain ⟨a, hread, hshown, hclosed⟩ := h
  obtain ⟨b, hread', hshown', hclosed'⟩ := h'
  refine ⟨a ++ b, fun rest => ?_, ?_, hclosed.append hclosed'⟩
  · rw [String.toList_append, List.append_assoc, hread, hread', List.append_assoc]
  · rw [Signal.shown_append, hshown, hshown', String.toList_append]

theorem of_escapeFree (h : EscapeFree s) : ShowsAs s s :=
  ⟨s.toList.map .char, Signal.read_chars h, Signal.shown_chars _, Signal.closed_chars _⟩

theorem paint (h : EscapeFree p.text) : ShowsAs (p.paint true) (p.paint false) := by
  rw [Styled.paint_plain, Styled.paint, Bool.true_and]
  split
  · refine ⟨(p.styles.filter (· != .unstyled)).map .opens ++ p.text.toList.map .char ++ [.reset],
      fun rest => ?_, ?_, Signal.closed_concat_reset _⟩
    · rw [String.toList_append, String.toList_append, List.append_assoc, List.append_assoc,
        Signal.read_sequences, Signal.read_chars h, Signal.read_reset]
      simp
    · simp
  · exact of_escapeFree h

theorem paintLine (h : FreeLine line) :
    ShowsAs (Styled.paintLine true line) (Styled.paintLine false line) := by
  rw [Styled.paintLine, Styled.paintLine]
  induction line with
  | nil => exact of_escapeFree (by decide)
  | cons p line ih =>
    rw [FreeLine, List.forall_mem_cons] at h
    rw [List.map_cons, List.map_cons, String.join_cons, String.join_cons]
    exact (paint h.1).append (ih h.2)

theorem paintLines {lines : List (List Styled)} (h : ∀ line ∈ lines, FreeLine line) :
    List.Forall₂ ShowsAs (lines.map (Styled.paintLine true)) (lines.map (Styled.paintLine false)) := by
  rw [List.forall₂_map_left_iff, List.forall₂_map_right_iff, List.forall₂_same]
  exact fun line hl => paintLine (h line hl)

theorem joinLines {a b : List String} (h : List.Forall₂ ShowsAs a b) :
    ShowsAs (Diagnostic.joinLines a) (Diagnostic.joinLines b) := by
  rw [Diagnostic.joinLines, Diagnostic.joinLines]
  induction h with
  | nil => exact of_escapeFree (by decide)
  | cons hline hrest ih =>
    cases hrest with
    | nil => simpa using hline
    | cons =>
      rw [String.intercalate_cons_cons, String.intercalate_cons_cons]
      exact (hline.append (of_escapeFree (by decide))).append ih

end ShowsAs

namespace Diagnostic

/-- No text that the diagnostic shows has the character that escape sequences begin with. -/
structure TextsEscapeFree (d : Diagnostic) : Prop where
  severity : EscapeFree d.descriptor.severity.name
  message : EscapeFree d.message
  explanation : EscapeFree d.descriptor.explanation
  notes : ∀ note ∈ d.notes, EscapeFree note
  label : ∀ text ∈ d.label, EscapeFree text
  help : ∀ text ∈ d.help, EscapeFree text
  fileName : ∀ text ∈ d.fileName, EscapeFree text
  spanName : ∀ span ∈ d.span, EscapeFree span.fileName
  source : ∀ span ∈ d.span, UInt8.ofNat Signal.escapeChar.toNat ∉ span.text

variable {d : Diagnostic} {ds : List Diagnostic} {span : Span}

theorem freeLine_remark {lead mark text : String} (hlead : EscapeFree lead) (hmark : EscapeFree mark)
    (htext : EscapeFree text) (styles : List Style) :
    FreeLine [⟨lead, []⟩, ⟨mark, styles⟩, ⟨" " ++ text, []⟩] := by
  simp only [FreeLine, List.forall_mem_cons, EscapeFree.append_iff]
  exact ⟨hlead, hmark, ⟨by decide, htext⟩, List.forall_mem_nil _⟩

namespace TextsEscapeFree

open EscapeFree (append_iff)

theorem free_header (h : d.TextsEscapeFree) : FreeLine d.header := by
  have hcode : EscapeFree ("[" ++ Descriptor.codeName d.descriptor.code ++ "]") := by
    have hnumber := EscapeFree.number d.descriptor.code
    simp only [Descriptor.codeName, append_iff]
    exact ⟨⟨by decide, by decide, hnumber⟩, by decide⟩
  simp only [FreeLine, header, List.forall_mem_cons]
  exact ⟨h.severity, hcode, by decide, h.message, List.forall_mem_nil _⟩

theorem free_excerpt (h : d.TextsEscapeFree) (hs : d.span = some span) :
    ∀ line ∈ d.excerpt span, FreeLine line := by
  have hblank : EscapeFree " " := by decide
  have hbar : EscapeFree "|" := by decide
  have harrow : EscapeFree "  " ∧ EscapeFree "-->" ∧ EscapeFree ":" := by decide
  have hname := h.spanName span hs
  have hnumber := EscapeFree.toString_nat (Position.ofOffset span.text span.start).line
  have hcolumn := EscapeFree.number (Position.ofOffset span.text span.start).column
  have hsource := EscapeFree.decode_slice (h.source span hs)
  have hcarets : ∀ n, EscapeFree (String.ofList (List.replicate n '^')) := fun n =>
    EscapeFree.ofList_iff.2 (EscapeFree.replicate (by decide) n)
  simp only [excerpt, FreeLine, List.forall_mem_cons, append_iff, alignRight]
  simp only [hblank, hbar, hnumber, hcolumn, hsource, hcarets, hname, harrow, EscapeFree.blanks,
    List.not_mem_nil, false_imp_iff, implies_true, and_true, true_and]
  split
  · decide
  · next text hl =>
    split
    · decide
    · exact append_iff.2 ⟨hblank, h.label text hl⟩

theorem free_location (h : d.TextsEscapeFree) : ∀ line ∈ d.location, FreeLine line := by
  unfold Diagnostic.location
  split
  · next span _ hs => exact h.free_excerpt hs
  · next fileName _ hf =>
    split
    · exact List.forall_mem_nil _
    · have hname := h.fileName fileName hf
      exact List.forall_mem_singleton.2 (freeLine_remark (by decide) (by decide) hname _)
  · exact List.forall_mem_nil _

theorem free_helpLine (h : d.TextsEscapeFree) : ∀ line ∈ d.helpLine, FreeLine line := by
  unfold Diagnostic.helpLine
  split
  · exact List.forall_mem_nil _
  · next text ht =>
    split
    · exact List.forall_mem_nil _
    · have htext := h.help text ht
      exact List.forall_mem_singleton.2 (freeLine_remark (by decide) (by decide) htext _)

theorem free_explanation (h : d.TextsEscapeFree) : ∀ line ∈ d.explanation, FreeLine line := by
  unfold Diagnostic.explanation
  split
  · exact List.forall_mem_nil _
  · refine List.forall_mem_append.2 ⟨?_, List.forall_mem_map.2 fun text ht => ?_⟩
    · have hheading : FreeLine [⟨"Explanation:", [.bold]⟩] := List.forall_mem_singleton.2 (by decide)
      exact List.forall_mem_cons.2 ⟨List.forall_mem_nil _, List.forall_mem_singleton.2 hheading⟩
    · have htext := EscapeFree.of_mem_splitLines h.explanation text ht
      exact List.forall_mem_singleton.2 (append_iff.2 ⟨by decide, htext⟩)

theorem free_lines (h : d.TextsEscapeFree) (explain : Bool) : ∀ line ∈ d.lines explain, FreeLine line := by
  have hnotes : ∀ line ∈ d.notes.map fun note =>
      [⟨"   ", []⟩, ⟨"= note:", [.bold]⟩, ⟨" " ++ note, []⟩], FreeLine line :=
    List.forall_mem_map.2 fun note hn => freeLine_remark (by decide) (by decide) (h.notes note hn) _
  have hexplanation : ∀ line ∈ if explain then d.explanation else [], FreeLine line := by
    split
    · exact h.free_explanation
    · exact List.forall_mem_nil _
  simp only [lines, List.forall_mem_append]
  exact ⟨⟨⟨⟨List.forall_mem_singleton.2 h.free_header, h.free_location⟩, hnotes⟩, h.free_helpLine⟩,
    hexplanation⟩

end TextsEscapeFree

theorem free_tally {noun : String} (hn : EscapeFree noun) (count : Nat) (style : Style) :
    ∀ line ∈ tally count noun style, FreeLine line := by
  unfold tally
  split
  · exact List.forall_mem_nil _
  · have hcount := EscapeFree.toString_nat count
    have hblank : EscapeFree " " := by decide
    have hplural : EscapeFree (if 1 < count then "s" else "") := by split <;> decide
    simp only [FreeLine, List.forall_mem_cons, EscapeFree.append_iff]
    exact ⟨⟨⟨⟨⟨hcount, hblank⟩, hn⟩, hplural⟩, List.forall_mem_nil _⟩, List.forall_mem_nil _⟩

theorem free_summary (ds : List Diagnostic) : ∀ line ∈ summary ds, FreeLine line := by
  have herror : EscapeFree "error" := by decide
  have hwarning : EscapeFree "warning" := by decide
  have hcomma : FreeLine [⟨", ", []⟩] := List.forall_mem_singleton.2 (by decide)
  have hend : FreeLine [⟨" generated", []⟩] := List.forall_mem_singleton.2 (by decide)
  simp only [summary]
  split
  · exact List.forall_mem_nil _
  · refine List.forall_mem_singleton.2 (List.forall_mem_append.2 ⟨?_, hend⟩)
    exact (Mappings.forall_mem_intercalate hcomma _).2
      (List.forall_mem_append.2 ⟨free_tally herror _ _, free_tally hwarning _ _⟩)

theorem showsAs_render (h : d.TextsEscapeFree) (explain : Bool) :
    ShowsAs (d.render true explain) (d.render false explain) :=
  ShowsAs.joinLines (ShowsAs.paintLines (h.free_lines explain))

theorem showsAs_renderAll (h : ∀ d ∈ ds, d.TextsEscapeFree) (explain : Bool) :
    ShowsAs (renderAll true explain ds) (renderAll false explain ds) := by
  have hrendered : List.Forall₂ ShowsAs (ds.flatMap fun d => [d.render true explain, ""])
      (ds.flatMap fun d => [d.render false explain, ""]) := by
    induction ds with
    | nil => exact .nil
    | cons d ds ih =>
      rw [List.forall_mem_cons] at h
      have hempty : ShowsAs "" "" := .of_escapeFree (by decide)
      exact .cons (showsAs_render h.1 explain) (.cons hempty (ih h.2))
  exact ShowsAs.joinLines (List.rel_append hrendered (ShowsAs.paintLines (free_summary ds)))

def blocks (colors explain : Bool) (ds : List Diagnostic) : String :=
  String.join (ds.map fun d => d.render colors explain ++ "\n\n")

theorem showsAs_blocks (h : ∀ d ∈ ds, d.TextsEscapeFree) (explain : Bool) :
    ShowsAs (blocks true explain ds) (blocks false explain ds) := by
  have hgap : EscapeFree "\n\n" := by decide
  rw [blocks, blocks]
  induction ds with
  | nil => exact ShowsAs.of_escapeFree (s := "") (by decide)
  | cons d ds ih =>
    rw [List.forall_mem_cons] at h
    rw [List.map_cons, List.map_cons, String.join_cons, String.join_cons]
    exact ((showsAs_render h.1 explain).append (.of_escapeFree hgap)).append (ih h.2)

theorem joinLines_append {a b : List String} (hb : b ≠ []) :
    joinLines (a ++ b) = String.join (a.map fun line => line ++ "\n") ++ joinLines b := by
  induction a with
  | nil => simp
  | cons line a ih =>
    obtain ⟨next, rest, hrest⟩ := List.exists_cons_of_ne_nil (List.append_ne_nil_of_right_ne_nil a hb)
    rw [List.map_cons, String.join_cons, String.append_assoc, ← ih, List.cons_append, hrest, joinLines,
      String.intercalate_cons_cons]
    rfl

theorem join_rendered (colors explain : Bool) (ds : List Diagnostic) :
    String.join ((ds.flatMap fun d => [d.render colors explain, ""]).map fun line => line ++ "\n") =
      blocks colors explain ds := by
  have htwo : ∀ text : String, text ++ "\n" ++ ("" ++ "\n") = text ++ "\n\n" := fun text => by
    rw [String.append_assoc]
    rfl
  rw [blocks]
  induction ds with
  | nil => rfl
  | cons d ds ih =>
    simp only [List.flatMap_cons, List.cons_append, List.nil_append, List.map_cons, String.join_cons, ih,
      ← htwo, String.append_assoc]

theorem renderAll_append_cons (colors explain : Bool) (before : List Diagnostic) (d : Diagnostic)
    (after : List Diagnostic) : ∃ rest, renderAll colors explain (before ++ d :: after) =
      blocks colors explain before ++ (d.render colors explain ++ ("\n" ++ rest)) := by
  refine ⟨joinLines ("" :: ((after.flatMap fun d => [d.render colors explain, ""]) ++
    (summary (before ++ d :: after)).map (Styled.paintLine colors))), ?_⟩
  rw [renderAll, List.flatMap_append, List.append_assoc, joinLines_append (by simp), join_rendered]
  simp only [List.flatMap_cons, List.cons_append, List.nil_append, joinLines,
    String.intercalate_cons_cons, String.append_assoc]

/-- Colours change nothing but colour: without its escape sequences coloured text is the plain text. No
style is open at the end, nor where a diagnostic begins or ends. -/
theorem renderAll_colored (explain : Bool) {ds : List Diagnostic} (h : ∀ d ∈ ds, d.TextsEscapeFree) :
    strip (renderAll true explain ds) = renderAll false explain ds ∧
      Settled (renderAll true explain ds) ∧
      (∀ d ∈ ds, strip (d.render true explain) = d.render false explain ∧
        Settled (d.render true explain)) ∧
      ∀ before d after, ds = before ++ d :: after → ∃ rest,
        renderAll true explain ds =
          blocks true explain before ++ (d.render true explain ++ ("\n" ++ rest)) ∧
        Settled (blocks true explain before) ∧
        Settled (blocks true explain before ++ d.render true explain) := by
  have hall := showsAs_renderAll h explain
  refine ⟨hall.strip_eq, hall.settled, fun d hd => ?_, fun before d after hds => ?_⟩
  · have hone := showsAs_render (h d hd) explain
    exact ⟨hone.strip_eq, hone.settled⟩
  · subst hds
    obtain ⟨rest, hrest⟩ := renderAll_append_cons true explain before d after
    obtain ⟨hbefore, htail⟩ := List.forall_mem_append.1 h
    have hblocks := showsAs_blocks hbefore explain
    have hone := showsAs_render (htail d List.mem_cons_self) explain
    exact ⟨rest, hrest, hblocks.settled, (hblocks.append hone).settled⟩

def reported : List Diagnostic :=
  [{ descriptor := { Descriptor.unclosedInvocation with
       explanation := "Only white space may follow the literal.\nThe file is left untouched." }
     message := "Expected `)` after the string \"jump\" in `SID(...)`"
     fileName := some "game.c"
     span := some ⟨"game.c", Bytes.ofChars "x = SID(\"jump\";".toList, 4, 10⟩
     label := some "expected `)`"
     notes := ["Only white space may follow"]
     help := some "Close the invocation with `)`" },
   { descriptor := { Descriptor.unreadableSource with severity := .warning, explanation := "" }
     message := "Could not read input file `é.c`"
     fileName := some "é.c"
     span := none
     label := none
     notes := []
     help := none }]

theorem renderAll_colored_reported : (∀ d ∈ reported, d.TextsEscapeFree) ∧
    strip (renderAll true true reported) = renderAll false true reported ∧
    renderAll true true reported ≠ renderAll false true reported := by
  have hfree : ∀ d ∈ reported, d.TextsEscapeFree := by
    rw [reported, List.forall_mem_cons, List.forall_mem_singleton]
    constructor
    all_goals constructor <;> decide +kernel
  exact ⟨hfree, (renderAll_colored true hfree).1, by decide +kernel⟩

end Diagnostic

end HashedLiterals
