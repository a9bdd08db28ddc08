import HashedLiterals.Proofs.Collisions
import HashedLiterals.Proofs.SecondPass

/-!
Replacements as C reads them. A replacement is meant to be a hexadecimal constant, a blank and a block
comment that holds the literal. Main statement: it is read so exactly when the literal does not contain
the end of a comment; otherwise the comment ends inside the literal, and the rest of it stands outside.
-/
set_option autoImplicit false

namespace HashedLiterals

inductive Lexeme where
  /-- A hexadecimal constant with these digits. -/
  | constant (digits : Bytes)
  | blank
  /-- A block comment with what stands between its two ends. -/
  | comment (body : Bytes)
  deriving DecidableEq, Repr

namespace Lexeme

def star : UInt8 := 0x2a

def slash : UInt8 := 0x2f

def commentEnd : Bytes := [star, slash]

/-- The body of a comment that has been opened, and what follows its end: comments do not nest, and
nothing escapes their end. -/
def readComment : Bytes → Option (Bytes × Bytes)
  | b :: c :: rest =>
    if b = star ∧ c = slash then some ([], rest)
    else (readComment (c :: rest)).map fun (body, after) => (b :: body, after)
  | _ => none

def isNumber (b : UInt8) : Bool := Bytes.isAlnum b || b == 0x5f || b == 0x2e

def isHexDigit (b : UInt8) : Bool :=
  (0x30 ≤ b && b ≤ 0x39) || (0x41 ≤ b && b ≤ 0x46) || (0x61 ≤ b && b ≤ 0x66)

def read : Bytes → Option (Lexeme × Bytes)
  | b :: c :: rest =>
    if b = 0x20 then some (.blank, c :: rest)
    else if b = 0x30 ∧ c = 0x78 then
      let digits := rest.takeWhile isNumber
      if digits ≠ [] ∧ digits.all isHexDigit then some (.constant digits, rest.dropWhile isNumber)
      else none
    else if b = slash ∧ c = star then
      (readComment rest).map fun (body, after) => (.comment body, after)
    else none
  | [b] => if b = 0x20 then some (.blank, []) else none
  | [] => none

variable {text body after digits rest : Bytes} {l : Lexeme}

theorem readComment_append (h : ¬ commentEnd <:+: body) (after : Bytes) :
    readComment (body ++ (commentEnd ++ after)) = some (body, after) := by
  induction body with
  | nil => simp [readComment, commentEnd]
  | cons b body ih =>
    rw [List.infix_cons_iff, not_or] at h
    have hrest := ih h.2
    cases body with
    | nil =>
      have hs : star ≠ slash := by decide
      simp only [List.nil_append, commentEnd, List.cons_append] at hrest ⊢
      simp [readComment, hs]
    | cons c body =>
      have hb : ¬ (b = star ∧ c = slash) := fun ⟨hb, hc⟩ => h.1 (by simp [hb, hc, commentEnd])
      simp only [List.cons_append] at hrest ⊢
      simp [readComment, hb, hrest]

/-- A comment ends at the first end of a comment. -/
theorem eq_of_readComment (h : readComment text = some (body, after)) :
    text = body ++ (commentEnd ++ after) ∧ ¬ commentEnd <:+: body := by
  fun_induction readComment text generalizing body after with
  | case1 b c rest hend =>
    obtain ⟨rfl, rfl⟩ := hend
    simp only [Option.some.injEq, Prod.mk.injEq] at h
    obtain ⟨rfl, rfl⟩ := h
    exact ⟨rfl, by simp [commentEnd]⟩
  | case2 b c rest hno ih =>
    obtain ⟨⟨body, after⟩, hr, he⟩ := Option.map_eq_some_iff.1 h
    simp only [Prod.mk.injEq] at he
    obtain ⟨rfl, rfl⟩ := he
    obtain ⟨ht, hbody⟩ := ih hr
    refine ⟨by rw [ht, List.cons_append], ?_⟩
    rw [List.infix_cons_iff, not_or]
    refine ⟨fun hp => hno ?_, hbody⟩
    obtain ⟨hstar, t, rfl⟩ := List.cons_prefix_cons.1 hp
    simp only [List.cons_append, List.nil_append, List.cons.injEq] at ht
    exact ⟨hstar.symm, ht.1⟩
  | case3 => simp at h

theorem commentEnd_infix_cons {c : UInt8} (hc : c ≠ star) :
    commentEnd <:+: c :: text ↔ commentEnd <:+: text := by
  rw [List.infix_cons_iff, or_iff_right]
  exact fun h => hc (List.cons_prefix_cons.1 h).1.symm

theorem commentEnd_infix_concat {c : UInt8} (hc : c ≠ slash) :
    commentEnd <:+: text ++ [c] ↔ commentEnd <:+: text := by
  rw [List.infix_concat_iff, or_iff_right]
  rintro ⟨t, ht⟩
  have hlast := congrArg List.getLast? ht
  simp only [commentEnd, List.getLast?_append, List.getLast?_cons, List.getLast?_nil] at hlast
  exact hc (by simpa using hlast.symm)

theorem read_length_lt (h : read text = some (l, rest)) : rest.length < text.length := by
  unfold read at h
  split at h
  · next b c more =>
    split at h
    · simp only [Option.some.injEq, Prod.mk.injEq] at h
      simp [← h.2]
    · split at h
      · have hl := Scan.length_dropWhile_le isNumber more
        simp only [ne_eq, Option.ite_none_right_eq_some, Option.some.injEq, Prod.mk.injEq] at h
        simp only [← h.2.2, List.length_cons]
        omega
      · simp only [Option.ite_none_right_eq_some, Option.map_eq_some_iff, Prod.mk.injEq] at h
        obtain ⟨-, ⟨body, after⟩, hr, -, rfl⟩ := h
        simp only [(eq_of_readComment hr).1, List.length_append, List.length_cons]
        omega
  · simp only [Option.ite_none_right_eq_some, Option.some.injEq, Prod.mk.injEq] at h
    simp [← h.2.2]
  · simp at h

def readAll (text : Bytes) : Option (List Lexeme) :=
  if text = [] then some []
  else
    match h : read text with
    | none => none
    | some (l, rest) =>
      have := read_length_lt h
      (readAll rest).map (l :: ·)
termination_by text.length

@[simp] theorem readAll_nil : readAll [] = some [] := by simp [readAll]

theorem readAll_eq_nil_iff : readAll text = some [] ↔ text = [] := by
  refine ⟨fun h => ?_, fun h => h ▸ readAll_nil⟩
  rw [readAll] at h
  split at h
  · assumption
  · split at h
    · simp at h
    · simp at h

theorem readAll_eq_cons_iff {ls : List Lexeme} : readAll text = some (l :: ls) ↔
    ∃ rest, read text = some (l, rest) ∧ readAll rest = some ls := by
  by_cases ht : text = []
  · simp [ht, read]
  · rw [readAll, if_neg ht]
    split
    · next h => simp [h]
    · next l' rest h =>
      simp only [h, Option.map_eq_some_iff, List.cons.injEq, Option.some.injEq, Prod.mk.injEq]
      grind

theorem read_blank (rest : Bytes) : read (0x20 :: rest) = some (.blank, rest) := by
  cases rest <;> simp [read]

theorem read_constant (hne : digits ≠ []) (hd : ∀ b ∈ digits, isHexDigit b = true) (rest : Bytes) :
    read (0x30 :: 0x78 :: (digits ++ 0x20 :: rest)) = some (.constant digits, 0x20 :: rest) := by
  have hnum : ∀ b ∈ digits, isNumber b = true := by
    intro b hb
    have h := hd b hb
    simp only [isHexDigit, isNumber, Bytes.isAlnum, Bool.or_eq_true, Bool.and_eq_true,
      decide_eq_true_eq, UInt8.le_iff_toNat_le, UInt8.reduceToNat] at h ⊢
    omega
  have hspace : isNumber 0x20 = false := by decide
  have hzero : (0x30 : UInt8) ≠ 0x20 := by decide
  simp only [read, if_neg hzero, List.takeWhile_append_of_pos hnum, List.dropWhile_append_of_pos hnum,
    List.takeWhile_cons_of_neg (Bool.eq_false_iff.1 hspace),
    List.dropWhile_cons_of_neg (Bool.eq_false_iff.1 hspace), List.append_nil]
  simp only [true_and, ite_true]
  rw [if_pos ⟨hne, List.all_eq_true.2 hd⟩]

theorem read_comment (rest : Bytes) : read (slash :: star :: rest) =
    (readComment rest).map fun (body, after) => (.comment body, after) := by
  simp [read, slash, star]

/-- The text is a constant of eight digits, a blank and one comment with this body, and nothing else. -/
def Commented (text body : Bytes) : Prop :=
  ∃ digits, digits.length = 8 ∧ readAll text = some [.constant digits, .blank, .comment body]

/-- A backslash at the end of a line joins the line with the next one, also inside a comment. -/
def spliceLines : Bytes → Bytes
  | b :: c :: rest =>
    if b = Bytes.backslash ∧ c = Bytes.newline then spliceLines rest
    else b :: spliceLines (c :: rest)
  | text => text

theorem spliceLines_append_right (h : Bytes.backslash ∉ text) (rest : Bytes) :
    spliceLines (text ++ rest) = text ++ spliceLines rest := by
  induction text with
  | nil => rfl
  | cons b text ih =>
    rw [List.mem_cons, not_or] at h
    have hb : spliceLines (b :: (text ++ rest)) = b :: spliceLines (text ++ rest) := by
      cases text ++ rest with
      | nil => rfl
      | cons c more => simp [spliceLines, Ne.symm h.1]
    rw [List.cons_append, hb, ih h.2, List.cons_append]

theorem spliceLines_append {c : UInt8} (hc : c ≠ Bytes.newline) (text rest : Bytes) :
    spliceLines (text ++ c :: rest) = spliceLines text ++ spliceLines (c :: rest) := by
  fun_induction spliceLines text with
  | case1 b d more hs ih => simp [spliceLines, hs, ih]
  | case2 b d more hs ih =>
    simp only [List.cons_append] at ih ⊢
    simp [spliceLines, hs, ih]
  | case3 text hshort =>
    match text with
    | [] => rfl
    | [b] => simp [spliceLines, hc]
    | b :: d :: more => exact absurd rfl (hshort b d more)

end Lexeme

namespace Literal

open Lexeme (readAll commentEnd spliceLines)

variable {hash : Int} {span before after : Bytes}

def digits (hash : Int) : Bytes := Bytes.ofChars (Hash.hexDigits 8 (Hash.word hash).toNat)

@[simp] theorem length_digits (hash : Int) : (digits hash).length = 8 := by
  simp [digits, Bytes.ofChars]

theorem digits_ne_nil (hash : Int) : digits hash ≠ [] := List.ne_nil_of_length_pos (by simp)

theorem isHexDigit_of_mem_digits {b : UInt8} (h : b ∈ digits hash) : Lexeme.isHexDigit b = true := by
  obtain ⟨c, hc, rfl⟩ := List.mem_map.1 h
  obtain ⟨d, hd, rfl⟩ := mem_hexDigits hc
  clear h hc
  revert d
  decide

def commentBody (span : Bytes) : Bytes := 0x20 :: Bytes.quote :: (span ++ [Bytes.quote, 0x20])

theorem replacement_eq_comment (hash : Int) (span : Bytes) :
    replacement hash span = 0x30 :: 0x78 :: (digits hash ++ 0x20 :: Lexeme.slash :: Lexeme.star ::
      (commentBody span ++ commentEnd)) := by
  have ho : opening hash = 0x30 :: 0x78 :: (digits hash ++
      [0x20, Lexeme.slash, Lexeme.star, 0x20, Bytes.quote]) := rfl
  have hc : closing = [Bytes.quote, 0x20] ++ commentEnd := by decide
  rw [replacement_eq, ho, hc, commentBody]
  simp

theorem commentEnd_infix_commentBody : commentEnd <:+: commentBody span ↔ commentEnd <:+: span := by
  have hsplit : commentBody span = 0x20 :: Bytes.quote :: ((span ++ [Bytes.quote]) ++ [0x20]) := by
    simp [commentBody]
  rw [hsplit, Lexeme.commentEnd_infix_cons (by decide), Lexeme.commentEnd_infix_cons (by decide),
    Lexeme.commentEnd_infix_concat (by decide), Lexeme.commentEnd_infix_concat (by decide)]

theorem readAll_replacement_iff {ds body : Bytes} :
    readAll (replacement hash span) = some [.constant ds, .blank, .comment body] ↔
      ds = digits hash ∧ body = commentBody span ∧ ¬ commentEnd <:+: span := by
  have hconstant := Lexeme.read_constant (digits_ne_nil hash) (fun b => isHexDigit_of_mem_digits)
    (Lexeme.slash :: Lexeme.star :: (commentBody span ++ commentEnd))
  rw [replacement_eq_comment, Lexeme.readAll_eq_cons_iff, hconstant]
  simp only [Lexeme.readAll_eq_cons_iff, Lexeme.readAll_eq_nil_iff, Option.some.injEq, Prod.mk.injEq,
    Lexeme.constant.injEq]
  constructor
  · rintro ⟨_, ⟨rfl, rfl⟩, _, hblank, _, hcomment, rfl⟩
    rw [Lexeme.read_blank, Option.some.injEq, Prod.mk.injEq] at hblank
    obtain ⟨-, rfl⟩ := hblank
    rw [Lexeme.read_comment, Option.map_eq_some_iff] at hcomment
    obtain ⟨⟨_, _⟩, hread, he⟩ := hcomment
    simp only [Prod.mk.injEq, Lexeme.comment.injEq] at he
    obtain ⟨rfl, rfl⟩ := he
    obtain ⟨hbody, hno⟩ := Lexeme.eq_of_readComment hread
    rw [List.append_nil] at hbody
    obtain rfl := List.append_cancel_right hbody
    exact ⟨rfl, rfl, mt commentEnd_infix_commentBody.2 hno⟩
  · rintro ⟨rfl, rfl, hno⟩
    have hread := Lexeme.readComment_append (mt commentEnd_infix_commentBody.1 hno) []
    rw [List.append_nil] at hread
    refine ⟨_, ⟨rfl, rfl⟩, _, Lexeme.read_blank _, [], ?_, rfl⟩
    rw [Lexeme.read_comment, hread, Option.map_some]

/-- A replacement is read as a constant, a blank and one comment exactly if nothing in the literal ends
the comment. -/
theorem commented_replacement_iff {body : Bytes} : Lexeme.Commented (replacement hash span) body ↔
    body = commentBody span ∧ ¬ commentEnd <:+: span := by
  simp only [Lexeme.Commented, readAll_replacement_iff]
  exact ⟨fun ⟨_, _, _, h⟩ => h, fun h => ⟨digits hash, length_digits hash, rfl, h⟩⟩

theorem exists_commented_replacement_iff :
    (∃ body, Lexeme.Commented (replacement hash span) body) ↔ ¬ commentEnd <:+: span := by
  simp [commented_replacement_iff]

theorem read_comment_of_end (h : ¬ commentEnd <:+: before) (hash : Int) (after : Bytes) :
    Lexeme.read ((replacement hash (before ++ (commentEnd ++ after))).drop 11) =
      some (.comment (0x20 :: Bytes.quote :: before), after ++ closing) := by
  have hdrop : (replacement hash (before ++ (commentEnd ++ after))).drop 11 =
      Lexeme.slash :: Lexeme.star ::
        ((0x20 :: Bytes.quote :: before) ++ (commentEnd ++ (after ++ closing))) := by
    rw [replacement_eq_comment]
    simp only [List.drop_succ_cons]
    rw [show 9 = (digits hash).length + 1 by rw [length_digits], List.drop_length_add_append]
    have hc : closing = [Bytes.quote, 0x20] ++ commentEnd := by decide
    simp [commentBody, hc]
  have hbody : ¬ commentEnd <:+: 0x20 :: Bytes.quote :: before := by
    rwa [Lexeme.commentEnd_infix_cons (by decide), Lexeme.commentEnd_infix_cons (by decide)]
  rw [hdrop, Lexeme.read_comment, Lexeme.readComment_append hbody, Option.map_some]

theorem spliceLines_replacement (hash : Int) (span : Bytes) :
    spliceLines (replacement hash span) = replacement hash (spliceLines span) := by
  have ho : Bytes.backslash ∉ opening hash := not_mem_opening (by decide) (by decide) hash
  have hc : closing = Bytes.quote :: Bytes.ofChars " */".toList := rfl
  have hclosing : spliceLines closing = closing := by decide
  rw [replacement_eq, replacement_eq, Lexeme.spliceLines_append_right ho, hc,
    Lexeme.spliceLines_append (by decide), ← hc, hclosing]

end Literal

namespace Preprocess

open Lexeme (commentEnd spliceLines)

variable {o : Options} {registry : Option Registry} {input : Bytes} {s : Success} {i : Invocation}

/-- The output holds the replacement of each invocation of the source. -/
theorem replacement_infix_output (h : (run o registry input).1 = .ok s) (hi : i ∈ s.invocations) :
    i.StandsIn o.marker o.hash input ∧ i.replacement <:+: s.output := by
  obtain ⟨pieces, tail, hs, rfl⟩ := exists_segmentation_of_run (run_none_of_ok (Prod.ext h rfl))
  refine ⟨Invocation.standsIn_of_segmentation hs hi, ?_⟩
  obtain ⟨before, p, after, rfl, rfl⟩ := Invocation.mem_ofPieces hi
  refine ⟨output o.hash ⟨before, p.gap, none⟩, output o.hash ⟨after, tail, none⟩, ?_⟩
  simp [success, output, Invocation.replacement, Literal.replacement]

/-- The replacement of an invocation is read as a constant with eight digits, a blank and one comment
that holds the literal exactly if the literal contains no end of a comment. If lines are joined first,
the same is true of the joined literal. Otherwise the first end of a comment in the literal ends the
comment, and what follows it stands outside. -/
theorem comment_holds_literal_iff (h : (run o registry input).1 = .ok s) :
    ∀ i ∈ s.invocations, i.StandsIn o.marker o.hash input ∧ i.replacement <:+: s.output ∧
      ((∃ body, Lexeme.Commented i.replacement body) ↔ ¬ commentEnd <:+: i.span) ∧
      (∀ body, Lexeme.Commented i.replacement body →
        body = Bytes.ofChars " \"".toList ++ (i.span ++ Bytes.ofChars "\" ".toList)) ∧
      ((∃ body, Lexeme.Commented (spliceLines i.replacement) body) ↔
        ¬ commentEnd <:+: spliceLines i.span) ∧
      ∀ before after, i.span = before ++ (commentEnd ++ after) → ¬ commentEnd <:+: before →
        Lexeme.read (i.replacement.drop 11) = some (.comment (Bytes.ofChars " \"".toList ++ before),
          after ++ Bytes.ofChars "\" */".toList) := by
  intro i hi
  obtain ⟨hstands, houtput⟩ := replacement_infix_output h hi
  refine ⟨hstands, houtput, Literal.exists_commented_replacement_iff, fun body hbody => ?_, ?_, ?_⟩
  · exact (Literal.commented_replacement_iff.1 hbody).1
  · rw [Invocation.replacement, Literal.spliceLines_replacement]
    exact Literal.exists_commented_replacement_iff
  · intro before after hspan hbefore
    rw [Invocation.replacement, hspan]
    exact Literal.read_comment_of_end hbefore i.hash.toNat after

def starred : Bytes := Utf8.encode "y=SID(\"/* / * \\\"/*\");"

theorem comment_holds_literal_starred :
    ∃ s i, (run {} none starred).1 = .ok s ∧ i ∈ s.invocations ∧
      i.span = Utf8.encode "/* / * \\\"/*" ∧ ∃ body, Lexeme.Commented i.replacement body := by
  have hfault : (Scan.scan .default starred).fault = none := by decide +kernel
  have hrun := run_of_fault_none (o := {}) hfault
  have hmem : ⟨2, 20, Utf8.encode "/* / * \\\"/*", 75853838⟩ ∈
      (success {} starred (Scan.scan Marker.default starred)).invocations := by decide +kernel
  obtain ⟨-, -, hiff, -⟩ := comment_holds_literal_iff hrun _ hmem
  exact ⟨_, _, hrun, hmem, rfl, hiff.2 (by decide +kernel)⟩

/-- The end of a comment in a literal leaves the rest of the literal outside. -/
theorem comment_ends_in_literal :
    ¬ ∀ (o : Options) (registry : Option Registry) (input : Bytes) (s : Success),
      (run o registry input).1 = .ok s →
        ∀ i ∈ s.invocations, ∃ body, Lexeme.Commented i.replacement body := by
  intro h
  have hfault : (Scan.scan .default (Utf8.encode "SID(\"a*/b\")")).fault = none := by decide +kernel
  have hrun := run_of_fault_none (o := {}) hfault
  obtain ⟨body, hbody⟩ := h {} none _ _ hrun ⟨0, 11, Utf8.encode "a*/b", 2090006881⟩ (by decide +kernel)
  have hno := (Literal.commented_replacement_iff.1 hbody).2
  revert hno
  decide +kernel

end Preprocess

end HashedLiterals
