import HashedLiterals.SourceMap.Mapper

set_option autoImplicit false

namespace HashedLiterals.Mappings

variable {c : Char} {cs : List Char} {last : Location} {column : Nat}

def value? (c : Char) : Option Nat := alphabet.idxOf? c

def readDigits : List Char → Option (Nat × List Char)
  | [] => none
  | c :: rest =>
    match value? c with
    | none => none
    | some n =>
      if n < 32 then some (n, rest)
      else (readDigits rest).map fun (more, rest) => (n - 32 + 32 * more, rest)

def readNumber (cs : List Char) : Option (Int × List Char) :=
  (readDigits cs).map fun (n, rest) => (if n % 2 = 0 then (n / 2 : Int) else -(n / 2 : Int), rest)

/-- A segment is four differences. There is only one source. -/
def readSegment (column : Nat) (last : Location) (cs : List Char) : Option Segment := do
  let (generated, cs) ← readNumber cs
  let (source, cs) ← readNumber cs
  let (line, cs) ← readNumber cs
  let (original, cs) ← readNumber cs
  if cs = [] ∧ source = 0 ∧ 0 ≤ column + generated ∧ 0 ≤ last.line + line ∧ 0 ≤ last.column + original then
    some ⟨(column + generated).toNat, (last.line + line).toNat, (last.column + original).toNat⟩
  else none

def readLine (column : Nat) (last : Location) : List (List Char) → Option (List Segment × Location)
  | [] => some ([], last)
  | cs :: more => do
    let s ← readSegment column last cs
    let (rest, final) ← readLine s.column s.source more
    some (s :: rest, final)

def fields (cs : List Char) : List (List Char) := if cs = [] then [] else cs.splitOn ','

def readLines (last : Location) : List (List Char) → Option Lines
  | [] => some []
  | cs :: more => do
    let (line, final) ← readLine 0 last (fields cs)
    let rest ← readLines final more
    some (line :: rest)

def read (text : String) : Option Lines := readLines .start (text.toList.splitOn ';')

theorem value?_digit {n : Nat} (h : n < 64) : value? (digit n) = some n := by
  have hall : ∀ k < 64, value? (digit k) = some k := by decide
  exact hall n h

theorem readDigits_digits (n : Nat) (rest : List Char) : readDigits (digits n ++ rest) = some (n, rest) := by
  fun_induction digits n with
  | case1 n h => simp [readDigits, value?_digit (Nat.lt_trans h (by decide : 32 < 64)), h]
  | case2 n h ih =>
    have hv := value?_digit (n := 32 + n % 32) (by omega)
    rw [List.cons_append, readDigits, hv]
    simp only
    rw [if_neg (by omega), ih, Option.map_some]
    simp only [Option.some.injEq, Prod.mk.injEq, and_true]
    omega

theorem readNumber_number (n : Int) (rest : List Char) :
    readNumber (number n ++ rest) = some (n, rest) := by
  rw [readNumber, number, readDigits_digits, Option.map_some]
  simp only [Option.some.injEq, Prod.mk.injEq, and_true]
  split <;> split <;> omega

theorem readSegment_writeSegment (column : Nat) (last : Location) (s : Segment) :
    readSegment column last (writeSegment column last s) = some s := by
  have hlast := readNumber_number (s.source.column - last.column) []
  rw [List.append_nil] at hlast
  rw [readSegment, writeSegment, List.append_assoc, List.append_assoc, readNumber_number]
  simp only [Option.bind_eq_bind, Option.bind_some, readNumber_number, hlast]
  rw [if_pos ⟨trivial, trivial, by omega, by omega, by omega⟩]
  have hc : ((column : Int) + (s.column - column)).toNat = s.column := by omega
  have hl : ((last.line : Int) + (s.source.line - last.line)).toNat = s.source.line := by omega
  have ho : ((last.column : Int) + (s.source.column - last.column)).toNat = s.source.column := by omega
  rw [hc, hl, ho]

theorem forall_mem_intercalate {α : Type} {P : α → Prop} {sep : List α} (hsep : ∀ x ∈ sep, P x)
    (parts : List (List α)) :
    (∀ x ∈ List.intercalate sep parts, P x) ↔ ∀ part ∈ parts, ∀ x ∈ part, P x := by
  induction parts with
  | nil => simp
  | cons part parts ih =>
    cases parts with
    | nil => simp
    | cons next parts =>
      rw [List.intercalate_cons_cons, List.forall_mem_append, List.forall_mem_append, List.forall_mem_cons]
      exact ⟨fun h => ⟨h.1.1, ih.1 h.2⟩, fun h => ⟨⟨h.1, hsep⟩, ih.2 h.2⟩⟩

theorem readLine_writeLine (column : Nat) (last : Location) (line : List Segment) :
    readLine column last (writeLine column last line).1 =
      some (line, (writeLine column last line).2) := by
  induction line generalizing column last with
  | nil => rfl
  | cons s line ih =>
    simp only [writeLine, readLine, readSegment_writeSegment, Option.bind_eq_bind, Option.bind_some, ih]

theorem mem_alphabet_of_mem_digits {n : Nat} (h : c ∈ digits n) : c ∈ alphabet := by
  have hdigit : ∀ k, digit k ∈ alphabet := by
    intro k
    rw [digit, List.getD_eq_getElem?_getD]
    cases hk : alphabet[k]? with
    | none => decide
    | some c => exact List.mem_of_getElem? hk
  fun_induction digits n with
  | case1 n hn =>
    obtain rfl := List.mem_singleton.1 h
    exact hdigit _
  | case2 n hn ih =>
    obtain rfl | hm := List.mem_cons.1 h
    · exact hdigit _
    · exact ih hm

theorem digits_ne_nil (n : Nat) : digits n ≠ [] := by
  rw [digits]
  split <;> simp

theorem mem_alphabet_of_mem_writeSegment {s : Segment} (h : c ∈ writeSegment column last s) :
    c ∈ alphabet := by
  simp only [writeSegment, List.mem_append, number] at h
  obtain ((h | h) | h) | h := h <;> exact mem_alphabet_of_mem_digits h

theorem writeSegment_ne_nil (column : Nat) (last : Location) (s : Segment) :
    writeSegment column last s ≠ [] := by
  simp [writeSegment, number, digits_ne_nil]

theorem mem_writeLine {line : List Segment} (h : cs ∈ (writeLine column last line).1) :
    cs ≠ [] ∧ ∀ c ∈ cs, c ∈ alphabet := by
  induction line generalizing column last with
  | nil => cases h
  | cons s line ih =>
    obtain rfl | hm := List.mem_cons.1 h
    · exact ⟨writeSegment_ne_nil column last s, fun c => mem_alphabet_of_mem_writeSegment⟩
    · exact ih hm

/-- No segment is empty or holds a comma, so a line falls apart into its segments. -/
theorem fields_writeLine (column : Nat) (last : Location) (line : List Segment) :
    fields (List.intercalate [','] (writeLine column last line).1) = (writeLine column last line).1 := by
  have hcomma : ∀ cs ∈ (writeLine column last line).1, ',' ∉ cs := fun cs hm hc =>
    absurd ((mem_writeLine hm).2 _ hc) (by decide)
  by_cases hne : (writeLine column last line).1 = []
  · rw [hne]
    rfl
  · have hfull : List.intercalate [','] (writeLine column last line).1 ≠ [] := by
      obtain ⟨cs, more, hcons⟩ := List.exists_cons_of_ne_nil hne
      have hcs : cs ≠ [] := (mem_writeLine (hcons ▸ List.mem_cons_self)).1
      rw [hcons]
      cases more with
      | nil => simpa using hcs
      | cons ds more => simp [List.intercalate_cons_cons, hcs]
    rw [fields, if_neg hfull, List.splitOn_intercalate ',' hcomma hne]

theorem not_mem_semicolon {ls : Lines} (h : cs ∈ writeLines last ls) : ';' ∉ cs := by
  induction ls generalizing last with
  | nil => cases h
  | cons line ls ih =>
    obtain rfl | hm := List.mem_cons.1 h
    · have hpart : ∀ ds ∈ (writeLine 0 last line).1, ∀ d ∈ ds, d ≠ ';' := fun ds hds d hd hsemi =>
        absurd ((mem_writeLine hds).2 d hd) (hsemi ▸ by decide)
      have hcomma : ∀ d ∈ [','], d ≠ ';' := List.forall_mem_singleton.2 (by decide)
      exact fun hc => (forall_mem_intercalate hcomma _).2 hpart _ hc rfl
    · exact ih hm

theorem readLines_writeLines (last : Location) (ls : Lines) :
    readLines last (writeLines last ls) = some ls := by
  induction ls generalizing last with
  | nil => rfl
  | cons line ls ih =>
    simp only [writeLines, readLines, fields_writeLine, readLine_writeLine, Option.bind_eq_bind,
      Option.bind_some, ih]

theorem read_write {ls : Lines} (h : ls ≠ []) : read (write ls) = some ls := by
  have hne : writeLines .start ls ≠ [] := by
    cases ls with
    | nil => exact absurd rfl h
    | cons line ls => simp [writeLines]
  rw [read, write, String.toList_ofList,
    List.splitOn_intercalate ';' (fun cs hm => not_mem_semicolon hm) hne, readLines_writeLines]

end HashedLiterals.Mappings
