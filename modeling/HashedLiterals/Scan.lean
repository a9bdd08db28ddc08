import HashedLiterals.Literal
import HashedLiterals.Marker

/-!
Scanning a source. A source is cut into gaps, which are copied, and invocations: a marker's token at
the start of a word, white space, a string literal, white space and a closing parenthesis. The scan
ends at the end of the source or at the first token that opens no invocation.
-/
set_option autoImplicit false

namespace HashedLiterals.Scan

inductive Step where
  | finished
  | copy (count : Nat)
  | token
  deriving DecidableEq, Repr

/-- A run of white space, a whole word, or any other single byte is copied at once, so a token is
met only where a word begins. -/
def step (m : Marker) : Bytes → Step
  | [] => .finished
  | b :: rest =>
    if Bytes.isSpace b then .copy (1 + (rest.takeWhile Bytes.isSpace).length)
    else if !Bytes.isAlnum b then .copy 1
    else if m.token.isPrefixOf (b :: rest) then .token
    else .copy (1 + (rest.takeWhile Bytes.isAlnum).length)

theorem step_eq_copy {m : Marker} {input : Bytes} {n : Nat} (h : step m input = .copy n) :
    0 < n ∧ 0 < input.length := by
  unfold step at h
  split at h
  · simp at h
  · split at h
    · simp_all; omega
    · split at h
      · simp_all; omega
      · split at h
        · simp at h
        · simp_all; omega

theorem step_eq_token {m : Marker} {input : Bytes} (h : step m input = .token) :
    0 < input.length := by
  cases input with
  | nil => simp [step] at h
  | cons b rest => simp

def gap (m : Marker) (input : Bytes) : Bytes × Option Bytes :=
  match h : step m input with
  | .finished => ([], none)
  | .token => ([], some (input.drop m.token.length))
  | .copy n =>
    have := step_eq_copy h
    (input.take n ++ (gap m (input.drop n)).1, (gap m (input.drop n)).2)
termination_by input.length
decreasing_by all_goals simp only [List.length_drop]; omega

theorem gap_length_lt {m : Marker} {input after : Bytes} (h : (gap m input).2 = some after) :
    after.length < input.length := by
  fun_induction gap m input with
  | case1 => simp at h
  | case2 input hs =>
    have := step_eq_token hs
    simp only [Option.some.injEq] at h
    subst h
    simp only [List.length_drop, Marker.length_token]
    omega
  | case3 input n hs hp ih =>
    have := ih h
    simp only [List.length_drop] at this
    omega

/-- Why the text behind a token completes no invocation. Offsets count from the end of the token. -/
inductive Fault where
  /-- Something other than a quote, or the end of the source, stands at `found`. -/
  | notALiteral (found : Nat)
  /-- The literal that the quote at `quote` opens is never closed. -/
  | unterminated (quote : Nat)
  /-- Something other than a closing parenthesis, or the end, stands at `found`. -/
  | unclosed (span : Bytes) (found : Nat)
  deriving DecidableEq, Repr

structure Body where
  span : Bytes
  length : Nat
  rest : Bytes
  deriving DecidableEq, Repr

def readClose (span : Bytes) (offset : Nat) (after : Bytes) : Except Fault Body :=
  let found := offset + (after.takeWhile Bytes.isSpace).length
  match after.dropWhile Bytes.isSpace with
  | [] => .error (.unclosed span found)
  | b :: rest =>
    if b = Bytes.closeParen then .ok ⟨span, found + 1, rest⟩ else .error (.unclosed span found)

def readBody (input : Bytes) : Except Fault Body :=
  let found := (input.takeWhile Bytes.isSpace).length
  match input.dropWhile Bytes.isSpace with
  | [] => .error (.notALiteral found)
  | b :: inner =>
    if b = Bytes.quote then
      match Literal.read inner with
      | none => .error (.unterminated found)
      | some (span, after) => readClose span (found + span.length + 2) after
    else .error (.notALiteral found)

theorem length_dropWhile_le (p : UInt8 → Bool) (l : Bytes) : (l.dropWhile p).length ≤ l.length :=
  (List.dropWhile_suffix p).length_le

theorem readClose_length_lt {span after : Bytes} {offset : Nat} {body : Body}
    (h : readClose span offset after = .ok body) : body.rest.length < after.length := by
  have hl := length_dropWhile_le Bytes.isSpace after
  unfold readClose at h
  split at h
  · simp at h
  · next b rest hd =>
    rw [hd] at hl
    split at h
    · simp only [Except.ok.injEq] at h
      subst h
      simp only [List.length_cons] at hl
      exact hl
    · simp at h

theorem readBody_length_lt {input : Bytes} {body : Body} (h : readBody input = .ok body) :
    body.rest.length < input.length := by
  have hl := length_dropWhile_le Bytes.isSpace input
  unfold readBody at h
  split at h
  · simp at h
  · next b inner hd =>
    rw [hd] at hl
    split at h
    · split at h
      · simp at h
      · next span after hr =>
        have hc := readClose_length_lt h
        have he := congrArg List.length (Literal.eq_of_read hr)
        simp only [List.length_append, List.length_cons] at he hl
        omega
    · simp at h

structure Piece where
  gap : Bytes
  source : Bytes
  span : Bytes
  deriving DecidableEq, Repr

/-- A scanned source: its pieces, the gap behind the last of them, and what is wrong with the token
that follows this gap if the scan ended at one. -/
structure Scanned where
  pieces : List Piece
  tail : Bytes
  fault : Option Fault
  deriving DecidableEq, Repr

def scan (m : Marker) (input : Bytes) : Scanned :=
  match h : gap m input with
  | (before, none) => ⟨[], before, none⟩
  | (before, some after) =>
    match hb : readBody after with
    | .error fault => ⟨[], before, some fault⟩
    | .ok body =>
      have h₁ : after.length < input.length := gap_length_lt (by rw [h])
      have h₂ := readBody_length_lt hb
      let more := scan m body.rest
      let source := m.token ++ after.take body.length
      ⟨⟨before, source, body.span⟩ :: more.pieces, more.tail, more.fault⟩
termination_by input.length

end HashedLiterals.Scan
