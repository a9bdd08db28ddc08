set_option autoImplicit false

namespace HashedLiterals.YamlFormat

def isBlank (c : Char) : Bool := c == ' ' || c == '\t'

def isBreak (c : Char) : Bool := c == '\n' || c == '\r'

def isSpace (c : Char) : Bool := isBlank c || isBreak c

def isFlowMark (c : Char) : Bool := [',', '[', ']', '\x7b', '\x7d'].contains c

structure Place where
  /-- What is still to be read. -/
  rest : List Char
  line : Nat := 0
  column : Nat := 0
  /-- The number of spaces at the front of the line. -/
  indent : Nat := 0
  /-- Whether a tab has been skipped as separation on this line. -/
  tab : Bool := false

namespace Place

def drop (p : Place) (n : Nat) : Place := { p with rest := p.rest.drop n, column := p.column + n }

def atEnd (p : Place) : Bool := p.rest.isEmpty

def atMark (p : Place) (mark : Char) : Bool :=
  match p.rest with
  | c :: next :: _ => c == mark && isSpace next
  | _ => false

def atSeparator (p : Place) : Bool :=
  match p.rest with
  | a :: b :: c :: rest =>
    p.column == 0 && (a == '-' || a == '.') && a == b && b == c && rest.head?.all isSpace
  | _ => false

def atTrail (p : Place) : Bool :=
  p.rest.head?.any isBlank && (p.rest.dropWhile isBlank).head?.any isBreak

def ofLine (line : Nat) (text : List Char) : Place :=
  let spaces := (text.takeWhile (· == ' ')).length
  ⟨text.drop spaces, line, spaces, spaces, false⟩

def nextLine? (p : Place) : Option Place :=
  match p.rest with
  | '\r' :: '\n' :: rest => some (ofLine (p.line + 1) rest)
  | c :: rest => if isBreak c then some (ofLine (p.line + 1) rest) else none
  | [] => none

theorem length_ofLine_le (line : Nat) (text : List Char) :
    (ofLine line text).rest.length ≤ text.length := by
  simp [ofLine]

theorem length_nextLine?_lt {p q : Place} (h : p.nextLine? = some q) :
    q.rest.length < p.rest.length := by
  unfold nextLine? at h
  split at h
  · next rest hr =>
    obtain rfl := Option.some.inj h
    have := length_ofLine_le (p.line + 1) rest
    simp only [hr, List.length_cons]
    omega
  · next c rest _ hr =>
    split at h
    · obtain rfl := Option.some.inj h
      have := length_ofLine_le (p.line + 1) rest
      simp only [hr, List.length_cons]
      omega
    · simp at h
  · simp at h

def skipBlanks (p : Place) : Place :=
  let blanks := p.rest.takeWhile isBlank
  { p.drop blanks.length with tab := p.tab || blanks.contains '\t' }

def skipRemark (p : Place) : Place :=
  match p.rest with
  | '#' :: rest => p.drop (1 + (rest.takeWhile fun c => !isBreak c).length)
  | _ => p

theorem length_drop_le (p : Place) (n : Nat) : (p.drop n).rest.length ≤ p.rest.length := by
  simp [drop]

theorem length_drop_lt {p : Place} {c : Char} {after : List Char} (h : p.rest = c :: after) (n : Nat) :
    (p.drop (n + 1)).rest.length < p.rest.length := by
  simp only [drop, List.length_drop, h, List.length_cons]
  omega

theorem length_skipBlanks_le (p : Place) : p.skipBlanks.rest.length ≤ p.rest.length :=
  p.length_drop_le _

theorem length_skipRemark_le (p : Place) : p.skipRemark.rest.length ≤ p.rest.length := by
  unfold skipRemark
  split
  · exact p.length_drop_le _
  · exact Nat.le_refl _

def skipInline (remarks : Bool) (p : Place) : Place :=
  if remarks then p.skipBlanks.skipRemark else p.skipBlanks

theorem length_skipInline_le (remarks : Bool) (p : Place) :
    (p.skipInline remarks).rest.length ≤ p.rest.length := by
  have h := p.length_skipBlanks_le
  unfold skipInline
  split
  · exact Nat.le_trans (length_skipRemark_le _) h
  · exact h

def skipSpace (remarks : Bool) (p : Place) : Nat × Place :=
  match h : (p.skipInline remarks).nextLine? with
  | none => (0, p.skipInline remarks)
  | some next =>
    have : next.rest.length < p.rest.length :=
      Nat.lt_of_lt_of_le (length_nextLine?_lt h) (length_skipInline_le remarks p)
    let (breaks, q) := next.skipSpace remarks
    (breaks + 1, q)
termination_by p.rest.length

theorem length_skipSpace_le (remarks : Bool) (p : Place) :
    (p.skipSpace remarks).2.rest.length ≤ p.rest.length := by
  fun_induction skipSpace remarks p with
  | case1 p h => exact length_skipInline_le remarks p
  | case2 p next h hlt breaks q hq ih =>
    simp only [hq] at ih
    exact Nat.le_trans ih (Nat.le_of_lt hlt)

def space (p : Place) : Place := (p.skipSpace true).2

def fold? (p : Place) : Option (Nat × Place) :=
  p.nextLine?.map fun next =>
    let (breaks, q) := next.skipSpace false
    (breaks + 1, q)

theorem length_fold?_lt {p q : Place} {breaks : Nat} (h : p.fold? = some (breaks, q)) :
    q.rest.length < p.rest.length := by
  obtain ⟨next, hn, he⟩ := Option.map_eq_some_iff.1 h
  have h₁ := length_nextLine?_lt hn
  have h₂ := length_skipSpace_le false next
  simp only [Prod.mk.injEq] at he
  obtain ⟨-, rfl⟩ := he
  exact Nat.lt_of_le_of_lt h₂ h₁

end Place

/-- What takes the place of line breaks inside a scalar: a blank for one, and all but one of several. -/
def folded (breaks : Nat) : List Char :=
  if breaks = 1 then [' '] else List.replicate (breaks - 1) '\n'

end HashedLiterals.YamlFormat
