/-!
The registry of hashes. It remembers the first literal seen for every hash. A stage is laid over a
registry: it sees the entries below, but holds back its own until they are committed.
-/
set_option autoImplicit false

namespace HashedLiterals

structure Entry where
  /-- The hash under which the literal is remembered; hashes outside the words are kept apart. -/
  hash : Int
  literal : String
  fileName : String
  offset : Int
  deriving DecidableEq, Repr

namespace Entry

def get? (entries : List Entry) (hash : Int) : Option Entry :=
  entries.find? fun e => e.hash == hash

def clash? (entries : List Entry) (hash : Int) (literal : String) : Option Entry :=
  (get? entries hash).filter fun e => e.literal != literal

/-- Adds an entry behind the others, unless its hash has one already. -/
def add (entries : List Entry) (e : Entry) : List Entry :=
  if (get? entries e.hash).isSome then entries else entries ++ [e]

theorem get?_add (entries : List Entry) (e : Entry) (hash : Int) :
    get? (add entries e) hash = (get? entries hash).or (if e.hash = hash then some e else none) := by
  unfold add
  split
  · next h =>
    by_cases he : e.hash = hash
    · subst he; obtain ⟨a, ha⟩ := Option.isSome_iff_exists.1 h; simp [ha]
    · simp [he]
  · by_cases he : e.hash = hash <;> simp [get?, List.find?_append, he]

end Entry

/-- A registry, or a stage over one. -/
inductive Registry where
  | plain (entries : List Entry)
  | staged (base : Registry) (pending : List Entry)
  deriving DecidableEq, Repr

namespace Registry

def empty : Registry := .plain []

def stage (base : Registry) : Registry := .staged base []

def toList : Registry → List Entry
  | .plain entries => entries
  | .staged base pending => base.toList ++ pending

def size : Registry → Nat
  | .plain entries => entries.length
  | .staged base pending => base.size + pending.length

@[simp] theorem length_toList (r : Registry) : r.toList.length = r.size := by
  induction r with
  | plain entries => rfl
  | staged base pending ih => simp [toList, size, ih]

def get? : Registry → Int → Option Entry
  | .plain entries, hash => Entry.get? entries hash
  | .staged base pending, hash => (base.get? hash).or (Entry.get? pending hash)

def clash? : Registry → Int → String → Option Entry
  | .plain entries, hash, literal => Entry.clash? entries hash literal
  | .staged base pending, hash, literal =>
    (base.clash? hash literal).or (Entry.clash? pending hash literal)

def record : Registry → Entry → Registry
  | .plain entries, e => .plain (Entry.add entries e)
  | .staged base pending, e =>
    if (base.get? e.hash).isSome then .staged base pending else .staged base (Entry.add pending e)

def recordAll (r : Registry) (entries : List Entry) : Registry := entries.foldl record r

def clear : Registry → Registry
  | .plain _ => .plain []
  | .staged base _ => .staged base []

/-- Hands the entries of the top stage down to its base. -/
def commit : Registry → Registry
  | .plain entries => .plain entries
  | .staged base pending => .staged (base.recordAll pending) []

def base : Registry → Registry
  | .plain entries => .plain entries
  | .staged base _ => base

end Registry

end HashedLiterals
