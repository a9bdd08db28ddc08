import HashedLiterals.Diagnostic.Render

set_option autoImplicit false

namespace HashedLiterals

structure Hunk where
  /-- Index of the first line, from zero. -/
  start : Nat
  removed : List String
  added : List String
  deriving DecidableEq, Repr

namespace Hunk

def extend (index : Nat) (removed added : List String) : List Hunk → List Hunk
  | [] => [⟨index, removed, added⟩]
  | h :: rest =>
    if h.start = index + 1 then ⟨index, removed ++ h.removed, added ++ h.added⟩ :: rest
    else ⟨index, removed, added⟩ :: h :: rest

/-- The hunks of two lists of lines, the first of which have the given index. -/
def compare (index : Nat) : List String → List String → List Hunk
  | [], [] => []
  | a :: as, [] =>
    let rest := compare (index + 1) as []
    if a = "" then rest else extend index [a] [] rest
  | [], b :: bs =>
    let rest := compare (index + 1) [] bs
    if "" = b then rest else extend index [] [b] rest
  | a :: as, b :: bs =>
    let rest := compare (index + 1) as bs
    if a = b then rest else extend index [a] [b] rest

def ofTexts (before after : String) : List Hunk :=
  compare 0 (Diagnostic.splitLines before) (Diagnostic.splitLines after)

def range (start count : Nat) : String := toString (start + 1) ++ "," ++ toString count

def lines (h : Hunk) : List Styled :=
  [⟨"@@ -" ++ range h.start h.removed.length ++ " +" ++ range h.start h.added.length ++ " @@", []⟩] ++
    (h.removed.map fun line => ⟨"- " ++ line, [.red]⟩) ++
    (h.added.map fun line => ⟨"+ " ++ line, [.green]⟩) ++ [⟨"", []⟩]

def print (colors : Bool) (path before after : String) : List String :=
  match ofTexts before after with
  | [] => ["(no changes, no strings hashed)"]
  | hunks =>
    ["--- " ++ path ++ " (original)", "+++ " ++ path ++ " (expanded)", ""] ++
      (hunks.flatMap lines).map (Styled.paint colors)

end Hunk

end HashedLiterals
