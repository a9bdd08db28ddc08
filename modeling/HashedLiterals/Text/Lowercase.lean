import HashedLiterals.Text.Lowercase.Table

set_option autoImplicit false

namespace HashedLiterals.Lowercase

def Run.map? (r : Run) (n : Nat) : Option Nat :=
  if r.first ≤ n && n ≤ r.last && (n - r.first) % r.stride == 0 then some (r.target + (n - r.first))
  else none

def simple (c : Char) : Char := ((runs.findSome? fun r => r.map? c.toNat).map Char.ofNat).getD c

def inRanges (ranges : List (Nat × Nat)) (c : Char) : Bool :=
  ranges.any fun (first, last) => first ≤ c.toNat && c.toNat ≤ last

def beginsCased (text : List Char) : Bool :=
  match text.dropWhile (inRanges skipped) with
  | [] => false
  | c :: _ => inRanges cased c

def lowerAfter (before : List Char) : List Char → List Char
  | [] => []
  | c :: rest =>
    let lowered :=
      if c = 'Σ' then [if beginsCased before && !beginsCased rest then 'ς' else 'σ']
      else if c = 'İ' then ['i', '\u0307']
      else [simple c]
    lowered ++ lowerAfter (c :: before) rest

def lower (text : String) : String := String.ofList (lowerAfter [] text.toList)

end HashedLiterals.Lowercase
