import HashedLiterals.Number.Decimal

set_option autoImplicit false

namespace HashedLiterals

namespace Binary

def leading (num den : Nat) : Int :=
  if den ≤ num then ((Nat.toDigits 10 (num / den)).length : Int) - 1
  else -(((List.range 400).find? fun j => den ≤ num * Nat.pow 10 j).getD 400 : Nat)

def readsBack (b : Binary) (digits : Nat) (exponent : Int) : Bool :=
  (Decimal.toBinary? ⟨false, digits, exponent⟩) == some b

/-- The double's neighbours on the grid of a power of ten, the nearer one first; of two equally near
the even one. -/
def neighbours (b : Binary) (exponent : Int) : List Nat :=
  let num := b.numerator * Nat.pow 10 (-exponent).toNat
  let den := b.denominator * Nat.pow 10 exponent.toNat
  let below := num / den
  if Binary.roundQuotient num den = below then [below, below + 1] else [below + 1, below]

/-- The shortest digits and their power of ten: the first grid with a neighbour that reads back. -/
def shortest (b : Binary) : Nat × Int :=
  let top := leading b.numerator b.denominator
  let attempt (count : Nat) : Option (Nat × Int) :=
    let exponent := top - count
    ((b.neighbours exponent).find? fun d => b.readsBack d exponent).map fun d => (d, exponent)
  ((List.range 17).findSome? attempt).getD (b.significand, 0)

end Binary

/-- Where positional notation ends and how numbers without digits are written. -/
structure NumberFormat where
  /-- The largest number of digits before the point. -/
  wholeDigits : Nat
  /-- The largest number of zeros between the point and the first digit. -/
  leadingZeros : Nat
  infinity : String

namespace NumberFormat

def zeros (n : Nat) : List Char := List.replicate n '0'

def layout (f : NumberFormat) (digits : List Char) (point : Int) : List Char :=
  let count : Int := digits.length
  if count ≤ point ∧ point ≤ f.wholeDigits then digits ++ zeros (point - count).toNat
  else if 0 < point ∧ point ≤ f.wholeDigits then
    digits.take point.toNat ++ ['.'] ++ digits.drop point.toNat
  else if -(f.leadingZeros : Int) ≤ point ∧ point ≤ 0 then
    ['0', '.'] ++ zeros (-point).toNat ++ digits
  else
    let fraction := digits.drop 1
    let e := point - 1
    digits.take 1 ++ (if fraction.isEmpty then [] else '.' :: fraction) ++
      ['e', if e < 0 then '-' else '+'] ++ Nat.toDigits 10 e.natAbs

def dropZeros : List Char → List Char × Nat
  | digits =>
    let kept := (digits.reverse.dropWhile (· == '0')).reverse
    (kept, digits.length - kept.length)

def write (f : NumberFormat) (d : Decimal) : String :=
  let sign := if d.negative then "-" else ""
  match d.toBinary? with
  | none => sign ++ f.infinity
  | some b =>
    if b.significand = 0 then "0"
    else
      let (digits, exponent) := b.shortest
      let (kept, dropped) := dropZeros (Nat.toDigits 10 digits)
      sign ++ String.ofList (f.layout kept (exponent + dropped + kept.length))

def standard : NumberFormat := ⟨21, 5, "Infinity"⟩

end NumberFormat

namespace Number

def exactLimit : Nat := 9007199254740992

def nearest (n : Int) : Int := if n.natAbs ≤ exactLimit then n else (Decimal.ofInt n).truncate

def text (n : Int) : String :=
  if n.natAbs ≤ exactLimit then toString n else NumberFormat.standard.write (.ofInt n)

theorem nearest_of_le {n : Int} (h : n.natAbs ≤ exactLimit) : nearest n = n := if_pos h

end Number

end HashedLiterals
