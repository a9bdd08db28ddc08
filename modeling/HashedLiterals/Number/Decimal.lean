set_option autoImplicit false

namespace HashedLiterals

structure Decimal where
  negative : Bool := false
  digits : Nat
  exponent : Int := 0
  deriving DecidableEq, Repr

namespace Decimal

def ofInt (n : Int) : Decimal := ⟨decide (n < 0), n.natAbs, 0⟩

def numerator (d : Decimal) : Nat := d.digits * Nat.pow 10 d.exponent.toNat

def denominator (d : Decimal) : Nat := Nat.pow 10 (-d.exponent).toNat

end Decimal

/-- A finite non-negative double: a significand below 2 ^ 53 and a power of two. -/
structure Binary where
  significand : Nat
  exponent : Int
  deriving DecidableEq, Repr

namespace Binary

def numerator (b : Binary) : Nat := b.significand * Nat.pow 2 b.exponent.toNat

def denominator (b : Binary) : Nat := Nat.pow 2 (-b.exponent).toNat

def roundQuotient (num den : Nat) : Nat :=
  let q := num / den
  let r := num % den
  if 2 * r < den then q else if den < 2 * r then q + 1 else if q % 2 = 0 then q else q + 1

def scale (num den : Nat) (exponent : Int) : Nat × Nat :=
  (num * Nat.pow 2 (-exponent).toNat, den * Nat.pow 2 exponent.toNat)

def leastExponent : Int := -1074

def greatestExponent : Int := 971

def ofFraction? (num den : Nat) : Option Binary :=
  if num = 0 then some ⟨0, leastExponent⟩
  else
    let guess : Int := (num.log2 : Int) - den.log2 - 52
    let (n, d) := scale num den guess
    let exponent := max leastExponent (if n / d < Nat.pow 2 52 then guess - 1 else guess)
    let (n, d) := scale num den exponent
    let rounded := roundQuotient n d
    let (significand, exponent) :=
      if rounded = Nat.pow 2 53 then (Nat.pow 2 52, exponent + 1) else (rounded, exponent)
    if greatestExponent < exponent then none else some ⟨significand, exponent⟩

end Binary

namespace Decimal

/-- The magnitude as a double, or none if it is infinite. A leading digit that stands four hundred
places from the point decides at once. -/
def toBinary? (d : Decimal) : Option Binary :=
  let leading : Int := (Nat.toDigits 10 d.digits).length + d.exponent
  if d.digits = 0 ∨ leading < -400 then some ⟨0, Binary.leastExponent⟩
  else if 400 < leading then none
  else Binary.ofFraction? d.numerator d.denominator

def signed (negative : Bool) (n : Nat) : Int := if negative then -n else n

def truncate (d : Decimal) : Int :=
  match d.toBinary? with
  | none => 0
  | some b => signed d.negative (b.numerator / b.denominator)

def ceiling (d : Decimal) : Int :=
  match d.toBinary? with
  | none => 0
  | some b =>
    if d.negative then -((b.numerator / b.denominator : Nat) : Int)
    else ((b.numerator + b.denominator - 1) / b.denominator : Nat)

end Decimal

end HashedLiterals
