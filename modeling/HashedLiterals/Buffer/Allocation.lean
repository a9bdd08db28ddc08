import HashedLiterals.Buffer
import HashedLiterals.Number.Shortest

/-!
Asking for a buffer. The capacity may be any decimal number, and a fraction is rounded up; what is not a
number is left out. A capacity that is too large, or for which there is no memory, is refused. How much memory
there is depends on the machine: `limit` is the greatest capacity that it grants.
-/
set_option autoImplicit false

namespace HashedLiterals.Buffer

inductive Refusal where
  | tooLong (capacity : Decimal)
  | noMemory
  deriving DecidableEq, Repr

def Refusal.message : Refusal → String
  | .tooLong capacity => "Invalid typed array length: " ++ NumberFormat.standard.write capacity
  | .noMemory => "Array buffer allocation failed"

/-- A buffer of at least the given capacity, which must be less than what a double counts exactly. -/
def allocate (limit : Nat) (capacity : Decimal) : Except Refusal Buffer :=
  if capacity.negative then .ok empty
  else if capacity.toBinary?.isNone ∨ Number.exactLimit ≤ capacity.ceiling then
    .error (.tooLong capacity)
  else if limit < capacity.ceiling then .error .noMemory
  else .ok (ofCapacity capacity.ceiling)

end HashedLiterals.Buffer
