import HashedLiterals.Buffer.Allocation

/-!
Calls that write to a buffer. A buffer that has to grow may be refused the memory for it; then nothing is
written. A text is copied index by index, and an index is a double: beyond 2 ^ 53 the next one can be two
places ahead, or the index itself.
-/
set_option autoImplicit false

namespace HashedLiterals.Buffer

inductive Stop where
  /-- The buffer cannot grow. The caller keeps the old one. -/
  | refused (r : Refusal)
  /-- The next index is the same again, and the call goes on for ever. -/
  | endless
  deriving DecidableEq, Repr

def Fits (b : Buffer) (limit count : Nat) : Prop :=
  b.used + count ≤ b.capacity ∨ grown b.capacity (b.used + count) b.capacity_pos ≤ limit

instance (b : Buffer) (limit count : Nat) : Decidable (b.Fits limit count) :=
  inferInstanceAs (Decidable (_ ∨ _))

/-- Why a buffer cannot grow by so many bytes. What is required is counted in doubles. -/
def growthRefusal (b : Buffer) (count : Nat) : Refusal :=
  if (Decimal.ofInt count).toBinary?.isNone then .tooLong (.ofInt count)
  else
    let required := Number.nearest (b.used + Number.nearest count)
    let capacity := grown b.capacity required.toNat b.capacity_pos
    if capacity < Number.exactLimit then .noMemory else .tooLong (.ofInt capacity)

def makeRoom (b : Buffer) (limit count : Nat) : Except Stop Buffer :=
  if b.Fits limit count then .ok (b.reserve (b.used + count))
  else .error (.refused (b.growthRefusal count))

def appendByte (b : Buffer) (limit : Nat) (value : Int) : Except Stop Buffer := do
  let room ← b.makeRoom limit 1
  return room.append [Bytes.low value]

/-- The low eight bits of the unit at an index; an index outside the text gives zero. -/
def unitAt (units : Array Nat) (index : Int) : UInt8 :=
  if index < 0 then 0 else (units.getD index.toNat 0).toUInt8

def copyUnits (units : Array Nat) (stop index : Int) (copied : Array UInt8) : Except Stop (Array UInt8) :=
  if index < stop then
    if index < Number.nearest (index + 1) then
      copyUnits units stop (Number.nearest (index + 1)) (copied.push (unitAt units index))
    else .error .endless
  else .ok copied
termination_by (stop - index).toNat

def appendWindow (b : Buffer) (limit : Nat) (units : List Nat) (start stop : Int) :
    Except Stop Buffer :=
  if start < stop then do
    let room ← b.makeRoom limit (stop - start).toNat
    let copied ← copyUnits units.toArray stop start #[]
    return room.append copied.toList
  else .ok b

inductive Write where
  | byte (value : Int)
  | window (units : List Nat) (start stop : Int)
  deriving DecidableEq, Repr

def accept (limit : Nat) (b : Buffer) : Write → Except Stop Buffer
  | .byte value => b.appendByte limit value
  | .window units start stop => b.appendWindow limit units start stop

end HashedLiterals.Buffer
