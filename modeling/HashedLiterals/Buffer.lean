import HashedLiterals.Bytes

set_option autoImplicit false

namespace HashedLiterals

def Buffer.minimum : Nat := 64

structure Buffer where
  written : Array UInt8
  capacity : Nat
  size_le : written.size ≤ capacity
  minimum_le : Buffer.minimum ≤ capacity

namespace Buffer

def used (b : Buffer) : Nat := b.written.size

def toBytes (b : Buffer) : Bytes := b.written.toList

theorem used_le (b : Buffer) : b.used ≤ b.capacity := b.size_le

def ofCapacity (hint : Int) : Buffer where
  written := #[]
  capacity := max minimum hint.toNat
  size_le := Nat.zero_le _
  minimum_le := Nat.le_max_left _ _

def empty : Buffer := ofCapacity minimum

/-- The capacity, doubled until it reaches what is required. -/
def grown (capacity required : Nat) (h : 0 < capacity) : Nat :=
  if capacity < required then grown (capacity * 2) required (by omega) else capacity
termination_by required - capacity

theorem le_grown (capacity required : Nat) (h : 0 < capacity) :
    capacity ≤ grown capacity required h ∧ required ≤ grown capacity required h := by
  fun_induction grown capacity required h <;> omega

theorem grown_of_le {capacity required : Nat} (h : 0 < capacity) (hle : required ≤ capacity) :
    grown capacity required h = capacity := by
  rw [grown, if_neg (Nat.not_lt.2 hle)]

theorem grown_grown {capacity first required : Nat} (h : 0 < capacity) (hle : first ≤ required)
    (h' : 0 < grown capacity first h) :
    grown (grown capacity first h) required h' = grown capacity required h := by
  fun_induction grown capacity first h with
  | case1 capacity h hlt ih =>
    rw [ih h', grown.eq_def capacity required h, if_pos (Nat.lt_of_lt_of_le hlt hle)]
  | case2 capacity h hlt => rfl

theorem capacity_pos (b : Buffer) : 0 < b.capacity := Nat.lt_of_lt_of_le (by decide) b.minimum_le

def reserve (b : Buffer) (required : Nat) : Buffer where
  written := b.written
  capacity := grown b.capacity required b.capacity_pos
  size_le := Nat.le_trans b.size_le (le_grown _ _ b.capacity_pos).1
  minimum_le := Nat.le_trans b.minimum_le (le_grown _ _ b.capacity_pos).1

theorem le_capacity_reserve (b : Buffer) (required : Nat) :
    required ≤ (b.reserve required).capacity := (le_grown _ _ b.capacity_pos).2

@[simp] theorem used_reserve (b : Buffer) (required : Nat) : (b.reserve required).used = b.used := rfl

@[simp] theorem toBytes_reserve (b : Buffer) (required : Nat) :
    (b.reserve required).toBytes = b.toBytes := rfl

def write (b : Buffer) (bytes : Bytes) (h : b.used + bytes.length ≤ b.capacity) : Buffer where
  written := b.written ++ bytes.toArray
  capacity := b.capacity
  size_le := by simpa [used] using h
  minimum_le := b.minimum_le

theorem toBytes_write (b : Buffer) (bytes : Bytes) (h : b.used + bytes.length ≤ b.capacity) :
    (b.write bytes h).toBytes = b.toBytes ++ bytes := by
  simp [toBytes, write]

def append (b : Buffer) (bytes : Bytes) : Buffer :=
  (b.reserve (b.used + bytes.length)).write bytes (by
    rw [used_reserve]
    exact le_capacity_reserve b (b.used + bytes.length))

@[simp] theorem toBytes_append (b : Buffer) (bytes : Bytes) :
    (b.append bytes).toBytes = b.toBytes ++ bytes := by
  simp [append, toBytes_write]

theorem capacity_append (b : Buffer) (bytes : Bytes) :
    (b.append bytes).capacity = grown b.capacity (b.used + bytes.length) b.capacity_pos := rfl

theorem append_reserve (b : Buffer) (bytes : Bytes) :
    (b.reserve (b.used + bytes.length)).append bytes = b.append bytes := by
  simp only [append, reserve, write, used, mk.injEq, true_and]
  exact grown_of_le _ (le_grown _ _ b.capacity_pos).2

@[simp] theorem append_nil (b : Buffer) : b.append [] = b := by
  obtain ⟨written, capacity, hsize, hminimum⟩ := b
  simp [append, write, reserve, used, grown_of_le, hsize]

theorem append_append (b : Buffer) (x y : Bytes) : (b.append x).append y = b.append (x ++ y) := by
  obtain ⟨written, capacity, hsize, hminimum⟩ := b
  simp only [append, write, reserve, used, mk.injEq]
  refine ⟨by simp, ?_⟩
  rw [grown_grown]
  · simp [Nat.add_assoc]
  · simp

end Buffer

end HashedLiterals
