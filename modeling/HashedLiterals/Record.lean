set_option autoImplicit false

namespace HashedLiterals

structure Record (α : Type) where
  fields : List (String × α)
  deriving DecidableEq, Repr

namespace Record

variable {α : Type}

def empty : Record α := ⟨[]⟩

def setField (name : String) (value : α) : List (String × α) → List (String × α)
  | [] => [(name, value)]
  | (n, v) :: rest => if n = name then (n, value) :: rest else (n, v) :: setField name value rest

def set (r : Record α) (name : String) (value : α) : Record α := ⟨setField name value r.fields⟩

def get? (r : Record α) (name : String) : Option α := r.fields.lookup name

theorem get?_set (r : Record α) (name other : String) (value : α) :
    (r.set name value).get? other = if other = name then some value else r.get? other := by
  obtain ⟨fields⟩ := r
  simp only [set, get?]
  induction fields with
  | nil => simp only [setField, List.lookup_cons, List.lookup_nil]; grind
  | cons head rest ih =>
    obtain ⟨n, v⟩ := head
    simp only [setField]
    split <;> simp only [List.lookup_cons] <;> grind

def ofPairs (pairs : List (String × α)) : Record α :=
  pairs.foldl (fun r (name, value) => r.set name value) empty

/-- The number that a name spells without needless zeros, if it lies below 2 ^ 32 - 1. -/
def index? (name : String) : Option Nat :=
  match name.toList with
  | [] => none
  | c :: rest =>
    if !(c :: rest).all Char.isDigit || (c = '0' && !rest.isEmpty) then none
    else
      let n := (c :: rest).foldl (fun n d => n * 10 + (d.toNat - 48)) 0
      if n < 4294967295 then some n else none

def listed (fields : List (String × α)) : List (String × α) :=
  let numbered := fields.filterMap fun f => (index? f.1).map fun n => (n, f)
  ((numbered.mergeSort fun a b => a.1 ≤ b.1).map Prod.snd) ++
    fields.filter fun f => (index? f.1).isNone

def toList (r : Record α) : List (String × α) := listed r.fields

end Record

end HashedLiterals
