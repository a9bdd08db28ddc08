import HashedLiterals.Bytes
import HashedLiterals.Path

set_option autoImplicit false

namespace HashedLiterals

inductive Node where
  | directory
  | file (data : Bytes) (mode : Nat)
  | link (target : String)
  deriving DecidableEq, Repr

structure Disk where
  entries : List (Key × Node)
  /-- The working directory, from which relative paths start. -/
  cwd : Key
  /-- The number of the running process, as it appears in the names of temporary files. -/
  process : String
  deriving DecidableEq, Repr

namespace Disk

def newMode : Nat := 0o644

def get? (d : Disk) (key : Key) : Option Node :=
  if key = [] then some .directory else d.entries.lookup key

def putEntry (key : Key) (node : Node) : List (Key × Node) → List (Key × Node)
  | [] => [(key, node)]
  | (k, n) :: rest => if k = key then (k, node) :: rest else (k, n) :: putEntry key node rest

def put (d : Disk) (key : Key) (node : Node) : Disk := { d with entries := putEntry key node d.entries }

def erase (d : Disk) (key : Key) : Disk := { d with entries := d.entries.filter fun e => e.1 != key }

theorem get?_put (d : Disk) (key other : Key) (node : Node) (h : key ≠ []) :
    (d.put key node).get? other = if other = key then some node else d.get? other := by
  by_cases ho : other = []
  · subst ho; simp [get?, Ne.symm h]
  · obtain ⟨entries, cwd, process⟩ := d
    simp only [get?, put, ho, if_false]
    induction entries with
    | nil => simp only [putEntry, List.lookup_cons, List.lookup_nil]; grind
    | cons head rest ih =>
      obtain ⟨k, n⟩ := head
      simp only [putEntry]
      split <;> simp only [List.lookup_cons] <;> grind

theorem get?_erase (d : Disk) (key other : Key) (h : key ≠ []) :
    (d.erase key).get? other = if other = key then none else d.get? other := by
  by_cases ho : other = []
  · subst ho; simp [get?, Ne.symm h]
  · obtain ⟨entries, cwd, process⟩ := d
    simp only [get?, erase, ho, if_false]
    induction entries with
    | nil => simp
    | cons head rest ih =>
      obtain ⟨k, n⟩ := head
      by_cases hk : k = key
      · subst hk
        simp only [bne_self_eq_false, Bool.false_eq_true, not_false_eq_true,
          List.filter_cons_of_neg, List.lookup_cons]
        grind
      · simp only [List.filter, List.lookup_cons]
        grind

def children (d : Disk) (key : Key) : List (String × Node) :=
  d.entries.filterMap fun (k, node) =>
    match k.getLast? with
    | some name => if k.dropLast = key then some (name, node) else none
    | none => none

def remove (d : Disk) (key : Key) : Disk :=
  { d with entries := d.entries.filter fun e => !key.isPrefixOf e.1 }

def makeWay (d : Disk) (key : Key) : Disk :=
  let ways := (List.range key.length).map fun i => key.take (i + 1)
  ways.foldl (fun d k => if (d.get? k).isSome then d else d.put k .directory) d

def place (d : Disk) (key : Key) (node : Node) : Disk := (d.makeWay key.dropLast).put key node

end Disk

end HashedLiterals
