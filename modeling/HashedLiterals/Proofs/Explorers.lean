import HashedLiterals.Config.Explorer

set_option autoImplicit false

namespace HashedLiterals

namespace ConfigFile

variable {parse : String → Bytes → Except Thrown (Option Value)} {d : Disk} {dir : Key} {name : String}
  {data : Bytes}

def placeIn (dir : Key) (name : String) : String := Path.ofKey (dir ++ [name])

/-- A file is missing, or its loader finds nothing in it. -/
def Vacant (parse : String → Bytes → Except Thrown (Option Value)) (d : Disk) (dir : Key)
    (name : String) : Prop :=
  (∃ e, d.read (placeIn dir name) = .error e ∧
    (e.errno = .noEntry ∨ e.errno = .notDirectory ∨ e.errno = .isDirectory)) ∨
  ∃ data, d.read (placeIn dir name) = .ok data ∧ parse name data = .ok none

structure Reaches (parse : String → Bytes → Except Thrown (Option Value)) (d : Disk) (dir : Key)
    (name : String) (data : Bytes) : Prop where
  directory : ∃ key, d.stat (Path.ofKey dir) = .ok (key, .directory)
  before : ∃ before after, searchPlaces = before ++ name :: after ∧ ∀ p ∈ before, Vacant parse d dir p
  read : d.read (placeIn dir name) = .ok data

end ConfigFile

open ConfigFile in
/-- An explorer as it is documented, where no settings of its own package are in force. The loaders are given
by the name of the file that they are for. -/
structure Host.Documented (host : Host) (parse : String → Bytes → Except Thrown (Option Value)) (d : Disk)
    (dir : Key) : Prop where
  construct : ∀ data t, d.read (placeIn d.cwd packageName) = .ok data → parse packageName data = .error t →
    ∃ t', host.explorer d moduleName searchPlaces = .error t'
  malformed : ∀ look name data t, host.explorer d moduleName searchPlaces = .ok look →
    Reaches parse d dir name data → parse name data = .error t → ∃ t', look dir = .error t'
  value : ∀ look name data v, host.explorer d moduleName searchPlaces = .ok look →
    Reaches parse d dir name data → parse name data = .ok (some v) →
    look dir = .ok (some ⟨v, placeIn dir name, false⟩)

namespace Explorer

open ConfigFile (Found Reaches Vacant placeIn)

variable {d : Disk} {dir : Key} {field name : String} {data : Bytes} {places before : List String}

theorem valueAt_of_read (h : d.read (placeIn dir name) = .ok data) :
    valueAt d field dir name = parse field name data := by
  rw [placeIn] at h
  rw [valueAt, h]

theorem valueAt_of_vacant (h : Vacant (parse field) d dir name) : valueAt d field dir name = .ok none := by
  obtain ⟨e, he, habsent⟩ | ⟨data, hread, hnone⟩ := h
  · rw [placeIn] at he
    obtain habsent | habsent | habsent := habsent
    all_goals simp only [valueAt, he, isAbsence, habsent, if_true]
  · rw [valueAt_of_read hread, hnone]

theorem searchFrom_append (rest : List String) (h : ∀ p ∈ before, Vacant (parse field) d dir p) :
    searchFrom d field dir (before ++ rest) = searchFrom d field dir rest := by
  induction before with
  | nil => rfl
  | cons p before ih =>
    obtain ⟨hp, hrest⟩ := List.forall_mem_cons.1 h
    simp only [List.cons_append, searchFrom, valueAt_of_vacant hp]
    exact ih hrest

theorem searchIn_of_reaches (h : Reaches (parse field) d dir name data) :
    ∃ rest, searchIn d field ConfigFile.searchPlaces dir = searchFrom d field dir (name :: rest) := by
  obtain ⟨⟨key, hdir⟩, ⟨before, rest, hplaces, hvacant⟩, -⟩ := h
  exact ⟨rest, by simp only [searchIn, hdir, hplaces, searchFrom_append _ hvacant]⟩

theorem searchIn_malformed {t : Thrown} (h : Reaches (parse field) d dir name data)
    (hp : parse field name data = .error t) : searchIn d field ConfigFile.searchPlaces dir = .error t := by
  obtain ⟨rest, hsearch⟩ := searchIn_of_reaches h
  rw [hsearch]
  simp only [searchFrom, valueAt_of_read h.read, hp]

theorem searchIn_value {v : Value} (h : Reaches (parse field) d dir name data)
    (hp : parse field name data = .ok (some v)) :
    searchIn d field ConfigFile.searchPlaces dir = .ok (some ⟨v, placeIn dir name, false⟩) := by
  obtain ⟨rest, hsearch⟩ := searchIn_of_reaches h
  rw [hsearch]
  simp only [searchFrom, valueAt_of_read h.read, hp, placeIn]

theorem construct_eq_ok {look : Key → Except Thrown (Option Found)} (h : construct d field places = .ok look) :
    look = searchIn d field places := by
  rw [construct] at h
  cases hv : valueAt d field d.cwd ConfigFile.packageName with
  | error t =>
    rw [hv] at h
    cases h
  | ok found =>
    rw [hv] at h
    exact (Except.ok.inj h).symm

theorem documented_host (d : Disk) (dir : Key) : host.Documented (parse ConfigFile.moduleName) d dir where
  construct data t hread hp := by
    refine ⟨t, ?_⟩
    change construct d _ _ = _
    rw [construct, valueAt_of_read hread, hp]
    rfl
  malformed look name data t hlook hreach hp := by
    rw [construct_eq_ok hlook]
    exact ⟨t, searchIn_malformed hreach hp⟩
  value look name data v hlook hreach hp := by
    rw [construct_eq_ok hlook]
    exact searchIn_value hreach hp

end Explorer

end HashedLiterals
