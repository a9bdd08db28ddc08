import HashedLiterals.Disk.Atomic
import HashedLiterals.Proofs.Lookup

set_option autoImplicit false

namespace HashedLiterals.Disk

variable {d e e' : Disk} {keys : List Key} {key k : Key}

def without (d : Disk) (keys : List Key) : Disk :=
  { d with entries := d.entries.filter fun entry => !keys.contains entry.1 }

theorem lookup_filter_key (keep : Key → Bool) (key : Key) (entries : List (Key × Node)) :
    (entries.filter fun entry => keep entry.1).lookup key =
      if keep key then entries.lookup key else none := by
  induction entries with
  | nil => simp
  | cons entry rest ih =>
    obtain ⟨k, node⟩ := entry
    rw [List.filter_cons]
    by_cases hk : key = k
    · subst hk
      cases hc : keep key <;> simp [hc, ih]
    · have hb : (key == k) = false := beq_eq_false_iff_ne.2 hk
      cases hc : keep k <;> simp [hb, ih, List.lookup_cons]

theorem get?_without (hk : [] ∉ keys) :
    (d.without keys).get? key = if key ∈ keys then none else d.get? key := by
  by_cases h0 : key = []
  · subst h0
    simp [get?, hk]
  · have hl := lookup_filter_key (fun k => !keys.contains k) key d.entries
    by_cases hm : key ∈ keys <;> simpa [get?, without, h0, hm] using hl

theorem without_put {node : Node} (h : k ∈ keys) : (d.put k node).without keys = d.without keys := by
  obtain ⟨entries, cwd, process⟩ := d
  simp only [without, put, mk.injEq, and_self, and_true]
  induction entries with
  | nil => simp [putEntry, h]
  | cons entry rest ih =>
    obtain ⟨key, n⟩ := entry
    rw [putEntry]
    split
    · next hk => simp [hk, h]
    · simp only [List.filter_cons, ih]

theorem without_erase (h : k ∈ keys) : (d.erase k).without keys = d.without keys := by
  obtain ⟨entries, cwd, process⟩ := d
  simp only [without, erase, List.filter_filter, mk.injEq, and_self, and_true]
  congr 1
  funext entry
  by_cases hk : entry.1 = k
  · simp [hk, h]
  · simp [hk]

theorem without_eq_self (hk : [] ∉ keys) (h : ∀ key ∈ keys, d.get? key = none) :
    d.without keys = d := by
  obtain ⟨entries, cwd, process⟩ := d
  simp only [without, mk.injEq, and_self, and_true, List.filter_eq_self]
  rintro ⟨key, node⟩ hm
  rw [Bool.not_eq_true', List.contains_eq_mem, decide_eq_false_iff_not]
  intro hkey
  have hget := h key hkey
  rw [get?, if_neg (by rintro rfl; exact hk hkey), List.lookup_eq_none_iff] at hget
  simpa using hget _ hm

/-- The disk `e` is `d` but for files at some free places. -/
structure Scratch (d : Disk) (keys : List Key) (e : Disk) : Prop where
  without_eq : e.without keys = d
  nil_not_mem : [] ∉ keys
  get?_mem : ∀ k ∈ keys, e.get? k = none ∨ ∃ data mode, e.get? k = some (.file data mode)

namespace Scratch

theorem refl (d : Disk) : Scratch d [] d :=
  ⟨without_eq_self (by simp) (by simp), by simp, by simp⟩

theorem cwd_eq (h : Scratch d keys e) : e.cwd = d.cwd := by rw [← h.without_eq]; rfl

theorem process_eq (h : Scratch d keys e) : e.process = d.process := by rw [← h.without_eq]; rfl

theorem get?_free (h : Scratch d keys e) (hk : k ∈ keys) : d.get? k = none := by
  rw [← h.without_eq, get?_without h.nil_not_mem, if_pos hk]

theorem get?_eq (h : Scratch d keys e) (hk : k ∉ keys) : e.get? k = d.get? k := by
  rw [← h.without_eq, get?_without h.nil_not_mem, if_neg hk]

theorem put {data : Bytes} {mode : Nat} (h : Scratch d keys e) (hk : k ≠ []) (hf : d.get? k = none) :
    Scratch d (keys ++ [k]) (e.put k (.file data mode)) := by
  refine ⟨?_, ?_, ?_⟩
  · have hd : (e.without keys).without (keys ++ [k]) = d := by
      rw [h.without_eq]
      refine without_eq_self (by simp [h.nil_not_mem, hk.symm]) fun key hm => ?_
      obtain hm | hm := List.mem_append.1 hm
      · exact h.get?_free hm
      · rwa [List.mem_singleton.1 hm]
    rw [without_put (by simp), ← hd]
    simp only [without, List.filter_filter, mk.injEq, and_self, and_true]
    congr 1
    funext entry
    by_cases hm : entry.1 ∈ keys <;> simp [hm]
  · simp [h.nil_not_mem, hk.symm]
  · intro key hm
    rw [get?_put _ _ _ _ hk]
    by_cases he : key = k
    · simp [he]
    · simpa [he] using h.get?_mem key (by simpa [he] using hm)

theorem erase (h : Scratch d keys e) (hk : k ∈ keys) : Scratch d keys (e.erase k) := by
  refine ⟨by rw [without_erase hk, h.without_eq], h.nil_not_mem, fun key hm => ?_⟩
  rw [get?_erase _ _ _ (by rintro rfl; exact h.nil_not_mem hk)]
  split
  · exact .inl rfl
  · exact h.get?_mem key hm

theorem eq_of_none (h : Scratch d keys e) (hn : ∀ k ∈ keys, e.get? k = none) : e = d := by
  rw [← h.without_eq, without_eq_self h.nil_not_mem hn]

theorem deadEnd (h : Scratch d keys e) (hk : k ∈ keys) : e.DeadEnd k := by
  obtain hn | ⟨data, mode, hf⟩ := h.get?_mem k hk
  · exact deadEnd_of_none hn
  · exact deadEnd_of_file hf

theorem walk_directory_iff {links : Nat} {parts : List String} (h : Scratch d keys e) :
    e.walk true links key parts = .ok (.entry k .directory) ↔
      d.walk true links key parts = .ok (.entry k .directory) := by
  constructor
  · exact walk_directory_congr (· ∈ keys) (fun _ => h.deadEnd) fun _ hk => (h.get?_eq hk).symm
  · exact walk_directory_congr (· ∈ keys) (fun _ hk => deadEnd_of_none (h.get?_free hk))
      fun _ hk => h.get?_eq hk

theorem beside_iff {path : String} (h : Scratch d keys e) : e.Beside path k ↔ d.Beside path k := by
  rw [Beside, Beside, start, start, h.cwd_eq]
  exact h.walk_directory_iff

theorem deadEnd_of_deadEnd (h : Scratch d keys e) (hd : e.DeadEnd k) : d.DeadEnd k := by
  by_cases hk : k ∈ keys
  · exact deadEnd_of_none (h.get?_free hk)
  · rw [DeadEnd, h.get?_eq hk] at hd
    refine ⟨hd.1, fun target ht links key hw => ?_⟩
    exact hd.2 target ht links key (h.walk_directory_iff.2 hw)

end Scratch

def temporarySuffix (d : Disk) : String := "." ++ d.process ++ ".tmp"

theorem temporaryOf_eq (d : Disk) (target : String) :
    d.temporaryOf target = target ++ d.temporarySuffix := by
  simp only [temporaryOf, temporarySuffix, String.append_assoc]

theorem two_lt_length_temporarySuffix (d : Disk) : 2 < d.temporarySuffix.length := by
  have hd : ".".length = 1 := by decide
  have ht : ".tmp".length = 4 := by decide
  simp only [temporarySuffix, String.length_append, hd, ht]
  omega

theorem temporarySuffix_ne_empty (d : Disk) : d.temporarySuffix ≠ "" := by
  intro h
  have hlen := d.two_lt_length_temporarySuffix
  rw [h] at hlen
  revert hlen
  decide

/-- No file and no link bears the name of a temporary file. -/
structure Tidy (d : Disk) : Prop where
  process : Path.IsPart d.process
  directory : ∀ key name node, d.get? (key ++ [name ++ d.temporarySuffix]) = some node →
    node = .directory

theorem Tidy.isPart (h : Tidy d) : Path.IsPart d.temporarySuffix :=
  .append (.append (by decide) h.process) (by decide)

namespace Staged

def place (s : Staged) (k : Key) : Key := k ++ [Path.lastPart s.target]

def scratch (s : Staged) (d : Disk) (k : Key) : Key :=
  k ++ [Path.lastPart s.target ++ d.temporarySuffix]

end Staged

/-- The file is staged in the given directory, and nothing is in the way of renaming it. -/
structure Ready (d : Disk) (s : Staged) (k : Key) : Prop where
  temporary : s.temporary = s.target ++ d.temporarySuffix
  accepted : Accepted s.temporary
  target_ne_empty : s.target ≠ ""
  beside : d.Beside s.target k
  isName_temporary : IsName (Path.lastPart s.target ++ d.temporarySuffix)
  free : d.get? (s.scratch d k) = none
  isName : IsName (Path.lastPart s.target)
  last_ne_empty : Path.lastPart s.target ≠ ""
  deadEnd : d.DeadEnd (s.place k)

section Ready

variable {s : Staged} {follow : Bool}

theorem Ready.find_temporary (h : Ready d s k) (ht : Tidy d) (hb : e.Beside s.target k)
    (hf : follow = false ∨ ∀ target, e.get? (s.scratch d k) ≠ some (.link target)) :
    e.find follow s.temporary = .ok (e.foundAt (s.scratch d k)) := by
  have ha := h.accepted
  rw [h.temporary] at ha ⊢
  exact find_append_eq_foundAt ht.isPart ha hb h.isName_temporary d.temporarySuffix_ne_empty hf

theorem Ready.find_target (h : Ready d s k) (hb : e.Beside s.target k) :
    e.find false s.target = .ok (e.foundAt (s.place k)) := by
  have ha := h.accepted
  rw [h.temporary] at ha
  exact find_eq_foundAt (ha.of_append h.target_ne_empty) hb h.isName h.last_ne_empty (.inl rfl)

end Ready

theorem isTooLong_append {name suffix : String} (h : isTooLong (name ++ suffix) = false) :
    isTooLong name = false := by
  simp only [isTooLong, String.utf8ByteSize_append, decide_eq_false_iff_not] at h ⊢
  omega

theorem find_of_replacedMode {target : String} {mode : Option Nat}
    (h : d.replacedMode target = .ok mode) :
    d.find true target ≠ .error .tooManyLinks ∧
      ∀ key, d.find true target ≠ .ok (.entry key .directory) := by
  refine ⟨fun hf => ?_, fun key hf => ?_⟩
  · simp [replacedMode, stat, hf] at h
  · simp [replacedMode, stat, hf] at h

section Staging

variable {s : Staged} {data : Bytes}

theorem fill_cases (h : d.fill s data = .ok e) :
    ∃ mode d', d.replacedMode s.target = .ok mode ∧ d.write s.temporary data = .ok d' ∧
      (mode = none ∧ e = d' ∨ ∃ m, mode = some m ∧ d'.setMode s.temporary m = .ok e) := by
  rw [fill] at h
  cases hm : d.replacedMode s.target with
  | error err => simp [hm, bind, Except.bind] at h
  | ok mode =>
    cases hw : d.write s.temporary data with
    | error err => simp [hm, hw, bind, Except.bind] at h
    | ok d' =>
      refine ⟨mode, d', rfl, rfl, ?_⟩
      cases mode with
      | none => exact .inl ⟨rfl, by simpa [hm, hw, bind, Except.bind, pure, Except.pure] using h.symm⟩
      | some m => exact .inr ⟨m, rfl, by simpa [hm, hw, bind, Except.bind] using h⟩

theorem write_cases {path : String} (h : d.write path data = .ok e) :
    ∃ key mode, e = d.put key (.file data mode) ∧
      (d.find true path = .ok (.free key) ∨
        ∃ old, d.find true path = .ok (.entry key (.file old mode))) := by
  rw [write] at h
  split at h
  · cases h
  · next key hf => exact ⟨key, newMode, (Except.ok.inj h).symm, .inl hf⟩
  · next key old mode hf => exact ⟨key, mode, (Except.ok.inj h).symm, .inr ⟨old, hf⟩⟩
  · cases h

theorem put_put (d : Disk) (key : Key) (a b : Node) : (d.put key a).put key b = d.put key b := by
  obtain ⟨entries, cwd, process⟩ := d
  simp only [put, mk.injEq, and_self, and_true]
  induction entries with
  | nil => simp [putEntry]
  | cons entry rest ih =>
    obtain ⟨k, n⟩ := entry
    by_cases hk : k = key
    · simp [putEntry, hk]
    · simp [putEntry, hk, ih]

theorem setMode_of_found {path : String} {mode m : Nat}
    (h : d.find true path = .ok (.entry key (.file data mode))) :
    d.setMode path m = .ok (d.put key (.file data m)) := by
  simp [setMode, stat, h]

theorem foundAt_eq_free {d : Disk} {key k : Key} (h : d.foundAt key = .free k) :
    k = key ∧ d.get? key = none := by
  rw [foundAt] at h
  split at h
  · next hg => exact ⟨(Found.free.inj h).symm, hg⟩
  · cases h

theorem foundAt_eq_entry {d : Disk} {key k : Key} {node : Node} (h : d.foundAt key = .entry k node) :
    k = key ∧ d.get? key = some node := by
  rw [foundAt] at h
  split at h
  · cases h
  · next hg =>
    obtain ⟨rfl, rfl⟩ := Found.entry.inj h
    exact ⟨rfl, hg⟩

theorem foundAt_of_some {node : Node} (h : d.get? key = some node) :
    d.foundAt key = .entry key node := by rw [foundAt, h]

theorem get?_scratch_cases (ht : Tidy d) (hsc : Scratch d keys e) (s : Staged) (k : Key) :
    e.get? (s.scratch d k) = some .directory ∨
      d.get? (s.scratch d k) = none ∧ (e.get? (s.scratch d k) = none ∨
        ∃ data mode, e.get? (s.scratch d k) = some (.file data mode)) := by
  by_cases hk : s.scratch d k ∈ keys
  · exact .inr ⟨hsc.get?_free hk, hsc.get?_mem _ hk⟩
  · rw [hsc.get?_eq hk]
    cases hg : d.get? (s.scratch d k) with
    | none => exact .inr ⟨rfl, .inl rfl⟩
    | some node => exact .inl (by rw [ht.directory _ _ _ hg])

theorem scratch_ne_nil (s : Staged) (d : Disk) (k : Key) : s.scratch d k ≠ [] := by
  simp [Staged.scratch]

theorem write_temporary (ht : Tidy d) (hsc : Scratch d keys e)
    (hs : s.temporary = s.target ++ d.temporarySuffix) (h : e.write s.temporary data = .ok e') :
    ∃ k mode, Accepted s.temporary ∧ e.Beside s.target k ∧
      IsName (Path.lastPart s.target ++ d.temporarySuffix) ∧ d.get? (s.scratch d k) = none ∧
      e' = e.put (s.scratch d k) (.file data mode) := by
  obtain ⟨key, mode, rfl, hfind⟩ := write_cases h
  obtain ⟨r, hr⟩ : ∃ r, e.find true s.temporary = .ok r := by
    obtain hf | ⟨old, hf⟩ := hfind <;> exact ⟨_, hf⟩
  have ha := accepted_of_find hr
  rw [hs] at hr
  obtain ⟨hname, k, hb⟩ := isName_of_find_append ht.isPart d.two_lt_length_temporarySuffix hr
  have hcases := get?_scratch_cases ht hsc s k
  have hlink : ∀ target, e.get? (s.scratch d k) ≠ some (.link target) := by
    intro target hg
    simp [hg] at hcases
  have hfound : e.find true s.temporary = .ok (e.foundAt (s.scratch d k)) := by
    rw [hs] at ha ⊢
    exact find_append_eq_foundAt ht.isPart ha hb hname d.temporarySuffix_ne_empty (.inr hlink)
  have hkey : key = s.scratch d k ∧ e.get? (s.scratch d k) ≠ some .directory := by
    obtain hf | ⟨old, hf⟩ := hfind
    · obtain ⟨hk, hg⟩ := foundAt_eq_free (Except.ok.inj (hfound.symm.trans hf))
      exact ⟨hk, by simp [hg]⟩
    · obtain ⟨hk, hg⟩ := foundAt_eq_entry (Except.ok.inj (hfound.symm.trans hf))
      exact ⟨hk, by simp [hg]⟩
  obtain ⟨rfl, hdir⟩ := hkey
  exact ⟨k, mode, ha, hb, hname, (hcases.resolve_left hdir).1, rfl⟩

/-- The permissions are those of the file at the key, if there is one. -/
def KeepsMode (d : Disk) (key : Key) (mode : Nat) : Prop :=
  ∀ old m, d.get? key = some (.file old m) → mode = m

theorem replacedMode_of_file {target : String} {old : Bytes} {m : Nat} (ha : Accepted target)
    (hb : d.Beside target k) (hn : IsName (Path.lastPart target)) (he : Path.lastPart target ≠ "")
    (hg : d.get? (k ++ [Path.lastPart target]) = some (.file old m)) :
    d.replacedMode target = .ok (some m) := by
  have hfind : d.find true target = .ok (.entry (k ++ [Path.lastPart target]) (.file old m)) := by
    rw [← foundAt_of_some hg]
    exact find_eq_foundAt ha hb hn he (.inr (by simp [hg]))
  simp [replacedMode, stat, hfind]

theorem ready_of_fill (ht : Tidy d) (hsc : Scratch d keys e)
    (hs : s.temporary = s.target ++ d.temporarySuffix) (hne : s.target ≠ "")
    (h : e.fill s data = .ok e') :
    ∃ k mode, Ready d s k ∧ d.KeepsMode (s.place k) mode ∧
      e' = e.put (s.scratch d k) (.file data mode) := by
  obtain ⟨replaced, e₁, hm, hw, hset⟩ := fill_cases h
  obtain ⟨k, mode, ha, hb, hname, hfree, rfl⟩ := write_temporary ht hsc hs hw
  obtain ⟨hmany, hdir⟩ := find_of_replacedMode hm
  have hat : Accepted s.target := (hs ▸ ha).of_append hne
  have hlast : IsName (Path.lastPart s.target) ∧ Path.lastPart s.target ≠ "" := by
    refine (find_directory_or_isName hat hb (isTooLong_append hname.not_tooLong)).resolve_left ?_
    rintro ⟨key, hf⟩
    exact hdir key hf
  have hready : Ready d s k :=
    { temporary := hs
      accepted := ha
      target_ne_empty := hne
      beside := hsc.beside_iff.1 hb
      isName_temporary := hname
      free := hfree
      isName := hlast.1
      last_ne_empty := hlast.2
      deadEnd := hsc.deadEnd_of_deadEnd (deadEnd_of_find hat hb hlast.1 hlast.2 rfl hmany hdir) }
  have hkeeps : ∀ old m, d.get? (s.place k) = some (.file old m) → replaced = some m := by
    intro old m hg
    rw [← hsc.get?_eq fun hk => by simp [hsc.get?_free hk] at hg] at hg
    exact Except.ok.inj (hm.symm.trans (replacedMode_of_file hat hb hlast.1 hlast.2 hg))
  obtain ⟨rfl, rfl⟩ | ⟨m, rfl, hset⟩ := hset
  · exact ⟨k, mode, hready, fun old m hg => (by cases hkeeps old m hg), rfl⟩
  · have hput : Scratch d _ (e.put (s.scratch d k) (.file data mode)) :=
      hsc.put (scratch_ne_nil s d k) hfree
    have hg : (e.put (s.scratch d k) (.file data mode)).get? (s.scratch d k) =
        some (.file data mode) := by
      rw [get?_put _ _ _ _ (scratch_ne_nil s d k), if_pos rfl]
    have hfind : (e.put (s.scratch d k) (.file data mode)).find true s.temporary =
        .ok (.entry (s.scratch d k) (.file data mode)) := by
      rw [← foundAt_of_some hg]
      exact hready.find_temporary ht (hput.beside_iff.2 hready.beside) (.inr (by simp [hg]))
    rw [setMode_of_found hfind, put_put, Except.ok.injEq] at hset
    exact ⟨k, m, hready, fun old m' hg => Option.some.inj (hkeeps old m' hg), hset.symm⟩

end Staging

end HashedLiterals.Disk
