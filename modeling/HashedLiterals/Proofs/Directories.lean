import HashedLiterals.Disk.Write
import HashedLiterals.Proofs.Lookup

set_option autoImplicit false

namespace HashedLiterals.Disk

variable {d d' d'' : Disk} {key k : Key} {follow onTheWay : Bool} {failed : Option Errno}

/-- From `d` to `d'` files were put at some places, and directories made elsewhere. -/
structure Writes (places : List Key) (d d' : Disk) : Prop where
  cwd_eq : d'.cwd = d.cwd
  process_eq : d'.process = d.process
  keeps : ∀ key, key ∉ places →
    d'.get? key = d.get? key ∨ d.get? key = none ∧ d'.get? key = some .directory
  file : ∀ key ∈ places, ∃ data mode, d'.get? key = some (.file data mode)
  not_directory : ∀ key ∈ places, d.get? key ≠ some .directory
  not_link : ∀ key ∈ places, ∀ target, d.get? key ≠ some (.link target)

namespace Writes

variable {places more : List Key} {path : String}

theorem refl (d : Disk) : Writes [] d d :=
  ⟨rfl, rfl, fun _ _ => .inl rfl, by simp, by simp, by simp⟩

theorem get?_of_some {node : Node} (h : Writes places d d') (hg : d.get? key = some node)
    (hk : key ∉ places) : d'.get? key = some node := by
  obtain he | ⟨hn, -⟩ := h.keeps key hk
  · rw [he, hg]
  · rw [hn] at hg
    cases hg

theorem get?_of_not_file {node : Node} (h : Writes places d d') (hg : d.get? key = some node)
    (hf : ∀ data mode, node ≠ .file data mode) : d'.get? key = some node := by
  refine h.get?_of_some hg fun hk => ?_
  cases node with
  | directory => exact h.not_directory key hk hg
  | file data mode => exact hf data mode rfl
  | link target => exact h.not_link key hk target hg

theorem trans (h : Writes places d d') (h' : Writes more d' d'') : Writes (places ++ more) d d'' := by
  refine ⟨h'.cwd_eq.trans h.cwd_eq, h'.process_eq.trans h.process_eq, fun key hk => ?_,
    fun key hk => ?_, fun key hk hg => ?_, fun key hk target hg => ?_⟩
  · rw [List.mem_append, not_or] at hk
    obtain he | ⟨hn, hd⟩ := h.keeps key hk.1
    · obtain he' | ⟨hn', hd'⟩ := h'.keeps key hk.2
      · exact .inl (he'.trans he)
      · exact .inr ⟨he ▸ hn', hd'⟩
    · exact .inr ⟨hn, h'.get?_of_some hd hk.2⟩
  · by_cases hm : key ∈ more
    · exact h'.file key hm
    · obtain ⟨data, mode, hf⟩ := h.file key ((List.mem_append.1 hk).resolve_right hm)
      exact ⟨data, mode, h'.get?_of_some hf hm⟩
  · by_cases hm : key ∈ more
    · exact h'.not_directory key hm (h.get?_of_not_file hg (by simp))
    · exact h.not_directory key ((List.mem_append.1 hk).resolve_right hm) hg
  · by_cases hm : key ∈ more
    · exact h'.not_link key hm target (h.get?_of_not_file hg (by simp))
    · exact h.not_link key ((List.mem_append.1 hk).resolve_right hm) target hg

theorem find {node : Node} (h : Writes places d d')
    (hf : d.find follow path = .ok (.entry k node)) (hk : k ∉ places) :
    d'.find follow path = .ok (.entry k node) := by
  have ha := accepted_of_find hf
  rw [find_eq_walk ha] at hf ⊢
  rw [start, h.cwd_eq]
  refine walk_entry_congr (fun key other hg hor => ?_) hf
  obtain ⟨rfl, -⟩ | hfile := hor
  · exact h.get?_of_some hg hk
  · exact h.get?_of_not_file hg hfile

theorem beside (h : Writes places d d') (hb : d.Beside path k) : d'.Beside path k := by
  rw [Beside, start, h.cwd_eq]
  refine walk_entry_congr (fun key other hg hor => ?_) hb
  refine h.get?_of_not_file hg ?_
  obtain ⟨-, rfl⟩ | hfile := hor
  · simp
  · exact hfile

theorem stat {node : Node} (h : Writes places d d') (hs : d.stat path = .ok (k, node))
    (hk : k ∉ places) : d'.stat path = .ok (k, node) :=
  stat_eq_ok_iff.2 (h.find (stat_eq_ok_iff.1 hs) hk)

end Writes

structure Grows (d d' : Disk) : Prop where
  cwd_eq : d'.cwd = d.cwd
  process_eq : d'.process = d.process
  get?_or : ∀ key, d'.get? key = d.get? key ∨ d.get? key = none ∧ d'.get? key = some .directory

theorem Writes.grows (h : Writes [] d d') : Grows d d' :=
  ⟨h.cwd_eq, h.process_eq, fun key => h.keeps key (by simp)⟩

namespace Grows

theorem writes (h : Grows d d') : Writes [] d d' :=
  ⟨h.cwd_eq, h.process_eq, fun key _ => h.get?_or key, by simp, by simp, by simp⟩

theorem refl (d : Disk) : Grows d d := (Writes.refl d).grows

theorem trans (h : Grows d d') (h' : Grows d' d'') : Grows d d'' := (h.writes.trans h'.writes).grows

theorem put (hk : key ≠ []) (h : d.get? key = none) : Grows d (d.put key .directory) := by
  refine ⟨rfl, rfl, fun other => ?_⟩
  rw [get?_put _ _ _ _ hk]
  split
  · next ho => exact .inr ⟨ho ▸ h, rfl⟩
  · exact .inl rfl

theorem beside {path : String} (h : Grows d d') (hb : d.Beside path k) : d'.Beside path k :=
  h.writes.beside hb

theorem read {path : String} {data : Bytes} (h : Grows d d') (hr : d.read path = .ok data) :
    d'.read path = .ok data := by
  obtain ⟨key, mode, hs⟩ := read_eq_ok_iff.1 hr
  exact read_eq_ok_iff.2 ⟨key, mode, h.writes.stat hs (by simp)⟩

end Grows

theorem ensureDirectory_cases {parts : List String}
    (h : d.ensureDirectory onTheWay parts = (failed, d')) :
    d' = d ∨ ∃ key, d.find false (Path.joinParts parts) = .ok (.free key) ∧ d' = d.put key .directory := by
  rw [ensureDirectory] at h
  split at h
  · next made hm =>
    obtain ⟨-, rfl⟩ := Prod.mk.inj h
    rw [makeDirectory] at hm
    split at hm
    · cases hm
    · next key hf => exact .inr ⟨key, hf, (Except.ok.inj hm).symm⟩
    · cases hm
  · exact .inl (Prod.mk.inj h).2.symm
  · exact .inl (Prod.mk.inj h).2.symm

theorem grows_ensureDirectory {parts : List String}
    (h : d.ensureDirectory onTheWay parts = (failed, d')) : Grows d d' := by
  obtain rfl | ⟨key, hf, rfl⟩ := ensureDirectory_cases h
  · exact Grows.refl d'
  · obtain ⟨k, -, -, -, rfl, hn⟩ := of_find_eq_free hf
    exact Grows.put (by simp) hn

theorem makeAll_cases {part : String} {above : List String}
    (h : d.makeAll onTheWay (part :: above) = (failed, d')) :
    d.ensureDirectory onTheWay (part :: above).reverse = (failed, d') ∨
      d.makeDirectory (part :: above).reverse = .error .noEntry ∧
        ∃ e made, d.makeAll true above = (e, made) ∧ (d' = made ∨ e = none ∧
          made.ensureDirectory onTheWay (part :: above).reverse = (failed, d')) := by
  rw [makeAll] at h
  split at h
  · next hm =>
    right
    refine ⟨hm, ?_⟩
    split at h
    · next e made ha => exact ⟨some e, made, ha, .inl (Prod.mk.inj h).2.symm⟩
    · next made ha => exact ⟨none, made, ha, .inr ⟨rfl, h⟩⟩
  · exact .inl h

theorem grows_makeAll {parts : List String} (h : d.makeAll onTheWay parts = (failed, d')) :
    Grows d d' := by
  induction parts generalizing onTheWay failed d' with
  | nil =>
    obtain ⟨-, rfl⟩ := Prod.mk.inj h
    exact Grows.refl d
  | cons part above ih =>
    obtain h | ⟨-, e, made, ha, rfl | ⟨-, h⟩⟩ := makeAll_cases h
    · exact grows_ensureDirectory h
    · exact ih ha
    · exact (ih ha).trans (grows_ensureDirectory h)

theorem exists_makeAll {path : String} {e : Option DiskError}
    (h : d.makeDirectories path = (e, d')) :
    ∃ failed, d.makeAll false (Path.parts path).reverse = (failed, d') := by
  rw [makeDirectories] at h
  obtain ⟨-, rfl⟩ := Prod.mk.inj h
  exact ⟨_, rfl⟩

theorem grows_makeDirectories {path : String} {e : Option DiskError}
    (h : d.makeDirectories path = (e, d')) : Grows d d' := by
  obtain ⟨failed, hm⟩ := exists_makeAll h
  exact grows_makeAll hm

theorem find_put_directory {path : String} (h : d.find false path = .ok (.free key)) :
    (d.put key .directory).find true path = .ok (.entry key .directory) := by
  obtain ⟨base, hb, hn, he, rfl, hfree⟩ := of_find_eq_free h
  have hg : (d.put (base ++ [Path.lastPart path]) .directory).get? (base ++ [Path.lastPart path]) =
      some .directory := by rw [get?_put _ _ _ _ (by simp), if_pos rfl]
  rw [find_eq_foundAt (accepted_of_find h) ((Grows.put (by simp) hfree).beside hb) hn he
    (.inr (by simp [hg])), foundAt, hg]

theorem find_of_ensureDirectory {parts : List String}
    (h : d.ensureDirectory onTheWay parts = (none, d')) :
    ∃ k, d'.find true (Path.joinParts parts) = .ok (.entry k .directory) := by
  rw [ensureDirectory] at h
  split at h
  · next made hm =>
    obtain ⟨-, rfl⟩ := Prod.mk.inj h
    rw [makeDirectory] at hm
    split at hm
    · cases hm
    · next key hf =>
      obtain rfl := Except.ok.inj hm
      exact ⟨key, find_put_directory hf⟩
    · cases hm
  · cases (Prod.mk.inj h).1
  · obtain ⟨hnone, rfl⟩ := Prod.mk.inj h
    rw [obstacle?] at hnone
    split at hnone
    · cases hnone
    · next k hs => exact ⟨k, stat_eq_ok_iff.1 hs⟩
    · cases hnone

theorem find_of_makeDirectories {path : String} (h : d.makeDirectories path = (none, d')) :
    ∃ k, d'.find true path = .ok (.entry k .directory) := by
  have hall : d.makeAll false (Path.parts path).reverse = (none, d') := by
    rw [makeDirectories] at h
    obtain ⟨hnone, rfl⟩ := Prod.mk.inj h
    exact Prod.ext (Option.map_eq_none_iff.1 hnone) rfl
  cases hrev : (Path.parts path).reverse with
  | nil => exact absurd (List.reverse_eq_nil_iff.1 hrev) (Path.parts_ne_nil path)
  | cons part above =>
    have hjoin : Path.joinParts (part :: above).reverse = path := by
      rw [← hrev, List.reverse_reverse, Path.joinParts_parts]
    rw [hrev, makeAll] at hall
    rw [← hjoin]
    split at hall
    · split at hall
      · cases (Prod.mk.inj hall).1
      · exact find_of_ensureDirectory hall
    · exact find_of_ensureDirectory hall

theorem walk_of_append_dot {links : Nat} {ps : List String}
    (h : d.walk true links key (ps ++ ["."]) = .ok (.entry k .directory)) :
    d.walk true links key ps = .ok (.entry k .directory) := by
  obtain ⟨k', hk⟩ := exists_directory_of_walk_append h (by simp)
  obtain ⟨fewer, -, hw⟩ := walk_append hk
  rw [hw true _ (.inr rfl), walk_dot, walk_nil] at h
  rw [hk, h]

theorem start_parent {path : String} (h : Path.parts (Path.parent path) = Path.directoryParts path) :
    d.start path = d.start (Path.parent path) := by
  have hp := Path.joinParts_parts path
  rw [Path.parts_eq, ← h, Path.joinParts_append (Path.parts_ne_nil _) (by simp),
    Path.joinParts_parts, String.append_assoc] at hp
  rw [start, start, ← hp, Path.isAbsolute_append (Path.parent_ne_empty path), hp]

theorem beside_of_makeDirectories {path : String} (hlast : Path.lastPart path ≠ "")
    (h : d.makeDirectories (Path.parent path) = (none, d')) : ∃ k, d'.Beside path k := by
  obtain ⟨k, hf⟩ := find_of_makeDirectories h
  obtain hparts | hnil := Path.parts_parent hlast
  · refine ⟨k, ?_⟩
    rw [find_eq_walk (accepted_of_find hf)] at hf
    rw [Beside, start_parent hparts, directorySteps, ← hparts, Path.parts_eq, List.filter_append]
    by_cases he : Path.lastPart (Path.parent path) = ""
    · rw [lastStep, if_pos he] at hf
      simpa [he, directorySteps] using walk_of_append_dot hf
    · rw [lastStep, if_neg he] at hf
      simpa [he, directorySteps] using hf
  · exact ⟨d'.start path, by rw [Beside, directorySteps, hnil, walk_nil]⟩

theorem Accepted.parent {path : String} (h : Accepted path) : Accepted (Path.parent path) := by
  obtain ⟨rest, hrest⟩ | hroot := Path.parent_cases path
  · rw [hrest, String.append_assoc] at h
    exact h.of_append (Path.parent_ne_empty path)
  · obtain hr | hr | hr := hroot <;> rw [hr] <;> exact ⟨by decide, by decide, by decide⟩

theorem find_parent_of_nil {path : String}
    (h : ((Path.directoryParts path).filter fun p => !p.isEmpty) = []) (ha : Accepted path) :
    d.find true (Path.parent path) = .ok (.entry (d.start (Path.parent path)) .directory) := by
  have hsteps : directorySteps (Path.parent path) = [] ∧ lastStep (Path.parent path) = "." := by
    obtain ⟨rest, hrest⟩ | hroot := Path.parent_cases path
    · have hpre : Path.parts (Path.parent path) <+: Path.directoryParts path := by
        have hparts : Path.parts path = Path.parts (Path.parent path) ++ Path.parts rest := by
          rw [← Path.parts_append_slash, ← hrest]
        rw [Path.directoryParts, hparts, List.dropLast_append_of_ne_nil (Path.parts_ne_nil rest)]
        exact List.prefix_append _ _
      rw [List.filter_eq_nil_iff] at h
      refine ⟨List.filter_eq_nil_iff.2 fun p hm => ?_, if_pos ?_⟩
      · exact h p (hpre.subset (List.dropLast_subset _ hm))
      · simpa using h _ (hpre.subset (Path.lastPart_mem (Path.parent path)))
    · obtain hr | hr | hr := hroot <;> rw [hr] <;> decide
  rw [find_eq_walk ha.parent, hsteps.1, hsteps.2, List.nil_append, walk_dot, walk_nil]

theorem find_parent {path : String} (hlast : Path.lastPart path ≠ "") (ha : Accepted path)
    (hb : d.Beside path k) : ∃ key, d.find true (Path.parent path) = .ok (.entry key .directory) := by
  obtain hparts | hnil := Path.parts_parent hlast
  · refine ⟨k, ?_⟩
    rw [Beside, start_parent hparts, directorySteps, ← hparts, Path.parts_eq, List.filter_append] at hb
    rw [find_eq_walk ha.parent]
    by_cases he : Path.lastPart (Path.parent path) = ""
    · have hdir : d.walk true linkLimit (d.start (Path.parent path))
          (directorySteps (Path.parent path)) = .ok (.entry k .directory) := by
        simpa [he, directorySteps] using hb
      obtain ⟨fewer, -, hw⟩ := walk_append hdir
      rw [hw true _ (.inr rfl), lastStep, if_pos he, walk_dot, walk_nil]
    · rw [lastStep, if_neg he]
      simpa [he, directorySteps] using hb
  · exact ⟨_, find_parent_of_nil hnil ha⟩

theorem makeDirectories_of_beside {path : String} (hlast : Path.lastPart path ≠ "")
    (ha : Accepted path) (hb : d.Beside path k) : (d.makeDirectories (Path.parent path)).2 = d := by
  obtain ⟨key, hf⟩ := find_parent hlast ha hb
  obtain ⟨k', node, hentry⟩ := exists_entry_of_find hf
  cases hm : d.makeDirectories (Path.parent path) with
  | mk e made =>
    obtain ⟨failed, hall⟩ := exists_makeAll hm
    cases hrev : (Path.parts (Path.parent path)).reverse with
    | nil => exact absurd (List.reverse_eq_nil_iff.1 hrev) (Path.parts_ne_nil _)
    | cons part above =>
      have hjoin : Path.joinParts (part :: above).reverse = Path.parent path := by
        rw [← hrev, List.reverse_reverse, Path.joinParts_parts]
      rw [hrev] at hall
      obtain hens | ⟨hnone, -⟩ := makeAll_cases hall
      · obtain rfl | ⟨free, hfree, -⟩ := ensureDirectory_cases hens
        · rfl
        · rw [hjoin, hentry] at hfree
          cases hfree
      · rw [makeDirectory, hjoin, hentry] at hnone
        cases hnone

def HasParents (d : Disk) : Prop :=
  ∀ key name node, d.get? (key ++ [name]) = some node → d.get? key = some .directory

theorem HasParents.get?_below (h : HasParents d) (hk : d.get? k = none) (below : Key) :
    d.get? (k ++ below) = none := by
  induction below generalizing k with
  | nil => rwa [List.append_nil]
  | cons name below ih =>
    have hn : d.get? (k ++ [name]) = none := by
      cases hg : d.get? (k ++ [name]) with
      | none => rfl
      | some node =>
        rw [h _ _ _ hg] at hk
        cases hk
    rw [List.append_cons]
    exact ih hn

/-- Directories were made from the key on that the first parts lead to. -/
structure Planted (d : Disk) (pre : List String) (k : Key) (d' : Disk) : Prop where
  isPart : ∀ p ∈ pre, Path.IsPart p
  free : d.find false (Path.joinParts pre) = .ok (.free k)
  grows : Grows d d'
  directory : d'.get? k = some .directory
  same : ∀ key, ¬ k <+: key → d'.get? key = d.get? key

theorem walk_below {links : Nat} {parts : List String} {r : Found}
    (hd : ∀ below, d.get? (k ++ below) = none ∨ d.get? (k ++ below) = some .directory)
    (hup : ".." ∉ parts) (hk : k <+: key) (h : d.walk follow links key parts = .ok r) :
    ∃ place, k <+: place ∧ (r = .entry place .directory ∨ r = .free place) := by
  induction parts generalizing key with
  | nil =>
    rw [walk_nil] at h
    exact ⟨key, hk, .inl (Except.ok.inj h).symm⟩
  | cons part rest ih =>
    rw [List.mem_cons, not_or] at hup
    obtain ⟨below, hb⟩ : k <+: key ++ [part] := hk.trans (List.prefix_append key [part])
    have hdir := hd below
    rw [hb] at hdir
    cases walks_of_walk h with
    | dot hw => exact ih hup.2 hk hw.walk_eq
    | dotDot _ => exact absurd rfl hup.1
    | enter _ _ hw => exact ih hup.2 ⟨below, hb⟩ hw.walk_eq
    | free _ _ => exact ⟨_, ⟨below, hb⟩, .inr rfl⟩
    | file _ hg => simp [hg] at hdir
    | link _ hg => simp [hg] at hdir
    | jump _ hg => simp [hg] at hdir

namespace Planted

variable {pre : List String} {path : String} {r : Found}

theorem get?_below (h : Planted d pre k d') (hp : HasParents d) (below : Key) :
    d'.get? (k ++ below) = none ∨ d'.get? (k ++ below) = some .directory := by
  obtain ⟨_, -, -, -, -, hn⟩ := of_find_eq_free h.free
  have hnone := hp.get?_below hn below
  obtain hk | ⟨-, hd⟩ := h.grows.get?_or (k ++ below)
  · exact .inl (hk.trans hnone)
  · exact .inr hd

theorem ne_nil (h : Planted d pre k d') : pre ≠ [] := by
  rintro rfl
  exact (accepted_of_find h.free).ne_empty rfl

theorem walk_pre (h : Planted d pre k d') :
    d'.walk true linkLimit (d'.start (Path.joinParts pre)) (pre.filter fun p => !p.isEmpty) =
      .ok (.entry k .directory) := by
  obtain ⟨base, hb, hn, he, rfl, -⟩ := of_find_eq_free h.free
  have hdir := h.directory
  have hsteps : pre.filter (fun p => !p.isEmpty) =
      directorySteps (Path.joinParts pre) ++ [Path.lastPart (Path.joinParts pre)] := by
    have hp := congrArg (List.filter fun p => !p.isEmpty) (Path.parts_eq (Path.joinParts pre))
    rw [Path.parts_joinParts h.ne_nil h.isPart] at hp
    simpa [directorySteps, he] using hp
  rw [hsteps, walk_append_name (h.grows.beside hb) hn (.inr (by simp [hdir])), foundAt, hdir]

theorem find_below (h : Planted d pre k d') (hp : HasParents d)
    (hpre : pre <+: Path.directoryParts path) (hup : ".." ∉ Path.parts path)
    (hf : d'.find follow path = .ok r) :
    ∃ place, k <+: place ∧ (r = .entry place .directory ∨ r = .free place) := by
  obtain ⟨more, hmore⟩ := hpre
  have hstart : d'.start path = d'.start (Path.joinParts pre) := by
    have hpath := Path.joinParts_parts path
    rw [Path.parts_eq, ← hmore, List.append_assoc, Path.joinParts_append h.ne_nil (by simp),
      String.append_assoc] at hpath
    rw [start, start, ← hpath, Path.isAbsolute_append (accepted_of_find h.free).ne_empty]
  rw [find_eq_walk (accepted_of_find hf), hstart, directorySteps, ← hmore, List.filter_append,
    List.append_assoc] at hf
  obtain ⟨fewer, -, hw⟩ := walk_append h.walk_pre
  rw [hw _ _ (.inl (by simp))] at hf
  refine walk_below (h.get?_below hp) ?_ (List.prefix_refl k) hf
  rw [Path.parts_eq, ← hmore] at hup
  rw [List.mem_append, List.mem_filter, List.mem_singleton, lastStep, not_or]
  simp only [List.mem_append, List.mem_singleton, not_or] at hup
  refine ⟨fun hm => hup.1.2 hm.1, ?_⟩
  split
  · decide
  · exact hup.2

theorem not_read (h : Planted d pre k d') (hp : HasParents d) (hpre : pre <+: Path.directoryParts path)
    (hup : ".." ∉ Path.parts path) (data : Bytes) : d'.read path ≠ .ok data := by
  intro hr
  obtain ⟨key, mode, hs⟩ := read_eq_ok_iff.1 hr
  obtain ⟨place, -, he | he⟩ := h.find_below hp hpre hup (stat_eq_ok_iff.1 hs)
  · cases he
  · cases he

theorem put {path : String} (h : Planted d pre k d') (hp : HasParents d)
    (hpre : pre <+: Path.directoryParts path) (hup : ".." ∉ Path.parts path)
    (hf : d'.find false path = .ok (.free key)) : Planted d pre k (d'.put key .directory) := by
  obtain ⟨base, -, -, -, rfl, hn⟩ := of_find_eq_free hf
  obtain ⟨place, hk, hr | hr⟩ := h.find_below hp hpre hup hf
  · cases hr
  · obtain rfl := Found.free.inj hr
    refine ⟨h.isPart, h.free, h.grows.trans (Grows.put (by simp) hn), ?_, fun other ho => ?_⟩
    · rw [get?_put _ _ _ _ (by simp), h.directory, ite_self]
    · rw [get?_put _ _ _ _ (by simp), if_neg (by rintro rfl; exact ho hk), h.same other ho]

end Planted

theorem planted_ensureDirectory {parts : List String} (hpart : ∀ p ∈ parts, Path.IsPart p)
    (h : d.ensureDirectory onTheWay parts = (failed, d')) : d' = d ∨ ∃ k, Planted d parts k d' := by
  obtain rfl | ⟨key, hf, rfl⟩ := ensureDirectory_cases h
  · exact .inl rfl
  · obtain ⟨base, -, -, -, rfl, hn⟩ := of_find_eq_free hf
    refine .inr ⟨_, hpart, hf, Grows.put (by simp) hn, ?_, fun other ho => ?_⟩
    · rw [get?_put _ _ _ _ (by simp), if_pos rfl]
    · rw [get?_put _ _ _ _ (by simp), if_neg (by rintro rfl; exact ho (List.prefix_refl _))]

/-- If a directory is made at all, the others that are made lie below the first. -/
theorem planted_makeAll {parts : List String} (hp : HasParents d) (hpart : ∀ p ∈ parts, Path.IsPart p)
    (hup : ".." ∉ parts) (h : d.makeAll onTheWay parts = (failed, d')) :
    d' = d ∨ ∃ pre k, pre <+: parts.reverse ∧ Planted d pre k d' := by
  induction parts generalizing onTheWay failed d' with
  | nil => exact .inl (Prod.mk.inj h).2.symm
  | cons part above ih =>
    have hparts : ∀ p ∈ (part :: above).reverse, Path.IsPart p :=
      fun p hm => hpart p (List.mem_reverse.1 hm)
    have hrev : (part :: above).reverse = above.reverse ++ [part] := List.reverse_cons
    obtain h | ⟨hm, e, made, ha, hd⟩ := makeAll_cases h
    · obtain rfl | ⟨k, hk⟩ := planted_ensureDirectory hparts h
      · exact .inl rfl
      · exact .inr ⟨_, k, List.prefix_refl _, hk⟩
    · have hmade := ih (fun p hm => hpart p (by simp [hm])) (fun hm => hup (by simp [hm])) ha
      obtain rfl | ⟨-, hens⟩ := hd
      · refine hmade.imp_right ?_
        rintro ⟨pre, k, hpre, hk⟩
        exact ⟨pre, k, hpre.trans (hrev ▸ List.prefix_append _ _), hk⟩
      · obtain rfl | ⟨pre, k, hpre, hk⟩ := hmade
        · -- nothing was made above, so there still is no entry to make this one in
          obtain rfl | ⟨key, hf, -⟩ := ensureDirectory_cases hens
          · exact .inl rfl
          · rw [makeDirectory, hf] at hm
            cases hm
        · refine .inr ⟨pre, k, hpre.trans (hrev ▸ List.prefix_append _ _), ?_⟩
          obtain rfl | ⟨key, hf, rfl⟩ := ensureDirectory_cases hens
          · exact hk
          · rw [hrev] at hf hparts
            refine hk.put hp ?_ ?_ hf
            · rwa [Path.directoryParts_joinParts hparts]
            · rw [Path.parts_joinParts (by simp) hparts, ← hrev]
              rwa [List.mem_reverse]

theorem planted_makeDirectories {path : String} {e : Option DiskError} (hp : HasParents d)
    (hup : ".." ∉ Path.parts path) (h : d.makeDirectories (Path.parent path) = (e, d')) :
    d' = d ∨ ∃ pre k, pre <+: Path.directoryParts path ∧ Planted d pre k d' := by
  obtain ⟨failed, hm⟩ := exists_makeAll h
  have hpart : ∀ p ∈ (Path.parts (Path.parent path)).reverse, Path.IsPart p :=
    fun p hm => Path.isPart_of_mem_parts (List.mem_reverse.1 hm)
  obtain ⟨rest, hrest⟩ | hroot := Path.parent_cases path
  · have hparts : Path.parts path = Path.parts (Path.parent path) ++ Path.parts rest := by
      rw [← Path.parts_append_slash, ← hrest]
    have hdir : Path.parts (Path.parent path) <+: Path.directoryParts path := by
      rw [Path.directoryParts, hparts, List.dropLast_append_of_ne_nil (Path.parts_ne_nil rest)]
      exact List.prefix_append _ _
    have hup' : ".." ∉ (Path.parts (Path.parent path)).reverse := by
      rw [hparts, List.mem_append, not_or] at hup
      simpa using hup.1
    refine (planted_makeAll hp hpart hup' hm).imp_right ?_
    rintro ⟨pre, k, hpre, hk⟩
    exact ⟨pre, k, (List.reverse_reverse _ ▸ hpre).trans hdir, hk⟩
  · -- the working directory and the root are there
    have hdots : ∀ p ∈ Path.parts (Path.parent path), p = "" ∨ p = "." := by
      obtain hr | hr | hr := hroot <;> rw [hr] <;> decide
    have hup' : ".." ∉ (Path.parts (Path.parent path)).reverse := by
      intro hmem
      have hdot := hdots _ (List.mem_reverse.1 hmem)
      revert hdot
      decide
    refine .inl ((planted_makeAll hp hpart hup' hm).resolve_right ?_)
    rintro ⟨pre, k, hpre, hk⟩
    obtain ⟨_, -, hn, he, -, -⟩ := of_find_eq_free hk.free
    have hlast : Path.lastPart (Path.joinParts pre) ∈ pre := by
      have hmem := Path.lastPart_mem (Path.joinParts pre)
      rwa [Path.parts_joinParts hk.ne_nil hk.isPart] at hmem
    rw [List.reverse_reverse] at hpre
    obtain h₀ | h₁ := hdots _ (hpre.subset hlast)
    · exact he h₀
    · exact hn.ne_dot h₁

end HashedLiterals.Disk
