import HashedLiterals.Proofs.Atomic

set_option autoImplicit false

namespace HashedLiterals.Disk

variable {d e : Disk} {key k : Key} {path : String} {r : Found}

theorem way_nil (d : Disk) : d.Way [] := ⟨by simp, by simp [get?]⟩

theorem Way.get?_eq (h : d.Way key) : d.get? key = some .directory := by
  simpa using h.directory key.length

theorem Way.dropLast (h : d.Way key) : d.Way key.dropLast := by
  refine ⟨fun part hm => h.plain part (List.dropLast_subset _ hm), fun i => ?_⟩
  rw [List.dropLast_eq_take, List.take_take]
  exact h.directory _

theorem Way.snoc {part : String} (h : d.Way key) (hp : Path.IsPlain part)
    (hg : d.get? (key ++ [part]) = some .directory) : d.Way (key ++ [part]) := by
  refine ⟨fun q hq => ?_, fun i => ?_⟩
  · obtain hq | rfl := (List.mem_append.1 hq).imp_right List.mem_singleton.1
    · exact h.plain q hq
    · exact hp
  · by_cases hi : i ≤ key.length
    · rw [List.take_append_of_le_length hi]
      exact h.directory i
    · rw [List.take_of_length_le (by simp; omega)]
      exact hg

theorem Way.start (h : d.Way d.cwd) (path : String) : d.Way (d.start path) := by
  rw [Disk.start]
  split
  · exact way_nil d
  · exact h

theorem walk_eq_foundAt {follow : Bool} {links : Nat} {ps : List String} (hw : d.Way key)
    (hp : ∀ p ∈ ps, Path.IsPart p)
    (hl : ∀ qs, qs <+: ps → ∀ target, d.get? (Path.follow key qs) ≠ some (.link target))
    (h : d.walk follow links key (ps.filter fun p => !p.isEmpty) = .ok r) :
    r = d.foundAt (Path.follow key ps) ∧ ∀ k, r = .entry k .directory → d.Way k := by
  induction ps generalizing key with
  | nil =>
    rw [List.filter_nil, walk_nil] at h
    obtain rfl := Except.ok.inj h
    rw [Path.follow_nil, foundAt_of_some hw.get?_eq]
    refine ⟨rfl, fun k hk => ?_⟩
    obtain ⟨rfl, -⟩ := Found.entry.inj hk
    exact hw
  | cons p ps ih =>
    have hps : ∀ q ∈ ps, Path.IsPart q := fun q hq => hp q (by simp [hq])
    have hlps : ∀ qs, qs <+: ps → ∀ target,
        d.get? (Path.follow (Path.follow key [p]) qs) ≠ some (.link target) := by
      intro qs hqs
      rw [← Path.follow_cons]
      exact hl (p :: qs) (by simpa using hqs)
    rw [Path.follow_cons]
    obtain rfl | rfl | rfl | hplain := Path.plain_cases (hp p (by simp))
    · rw [Path.follow_empty] at hlps ⊢
      exact ih hw hps hlps (by simpa using h)
    · rw [Path.follow_dot] at hlps ⊢
      exact ih hw hps hlps (by simpa using h)
    · rw [Path.follow_dotDot hw.plain] at hlps ⊢
      exact ih hw.dropLast hps hlps (by simpa using h)
    · rw [Path.follow_plain hplain] at hlps ⊢
      rw [List.filter_cons_of_pos (by simp [hplain.ne_empty])] at h
      have hlink : ∀ target, d.get? (key ++ [p]) ≠ some (.link target) := by
        simpa [Path.follow_plain hplain] using hl [p] (by simp)
      generalize hall : ps.filter (fun p => !p.isEmpty) = all at h
      cases walks_of_walk h with
      | dot _ => exact absurd rfl hplain.ne_dot
      | dotDot _ => exact absurd rfl hplain.ne_dotDot
      | enter _ hg hrest => exact ih (hw.snoc hplain hg) hps hlps (hall ▸ hrest.walk_eq)
      | free _ hg =>
        rw [Path.follow_of_filter_nil hall, foundAt, hg]
        simp
      | file _ hg =>
        rw [Path.follow_of_filter_nil hall, foundAt_of_some hg]
        simp
      | link _ hg => exact absurd hg (hlink _)
      | jump _ hg => exact absurd hg (hlink _)

/-- No link is on the way of a path, nor at its end. -/
def LinkFree (d : Disk) (path : String) : Prop :=
  ∀ qs, qs <+: Path.parts path → ∀ target, d.get? (Path.follow (d.start path) qs) ≠ some (.link target)

theorem toKey_eq (hg : d.Way d.cwd) (path : String) :
    Path.toKey d.cwd path = Path.follow (d.start path) (Path.parts path) :=
  Path.toKey_eq_follow hg.plain path

theorem find_eq_foundAt_toKey {follow : Bool} (hg : d.Way d.cwd) (hl : d.LinkFree path)
    (h : d.find follow path = .ok r) : r = d.foundAt (Path.toKey d.cwd path) := by
  have ha := accepted_of_find h
  have hparts := Path.parts_eq path
  rw [find_eq_walk ha] at h
  have hpart : ∀ p ∈ Path.parts path ++ ["."], Path.IsPart p := by
    intro p hm
    obtain hm | rfl := (List.mem_append.1 hm).imp_right List.mem_singleton.1
    · exact Path.isPart_of_mem_parts hm
    · decide
  have hlinks : ∀ qs, qs <+: Path.parts path ++ ["."] → ∀ target,
      d.get? (Path.follow (d.start path) qs) ≠ some (.link target) := by
    intro qs hqs
    rw [List.prefix_concat_iff] at hqs
    obtain rfl | hqs := hqs
    · rw [Path.follow_append, Path.follow_dot]
      exact hl _ (List.prefix_refl _)
    · exact hl qs hqs
  rw [toKey_eq hg]
  by_cases he : Path.lastPart path = ""
  · have hsteps : directorySteps path ++ [lastStep path] =
        (Path.parts path ++ ["."]).filter fun p => !p.isEmpty := by
      simp [hparts, directorySteps, lastStep, he]
    rw [hsteps] at h
    have hr := (walk_eq_foundAt (hg.start path) hpart hlinks h).1
    rwa [Path.follow_append, Path.follow_dot] at hr
  · have hsteps : directorySteps path ++ [lastStep path] =
        (Path.parts path).filter fun p => !p.isEmpty := by
      simp [hparts, directorySteps, lastStep, he]
    rw [hsteps] at h
    exact (walk_eq_foundAt (hg.start path) (fun p hm => Path.isPart_of_mem_parts hm) hl h).1

theorem LinkFree.of_scratch {keys : List Key} (hl : d.LinkFree path) (h : Scratch d keys e) :
    e.LinkFree path := by
  intro qs hqs target hg
  rw [start, h.cwd_eq] at hg
  by_cases hk : Path.follow (d.start path) qs ∈ keys
  · obtain hn | ⟨data, mode, hf⟩ := h.get?_mem _ hk
    · exact absurd (hn.symm.trans hg) (by simp)
    · exact absurd (hf.symm.trans hg) (by simp)
  · exact hl qs hqs target ((h.get?_eq hk).symm.trans hg)

/-- Without links, resolving can only lead to where it starts. -/
theorem eq_of_resolveParts {jump : String → List String → Except DiskError Key} {ps : List String}
    (hl : ∀ above, above <+: key ++ ps → ∀ target, d.get? above ≠ some (.link target))
    (h : d.resolveParts jump key ps = .ok k) : k = key ++ ps := by
  induction ps generalizing key with
  | nil => simpa [resolveParts] using h.symm
  | cons p ps ih =>
    rw [List.append_cons] at hl ⊢
    rw [resolveParts] at h
    split at h
    · cases h
    · next target _ hg => exact absurd hg (hl _ (List.prefix_append _ _) target)
    · exact ih hl h
    · cases h

theorem isAbsolute_ofKey (key : Key) : Path.isAbsolute (Path.ofKey key) = true := by
  rw [Path.ofKey, Path.isAbsolute_append (by decide)]
  decide

theorem parts_ofKey (h : ∀ part ∈ key, Path.IsPart part) :
    Path.parts (Path.ofKey key) = "" :: if key = [] then [""] else key := by
  split
  · next hk => subst hk; decide
  · next hk =>
    have hj : Path.ofKey key = Path.joinParts ("" :: key) := by
      rw [Path.joinParts_cons hk, Path.ofKey, String.empty_append]
    rw [hj, Path.parts_joinParts (by simp)]
    intro p hm
    obtain rfl | hm := List.mem_cons.1 hm
    · decide
    · exact h p hm

theorem follow_parts_ofKey (h : ∀ part ∈ key, Path.IsPlain part) :
    Path.follow [] (Path.parts (Path.ofKey key)) = key := by
  rw [parts_ofKey fun p hm => (h p hm).isPart, Path.follow_cons, Path.follow_empty]
  split
  · next hk => rw [hk, Path.follow_empty]
  · rw [Path.follow_plains h, List.nil_append]

theorem toKey_ofKey (hg : d.Way d.cwd) (h : ∀ part ∈ key, Path.IsPlain part) :
    Path.toKey d.cwd (Path.ofKey key) = key := by
  rw [toKey_eq hg, start, isAbsolute_ofKey, if_pos rfl, follow_parts_ofKey h]

theorem linkFree_ofKey (h : ∀ part ∈ key, Path.IsPlain part)
    (hl : ∀ above, above <+: key → ∀ target, d.get? above ≠ some (.link target)) :
    d.LinkFree (Path.ofKey key) := by
  intro qs hqs
  refine hl _ ?_
  rw [parts_ofKey fun p hm => (h p hm).isPart] at hqs
  rw [start, isAbsolute_ofKey, if_pos rfl]
  cases qs with
  | nil => simp
  | cons q qs =>
    obtain ⟨rfl, htail⟩ := List.cons_prefix_cons.1 hqs
    rw [Path.follow_cons, Path.follow_empty]
    split at htail
    · have hq : (qs.filter fun p => !p.isEmpty) = [] := by
        rw [List.filter_eq_nil_iff]
        intro q hq
        simpa using htail.subset hq
      rw [Path.follow_of_filter_nil hq]
      exact List.nil_prefix
    · rwa [Path.follow_plains fun p hp => h p (htail.subset hp), List.nil_append]

theorem plain_toKey (hg : d.Way d.cwd) (path : String) :
    ∀ part ∈ Path.toKey d.cwd path, Path.IsPlain part := by
  rw [toKey_eq hg]
  exact Path.plain_follow (hg.start path).plain fun _ hm => Path.isPart_of_mem_parts hm

theorem LinkFree.above (hg : d.Way d.cwd) (hl : d.LinkFree path) {above : Key}
    (ha : above <+: Path.toKey d.cwd path) (target : String) : d.get? above ≠ some (.link target) := by
  rw [toKey_eq hg] at ha
  obtain ha | ⟨qs, hqs, rfl⟩ := Path.prefix_follow_cases (hg.start path).plain
    (fun _ hm => Path.isPart_of_mem_parts hm) ha
  · have hdir := (hg.start path).directory above.length
    rw [← List.prefix_iff_eq_take.1 ha] at hdir
    simp [hdir]
  · exact hl qs hqs target

theorem targetOf_cases {target : String} (hg : d.Way d.cwd) (hl : d.LinkFree path)
    (h : d.targetOf path = .ok target) :
    target = path ∨ target = Path.ofKey (Path.toKey d.cwd path) := by
  rw [targetOf] at h
  split at h
  · next real hr =>
    obtain rfl := Except.ok.inj h
    simp only [realPath] at hr
    split at hr
    · cases hr
    · cases hres : d.resolve (linkLimit * ((Path.toKey d.cwd path).length + 1)) []
          (Path.toKey d.cwd path) with
      | error err => simp [hres, Except.map] at hr
      | ok key =>
        have hkey : key = Path.toKey d.cwd path := by
          have habove : ∀ above, above <+: [] ++ Path.toKey d.cwd path → ∀ target,
              d.get? above ≠ some (.link target) := fun above ha => hl.above hg ha
          cases hlinks : linkLimit * ((Path.toKey d.cwd path).length + 1) with
          | zero => exact eq_of_resolveParts habove (hlinks ▸ hres)
          | succ links => exact eq_of_resolveParts habove (hlinks ▸ hres)
        rw [hres, hkey] at hr
        exact .inr (Except.ok.inj hr).symm
  · split at h
    · exact .inl (Except.ok.inj h).symm
    · cases h

theorem leads_of_linkFree (hg : d.Way d.cwd) (hl : d.LinkFree path) :
    d.Leads path (Path.toKey d.cwd path) := by
  intro keys e target r hsc hto hf
  have hcases := targetOf_cases (hsc.cwd_eq ▸ hsc.way hg) (hl.of_scratch hsc) hto
  rw [hsc.cwd_eq] at hcases
  obtain rfl | rfl := hcases
  · exact find_eq_foundAt_toKey hg hl hf
  · have hplain := plain_toKey hg path
    have hr := find_eq_foundAt_toKey hg (linkFree_ofKey hplain fun _ ha => hl.above hg ha) hf
    rwa [toKey_ofKey hg hplain] at hr

/-- A file at the key of a path without links can be found, once its directory is there. -/
theorem stat_of_file {data : Bytes} {mode : Nat} (hg : d.Way d.cwd) (hl : d.LinkFree path)
    (ha : Accepted path) (hb : d.Beside path k) (hlast : Path.lastPart path ≠ "")
    (hlong : isTooLong (Path.lastPart path) = false)
    (hf : d.get? (Path.toKey d.cwd path) = some (.file data mode)) :
    d.stat path = .ok (Path.toKey d.cwd path, .file data mode) := by
  have hfind : d.find true path = .ok (d.foundAt (Path.toKey d.cwd path)) := by
    obtain ⟨key, hdir⟩ | ⟨hn, -⟩ := find_directory_or_isName ha hb hlong
    · rw [hdir, find_eq_foundAt_toKey hg hl hdir]
    · have hfalse := find_eq_foundAt ha hb hn hlast (.inl (Eq.refl false))
      have hk := foundAt_inj (find_eq_foundAt_toKey hg hl hfalse)
      rw [← hk] at hf ⊢
      exact find_eq_foundAt ha hb hn hlast (.inr (by simp [hf]))
  rw [foundAt_of_some hf] at hfind
  exact stat_eq_ok_iff.2 hfind

end HashedLiterals.Disk
