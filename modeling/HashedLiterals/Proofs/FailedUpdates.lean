import HashedLiterals.FileUpdate
import HashedLiterals.Proofs.Atomic
import HashedLiterals.Proofs.Directories

/-!
Updates that fail. Main statement: a failed update leaves the registry as it was, and the destination
and the map beside it read as before, provided that these two are not staged in one temporary file and
that the destination's path does not go up again from a directory made for it. Without the first
condition a failed update can have replaced the destination.
-/
set_option autoImplicit false

namespace HashedLiterals

namespace Disk

variable {d d' : Disk}

/-- Entries stand in directories, and the working directory is one of these. -/
structure IsTree (d : Disk) : Prop where
  parents : HasParents d
  cwd_plain : ∀ part ∈ d.cwd, Path.IsPlain part
  cwd_directory : d.get? d.cwd = some .directory

theorem mem_entries_of_get? {key : Key} {node : Node} (hk : key ≠ []) (h : d.get? key = some node) :
    (key, node) ∈ d.entries := by
  rw [get?, if_neg hk, List.lookup_eq_some_iff] at h
  obtain ⟨before, after, he, -⟩ := h
  simp [he]

theorem isTree_of_entries (h : ∀ x ∈ d.entries, d.get? x.1.dropLast = some .directory)
    (hp : ∀ part ∈ d.cwd, Path.IsPlain part) (hc : d.get? d.cwd = some .directory) : IsTree d := by
  refine ⟨fun key name node hg => ?_, hp, hc⟩
  simpa using h _ (mem_entries_of_get? (by simp) hg)

theorem tidy_of_entries (hp : Path.IsPart d.process) (h : ∀ x ∈ d.entries, x.2 = .directory ∨
    ¬ d.temporarySuffix.toList <:+ (x.1.getLastD "").toList) : Tidy d := by
  refine ⟨hp, fun key name node hg => ?_⟩
  refine (h _ (mem_entries_of_get? (by simp) hg)).resolve_right fun hs => hs ?_
  rw [List.getLastD_eq_getLast?, List.getLast?_concat, Option.getD_some, String.toList_append]
  exact List.suffix_append _ _

theorem HasParents.get?_above {k below : Key} {node : Node} (h : HasParents d)
    (hg : d.get? (k ++ below) = some node) (hb : below ≠ []) : d.get? k = some .directory := by
  induction below generalizing k with
  | nil => exact absurd rfl hb
  | cons name below ih =>
    by_cases hbelow : below = []
    · subst hbelow
      exact h _ _ _ hg
    · rw [List.append_cons] at hg
      exact h _ _ _ (ih hg hbelow)

theorem IsTree.way (h : IsTree d) : d.Way d.cwd := by
  refine ⟨h.cwd_plain, fun i => ?_⟩
  by_cases hi : d.cwd.drop i = []
  · have htake := List.take_append_drop i d.cwd
    rw [hi, List.append_nil] at htake
    rw [htake, h.cwd_directory]
  · have hcwd := h.cwd_directory
    rw [← List.take_append_drop i d.cwd] at hcwd
    exact h.parents.get?_above hcwd hi

theorem Writes.way {key : Key} {places : List Key} (h : Writes places d d') (hw : d.Way key) : d'.Way key :=
  ⟨hw.plain, fun i => h.get?_of_not_file (hw.directory i) (by simp)⟩

theorem Writes.tidy {places : List Key} (h : Writes places d d') (ht : d.Tidy)
    (hn : ∀ key name, key ++ [name ++ d.temporarySuffix] ∉ places) : d'.Tidy := by
  have hs : d'.temporarySuffix = d.temporarySuffix := by
    rw [temporarySuffix, h.process_eq, temporarySuffix]
  refine ⟨by rw [h.process_eq]; exact ht.process, fun key name node hg => ?_⟩
  rw [hs] at hg
  obtain he | ⟨-, hd⟩ := h.keeps _ (hn key name)
  · exact ht.directory key name node (he ▸ hg)
  · exact Option.some.inj (hg.symm.trans hd)

theorem Grows.way {key : Key} (h : Grows d d') (hw : d.Way key) : d'.Way key := h.writes.way hw

theorem Grows.tidy (h : Grows d d') (ht : Tidy d) : Tidy d' := h.writes.tidy ht (by simp)

theorem not_sharesTemporary_single (d : Disk) (p : Pending) : ¬ d.SharesTemporary [p] := by
  rintro ⟨staged, e, hst, hd⟩
  refine hd ?_
  rw [stageAll] at hst
  split at hst
  · simp at hst
  · simp only [stageAll] at hst
    split at hst
    · simp at hst
    · obtain ⟨rfl, -⟩ := Prod.mk.inj hst
      simp

/-- A file whose temporary file cannot be opened is not staged, nor are those behind it. -/
theorem not_sharesTemporary_of_find {p : Pending} {target : String} (rest : List Pending)
    (ht : (d.targetOf p.destination).toOption = some target)
    (hf : (d.find true (d.temporaryOf target)).toOption = none) : ¬ d.SharesTemporary (p :: rest) := by
  rintro ⟨staged, e, hst, -⟩
  cases hto : d.targetOf p.destination with
  | error err => simp [hto, Except.toOption] at ht
  | ok target' =>
    obtain rfl : target' = target := by simpa [hto, Except.toOption] using ht
    simp only [stageAll, hto] at hst
    split at hst
    · simp at hst
    · next e₁ hfill =>
      obtain ⟨_, _, -, hw, -⟩ := fill_cases hfill
      obtain ⟨_, _, -, h | ⟨_, h⟩⟩ := write_cases hw <;> simp [h, Except.toOption] at hf

end Disk

namespace FileUpdate

variable {d d' : Disk} {registry registry' : Option Registry} {o : Options}
  {source destination : String} {f : Failure}

def prepared (d : Disk) (o : Options) (destination : String) : Disk :=
  if o.createDirectories then (d.makeDirectories (Path.parent destination)).2 else d

theorem grows_prepared (d : Disk) (o : Options) (destination : String) :
    Disk.Grows d (prepared d o destination) := by
  rw [prepared]
  split
  · cases hm : d.makeDirectories (Path.parent destination) with
    | mk e made => exact Disk.grows_makeDirectories hm
  · exact Disk.Grows.refl d

theorem writeOut_cases {files : List Disk.Pending} {failed : Option DiskError}
    (h : writeOut d o destination files = (failed, d')) :
    (∃ err, failed = some err) ∧ d' = prepared d o destination ∨
      (prepared d o destination).writeAll files = (failed, d') := by
  rw [prepared]
  rw [writeOut] at h
  cases hc : o.createDirectories with
  | false =>
    simp only [hc, Bool.false_eq_true, if_false] at h ⊢
    exact .inr h
  | true =>
    simp only [hc, if_true] at h ⊢
    split at h
    · next e _ =>
      obtain ⟨rfl, rfl⟩ := Prod.mk.inj h
      exact .inl ⟨⟨e, rfl⟩, rfl⟩
    · exact .inr h

theorem writeOut_failed {files : List Disk.Pending} {err : DiskError} (hd : d.IsTree) (ht : d.Tidy)
    (hs : ¬ (prepared d o destination).SharesTemporary files)
    (h : writeOut d o destination files = (some err, d')) : d' = prepared d o destination := by
  have hgrows := grows_prepared d o destination
  rcases writeOut_cases h with ⟨-, hd'⟩ | hall
  · exact hd'
  · exact Disk.writeAll_failed (hgrows.tidy ht) (hgrows.cwd_eq ▸ hgrows.way hd.way) hs hall

theorem sourceMap_of_run {options : Preprocess.Options} {staged staged' : Option Registry}
    {input : Bytes} {s : Preprocess.Success} {m : SourceMap}
    (h : Preprocess.run options staged input = (.ok s, staged')) (hm : s.map = some m) :
    options.sourceMap = true := by
  rw [Preprocess.run] at h
  split at h
  · cases h
  · obtain ⟨hs, -⟩ := Prod.mk.inj h
    rw [← Except.ok.inj hs, Preprocess.success] at hm
    cases ho : options.sourceMap with
    | true => rfl
    | false => simp [ho] at hm

/-- What an update comes to: it does nothing but fail, it finds nothing to replace, or it writes. -/
theorem run_cases {result : Except Failure Outcome}
    (h : run d registry o source destination = (result, d', registry')) :
    ((∃ f, result = .error f) ∧ d' = d ∧ registry' = registry) ∨
    ∃ input s staged, d.read source = .ok input ∧
      Preprocess.run ⟨o.marker, o.hash, source, o.sourceMap, o.mapper⟩ (registry.map Registry.stage) input =
        (.ok s, staged) ∧
      ((s.changed = false ∧ result = .ok ⟨false, [], none, none⟩ ∧ d' = d ∧ registry' = registry) ∨
      s.changed = true ∧ ∃ failed,
        (if o.dryRun then (none, d) else writeOut d o destination
          (pending destination s.output (s.map.map (rebase d source destination)))) = (failed, d') ∧
        ((∃ e : DiskError, failed = some e ∧
          result = .error (.destinationUnwritable destination e.cause) ∧ registry' = registry) ∨
          failed = none ∧ result = .ok ⟨true, s.invocations, some s.output,
            s.map.map (rebase d source destination)⟩)) := by
  rw [run] at h
  split at h
  · obtain ⟨rfl, rfl, rfl⟩ := h
    exact .inl ⟨⟨_, rfl⟩, rfl, rfl⟩
  · next input hread =>
    rw [update] at h
    split at h
    · obtain ⟨rfl, rfl, rfl⟩ := h
      exact .inl ⟨⟨_, rfl⟩, rfl, rfl⟩
    · next s staged hrun =>
      refine .inr ⟨input, s, staged, hread, hrun, ?_⟩
      cases hc : s.changed with
      | false =>
        rw [hc] at h
        obtain ⟨rfl, rfl, rfl⟩ := h
        exact .inl ⟨rfl, rfl, rfl, rfl⟩
      | true =>
        rw [hc] at h
        refine .inr ⟨rfl, ?_⟩
        simp only [Bool.not_true, Bool.false_eq_true, if_false] at h
        split at h
        · next e hfail =>
          obtain ⟨rfl, rfl, rfl⟩ := h
          exact ⟨_, Prod.ext rfl rfl, .inl ⟨e, hfail, rfl, rfl⟩⟩
        · next hfail =>
          obtain ⟨rfl, rfl, rfl⟩ := h
          exact ⟨_, Prod.ext rfl rfl, .inr ⟨hfail, rfl⟩⟩

theorem failed_run_cases (h : run d registry o source destination = (.error f, d', registry')) :
    registry' = registry ∧ (d' = d ∨ ∃ output map err, (map.isSome → o.sourceMap = true) ∧
      writeOut d o destination (pending destination output map) = (some err, d')) := by
  obtain ⟨-, hd, hr⟩ | ⟨input, s, staged, -, hrun, hcases⟩ := run_cases h
  · exact ⟨hr, .inl hd⟩
  · obtain ⟨-, hok, -⟩ | ⟨-, failed, hw, ⟨e, rfl, -, hr⟩ | ⟨-, hok⟩⟩ := hcases
    · cases hok
    · refine ⟨hr, ?_⟩
      split at hw
      · cases hw
      · refine .inr ⟨s.output, _, e, fun hm => ?_, hw⟩
        obtain ⟨m, hm⟩ := Option.isSome_iff_exists.1 hm
        obtain ⟨m', hm', -⟩ := Option.map_eq_some_iff.1 hm
        exact sourceMap_of_run hrun hm'
    · cases hok

/-- A failed update leaves at most directories behind, if the files have temporary files of their
own. -/
theorem disk_of_failed_run (hd : d.IsTree) (ht : d.Tidy)
    (hshare : o.sourceMap = true → ∀ map output, ¬ (prepared d o destination).SharesTemporary
      [⟨destination ++ ".map", map⟩, ⟨destination, output⟩])
    (h : run d registry o source destination = (.error f, d', registry')) :
    d' = d ∨ d' = prepared d o destination := by
  obtain ⟨-, hd' | ⟨output, map, err, hmap, hw⟩⟩ := failed_run_cases h
  · exact .inl hd'
  · refine .inr (writeOut_failed hd ht ?_ hw)
    cases map with
    | none => exact Disk.not_sharesTemporary_single _ _
    | some m => exact hshare (hmap rfl) _ _

/-- Directories that were made for a destination do not make it or its map readable, if the path does
not go up. -/
theorem read_of_prepared {path : String} {data : Bytes} (hd : d.IsTree)
    (hup : prepared d o destination ≠ d → ".." ∉ Path.parts destination)
    (hpath : path = destination ∨ path = destination ++ ".map")
    (h : (prepared d o destination).read path = .ok data) : d.read path = .ok data := by
  by_cases hsame : prepared d o destination = d
  · rwa [hsame] at h
  · exfalso
    have hparts := hup hsame
    have hmap : Path.IsPart ".map" := by decide
    have hdir : Path.directoryParts path = Path.directoryParts destination := by
      obtain rfl | rfl := hpath
      · rfl
      · exact Path.directoryParts_append destination hmap
    have hpathup : ".." ∉ Path.parts path := by
      obtain rfl | rfl := hpath
      · exact hparts
      · rw [Path.parts_eq, List.mem_append, not_or] at hparts
        rw [Path.parts_append destination hmap, List.mem_append, not_or, List.mem_singleton]
        refine ⟨hparts.1, fun hl => ?_⟩
        have hlen := congrArg String.length hl
        have hm : ".map".length = 4 := by decide
        have hu : "..".length = 2 := by decide
        rw [String.length_append, hm, hu] at hlen
        omega
    -- below the first directory that was made there are only directories
    rw [prepared] at hsame h
    split at h
    · next hc =>
      rw [if_pos hc] at hsame
      cases hm : d.makeDirectories (Path.parent destination) with
      | mk e made =>
        rw [hm] at hsame h
        obtain hmade | ⟨pre, k, hpre, hk⟩ := Disk.planted_makeDirectories hd.parents hparts hm
        · exact hsame hmade
        · exact hk.not_read hd.parents (hdir ▸ hpre) hpathup data h
    · next hc => exact hsame (if_neg hc)

/-- A failed update leaves the registry, and all that can be read, as they were. -/
theorem failed_run_keeps_reads (hd : d.IsTree) (ht : d.Tidy)
    (hshare : o.sourceMap = true → ∀ map output, ¬ (prepared d o destination).SharesTemporary
      [⟨destination ++ ".map", map⟩, ⟨destination, output⟩])
    (hup : prepared d o destination ≠ d → ".." ∉ Path.parts destination)
    (h : run d registry o source destination = (.error f, d', registry')) :
    registry' = registry ∧ (o.createDirectories = false → d' = d) ∧
      (∀ path data, d.read path = .ok data → d'.read path = .ok data) ∧
      ∀ path, path = destination ∨ path = destination ++ ".map" →
        (d'.read path).toOption = (d.read path).toOption := by
  have hkept : ∀ path data, d.read path = .ok data → d'.read path = .ok data := by
    intro path data hr
    obtain rfl | rfl := disk_of_failed_run hd ht hshare h
    · exact hr
    · exact (grows_prepared d o destination).read hr
  refine ⟨(failed_run_cases h).1, fun hc => ?_, hkept, fun path hpath => ?_⟩
  · obtain hd' | hd' := disk_of_failed_run hd ht hshare h
    · exact hd'
    · rw [hd', prepared, hc, if_neg (by simp)]
  · cases hr : d.read path with
    | ok data => rw [hkept path data hr]
    | error e =>
      cases hr' : d'.read path with
      | error e' => rfl
      | ok data =>
        obtain rfl | rfl := disk_of_failed_run hd ht hshare h
        · rw [hr] at hr'
          cases hr'
        · rw [read_of_prepared hd hup hpath hr'] at hr
          cases hr

def lone : Disk := ⟨[(["a.c"], .file (Utf8.encode "SID(\"hello\")\n") Disk.newMode)], [], "7"⟩

theorem failed_run_keeps_reads_slash :
    let r := run lone none { sourceMap := true, createDirectories := true } "a.c" "x/y/"
    r.1.toOption = none ∧ r.2.1 ≠ lone ∧ r.2.2 = none ∧
      (r.2.1.read "x/y/").toOption = (lone.read "x/y/").toOption := by
  intro r
  have hfail : r.1.toOption = none := by decide +kernel
  refine ⟨hfail, by decide +kernel, ?_⟩
  cases hr : r.1 with
  | ok outcome => simp [hr, Except.toOption] at hfail
  | error f =>
    have htree : lone.IsTree := Disk.isTree_of_entries (by decide) (by simp [lone]) (by decide)
    have htidy : lone.Tidy := Disk.tidy_of_entries (by decide) (by decide +kernel)
    let made := prepared lone { sourceMap := true, createDirectories := true } "x/y/"
    have hto : (made.targetOf ("x/y/" ++ ".map")).toOption = some "x/y/.map" := by decide +kernel
    have hfind : (made.find true (made.temporaryOf "x/y/.map")).toOption = none := by decide +kernel
    obtain ⟨hreg, -, -, hreads⟩ := failed_run_keeps_reads htree htidy
      (fun _ _ _ => Disk.not_sharesTemporary_of_find _ hto hfind) (fun _ => by decide)
      (Prod.ext hr rfl : r = (.error f, r.2.1, r.2.2))
    exact ⟨hreg, hreads _ (.inl rfl)⟩

def linked : Disk :=
  ⟨[(["a.c"], .file (Utf8.encode "SID(\"hello\")\n") Disk.newMode), (["a.c.map"], .link "a.c")], [],
    "7"⟩

/-- With a link to the destination in the place of the map, a failed update has replaced the
destination. -/
theorem failed_run_replaces_linked :
    let r := run linked none { sourceMap := true } "a.c" "a.c"
    linked.IsTree ∧ linked.Tidy ∧ r.1.toOption = none ∧
      (linked.read "a.c").toOption = some (Utf8.encode "SID(\"hello\")\n") ∧
      (r.2.1.read "a.c").toOption = some (Utf8.encode "0x0f923099 /* \"hello\" */\n") := by
  refine ⟨?_, ?_, by decide +kernel, by decide +kernel, by decide +kernel⟩
  · exact Disk.isTree_of_entries (by decide) (by simp [linked]) (by decide)
  · exact Disk.tidy_of_entries (by decide) (by decide +kernel)

end FileUpdate

end HashedLiterals
