import HashedLiterals.Proofs.OutputTree
import HashedLiterals.Proofs.Resolution

/-!
Places in an output directory. Main statement: a collected file that can be read goes strictly below
the output directory, whatever the arguments and the directory look like as texts.
-/
set_option autoImplicit false

namespace HashedLiterals

namespace Path

variable {key : Key} {ps : List String}

theorem normalize_ne_empty (path : String) : normalize path ≠ "" := by
  rw [normalize]
  split
  · split
    · decide
    · split <;> decide
  · next hbody =>
    intro he
    have hlist := congrArg String.toList he
    simp only [String.toList_append, String.toList_empty, List.append_eq_nil_iff] at hlist
    exact hbody (by simpa using hlist.1.2)

theorem join_ne_empty (a b : String) : join a b ≠ "" := by
  rw [join]
  split
  · decide
  · exact normalize_ne_empty _

theorem toKey_joinParts (hk : ∀ part ∈ key, IsPlain part) (hp : ∀ p ∈ ps, IsPlain p) (hne : ps ≠ []) :
    toKey key (joinParts ps) = key ++ ps := by
  have hkept : ∀ p ∈ ps, IsKept p := fun p hm => .inl (hp p hm)
  rw [toKey_eq_follow hk, isAbsolute_joinParts hkept, if_neg (by simp),
    parts_joinParts hne fun p hm => (hp p hm).isPart, follow_plains hp]

theorem toKey_join_joinParts (hk : ∀ part ∈ key, IsPlain part) {dir : String} (hd : dir ≠ "")
    (hp : ∀ p ∈ ps, IsPlain p) (hne : ps ≠ []) :
    toKey key (join dir (joinParts ps)) = toKey key dir ++ ps := by
  rw [toKey_join hk hd (isAbsolute_joinParts fun p hm => .inl (hp p hm)),
    toKey_joinParts (plain_toKey hk dir) hp hne]

theorem joinParts_singleton (p : String) : joinParts [p] = p := by simp [joinParts]

theorem dots_isPrefixOf_joinParts (rest : List String) :
    "..".toList.isPrefixOf (joinParts (".." :: rest)).toList = true := by
  rw [List.isPrefixOf_iff_prefix]
  by_cases hr : rest = []
  · exact ⟨[], by rw [hr, joinParts_singleton, List.append_nil]⟩
  · rw [joinParts_cons hr, String.append_assoc, String.toList_append]
    exact List.prefix_append _ _

end Path

namespace Disk

variable {d : Disk}

/-- Names of entries and of the working directory stand for themselves. -/
structure Named (d : Disk) : Prop where
  entries : ∀ x ∈ d.entries, ∀ part ∈ x.1, Path.IsPlain part
  cwd : ∀ part ∈ d.cwd, Path.IsPlain part

theorem Named.plain_of_mem_children {key : Key} {name : String} {node : Node} (h : d.Named)
    (hm : (name, node) ∈ d.children key) : Path.IsPlain name := by
  obtain ⟨⟨k, node'⟩, hk, hname⟩ := List.mem_filterMap.1 hm
  dsimp only at hname
  split at hname
  · next last hlast =>
    split at hname
    · obtain ⟨rfl, -⟩ := Prod.mk.inj (Option.some.inj hname)
      exact h.entries _ hk _ (List.mem_of_getLast? hlast)
    · cases hname
  · cases hname

/-- A path that a file can be read from ends in a name. -/
theorem plain_baseName_of_read {path : String} {data : Bytes} (h : d.read path = .ok data) :
    Path.IsPlain (Path.baseName path) := by
  obtain ⟨key, mode, hs⟩ := read_eq_ok_iff.1 h
  have hf := stat_eq_ok_iff.1 hs
  obtain ⟨k, hb⟩ := beside_of_find hf
  have hlong : isTooLong (Path.lastPart path) = false := by
    by_cases he : Path.lastPart path = ""
    · rw [he]
      decide
    · exact not_tooLong_of_find hf he
  obtain ⟨_, hd⟩ | ⟨hn, he⟩ := find_directory_or_isName (accepted_of_find hf) hb hlong
  · rw [hd] at hf
    cases hf
  · rw [Path.baseName_eq_lastPart he]
    exact hn.plain (Path.isPart_lastPart path) he

end Disk

namespace Collect

variable {d e : Disk} {extensions : List String} {cwd : Key} {f : InputFile} {data : Bytes}

theorem relative_eq {root dir : String} {ways : List String}
    (hkey : Path.toKey d.cwd dir = Path.toKey d.cwd root ++ ways) :
    Path.relative d.cwd root dir = Path.joinParts ways := by
  rw [Path.relative, hkey, Path.relativeParts_append]

theorem toKey_join_name {root dir name : String} {ways : List String} (hd : d.Named) (hdir : dir ≠ "")
    (hkey : Path.toKey d.cwd dir = Path.toKey d.cwd root ++ ways) (hn : Path.IsPlain name) :
    Path.toKey d.cwd (Path.join dir name) = Path.toKey d.cwd root ++ (ways ++ [name]) := by
  have hname : ∀ p ∈ [name], Path.IsPlain p := by simpa using hn
  have hjoin := Path.toKey_join_joinParts hd.cwd hdir hname (by simp)
  rw [Path.joinParts_singleton] at hjoin
  rw [hjoin, hkey, List.append_assoc]

/-- A file's path in an output directory goes down only. -/
def Descends (f : InputFile) : Prop :=
  ∃ ps, ps ≠ [] ∧ (∀ p ∈ ps, Path.IsPlain p) ∧ f.relative = Path.joinParts ps

theorem descends_of_toKey {root path : String} {ps : List String}
    (hkey : Path.toKey d.cwd path = Path.toKey d.cwd root ++ ps) (hne : ps ≠ [])
    (hp : ∀ p ∈ ps, Path.IsPlain p) : Descends ⟨path, Path.relative d.cwd root path⟩ :=
  ⟨ps, hne, hp, relative_eq hkey⟩

/-- Below the root of a walk everything descends, and the root is a directory that can be listed. -/
theorem descends_of_mem_walk {root dir : String} {depth : Nat} {ps : List String} (hd : d.Named)
    (hdir : dir ≠ "") (hkey : Path.toKey d.cwd dir = Path.toKey d.cwd root ++ ps)
    (hp : ∀ p ∈ ps, Path.IsPlain p) (hroot : ps = [] → ∃ entries, d.list dir = .ok entries)
    (hf : f ∈ walk d extensions root depth dir) : Descends f := by
  induction depth generalizing dir ps with
  | zero => cases hf
  | succ depth ih =>
    rw [walk] at hf
    split at hf
    · next herr =>
      have hne : ps ≠ [] := by
        intro hnil
        obtain ⟨entries, hok⟩ := hroot hnil
        cases herr.symm.trans hok
      obtain ⟨qs, hqs, hplain, hrel⟩ := descends_of_toKey hkey hne hp
      have hempty : (Path.relative d.cwd root dir).isEmpty = false := by
        refine Bool.eq_false_iff.2 fun he => hqs ?_
        exact (Path.joinParts_isEmpty_iff fun q hm => .inl (hplain q hm)).1 (hrel ▸ he)
      obtain rfl := List.mem_singleton.1 hf
      rw [hempty, if_neg (by simp)]
      exact ⟨qs, hqs, hplain, hrel⟩
    · next entries hlist =>
      obtain ⟨⟨name, node⟩, hmem, hm⟩ := List.mem_flatMap.1 hf
      have hname : Path.IsPlain name := by
        rw [Disk.list] at hlist
        split at hlist
        · cases hlist
        · obtain rfl := Except.ok.inj hlist
          exact hd.plain_of_mem_children ((List.mergeSort_perm _ _).mem_iff.1 hmem)
        · cases hlist
      have hkey' := toKey_join_name hd hdir hkey hname
      have hp' : ∀ p ∈ ps ++ [name], Path.IsPlain p := Disk.plain_snoc hp hname
      cases node with
      | directory =>
        simp only at hm
        split at hm
        · cases hm
        · exact ih (Path.join_ne_empty dir name) hkey' hp' (by simp) hm
      | file data mode =>
        simp only at hm
        split at hm
        · obtain rfl := List.mem_singleton.1 hm
          exact descends_of_toKey hkey' (by simp) hp'
        · cases hm
      | link target => cases hm

theorem descends_relativeTo {input : String} (hcwd : ∀ part ∈ cwd, Path.IsPlain part)
    (hread : e.read input = .ok data) : Descends ⟨input, relativeTo cwd input⟩ := by
  rw [relativeTo]
  split
  · exact ⟨[Path.baseName input], by simp, by simpa using Disk.plain_baseName_of_read hread,
      (Path.joinParts_singleton _).symm⟩
  · next h =>
    rw [Bool.or_eq_true, Bool.or_eq_true, not_or, not_or] at h
    obtain ⟨⟨hempty, hdots⟩, -⟩ := h
    obtain ⟨rest, hup⟩ | hdown := Path.relativeParts_cases cwd (Path.toKey cwd input)
    · rw [hup] at hdots
      exact absurd (Path.dots_isPrefixOf_joinParts rest) hdots
    · refine ⟨_, fun hnil => hempty ?_, fun p hm => ?_, rfl⟩
      · rw [hnil]
        decide
      · refine Path.plain_toKey hcwd input p ?_
        rw [hdown]
        exact List.mem_append_right _ hm

theorem descends_of_mem_files {inputs : List String} (hd : d.Named)
    (hcwd : ∀ part ∈ cwd, Path.IsPlain part) (hf : f ∈ files d inputs extensions cwd)
    (hread : e.read f.path = .ok data) : Descends f := by
  obtain ⟨input, -, hm⟩ := List.mem_flatMap.1 hf
  rw [ofInput] at hm
  split at hm
  · next key hs =>
    have hne : input ≠ "" := (Disk.accepted_of_find (Disk.stat_eq_ok_iff.1 hs)).ne_empty
    exact descends_of_mem_walk hd hne (List.append_nil _).symm (by simp)
      (fun _ => ⟨d.children key, by rw [Disk.list, hs]⟩) hm
  · obtain rfl := List.mem_singleton.1 hm
    exact descends_relativeTo hcwd hread

theorem Descends.exists_below {key : Key} {dir : String} (h : Descends f)
    (hk : ∀ part ∈ key, Path.IsPlain part) (hdir : dir ≠ "") :
    ∃ below, below ≠ [] ∧ (∀ part ∈ below, Path.IsPlain part) ∧
      Path.toKey key (Path.join dir f.relative) = Path.toKey key dir ++ below := by
  obtain ⟨ps, hne, hp, hrel⟩ := h
  exact ⟨ps, hne, hp, hrel ▸ Path.toKey_join_joinParts hk hdir hp hne⟩

end Collect

namespace Command

/-- Under an output directory, the destination of a file that can be read when its turn comes lies
strictly below that directory, as paths read as texts. -/
theorem destination_below_outDir {d later : Disk} {c : Context} {args : Args} {dir : String}
    {f : InputFile} {data : Bytes} (hd : d.Named) (hcwd : ∀ part ∈ c.cwd, Path.IsPlain part)
    (hout : args.outDir = some dir) (hdir : dir ≠ "")
    (hf : f ∈ Collect.files d args.paths c.config.extensions c.cwd)
    (hread : later.read f.path = .ok data) :
    ∃ below, below ≠ [] ∧ (∀ part ∈ below, Path.IsPlain part) ∧
      Path.toKey d.cwd ((Plan.ofArgs args false).destination f) = Path.toKey d.cwd dir ++ below := by
  have hplan : (Plan.ofArgs args false).outDir = some dir := by simp [Plan.ofArgs, hout, hdir]
  rw [Plan.destination, hplan]
  exact (Collect.descends_of_mem_files hd hcwd hf hread).exists_below hd.cwd hdir

def beside : Disk :=
  ⟨[(["b.c"], .file (Utf8.encode "SID(\"x\")\n") Disk.newMode), (["w"], .directory)], ["w"], "7"⟩

theorem destination_below_generated :
    ∃ below, below ≠ [] ∧ (∀ part ∈ below, Path.IsPlain part) ∧
      Path.toKey beside.cwd ((Plan.ofArgs ⟨.run, ["./../b.c"], {}, some "out/../generated", false,
        false⟩ false).destination ⟨"./../b.c", "b.c"⟩) =
      Path.toKey beside.cwd "out/../generated" ++ below :=
  destination_below_outDir (d := beside) (c := ⟨Config.default, ["w"], false, .standard⟩)
    ⟨by decide +kernel, by decide +kernel⟩ (by decide +kernel) rfl (by decide)
    (by decide +kernel) (rfl : beside.read "./../b.c" = .ok (Utf8.encode "SID(\"x\")\n"))

section Written

variable {d later : Disk} {c : Context} {args : Args} {dir : String} {b : Batch} {f : InputFile}
  {files : List InputFile} {data : Bytes} {key : Key}

theorem disk_step (c : Context) (p : Plan) (b : Batch) (f : InputFile) :
    let updated := (FileUpdate.run b.disk b.registry (fileOptions c p) f.path (p.destination f)).2.1
    (b.step c p f).disk = updated ∨
      (b.step c p f).disk = (copyUnchanged updated p f.path (p.destination f)).2 := by
  rw [Batch.step]
  cases FileUpdate.run b.disk b.registry (fileOptions c p) f.path (p.destination f) with
  | mk result rest =>
    obtain ⟨disk, registry⟩ := rest
    cases result with
    | error e => exact .inl rfl
    | ok outcome =>
      dsimp only
      split
      · exact .inl rfl
      · refine .inr ?_
        rw [Batch.unchanged]
        cases copyUnchanged disk p f.path (p.destination f) with
        | mk failed copied => cases failed <;> rfl

/-- In a command with an output directory, whatever it has done before, each file's turn updates or copies to
a place strictly below that directory, or changes nothing because the file cannot be read. -/
theorem run_below_outDir {before after : List InputFile} (hd : d.Named)
    (hcwd : ∀ part ∈ c.cwd, Path.IsPlain part) (hout : args.outDir = some dir) (hdir : dir ≠ "")
    (hfiles : Collect.files d args.paths c.config.extensions c.cwd = before ++ f :: after) (b : Batch) :
    let p := Plan.ofArgs args false
    let now := b.run c p before
    let next := b.run c p (before ++ [f])
    let updated := (FileUpdate.run now.disk now.registry (fileOptions c p) f.path (p.destination f)).2.1
    next.disk = now.disk ∨
      (∃ below, below ≠ [] ∧ Path.toKey d.cwd (p.destination f) = Path.toKey d.cwd dir ++ below) ∧
        (next.disk = updated ∨ next.disk = (copyUnchanged updated p f.path (p.destination f)).2) := by
  intro p now next updated
  have hnext : next = now.step c p f := List.foldl_append
  have hplan : p.outDir = some dir := by simp [p, Plan.ofArgs, hout, hdir]
  cases hread : now.disk.read f.path with
  | error e =>
    refine .inl ?_
    rw [hnext, Batch.step, FileUpdate.run, hread]
    rfl
  | ok data =>
    have hf : f ∈ Collect.files d args.paths c.config.extensions c.cwd := by simp [hfiles]
    obtain ⟨below, hne, -, hkey⟩ :=
      (Collect.descends_of_mem_files hd hcwd hf hread).exists_below hd.cwd hdir
    refine .inr ⟨⟨below, hne, ?_⟩, hnext ▸ disk_step c p now f⟩
    rw [Plan.destination, hplan]
    exact hkey

theorem exists_toKey_map {path : String} {below : List String} (hg : d.Way d.cwd) (hne : below ≠ [])
    (h : Path.toKey d.cwd path = key ++ below) :
    ∃ more, more ≠ [] ∧ Path.toKey d.cwd (path ++ ".map") = key ++ more := by
  have hdirectory : ∃ more, Path.follow (d.start path) (Path.directoryParts path) = key ++ more := by
    have hplain : ∀ part ∈ Path.follow (d.start path) (Path.directoryParts path), Path.IsPlain part :=
      Path.plain_follow (hg.start path).plain fun p hm =>
        Path.isPart_of_mem_parts (List.dropLast_subset _ hm)
    rw [Disk.toKey_eq hg, Path.parts_eq, Path.follow_append] at h
    generalize Path.follow (d.start path) (Path.directoryParts path) = directory at h hplain
    obtain he | he | he | he := Path.plain_cases (Path.isPart_lastPart path)
    · exact ⟨below, by rwa [he, Path.follow_empty] at h⟩
    · exact ⟨below, by rwa [he, Path.follow_dot] at h⟩
    · rw [he, Path.follow_dotDot hplain] at h
      exact ⟨below ++ directory.drop (directory.length - 1), by
        rw [← List.append_assoc, ← h, List.dropLast_eq_take, List.take_append_drop]⟩
    · rw [Path.follow_plain he] at h
      refine ⟨below.dropLast, ?_⟩
      have hdrop := congrArg List.dropLast h
      rwa [List.dropLast_concat, List.dropLast_append_of_ne_nil hne] at hdrop
  obtain ⟨more, hmore⟩ := hdirectory
  refine ⟨more ++ [Path.lastPart path ++ ".map"], by simp, ?_⟩
  rw [Disk.toKey_append hg (by decide) (by decide), hmore, List.append_assoc]

theorem exists_read_of_run (h : (b.run c (into dir) files).failed = b.failed) (hf : f ∈ files) :
    ∃ (later : Disk) (data : Bytes), later.read f.path = .ok data := by
  induction files generalizing b with
  | nil => cases hf
  | cons g files ih =>
    have hstep : (b.step c (into dir) g).failed = b.failed :=
      Nat.le_antisymm (h ▸ failed_le_run c dir (b.step c (into dir) g) files) (failed_le_step c dir b g)
    obtain rfl | hf := List.mem_cons.1 hf
    · obtain hlt | ⟨-, outcome, disk, registry, hrun, -⟩ := step_cases c dir b f
      · omega
      · obtain ⟨data, s, hread, -⟩ := FileUpdate.ok_run_cases hrun
        exact ⟨_, data, hread⟩
    · exact ih (h.trans hstep.symm) hf

/-- Where files and outputs do not get in each other's way, a command that succeeds changes nothing outside
its output directory but for directories that it makes. -/
theorem changes_below_outDir {r : Report} (hd : d.IsTree) (hn : d.Named) (ht : d.Tidy)
    (hcwd : ∀ part ∈ c.cwd, Path.IsPlain part) (hcmd : args.command = .run)
    (hout : args.outDir = some dir) (hdir : dir ≠ "")
    (ha : Apart d c.config.sourceMap dir (Collect.files d args.paths c.config.extensions c.cwd))
    (h : (perform d r c args).exit = 0) (key : Key) :
    (perform d r c args).disk.get? key = d.get? key ∨
      d.get? key = none ∧ (perform d r c args).disk.get? key = some .directory ∨
      ∃ below, below ≠ [] ∧ key = Path.toKey d.cwd dir ++ below := by
  obtain ⟨hclash, b, rfl, hfailed, hdisk⟩ := perform_cases hcmd hout hdir h
  have hne := pairwise_target hd.way hdir (fun _ => Collect.isAbsolute_of_mem_files hd.way) hclash
  obtain ⟨places, hplaces, hwrites, -⟩ :=
    writes_run hd.way ha hne (Disk.Writes.refl _) ht (by simp) hfailed
  rw [hdisk]
  by_cases hk : key ∈ places
  · obtain ⟨f, hf, hkey⟩ := hplaces key hk
    obtain ⟨later, data, hread⟩ := exists_read_of_run hfailed hf
    obtain ⟨below, hbelow, -, htarget⟩ :=
      (Collect.descends_of_mem_files hn hcwd hf hread).exists_below hn.cwd hdir
    rw [FileUpdate.places, List.mem_append, List.mem_singleton] at hkey
    obtain hkey | rfl := hkey
    · split at hkey
      · obtain ⟨more, hmore, hmap⟩ := exists_toKey_map hd.way hbelow htarget
        exact .inr (.inr ⟨more, hmore, (List.mem_singleton.1 hkey).trans hmap⟩)
      · cases hkey
    · exact .inr (.inr ⟨below, hbelow, htarget⟩)
  · exact (hwrites.keeps key hk).imp_right .inl

end Written

end Command

end HashedLiterals
