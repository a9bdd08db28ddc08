import HashedLiterals.Command.Run
import HashedLiterals.Config.Explorer
import HashedLiterals.Proofs.Effects
import HashedLiterals.Proofs.Joining

/-!
Output directories. Main statement: unless an output lands on a file that is still to be read, a
command that succeeds leaves in its output directory what preprocessing makes of each file that was
there at the start.
-/
set_option autoImplicit false

namespace HashedLiterals

namespace Collect

variable {d : Disk} {extensions : List String} {f : InputFile}

theorem isAbsolute_baseName (path : String) : Path.isAbsolute (Path.baseName path) = false := by
  have hall := @List.all_takeWhile _ (fun c => !Path.isSlash c)
    (path.toList.reverse.dropWhile Path.isSlash)
  rw [List.all_eq_true] at hall
  rw [Path.isAbsolute, beq_eq_false_iff_ne, Path.baseName, String.toList_ofList, List.head?_reverse]
  intro h
  have hslash := hall '/' (List.mem_of_getLast? h)
  revert hslash
  decide

theorem mem_relativeParts {source target : Key} {part : String}
    (h : part ∈ Path.relativeParts source target) : part = ".." ∨ part ∈ target := by
  fun_induction Path.relativeParts source target with
  | case1 as b bs ih => exact (ih h).imp_right (List.mem_cons_of_mem b)
  | case2 a as b bs hab =>
    obtain hm | hm := List.mem_append.1 h
    · obtain ⟨-, -, rfl⟩ := List.mem_map.1 hm
      exact .inl rfl
    · exact .inr hm
  | case3 as bs _ =>
    obtain hm | hm := List.mem_append.1 h
    · obtain ⟨-, -, rfl⟩ := List.mem_map.1 hm
      exact .inl rfl
    · exact .inr hm

theorem isAbsolute_relative (hg : d.Way d.cwd) (source target : String) :
    Path.isAbsolute (Path.relative d.cwd source target) = false := by
  refine Path.isAbsolute_joinParts fun part hm => ?_
  obtain rfl | hm := mem_relativeParts hm
  · exact .inr rfl
  · exact .inl (Disk.plain_toKey hg target part hm)

theorem isAbsolute_of_mem_walk {root dir : String} {depth : Nat} (hg : d.Way d.cwd)
    (h : f ∈ walk d extensions root depth dir) : Path.isAbsolute f.relative = false := by
  induction depth generalizing dir with
  | zero => cases h
  | succ depth ih =>
    rw [walk] at h
    split at h
    · obtain rfl := List.mem_singleton.1 h
      simp only
      split
      · exact isAbsolute_baseName dir
      · exact isAbsolute_relative hg root dir
    · obtain ⟨⟨name, node⟩, -, hm⟩ := List.mem_flatMap.1 h
      cases node with
      | directory =>
        simp only at hm
        split at hm
        · cases hm
        · exact ih hm
      | file data mode =>
        simp only at hm
        split at hm
        · obtain rfl := List.mem_singleton.1 hm
          exact isAbsolute_relative hg root _
        · cases hm
      | link target => cases hm

theorem isAbsolute_of_mem_files {inputs : List String} {cwd : Key} (hg : d.Way d.cwd)
    (h : f ∈ files d inputs extensions cwd) : Path.isAbsolute f.relative = false := by
  obtain ⟨input, -, hm⟩ := List.mem_flatMap.1 h
  rw [ofInput] at hm
  split at hm
  · exact isAbsolute_of_mem_walk hg hm
  · obtain rfl := List.mem_singleton.1 hm
    simp only [relativeTo]
    split
    · exact isAbsolute_baseName input
    · next hn =>
      simp only [Bool.or_eq_true, not_or, Bool.not_eq_true] at hn
      exact hn.2

end Collect

namespace Command

variable {d d' : Disk} {c : Context} {dir : String} {b : Batch} {f : InputFile}
  {files : List InputFile}

def target (dir : String) (f : InputFile) : String := Path.join dir f.relative

theorem clash?_eq_none_iff {cwd : Key} {seen : List (Key × String)} :
    clash? cwd dir seen files = none ↔
      (∀ f ∈ files, seen.lookup (Path.toKey (Path.toKey cwd dir) f.relative) = none) ∧
      files.Pairwise fun g f => Path.toKey (Path.toKey cwd dir) g.relative ≠
        Path.toKey (Path.toKey cwd dir) f.relative := by
  induction files generalizing seen with
  | nil => simp [clash?]
  | cons f files ih =>
    simp only [clash?, List.mem_cons, forall_eq_or_imp, List.pairwise_cons]
    cases hf : seen.lookup (Path.toKey (Path.toKey cwd dir) f.relative) with
    | some other => simp
    | none =>
      have hcons : ∀ g : InputFile, ((Path.toKey (Path.toKey cwd dir) f.relative, f.path) ::
          seen).lookup (Path.toKey (Path.toKey cwd dir) g.relative) = none ↔
          Path.toKey (Path.toKey cwd dir) f.relative ≠ Path.toKey (Path.toKey cwd dir) g.relative ∧
            seen.lookup (Path.toKey (Path.toKey cwd dir) g.relative) = none := by
        intro g
        by_cases he : Path.toKey (Path.toKey cwd dir) g.relative =
            Path.toKey (Path.toKey cwd dir) f.relative
        · simp [he]
        · simp [List.lookup_cons, beq_eq_false_iff_ne.2 he, Ne.symm he]
      simp only [ih, hcons]
      constructor
      · rintro ⟨h, hpair⟩
        exact ⟨⟨trivial, fun g hg => (h g hg).2⟩, fun g hg => (h g hg).1, hpair⟩
      · rintro ⟨⟨-, hseen⟩, hne, hpair⟩
        exact ⟨fun g hg => ⟨hne g hg, hseen g hg⟩, hpair⟩

theorem pairwise_target (hg : d.Way d.cwd) (hdir : dir ≠ "")
    (ha : ∀ f ∈ files, Path.isAbsolute f.relative = false)
    (h : clash? d.cwd dir [] files = none) :
    files.Pairwise fun g f => Path.toKey d.cwd (target dir g) ≠ Path.toKey d.cwd (target dir f) := by
  refine (clash?_eq_none_iff.1 h).2.imp_of_mem fun {g f} hm hm' hne => ?_
  rwa [target, target, Path.toKey_join hg.plain hdir (ha g hm), Path.toKey_join hg.plain hdir (ha f hm')]

def into (dir : String) : Plan := ⟨false, some dir, true⟩

theorem step_cases (c : Context) (dir : String) (b : Batch) (f : InputFile) :
    b.failed < (b.step c (into dir) f).failed ∨
      (b.step c (into dir) f).failed = b.failed ∧ ∃ outcome disk registry,
        FileUpdate.run b.disk b.registry (fileOptions c (into dir)) f.path (target dir f) =
          (.ok outcome, disk, registry) ∧
        (outcome.modified = true ∧ (b.step c (into dir) f).disk = disk ∨
          outcome.modified = false ∧
            copyUnchanged disk (into dir) f.path (target dir f) =
              (none, (b.step c (into dir) f).disk)) := by
  have hdest : (into dir).destination f = target dir f := rfl
  rw [Batch.step, hdest]
  cases hrun : FileUpdate.run b.disk b.registry (fileOptions c (into dir)) f.path
    (target dir f) with
  | mk result rest =>
    obtain ⟨disk, registry⟩ := rest
    cases result with
    | error e => exact .inl (Nat.lt_succ_self _)
    | ok outcome =>
      cases hm : outcome.modified with
      | true =>
        simp only [hm, if_true]
        exact .inr ⟨rfl, outcome, disk, registry, rfl, .inl ⟨hm, rfl⟩⟩
      | false =>
        simp only [hm, Bool.false_eq_true, if_false]
        rw [Batch.unchanged, hdest]
        cases hcopy : copyUnchanged disk (into dir) f.path (target dir f) with
        | mk failed copied =>
          cases failed with
          | some e => exact .inl (Nat.lt_succ_self _)
          | none => exact .inr ⟨rfl, outcome, disk, registry, rfl, .inr ⟨hm, hcopy⟩⟩

/-- A file whose path is that of its destination is the destination. -/
def OwnTarget (d : Disk) (dir : String) (f : InputFile) : Prop :=
  Path.toKey d.cwd (target dir f) = Path.toKey d.cwd f.path → d.stat (target dir f) = d.stat f.path

theorem OwnTarget.of_writes {places : List Key} {key : Key} {node : Node} (h : OwnTarget d dir f)
    (hw : d.Writes places d') (hs : d.stat f.path = .ok (key, node)) (hk : key ∉ places) :
    OwnTarget d' dir f := by
  intro he
  rw [hw.cwd_eq] at he
  have htarget := h he
  rw [hs] at htarget
  rw [hw.stat hs hk, hw.stat htarget hk]

theorem writes_copyUnchanged {data : Bytes} (hg : d.Way d.cwd) (hl : d.LinkFree (target dir f))
    (hlast : Path.lastPart (target dir f) ≠ "") (hread : d.read f.path = .ok data)
    (h : copyUnchanged d (into dir) f.path (target dir f) = (none, d')) :
    ∃ places, places ⊆ [Path.toKey d.cwd (target dir f)] ∧ d.Writes places d' ∧
      (OwnTarget d dir f → ∃ mode,
        d'.stat (target dir f) = .ok (Path.toKey d.cwd (target dir f), .file data mode)) := by
  obtain ⟨key, mode, hs⟩ := Disk.read_eq_ok_iff.1 hread
  rw [copyUnchanged] at h
  split at h
  · cases hm : d.makeDirectories (Path.parent (target dir f)) with
    | mk failed made =>
      rw [hm] at h
      cases failed with
      | some e => cases (Prod.mk.inj h).1
      | none =>
        have hgrows := Disk.grows_makeDirectories hm
        have hmade := hgrows.writes
        have hcwd : made.cwd = d.cwd := hgrows.cwd_eq
        simp only at h
        split at h
        · cases (Prod.mk.inj h).1
        · next copied hcopy =>
          obtain ⟨-, rfl⟩ := Prod.mk.inj h
          obtain ⟨hw, data', mode', hread', hstat⟩ :=
            Disk.writes_copy (hcwd ▸ hgrows.way hg) (hmade.linkFree hl) hlast hcopy
          rw [hcwd] at hw hstat
          rw [Disk.read, hmade.stat hs (by simp)] at hread'
          obtain rfl := Except.ok.inj hread'
          exact ⟨_, fun _ hk => hk, hmade.trans hw, fun _ => ⟨mode', hstat⟩⟩
  · next hn =>
    obtain ⟨-, rfl⟩ := Prod.mk.inj h
    have hkey : Path.toKey d.cwd (target dir f) = Path.toKey d.cwd f.path := by
      simpa [into] using hn
    refine ⟨[], by simp, Disk.Writes.refl d, fun hown => ⟨mode, ?_⟩⟩
    rw [← hown hkey] at hs
    rw [hs, Disk.key_of_stat hg hl hs]

def preprocessOptions (c : Context) (f : InputFile) : Preprocess.Options :=
  ⟨c.config.marker, c.config.hash.function, f.path, c.config.sourceMap, c.mapper⟩

theorem writes_step (hg : b.disk.Way b.disk.cwd) (ht : b.disk.Tidy)
    (hc : FileUpdate.Clear b.disk c.config.sourceMap (target dir f))
    (hn : FileUpdate.NamesFile (target dir f))
    (h : (b.step c (into dir) f).failed = b.failed) :
    ∃ places, places ⊆ FileUpdate.places b.disk c.config.sourceMap (target dir f) ∧
      b.disk.Writes places (b.step c (into dir) f).disk ∧
      ∃ data s, b.disk.read f.path = .ok data ∧
        (Preprocess.run (preprocessOptions c f) none data).1 = .ok s ∧
        (OwnTarget b.disk dir f → ∃ mode, (b.step c (into dir) f).disk.stat (target dir f) =
          .ok (Path.toKey b.disk.cwd (target dir f), .file s.output mode)) := by
  obtain hlt | ⟨-, outcome, disk, registry, hrun, hcases⟩ := step_cases c dir b f
  · omega
  · obtain ⟨data, s, hread, hs, hwhat⟩ := FileUpdate.ok_run_cases hrun
    obtain ⟨hm, hdisk⟩ | ⟨hm, hcopy⟩ := hcases
    · obtain ⟨rfl, -⟩ | ⟨-, hmap, ⟨hdry, -⟩ | ⟨-, hw⟩⟩ := hwhat
      · cases hm
      · cases hdry
      · have hmap : outcome.map.isSome = c.config.sourceMap := hmap
        rw [← hmap] at hc
        obtain ⟨hwrites, hstat⟩ := FileUpdate.writes_writeOut ht hg rfl hc hw
        rw [hmap] at hwrites
        rw [hdisk]
        exact ⟨_, fun _ hk => hk, hwrites, data, s, hread, hs, fun _ => hstat hn⟩
    · obtain ⟨-, hout, rfl⟩ | ⟨rfl, -⟩ := hwhat
      · obtain ⟨places, hsub, hw, hstat⟩ :=
          writes_copyUnchanged hg hc.linkFree hn.last_ne_empty hread hcopy
        rw [← hout] at hstat
        exact ⟨places, fun key hk => List.mem_append_right _ (hsub hk), hw, data, s, hread, hs, hstat⟩
      · cases hm

theorem failed_le_step (c : Context) (dir : String) (b : Batch) (f : InputFile) :
    b.failed ≤ (b.step c (into dir) f).failed := by
  obtain hlt | ⟨heq, -⟩ := step_cases c dir b f
  · exact Nat.le_of_lt hlt
  · exact Nat.le_of_eq heq.symm

theorem failed_le_run (c : Context) (dir : String) (b : Batch) (files : List InputFile) :
    b.failed ≤ (b.run c (into dir) files).failed := by
  induction files generalizing b with
  | nil => exact Nat.le_refl _
  | cons f files ih => exact Nat.le_trans (failed_le_step c dir b f) (ih _)

/-- Of two files, the output of the first leaves the second, which is read later, as it is; and the
map of the second leaves the output of the first. -/
structure Precedes (d : Disk) (map : Bool) (dir : String) (g f : InputFile) : Prop where
  source : ∀ key node, d.stat f.path = .ok (key, node) → key ∉ FileUpdate.places d map (target dir g)
  output : map = true →
    Path.toKey d.cwd (target dir g) ≠ Path.toKey d.cwd (target dir f ++ ".map")

/-- Files and their outputs do not get in each other's way. -/
structure Apart (d : Disk) (map : Bool) (dir : String) (files : List InputFile) : Prop where
  clear : ∀ f ∈ files, FileUpdate.Clear d map (target dir f)
  namesFile : ∀ f ∈ files, FileUpdate.NamesFile (target dir f)
  own : ∀ f ∈ files, OwnTarget d dir f
  precedes : files.Pairwise (Precedes d map dir)

theorem Apart.tail (h : Apart d c.config.sourceMap dir (f :: files)) :
    Apart d c.config.sourceMap dir files :=
  ⟨fun g hg => h.clear g (by simp [hg]), fun g hg => h.namesFile g (by simp [hg]),
    fun g hg => h.own g (by simp [hg]), (List.pairwise_cons.1 h.precedes).2⟩

theorem Precedes.target_not_mem {map : Bool} {g : InputFile} (h : Precedes d map dir g f)
    (hne : Path.toKey d.cwd (target dir g) ≠ Path.toKey d.cwd (target dir f)) :
    Path.toKey d.cwd (target dir g) ∉ FileUpdate.places d map (target dir f) := by
  intro hm
  rw [FileUpdate.places, List.mem_append, List.mem_singleton] at hm
  obtain hm | hm := hm
  · split at hm
    · next hmap => exact h.output hmap (List.mem_singleton.1 hm)
    · cases hm
  · exact hne hm

theorem writes_run {places : List Key} (hg : d.Way d.cwd) (ha : Apart d c.config.sourceMap dir files)
    (hne : files.Pairwise fun g f =>
      Path.toKey d.cwd (target dir g) ≠ Path.toKey d.cwd (target dir f))
    (hw : d.Writes places b.disk) (ht : b.disk.Tidy)
    (hs : ∀ f ∈ files, ∀ key node, d.stat f.path = .ok (key, node) → key ∉ places)
    (h : (b.run c (into dir) files).failed = b.failed) :
    ∃ more, (∀ key ∈ more, ∃ f ∈ files, key ∈ FileUpdate.places d c.config.sourceMap (target dir f)) ∧
      b.disk.Writes more (b.run c (into dir) files).disk ∧
      ∀ f ∈ files, ∀ data, d.read f.path = .ok data →
        ∃ s mode, (Preprocess.run (preprocessOptions c f) none data).1 = .ok s ∧
          (b.run c (into dir) files).disk.stat (target dir f) =
            .ok (Path.toKey d.cwd (target dir f), .file s.output mode) := by
  -- induction over the files to come, with the disk of the start kept fixed
  induction files generalizing b places with
  | nil => exact ⟨[], by simp, Disk.Writes.refl _, by simp⟩
  | cons f files ih =>
    have hcwd : b.disk.cwd = d.cwd := hw.cwd_eq
    have hstep : (b.step c (into dir) f).failed = b.failed :=
      Nat.le_antisymm (h ▸ failed_le_run c dir (b.step c (into dir) f) files) (failed_le_step c dir b f)
    have hclear := (ha.clear f (by simp)).of_writes hw
    have hway : b.disk.Way b.disk.cwd := hcwd ▸ hw.way hg
    obtain ⟨here, hsub, hwrites, data, s, hread, hrun, hstat⟩ :=
      writes_step hway ht hclear (ha.namesFile f (by simp)) hstep
    have ht' : (b.step c (into dir) f).disk.Tidy :=
      hwrites.tidy ht fun key name hm => hclear.places_not_temporary hway key name (hsub hm)
    rw [FileUpdate.places, hcwd, ← FileUpdate.places] at hsub
    rw [List.pairwise_cons] at hne
    have hprec := (List.pairwise_cons.1 ha.precedes).1
    have hs' : ∀ g ∈ files, ∀ key node, d.stat g.path = .ok (key, node) → key ∉ places ++ here := by
      intro g hm key node hk hmem
      obtain hmem | hmem := List.mem_append.1 hmem
      · exact hs g (by simp [hm]) key node hk hmem
      · exact (hprec g hm).source key node hk (hsub hmem)
    obtain ⟨more, hmore, hwmore, hall⟩ :=
      ih ha.tail hne.2 (hw.trans hwrites) ht' hs' (h.trans hstep.symm)
    refine ⟨here ++ more, fun key hk => ?_, hwrites.trans hwmore, fun g hm => ?_⟩
    · obtain hk | hk := List.mem_append.1 hk
      · exact ⟨f, by simp, hsub hk⟩
      · obtain ⟨g, hm, hg⟩ := hmore key hk
        exact ⟨g, by simp [hm], hg⟩
    · obtain rfl | hm := List.mem_cons.1 hm
      · intro data' hread'
        obtain ⟨key, mode, hkey⟩ := Disk.read_eq_ok_iff.1 hread'
        have hk := hs g (by simp) key _ hkey
        rw [Disk.read, hw.stat hkey hk] at hread
        obtain rfl := Except.ok.inj hread
        obtain ⟨mode', hfile⟩ := hstat ((ha.own g (by simp)).of_writes hw hkey hk)
        rw [hcwd] at hfile
        refine ⟨s, mode', hrun, hwmore.stat hfile fun hk => ?_⟩
        obtain ⟨f, hf, hk⟩ := hmore _ hk
        exact (hprec f hf).target_not_mem (hne.1 f hf) hk
      · exact hall g hm

theorem failed_eq_zero_of_exit {p : Plan} (h : b.exit p = 0) : b.failed = 0 := by
  rw [Batch.exit] at h
  split at h
  · cases h
  · next hn => exact Nat.eq_zero_of_not_pos fun hpos => hn (.inl hpos)

/-- A command that succeeds with an output directory has found no clash, and no file has failed. -/
theorem perform_cases {r : Report} {args : Args} (hcmd : args.command = .run)
    (hout : args.outDir = some dir) (hdir : dir ≠ "") (h : (perform d r c args).exit = 0) :
    clash? d.cwd dir [] (Collect.files d args.paths c.config.extensions c.cwd) = none ∧
      ∃ b : Batch, b.disk = d ∧
        (b.run c (into dir) (Collect.files d args.paths c.config.extensions c.cwd)).failed = b.failed ∧
        (perform d r c args).disk =
          (b.run c (into dir) (Collect.files d args.paths c.config.extensions c.cwd)).disk := by
  have hplan : Plan.ofArgs args false = into dir := by
    simp [Plan.ofArgs, into, hout, hdir]
  have hprocess : perform d r c args = processFiles d r c args false ∨
      perform d r c args = refuse d r (.noPaths .run) := by
    rw [perform, hcmd]
    cases args.paths with
    | nil => exact .inr rfl
    | cons path paths => exact .inl rfl
  obtain hp | hp := hprocess
  · rw [hp, processFiles, hplan] at h ⊢
    cases hclash : clash? d.cwd dir [] (Collect.files d args.paths c.config.extensions c.cwd) with
    | some e =>
      simp only [into, Option.bind_some, hclash] at h
      cases h
    | none =>
      simp only [into, Option.bind_some, hclash] at h ⊢
      exact ⟨trivial, _, rfl, failed_eq_zero_of_exit h, rfl⟩
  · rw [hp] at h
    cases h

/-- Where files and outputs do not get in each other's way, a command that succeeds leaves in its
output directory, for every file, what preprocessing makes of the content that the file had at the
start. -/
theorem read_output_of_perform {r : Report} {args : Args} (hd : d.IsTree) (ht : d.Tidy)
    (hcmd : args.command = .run) (hout : args.outDir = some dir) (hdir : dir ≠ "")
    (ha : Apart d c.config.sourceMap dir (Collect.files d args.paths c.config.extensions c.cwd))
    (h : (perform d r c args).exit = 0) :
    ∀ f ∈ Collect.files d args.paths c.config.extensions c.cwd, ∀ data, d.read f.path = .ok data →
      ∃ s, (Preprocess.run ⟨c.config.marker, c.config.hash.function, f.path, c.config.sourceMap, c.mapper⟩ none
          data).1 = .ok s ∧
        (perform d r c args).disk.read (Path.join dir f.relative) = .ok s.output := by
  obtain ⟨hclash, b, rfl, hfailed, hdisk⟩ := perform_cases hcmd hout hdir h
  have hne := pairwise_target hd.way hdir (fun _ => Collect.isAbsolute_of_mem_files hd.way) hclash
  obtain ⟨-, -, -, hall⟩ := writes_run hd.way ha hne (Disk.Writes.refl _) ht (by simp) hfailed
  intro f hf data hread
  obtain ⟨s, mode, hs, hstat⟩ := hall f hf data hread
  rw [hdisk]
  exact ⟨s, hs, Disk.read_eq_ok_iff.2 ⟨_, mode, hstat⟩⟩

def nested : Disk :=
  ⟨[(["src"], .directory), (["src", "a.c"], .file (Utf8.encode "SID(\"hello\")\n") Disk.newMode),
    (["out"], .directory), (["out", "a.c"], .file (Utf8.encode "int x;\n") Disk.newMode)], [], "7"⟩

def allOptions : Context :=
  ⟨{ Config.default with sourceMap := true, detectCollisions := true }, [], false, .standard⟩

theorem read_output_of_perform_nested :
    let r := perform nested {} allOptions ⟨.run, ["out/a.c", "src"], {}, some "out", false, false⟩
    r.exit = 0 ∧ (∃ s, (Preprocess.run ⟨.default, Hash.Algorithm.djb2.function, "out/a.c", true, .standard⟩ none
        (Utf8.encode "int x;\n")).1 = .ok s ∧ r.disk.read "out/out/a.c" = .ok s.output) ∧
      ∃ s, (Preprocess.run ⟨.default, Hash.Algorithm.djb2.function, "src/a.c", true, .standard⟩ none
        (Utf8.encode "SID(\"hello\")\n")).1 = .ok s ∧ r.disk.read "out/a.c" = .ok s.output := by
  intro r
  have htree : nested.IsTree := Disk.isTree_of_entries (by decide) (by simp [nested]) (by decide)
  have htidy : nested.Tidy := Disk.tidy_of_entries (by decide) (by decide +kernel)
  have hlinks : ∀ x ∈ nested.entries, ∀ target, x.2 ≠ .link target := by simp [nested]
  have hexit : r.exit = 0 := by decide +kernel
  have hsource : nested.stat "src/a.c" =
      .ok (["src", "a.c"], .file (Utf8.encode "SID(\"hello\")\n") Disk.newMode) := rfl
  have hfiles : Collect.files nested ["out/a.c", "src"] allOptions.config.extensions allOptions.cwd =
      [⟨"out/a.c", "out/a.c"⟩, ⟨"src/a.c", "a.c"⟩] := by decide +kernel
  have hapart : Apart nested true "out" [⟨"out/a.c", "out/a.c"⟩, ⟨"src/a.c", "a.c"⟩] := by
    refine ⟨fun f hf => ?_, fun f hf => ?_, fun f hf hown => ?_, ?_⟩
    · refine FileUpdate.clear_of_entries hlinks ?_
      revert f
      decide +kernel
    · refine ⟨⟨?_, ?_, ?_⟩, ?_⟩
      all_goals
        revert f
        decide +kernel
    · refine absurd hown ?_
      revert f
      decide +kernel
    · refine List.pairwise_pair.2 ⟨fun key node hs => ?_, fun _ => by decide +kernel⟩
      obtain ⟨rfl, -⟩ := Prod.mk.inj (Except.ok.inj (hsource.symm.trans hs))
      decide +kernel
  have hall := read_output_of_perform htree htidy rfl rfl (by decide) (hfiles ▸ hapart) hexit
  rw [hfiles] at hall
  exact ⟨hexit, hall ⟨"out/a.c", "out/a.c"⟩ (by simp) _ rfl, hall ⟨"src/a.c", "a.c"⟩ (by simp) _ rfl⟩

/-- In the other order, the source in the output directory is replaced before it is read: the command
succeeds, and its place there holds the other one's output. -/
theorem execute_replaces_nested :
    let r := execute Explorer.host nested ["run", "--out-dir", "out", "src", "out/a.c"] ⟨[]⟩ [] false
    (nested.read "out/a.c").toOption = some (Utf8.encode "int x;\n") ∧
      Collect.files nested ["src", "out/a.c"] Config.default.extensions [] =
        [⟨"src/a.c", "a.c"⟩, ⟨"out/a.c", "out/a.c"⟩] ∧
      ((Preprocess.run ⟨.default, Hash.Algorithm.djb2.function, "out/a.c", false, .standard⟩ none
        (Utf8.encode "int x;\n")).1.toOption.map (·.output)) = some (Utf8.encode "int x;\n") ∧
      r.toOption.map (fun r => (r.exit, (r.disk.read (Path.join "out" "out/a.c")).toOption)) =
        some (0, some (Utf8.encode "0x0f923099 /* \"hello\" */\n")) := by
  refine ⟨?_, ?_, ?_, ?_⟩
  all_goals decide +kernel

end Command

end HashedLiterals
