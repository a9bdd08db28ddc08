import HashedLiterals.Proofs.Answers
import HashedLiterals.Proofs.OutputTree

/-!
Failures that concern one file. Main statement: a file that is refused before anything is written for
it can be left out of a run, and nothing changes but its own diagnostic and the numbers of files; and
the exit code tells whether a file failed or would change.
-/
set_option autoImplicit false

namespace HashedLiterals

namespace Command

variable {d : Disk} {c : Context} {p : Plan} {b b' : Batch} {f : InputFile} {e : Failure}
  {files before after : List InputFile}

theorem step_of_refused (h : b.verdict c p f = .error e) (he : e.kind ≠ .destinationUnwritable) :
    (b.step c p f).disk = b.disk ∧ (b.step c p f).registry = b.registry := by
  cases hrun : FileUpdate.run b.disk b.registry (fileOptions c p) f.path (p.destination f) with
  | mk result rest =>
    obtain ⟨disk, registry⟩ := rest
    obtain ⟨⟨failure, rfl⟩, rfl, rfl⟩ | ⟨input, s, staged, -, -, hwhat⟩ := FileUpdate.run_cases hrun
    · rw [Batch.step, hrun]
      exact ⟨rfl, rfl⟩
    · obtain ⟨-, rfl, -, -⟩ | ⟨-, failed, -, ⟨err, -, rfl, -⟩ | ⟨-, rfl⟩⟩ := hwhat
      · simp only [Batch.verdict, hrun, Bool.false_eq_true, if_false] at h
        split at h
        · cases h
          exact absurd rfl he
        · cases h
      · simp only [Batch.verdict, hrun] at h
        cases h
        exact absurd rfl he
      · simp [Batch.verdict, hrun] at h

theorem step_congr (hdisk : b.disk = b'.disk) (hreg : b.registry = b'.registry) :
    b.verdict c p f = b'.verdict c p f ∧ (b.step c p f).disk = (b'.step c p f).disk ∧
      (b.step c p f).registry = (b'.step c p f).registry := by
  rw [step_told, step_told, Batch.verdict, Batch.verdict, Batch.diskAfter, Batch.diskAfter, hdisk, hreg]
  exact ⟨rfl, rfl, rfl⟩

theorem run_congr (files : List InputFile) (hdisk : b.disk = b'.disk)
    (hreg : b.registry = b'.registry) :
    b.verdicts c p files = b'.verdicts c p files ∧
      (b.run c p files).disk = (b'.run c p files).disk ∧
      (b.run c p files).registry = (b'.run c p files).registry := by
  induction files generalizing b b' with
  | nil => exact ⟨rfl, hdisk, hreg⟩
  | cons f files ih =>
    obtain ⟨hverdict, hdisk', hreg'⟩ := step_congr (c := c) (p := p) (f := f) hdisk hreg
    obtain ⟨hverdicts, hrest⟩ := ih hdisk' hreg'
    rw [Batch.verdicts, Batch.verdicts, hverdict, hverdicts]
    exact ⟨rfl, hrest⟩

theorem run_files_append (c : Context) (p : Plan) (b : Batch) (before after : List InputFile) :
    b.run c p (before ++ after) = (b.run c p before).run c p after := List.foldl_append

theorem verdicts_append (c : Context) (p : Plan) (b : Batch) (before after : List InputFile) :
    b.verdicts c p (before ++ after) =
      b.verdicts c p before ++ (b.run c p before).verdicts c p after := by
  induction before generalizing b with
  | nil => rfl
  | cons f before ih => rw [List.cons_append, Batch.verdicts, Batch.verdicts, run_cons, ih]; rfl

theorem map_fst_verdicts (c : Context) (p : Plan) (b : Batch) (files : List InputFile) :
    (b.verdicts c p files).map (·.1) = files := by
  induction files generalizing b with
  | nil => rfl
  | cons f files ih => rw [Batch.verdicts, List.map_cons, ih]

/-- Without a refused file the others fare as before. -/
theorem run_without_refused (b' : Batch) (after : List InputFile) (h : (b.run c p before).verdict c p f = .error e)
    (he : e.kind ≠ .destinationUnwritable) (hdisk : b.disk = b'.disk)
    (hreg : b.registry = b'.registry) :
    (b'.run c p (before ++ after)).disk = (b.run c p (before ++ f :: after)).disk ∧
      (b'.run c p (before ++ after)).registry = (b.run c p (before ++ f :: after)).registry ∧
      ∃ earlier later, earlier.map (·.1) = before ∧ later.map (·.1) = after ∧
        b.verdicts c p (before ++ f :: after) = earlier ++ (f, .error e) :: later ∧
        b'.verdicts c p (before ++ after) = earlier ++ later := by
  obtain ⟨hdisk', hreg'⟩ := step_of_refused h he
  obtain ⟨hearlier, hbefore⟩ := run_congr (c := c) (p := p) before hdisk hreg
  obtain ⟨hlater, hd, hr⟩ := run_congr (c := c) (p := p) after (hbefore.1.symm.trans hdisk'.symm)
    (hbefore.2.symm.trans hreg'.symm)
  rw [run_files_append, run_files_append, run_cons]
  refine ⟨hd, hr, b.verdicts c p before, _, map_fst_verdicts c p b before,
    map_fst_verdicts c p ((b.run c p before).step c p f) after, ?_, ?_⟩
  · rw [verdicts_append, Batch.verdicts, h]
  · rw [verdicts_append, ← hearlier, hlater]

theorem Plan.clash?_sublist {others : List InputFile} (hs : others.Sublist files)
    (h : p.clash? d files = none) : p.clash? d others = none := by
  cases hp : p.outDir with
  | none => simp [Plan.clash?, hp]
  | some dir =>
    simp only [Plan.clash?, hp, Option.bind_some, clash?_eq_none_iff] at h ⊢
    exact ⟨fun f hf => h.1 f (hs.subset hf), h.2.sublist hs⟩

theorem exit_eq_one_iff (b : Batch) (p : Plan) :
    b.exit p = 1 ↔ 0 < b.failed ∨ p.dryRun = true ∧ 0 < b.modified := by
  rw [Batch.exit]
  split
  · next h => simp [h]
  · next h => simp [h]

/-- The exit code tells whether a file failed or, in a dry run, would change. -/
theorem exit_processFiles_eq_one_iff {args : Args} {dryRun : Bool} (r : Report)
    (hclash : (Plan.ofArgs args dryRun).clash? d (inputs d c args) = none) :
    (processFiles d r c args dryRun).exit = 1 ↔
      ∃ a ∈ (opening d r c (inputs d c args).length).verdicts c (Plan.ofArgs args dryRun)
        (inputs d c args), a.isFailed = true ∨ dryRun = true ∧ a.isModified = true := by
  let start := opening d r c (inputs d c args).length
  have hstart : start.modified = 0 ∧ start.failed = 0 := ⟨rfl, rfl⟩
  have hdry : (Plan.ofArgs args dryRun).dryRun = dryRun := rfl
  obtain ⟨-, hmodified, hfailed⟩ := run_tells c (Plan.ofArgs args dryRun) start (inputs d c args)
  rw [hstart.1, Nat.zero_add] at hmodified
  rw [hstart.2, Nat.zero_add] at hfailed
  rw [processFiles_of_clash?_eq_none r hclash]
  dsimp only
  rw [exit_eq_one_iff, hmodified, hfailed, hdry, List.countP_pos_iff, List.countP_pos_iff]
  constructor
  · rintro (⟨a, ha, h⟩ | ⟨hdry, a, ha, h⟩)
    · exact ⟨a, ha, .inl h⟩
    · exact ⟨a, ha, .inr ⟨hdry, h⟩⟩
  · rintro ⟨a, ha, h | ⟨hdry, h⟩⟩
    · exact .inl ⟨a, ha, h⟩
    · exact .inr ⟨hdry, a, ha, h⟩

/-- A refused file can be left out of a list of files without a clash: the disk and the registry come
out the same, and so do the lines and the diagnostics of all other files. A batch returns 1 if and only
if a file failed or, in a dry run, would change. -/
theorem refused_file_left_out {r : Report} {args : Args} {dryRun : Bool}
    (hclash : (Plan.ofArgs args dryRun).clash? d files = none) :
    let p := Plan.ofArgs args dryRun
    let start (files : List InputFile) := opening d r c files.length
    let done (files : List InputFile) := (start files).run c p files
    (∀ before f after e, files = before ++ f :: after →
      ((start files).run c p before).verdict c p f = .error e → e.kind ≠ .destinationUnwritable →
      let others := before ++ after
      p.clash? d others = none ∧ (done others).disk = (done files).disk ∧
      (done others).registry = (done files).registry ∧
      ∃ earlier later, earlier.map (·.1) = before ∧ later.map (·.1) = after ∧
        (start files).verdicts c p files = earlier ++ (f, .error e) :: later ∧
        (start others).verdicts c p others = earlier ++ later ∧
        (done files).report =
          ⟨(start files).report.out ++ (earlier ++ later).flatMap (Answer.out c p),
            (start files).report.err ++ (earlier.flatMap (Answer.err c) ++
              [e.diagnostic.render c.colors false, ""] ++ later.flatMap (Answer.err c))⟩ ∧
        (done others).report =
          ⟨(start others).report.out ++ (earlier ++ later).flatMap (Answer.out c p),
            (start others).report.err ++ (earlier ++ later).flatMap (Answer.err c)⟩) ∧
    (inputs d c args = files → ((processFiles d r c args dryRun).exit = 1 ↔
      ∃ a ∈ (start files).verdicts c p files,
        a.isFailed = true ∨ dryRun = true ∧ a.isModified = true)) := by
  intro p start done
  refine ⟨?_, ?_⟩
  · rintro before f after e rfl hf he others
    obtain ⟨hdisk, hreg, earlier, later, hbefore, hafter, hall, hothers⟩ :=
      run_without_refused (start others) after hf he rfl rfl
    refine ⟨Plan.clash?_sublist (by simp [others]) hclash, hdisk, hreg, earlier, later, hbefore,
      hafter, hall, hothers, ?_, ?_⟩
    · refine (run_tells c p _ _).1.trans ?_
      rw [hall]
      simp [Answer.out, Answer.err]
    · refine (run_tells c p _ _).1.trans ?_
      rw [hothers]
  · rintro rfl
    exact exit_processFiles_eq_one_iff r hclash

def rivals : Disk :=
  ⟨[(["a.c"], .file (Utf8.encode "SID(\"Ab\")\n") Disk.newMode),
    (["b.c"], .file (Utf8.encode "SID(\"BA\")\n") Disk.newMode),
    (["c.c"], .file (Utf8.encode "SID(\"x\")\n") Disk.newMode)], [], "7"⟩

theorem refused_file_left_out_rivals :
    let c : Context := ⟨{ Config.default with detectCollisions := true }, [], false, .standard⟩
    let args : Args := ⟨.run, ["a.c", "b.c", "c.c"], {}, some "out", false, false⟩
    let p := Plan.ofArgs args false
    let start (files : List InputFile) := opening rivals {} c files.length
    let files : List InputFile := [⟨"a.c", "a.c"⟩, ⟨"b.c", "b.c"⟩, ⟨"c.c", "c.c"⟩]
    let others : List InputFile := [⟨"a.c", "a.c"⟩, ⟨"c.c", "c.c"⟩]
    p.clash? rivals files = none ∧ (processFiles rivals {} c args false).exit = 1 ∧
      ((start others).run c p others).disk = ((start files).run c p files).disk ∧
      ((start others).run c p others).registry = ((start files).run c p files).registry ∧
      ((start others).run c p others).report =
        ⟨["out/a.c: hashed 1 string", "out/c.c: hashed 1 string"], []⟩ := by
  intro c args p start files others
  have hclash : p.clash? rivals files = none := by decide +kernel
  obtain ⟨hleft, hexit⟩ := refused_file_left_out (r := {}) (c := c) hclash
  have hrefused : let v := ((start files).run c p [⟨"a.c", "a.c"⟩]).verdict c p ⟨"b.c", "b.c"⟩
      Answer.isFailed (⟨"b.c", "b.c"⟩, v) = true ∧ Answer.isUnwritable (⟨"b.c", "b.c"⟩, v) = false := by
    decide +kernel
  cases hv : ((start files).run c p [⟨"a.c", "a.c"⟩]).verdict c p ⟨"b.c", "b.c"⟩ with
  | ok outcome =>
    rw [hv] at hrefused
    cases hrefused.1
  | error e =>
    rw [hv] at hrefused
    have hkind : e.kind ≠ .destinationUnwritable := by simpa [Answer.isUnwritable] using hrefused.2
    obtain ⟨-, hdisk, hreg, -⟩ :=
      hleft [⟨"a.c", "a.c"⟩] ⟨"b.c", "b.c"⟩ [⟨"c.c", "c.c"⟩] e rfl hv hkind
    obtain ⟨a, ha, hfailed⟩ : ∃ a ∈ (start files).verdicts c p files, a.isFailed = true :=
      List.any_eq_true.1 (by decide +kernel)
    exact ⟨hclash, (hexit (by decide +kernel)).2 ⟨a, ha, .inl hfailed⟩, hdisk, hreg,
      by decide +kernel⟩

end Command

end HashedLiterals
