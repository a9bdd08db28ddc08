import HashedLiterals.Command.Run

set_option autoImplicit false

namespace HashedLiterals

namespace Command

open FileUpdate (Outcome)

variable {d : Disk} {c : Context} {p : Plan} {b : Batch} {f : InputFile} {files : List InputFile}

abbrev Answer := InputFile × Except Failure Outcome

namespace Answer

def isModified : Answer → Bool
  | (_, .ok outcome) => outcome.modified
  | (_, .error _) => false

def isFailed : Answer → Bool
  | (_, .ok _) => false
  | (_, .error _) => true

def isUnwritable : Answer → Bool
  | (_, .ok _) => false
  | (_, .error f) => f.kind == .destinationUnwritable

def out (c : Context) (p : Plan) : Answer → List String
  | (file, .ok outcome) =>
    if outcome.modified then
      let strings := plural outcome.invocations.length "string"
      [if p.dryRun then file.path ++ ": " ++ strings ++ " to hash"
        else p.destination file ++ ": hashed " ++ strings]
    else if c.config.verbose then ["[strid] " ++ (file.path ++ ": unchanged")] else []
  | (_, .error _) => []

def err (c : Context) : Answer → List String
  | (_, .ok _) => []
  | (_, .error f) => [f.diagnostic.render c.colors false, ""]

end Answer

/-- What becomes of a file: its update fails, or its content is not copied, or all is well. -/
def Batch.verdict (c : Context) (p : Plan) (b : Batch) (f : InputFile) : Except Failure Outcome :=
  let (result, disk, _) :=
    FileUpdate.run b.disk b.registry (fileOptions c p) f.path (p.destination f)
  match result with
  | .error e => .error e
  | .ok outcome =>
    if outcome.modified then .ok outcome
    else match (copyUnchanged disk p f.path (p.destination f)).1 with
      | some e => .error (.destinationUnwritable (p.destination f) e.cause)
      | none => .ok outcome

def Batch.verdicts (c : Context) (p : Plan) (b : Batch) : List InputFile → List Answer
  | [] => []
  | f :: rest => (f, b.verdict c p f) :: (b.step c p f).verdicts c p rest

/-- The disk after a file: as its update leaves it, with a copy of the file if one is made. -/
def Batch.diskAfter (c : Context) (p : Plan) (b : Batch) (f : InputFile) : Disk :=
  let (result, disk, _) :=
    FileUpdate.run b.disk b.registry (fileOptions c p) f.path (p.destination f)
  match result with
  | .error _ => disk
  | .ok outcome =>
    if outcome.modified then disk else (copyUnchanged disk p f.path (p.destination f)).2

theorem step_told (c : Context) (p : Plan) (b : Batch) (f : InputFile) :
    let a : Answer := (f, b.verdict c p f)
    b.step c p f = ⟨b.diskAfter c p f,
      (FileUpdate.run b.disk b.registry (fileOptions c p) f.path (p.destination f)).2.2,
      ⟨b.report.out ++ a.out c p, b.report.err ++ a.err c⟩,
      b.modified + (if a.isModified then 1 else 0), b.failed + (if a.isFailed then 1 else 0)⟩ := by
  intro a
  cases hrun : FileUpdate.run b.disk b.registry (fileOptions c p) f.path (p.destination f) with
  | mk result rest =>
    obtain ⟨disk, registry⟩ := rest
    cases result with
    | error e => simp [a, Batch.step, Batch.verdict, Batch.diskAfter, hrun, Batch.fail,
        Report.diagnose, Report.complain, Answer.out, Answer.err, Answer.isModified, Answer.isFailed]
    | ok outcome =>
      cases hm : outcome.modified with
      | true => simp [a, Batch.step, Batch.verdict, Batch.diskAfter, hrun, hm, Batch.changed,
          Report.print, Answer.out, Answer.err, Answer.isModified, Answer.isFailed]
      | false =>
        cases hcopy : copyUnchanged disk p f.path (p.destination f) with
        | mk failed copied =>
          cases failed with
          | some e => simp [a, Batch.step, Batch.verdict, Batch.diskAfter, hrun, hm, hcopy,
              Batch.unchanged, Batch.fail, Report.diagnose, Report.complain, Answer.out, Answer.err,
              Answer.isModified, Answer.isFailed]
          | none =>
            cases hv : c.config.verbose <;> simp [a, Batch.step, Batch.verdict, Batch.diskAfter, hrun,
              hm, hcopy, Batch.unchanged, hv, Report.log, Report.print, Answer.out, Answer.err,
              Answer.isModified, Answer.isFailed]

theorem run_cons (c : Context) (p : Plan) (b : Batch) (f : InputFile) (files : List InputFile) :
    b.run c p (f :: files) = (b.step c p f).run c p files := rfl

theorem run_tells (c : Context) (p : Plan) (b : Batch) (files : List InputFile) :
    let verdicts := b.verdicts c p files
    (b.run c p files).report = ⟨b.report.out ++ verdicts.flatMap (Answer.out c p),
        b.report.err ++ verdicts.flatMap (Answer.err c)⟩ ∧
      (b.run c p files).modified = b.modified + verdicts.countP Answer.isModified ∧
      (b.run c p files).failed = b.failed + verdicts.countP Answer.isFailed := by
  induction files generalizing b with
  | nil => simp [Batch.run, Batch.verdicts]
  | cons f files ih =>
    obtain ⟨hreport, hmodified, hfailed⟩ := ih (b.step c p f)
    have hstep := step_told c p b f
    simp only [Batch.verdicts, List.flatMap_cons, List.countP_cons]
    rw [run_cons, hreport, hmodified, hfailed,
      congrArg Batch.report hstep, congrArg Batch.modified hstep, congrArg Batch.failed hstep]
    dsimp only
    exact ⟨by simp only [List.append_assoc], by omega, by omega⟩

theorem copyUnchanged_in_place (hp : p.outDir = none) (d : Disk) (source destination : String) :
    copyUnchanged d p source destination = (none, d) := by simp [copyUnchanged, hp]

theorem verdict_in_place (hp : p.outDir = none) (c : Context) (b : Batch) (f : InputFile) :
    let r := FileUpdate.run b.disk b.registry (fileOptions c p) f.path (p.destination f)
    b.verdict c p f = r.1 ∧ b.diskAfter c p f = r.2.1 := by
  simp only [Batch.verdict, Batch.diskAfter, copyUnchanged_in_place hp, ite_self]
  cases FileUpdate.run b.disk b.registry (fileOptions c p) f.path (p.destination f) with
  | mk result rest => cases result <;> exact ⟨rfl, rfl⟩

def opening (d : Disk) (r : Report) (c : Context) (count : Nat) : Batch where
  disk := d
  registry := if c.config.detectCollisions then some .empty else none
  report := r.log c.config.verbose ("Processing " ++ plural count "file" ++ " (marker " ++
    c.config.marker.text ++ ", hash " ++ c.config.hash.name ++ ")")

def closingOut (c : Context) (p : Plan) (count modified : Nat) : List String :=
  if c.config.verbose then ["[strid] " ++ (plural count "file" ++ " processed, " ++
    toString modified ++ " " ++ (if p.dryRun then "to rewrite" else "rewritten") ++ ".")]
  else []

def closingErr (count failed : Nat) : List String :=
  if 0 < failed then ["[strid] Found " ++ plural failed "error" ++ " in " ++ plural count "file" ++ "."]
  else []

theorem report_close (c : Context) (p : Plan) (b : Batch) (count : Nat) :
    (b.close c p count).report = ⟨b.report.out ++ closingOut c p count b.modified,
      b.report.err ++ closingErr count b.failed⟩ := by
  cases hv : c.config.verbose <;> by_cases hf : 0 < b.failed <;>
    simp [Batch.close, Report.log, Report.print, Report.complain, closingOut, closingErr, hv, hf]

def inputs (d : Disk) (c : Context) (args : Args) : List InputFile :=
  Collect.files d args.paths c.config.extensions c.cwd

def Plan.clash? (p : Plan) (d : Disk) (files : List InputFile) : Option UsageError :=
  p.outDir.bind fun dir => Command.clash? d.cwd dir [] files

theorem processFiles_of_clash?_eq_none {args : Args} {dryRun : Bool} (r : Report)
    (h : (Plan.ofArgs args dryRun).clash? d (inputs d c args) = none) :
    let p := Plan.ofArgs args dryRun
    let files := inputs d c args
    let b := (opening d r c files.length).run c p files
    processFiles d r c args dryRun = ⟨b.exit p, (b.close c p files.length).report, b.disk⟩ := by
  have h' : ((Plan.ofArgs args dryRun).outDir.bind fun dir => clash? d.cwd dir []
      (Collect.files d args.paths c.config.extensions c.cwd)) = none := h
  rw [processFiles, h']
  rfl

theorem exit_eq_zero_iff (b : Batch) (p : Plan) :
    b.exit p = 0 ↔ b.failed = 0 ∧ (p.dryRun = true → b.modified = 0) := by
  rw [Batch.exit]
  split
  · next h =>
    simp only [Nat.one_ne_zero, false_iff, not_and]
    rcases h with h | ⟨hp, h⟩
    · omega
    · intro _ hm
      have := hm hp
      omega
  · next h =>
    rw [not_or, not_and] at h
    exact ⟨fun _ => ⟨by omega, fun hp => by have := h.2 hp; omega⟩, fun _ => rfl⟩

end Command

end HashedLiterals
