import HashedLiterals.Config.Explorer
import HashedLiterals.Proofs.Answers
import HashedLiterals.Proofs.LinkedDestinations

/-!
Dry runs. Main statement: if readable files lead to different places, which are also what their paths
are resolved to as texts, then a dry run tells what a run in place comes to: the same files are
rewritten, and the same failures are reported.

While files are rewritten in place, the disk keeps its directories, its links and the names in them, so
what is still to be read is found or missed as before.
-/
set_option autoImplicit false

namespace HashedLiterals

namespace Disk

variable {d e e' : Disk} {key k : Key} {path : String} {follow : Bool} {links : Nat}
  {parts : List String}

/-- The disk `e` has what `d` has and no more, though perhaps with other contents in its files. -/
structure SameKinds (d e : Disk) : Prop extends Keeps d e where
  process_eq : e.process = d.process
  get?_none : ∀ key, d.get? key = none → e.get? key = none

def Found.on (e : Disk) : Found → Found
  | .entry key (.file _ _) => e.foundAt key
  | .entry key node => .entry key node
  | .free key => .free key

namespace SameKinds

theorem refl (d : Disk) : SameKinds d d :=
  ⟨⟨rfl, fun _ _ h _ => h, fun _ data mode h => ⟨data, mode, h⟩⟩, rfl, fun _ h => h⟩

theorem trans (h : SameKinds d e) (h' : SameKinds e e') : SameKinds d e' := by
  refine ⟨⟨h'.cwd_eq.trans h.cwd_eq, fun key node hg hf => ?_, fun key data mode hg => ?_⟩,
    h'.process_eq.trans h.process_eq, fun key hn => h'.get?_none key (h.get?_none key hn)⟩
  · exact h'.get?_of_not_file key node (h.get?_of_not_file key node hg hf) hf
  · obtain ⟨data', mode', hg'⟩ := h.file key data mode hg
    exact h'.file key data' mode' hg'

theorem walk_eq (h : SameKinds d e) (follow : Bool) (links : Nat) (key : Key) (parts : List String) :
    e.walk follow links key parts = (d.walk follow links key parts).map (Found.on e) := by
  induction links, key, parts using walk_induction with
  | nil links key => rw [walk_nil, walk_nil]; rfl
  | cons links key part rest ih jumped =>
    rcases part_cases part with rfl | rfl | hl | hn
    · rw [walk_dot, walk_dot, ih]
    · rw [walk_dotDot, walk_dotDot, ih]
    · rw [walk_tooLong hl, walk_tooLong hl]
      rfl
    · cases hg : d.get? (key ++ [part]) with
      | none =>
        rw [walk_none hn hg, walk_none hn (h.get?_none _ hg)]
        split <;> rfl
      | some node =>
        cases node with
        | directory =>
          rw [walk_directory hn hg, walk_directory hn (h.get?_of_not_file _ _ hg (by simp)), ih]
        | file data mode =>
          obtain ⟨data', mode', hg'⟩ := h.file _ _ _ hg
          rw [walk_file hn hg, walk_file hn hg']
          split
          · rw [← foundAt_of_some hg']
            rfl
          · rfl
        | link target =>
          rw [walk_link hn hg, walk_link hn (h.get?_of_not_file _ _ hg (by simp))]
          split
          · rfl
          · cases links with
            | zero => rfl
            | succ links => exact jumped links rfl _ _

theorem find_eq (h : SameKinds d e) (follow : Bool) (path : String) :
    e.find follow path = (d.find follow path).map (Found.on e) := by
  rw [find, find, h.cwd_eq, h.walk_eq]
  split
  · rfl
  · split
    · rfl
    · split <;> rfl

theorem read_error {err : DiskError} (h : SameKinds d e) (hr : d.read path = .error err) :
    e.read path = .error err := by
  rw [read, stat] at hr ⊢
  rw [h.find_eq]
  cases hf : d.find true path with
  | error errno =>
    rw [hf] at hr
    exact hr
  | ok r =>
    rw [hf] at hr
    cases r with
    | free key => exact hr
    | entry key node =>
      cases node with
      | directory => exact hr
      | link target => exact hr
      | file data mode => cases hr

theorem isTree (h : SameKinds d e) (hd : d.IsTree) : e.IsTree := by
  refine ⟨fun key name node hg => ?_, h.cwd_eq ▸ hd.cwd_plain, ?_⟩
  · cases hn : d.get? (key ++ [name]) with
    | none => cases (h.get?_none _ hn).symm.trans hg
    | some node' => exact h.get?_of_not_file _ _ (hd.parents _ _ _ hn) (by simp)
  · rw [h.cwd_eq]
    exact h.get?_of_not_file _ _ hd.cwd_directory (by simp)

theorem tidy (h : SameKinds d e) (ht : Tidy d) : Tidy e := by
  have hsuffix : e.temporarySuffix = d.temporarySuffix := by
    rw [temporarySuffix, h.process_eq, temporarySuffix]
  refine ⟨by rw [h.process_eq]; exact ht.process, fun key name node hg => ?_⟩
  rw [hsuffix] at hg
  cases hd : d.get? (key ++ [name ++ d.temporarySuffix]) with
  | none => cases (h.get?_none _ hd).symm.trans hg
  | some node' =>
    obtain rfl := ht.directory _ _ _ hd
    exact Option.some.inj (hg.symm.trans (h.get?_of_not_file _ _ hd (by simp)))

end SameKinds

/-- From `e` to `e'` the entry of one key was replaced. -/
structure Replaced (e : Disk) (key : Key) (node : Node) (e' : Disk) : Prop where
  cwd_eq : e'.cwd = e.cwd
  process_eq : e'.process = e.process
  get?_eq : e'.get? key = some node
  same : ∀ other, other ≠ key → e'.get? other = e.get? other

theorem Replaced.sameKinds {data data' : Bytes} {mode mode' : Nat}
    (h : Replaced e key (.file data' mode') e') (hg : e.get? key = some (.file data mode)) :
    SameKinds e e' := by
  refine ⟨⟨h.cwd_eq, fun other node ho hf => ?_, fun other x m ho => ?_⟩, h.process_eq,
    fun other ho => ?_⟩
  · rw [h.same other, ho]
    rintro rfl
    exact hf data mode (Option.some.inj (ho.symm.trans hg))
  · by_cases hk : other = key
    · exact ⟨data', mode', hk ▸ h.get?_eq⟩
    · exact ⟨x, m, (h.same other hk).trans ho⟩
  · rw [h.same other, ho]
    rintro rfl
    cases ho.symm.trans hg

end Disk

namespace FileUpdate

variable {d d' e : Disk} {registry registry' : Option Registry} {o : Options}
  {source destination : String} {result : Except Failure Outcome}

theorem run_eq_dry (registry : Option Registry) (o : Options) (destination : String)
    (hread : e.read source = d.read source) (hcwd : e.cwd = d.cwd) :
    let wet := run e registry { o with dryRun := false } source destination
    let dry := run d registry { o with dryRun := true } source destination
    (∃ cause, wet.1 = .error (.destinationUnwritable destination cause)) ∨
      wet.1 = dry.1 ∧ wet.2.2 = dry.2.2 := by
  have hrebase : rebase e source destination = rebase d source destination := by
    funext m
    rw [rebase, rebase, hcwd]
  -- up to the writing, the two calls look at the source and at `cwd` only
  simp only [run, hread]
  cases d.read source with
  | error err => exact .inr ⟨rfl, rfl⟩
  | ok input =>
    simp only [update, hrebase]
    split
    · exact .inr ⟨rfl, rfl⟩
    · split
      · exact .inr ⟨rfl, rfl⟩
      · simp only [Bool.false_eq_true, if_false, if_true]
        split
        · exact .inl ⟨_, rfl⟩
        · exact .inr ⟨rfl, rfl⟩

theorem run_in_place {k : Key} {data : Bytes} {mode : Nat} (hd : d.IsTree) (ht : d.Tidy)
    (ho : o.dryRun = false) (hmap : o.sourceMap = false) (hmake : o.createDirectories = false)
    (hs : d.stat source = .ok (k, .file data mode)) (hres : d.Resolves source k)
    (h : run d registry o source source = (result, d', registry')) :
    (∀ outcome, result = .ok outcome → outcome.modified = false) ∧ d' = d ∨
      ∃ outcome output, result = .ok outcome ∧ outcome.modified = true ∧
        outcome.output = some output ∧ d.Replaced k (.file output mode) d' := by
  cases result with
  | error f =>
    refine .inl ⟨fun outcome hok => (by cases hok), ?_⟩
    rcases disk_of_failed_run hd ht (fun hm => by simp [hmap] at hm) h with hd' | hd'
    · exact hd'
    · rw [hd', prepared_eq_self hmake]
  | ok outcome =>
    obtain ⟨input, s, -, -, ⟨rfl, -, rfl⟩ | ⟨rfl, hsome, ⟨hdry, -⟩ | ⟨-, hw⟩⟩⟩ := ok_run_cases h
    · exact .inl ⟨fun outcome hok => (by cases hok; rfl), rfl⟩
    · cases ho.symm.trans hdry
    · have hnone : s.map.map (rebase d source source) = none := by
        rwa [hmap, Option.isSome_eq_false_iff, Option.isNone_iff_eq_none] at hsome
      rw [hnone] at hw
      refine .inr ⟨_, s.output, rfl, rfl, rfl, ?_⟩
      rcases writeOut_cases hw with ⟨⟨err, he⟩, -⟩ | hall
      · cases he
      · rw [prepared_eq_self hmake] at hall
        have hup := updated_of_writeAll ht hd.way hres.settled (by simp) hall
        obtain ⟨place, mode', hplace, -, hfile, hmode⟩ := hup.written
        obtain rfl := hplace.unique hres
        obtain rfl := hmode _ _ (Disk.get?_of_stat hd.way hs)
        refine ⟨hup.cwd_eq, hup.process_eq, hfile, fun other hne => hup.same other (fun hk => ?_) ?_⟩
        · exact hne (hk.unique hres)
        · simp

end FileUpdate

namespace Command

open FileUpdate (Outcome)

variable {d : Disk} {c : Context} {p : Plan} {b b₀ : Batch} {f : InputFile} {files : List InputFile}

def inPlace (dryRun : Bool) : Plan := ⟨dryRun, none, false⟩

def Batch.answers (c : Context) (p : Plan) (b : Batch) : List InputFile → List Answer
  | [] => []
  | f :: rest =>
    (f, (FileUpdate.run b.disk b.registry (fileOptions c p) f.path (p.destination f)).1) ::
      (b.step c p f).answers c p rest

theorem verdicts_in_place (hp : p.outDir = none) (b : Batch) (files : List InputFile) :
    b.verdicts c p files = b.answers c p files := by
  induction files generalizing b with
  | nil => rfl
  | cons f files ih => rw [Batch.verdicts, Batch.answers, (verdict_in_place hp c b f).1, ih]

theorem step_eq (hp : p.outDir = none) (b : Batch) (f : InputFile) :
    let r := FileUpdate.run b.disk b.registry (fileOptions c p) f.path (p.destination f)
    let a : Answer := (f, r.1)
    b.step c p f = ⟨r.2.1, r.2.2, ⟨b.report.out ++ a.out c p, b.report.err ++ a.err c⟩,
      b.modified + (if a.isModified then 1 else 0), b.failed + (if a.isFailed then 1 else 0)⟩ := by
  intro r a
  obtain ⟨hverdict, hdisk⟩ := verdict_in_place hp c b f
  rw [step_told, hverdict, hdisk]

theorem report_run (hp : p.outDir = none) (b : Batch) (files : List InputFile) :
    let answers := b.answers c p files
    (b.run c p files).report = ⟨b.report.out ++ answers.flatMap (Answer.out c p),
        b.report.err ++ answers.flatMap (Answer.err c)⟩ ∧
      (b.run c p files).modified = b.modified + answers.countP Answer.isModified ∧
      (b.run c p files).failed = b.failed + answers.countP Answer.isFailed := by
  rw [← verdicts_in_place hp]
  exact run_tells c p b files

/-- Readable files lead to different places, to which their paths are also resolved as texts. -/
structure Straight (d : Disk) (files : List InputFile) : Prop where
  settled : ∀ f ∈ files, ∀ data, d.read f.path = .ok data → d.Settled f.path
  distinct : files.Pairwise fun f g => ∀ x y, d.read f.path = .ok x → d.read g.path = .ok y →
    d.realPath f.path ≠ d.realPath g.path

theorem Straight.tail (h : Straight d (f :: files)) : Straight d files :=
  ⟨fun g hg => h.settled g (by simp [hg]), (List.pairwise_cons.1 h.distinct).2⟩

theorem Straight.resolves {key : Key} {data : Bytes} {mode : Nat} (h : Straight d files)
    (hf : f ∈ files) (hs : d.stat f.path = .ok (key, .file data mode)) : d.Resolves f.path key := by
  obtain ⟨k, node, hfound⟩ := Disk.exists_entry_of_find (Disk.stat_eq_ok_iff.1 hs)
  have hread : d.read f.path = .ok data := Disk.read_eq_ok_iff.2 ⟨key, mode, hs⟩
  obtain ⟨place, hplace⟩ := h.settled f hf data hread (.inr ⟨_, hfound⟩)
  obtain ⟨rfl, -⟩ := hplace.of_stat hs
  exact hplace

theorem Straight.key_ne {g : InputFile} {key other : Key} {data data' : Bytes} {mode mode' : Nat}
    (h : Straight d (f :: files)) (hg : g ∈ files)
    (hs : d.stat f.path = .ok (key, .file data mode))
    (hs' : d.stat g.path = .ok (other, .file data' mode')) : other ≠ key := by
  rintro rfl
  refine (List.pairwise_cons.1 h.distinct).1 g hg _ _ (Disk.read_eq_ok_iff.2 ⟨_, _, hs⟩)
    (Disk.read_eq_ok_iff.2 ⟨_, _, hs'⟩) ?_
  rw [((h.resolves (by simp) hs).of_stat hs).2, ((h.tail.resolves hg hs').of_stat hs').2]

/-- From `e` to `e'` the files that stand modified in the answers were replaced by their outputs. -/
structure Rewritten (d : Disk) (answers : List Answer) (e e' : Disk) : Prop where
  cwd_eq : e'.cwd = e.cwd
  process_eq : e'.process = e.process
  changed : ∀ f outcome, (f, .ok outcome) ∈ answers → outcome.modified = true →
    ∃ key data mode output, d.stat f.path = .ok (key, .file data mode) ∧
      outcome.output = some output ∧ e'.get? key = some (.file output mode)
  same : ∀ key, (∀ f outcome node, (f, .ok outcome) ∈ answers → outcome.modified = true →
    d.stat f.path ≠ .ok (key, node)) → e'.get? key = e.get? key

theorem Rewritten.cons {answer : Except Failure Outcome} {answers : List Answer} {e e₁ e₂ : Disk}
    (h : Rewritten d [(f, answer)] e e₁) (h' : Rewritten d answers e₁ e₂)
    (hne : ∀ key node, d.stat f.path = .ok (key, node) → ∀ g outcome node',
      (g, .ok outcome) ∈ answers → outcome.modified = true → d.stat g.path ≠ .ok (key, node')) :
    Rewritten d ((f, answer) :: answers) e e₂ := by
  refine ⟨h'.cwd_eq.trans h.cwd_eq, h'.process_eq.trans h.process_eq, fun g outcome hm hmod => ?_,
    fun key hkey => ?_⟩
  · rcases List.mem_cons.1 hm with he | hm
    · obtain ⟨key, data, mode, output, hs, ho, hfile⟩ :=
        h.changed g outcome (List.mem_singleton.2 he) hmod
      refine ⟨key, data, mode, output, hs, ho, ?_⟩
      rw [h'.same key, hfile]
      rw [(Prod.mk.inj he).1] at hs
      exact hne key _ hs
    · exact h'.changed g outcome hm hmod
  · rw [h'.same key fun g outcome node hm => hkey g outcome node (List.mem_cons_of_mem _ hm)]
    refine h.same key fun g outcome node hm => hkey g outcome node ?_
    exact List.mem_cons.2 (.inl (List.mem_singleton.1 hm))

theorem Rewritten.stat_ne {answers : List Answer} {e e' : Disk} {g : InputFile} {outcome : Outcome}
    {key : Key} {node node' : Node} (h : Rewritten d answers e e') (hd : d.IsTree)
    (hs : Straight d (f :: files)) (hg : g ∈ files) (hm : (g, .ok outcome) ∈ answers)
    (hmod : outcome.modified = true) (hstat : d.stat f.path = .ok (key, node)) :
    d.stat g.path ≠ .ok (key, node') := by
  intro hstat'
  obtain ⟨other, data, mode, -, hfile, -⟩ := h.changed g outcome hm hmod
  obtain ⟨rfl, rfl⟩ := Prod.mk.inj (Except.ok.inj (hfile.symm.trans hstat'))
  have hget := (Disk.get?_of_stat hd.way hstat).symm.trans (Disk.get?_of_stat hd.way hstat')
  rw [Option.some.inj hget] at hstat
  exact hs.key_ne hg hstat hstat' rfl

/-- The readable files hold what they held on the first disk. -/
def Untouched (d e : Disk) (files : List InputFile) : Prop :=
  ∀ f ∈ files, ∀ key data mode, d.stat f.path = .ok (key, .file data mode) →
    e.get? key = some (.file data mode)

theorem Untouched.read_eq {e : Disk} (h : Untouched d e files) (hk : d.SameKinds e) (hf : f ∈ files) :
    e.read f.path = d.read f.path := by
  cases hr : d.read f.path with
  | error err => exact hk.read_error hr
  | ok data =>
    obtain ⟨key, mode, hs⟩ := Disk.read_eq_ok_iff.1 hr
    exact Disk.read_eq_ok_iff.2 ⟨key, mode, hk.stat_of_file (h f hf key data mode hs) hs⟩

inductive Answered (d : Disk) (f : InputFile) (answer : Except Failure Outcome) (e e' : Disk) : Prop
  | kept (not_modified : Answer.isModified (f, answer) = false) (same : e' = e)
  | replaced {outcome : Outcome} {output : Bytes} {key : Key} {data : Bytes} {mode : Nat}
    (ok : answer = .ok outcome) (modified : outcome.modified = true)
    (output_eq : outcome.output = some output) (found : d.stat f.path = .ok (key, .file data mode))
    (replaced : e.Replaced key (.file output mode) e')

theorem answer_eq {e : Disk} (registry : Option Registry) (hd : d.IsTree) (ht : d.Tidy)
    (hk : d.SameKinds e) (hmap : c.config.sourceMap = false) (hs : Straight d files)
    (hun : Untouched d e files) (hf : f ∈ files) :
    let wet := FileUpdate.run e registry (fileOptions c (inPlace false)) f.path f.path
    let dry := FileUpdate.run d registry (fileOptions c (inPlace true)) f.path f.path
    Answer.isUnwritable (f, wet.1) = false →
      wet.1 = dry.1 ∧ wet.2.2 = dry.2.2 ∧ dry.2.1 = d ∧ Answered d f wet.1 e wet.2.1 := by
  intro wet dry hw
  have hread := hun.read_eq hk hf
  have hdry : dry.2.1 = d := FileUpdate.run_dry rfl rfl
  have heq : wet.1 = dry.1 ∧ wet.2.2 = dry.2.2 := by
    rcases FileUpdate.run_eq_dry registry (fileOptions c (inPlace true)) f.path hread hk.cwd_eq
      with ⟨cause, hcause⟩ | heq
    · have hwet : wet.1 = .error (.destinationUnwritable f.path cause) := hcause
      rw [hwet] at hw
      cases hw
    · exact heq
  refine ⟨heq.1, heq.2, hdry, ?_⟩
  cases hr : d.read f.path with
  | error err =>
    rw [hr] at hread
    have hwet : wet = (.error (.sourceUnreadable f.path err.cause), e, registry) := by
      simp only [wet, FileUpdate.run, hread]
    rw [hwet]
    exact .kept rfl rfl
  | ok data =>
    obtain ⟨key, mode, hstat⟩ := Disk.read_eq_ok_iff.1 hr
    have hstat' : e.stat f.path = .ok (key, .file data mode) :=
      hk.stat_of_file (hun f hf key data mode hstat) hstat
    have hres := hs.resolves hf hstat
    have hres' : e.Resolves f.path key := .entry hstat' (hk.realPath (hres.of_stat hstat).2)
    have hin := FileUpdate.run_in_place (hk.isTree hd) (hk.tidy ht) rfl hmap rfl hstat' hres'
      (rfl : _ = (wet.1, wet.2.1, wet.2.2))
    rcases hin with ⟨hnot, hsame⟩ | ⟨outcome, output, hok, hm, ho, hrep⟩
    · refine .kept ?_ hsame
      cases hwet : wet.1 with
      | error err => rfl
      | ok outcome => exact hnot outcome hwet
    · exact .replaced hok hm ho hstat hrep

theorem Answered.rewritten {answer : Except Failure Outcome} {e e' : Disk}
    (h : Answered d f answer e e') : Rewritten d [(f, answer)] e e' := by
  cases h with
  | kept hnot hsame =>
    subst hsame
    refine ⟨rfl, rfl, fun g outcome hmem hmod => ?_, fun _ _ => rfl⟩
    obtain ⟨rfl, rfl⟩ := Prod.mk.inj (List.mem_singleton.1 hmem)
    cases hnot.symm.trans hmod
  | @replaced outcome output key data mode hok hm ho hs hrep =>
    subst hok
    refine ⟨hrep.cwd_eq, hrep.process_eq, fun g outcome' hmem _ => ?_, fun other ho' => ?_⟩
    · obtain ⟨rfl, he⟩ := Prod.mk.inj (List.mem_singleton.1 hmem)
      obtain rfl := Except.ok.inj he
      exact ⟨key, data, mode, output, hs, ho, hrep.get?_eq⟩
    · refine hrep.same other ?_
      rintro rfl
      exact ho' f outcome _ (by simp) hm hs

theorem Answered.untouched {answer : Except Failure Outcome} {e e' : Disk}
    (h : Answered d f answer e e') (hs : Straight d (f :: files)) (hk : d.SameKinds e)
    (hun : Untouched d e (f :: files)) : d.SameKinds e' ∧ Untouched d e' files := by
  have hrest : Untouched d e files := fun g hg => hun g (List.mem_cons_of_mem _ hg)
  cases h with
  | kept _ hsame => exact hsame ▸ ⟨hk, hrest⟩
  | @replaced outcome output key data mode _ _ _ hstat hrep =>
    have hfile : e.get? key = some (.file data mode) := hun f (by simp) key data mode hstat
    refine ⟨hk.trans (hrep.sameKinds hfile), fun g hg other data' mode' hstat' => ?_⟩
    rw [hrep.same other (hs.key_ne hg hstat hstat')]
    exact hrest g hg other data' mode' hstat'

theorem mem_of_mem_answers {a : Answer} (h : a ∈ b.answers c p files) : a.1 ∈ files := by
  induction files generalizing b with
  | nil => cases h
  | cons f files ih =>
    rcases List.mem_cons.1 h with rfl | h
    · exact List.mem_cons_self
    · exact List.mem_cons_of_mem _ (ih h)

/-- Both kinds of runs give the same answers, as far as files can be written; and a run rewrites the
files that stand modified in them. -/
theorem answers_eq (hd : d.IsTree) (ht : d.Tidy) (hmap : c.config.sourceMap = false)
    (hs : Straight d files) (hdisk : b₀.disk = d) (hreg : b.registry = b₀.registry)
    (hk : d.SameKinds b.disk) (hun : Untouched d b.disk files)
    (hw : ∀ a ∈ b.answers c (inPlace false) files, a.isUnwritable = false) :
    b₀.answers c (inPlace true) files = b.answers c (inPlace false) files ∧
      (b₀.run c (inPlace true) files).disk = d ∧
      Rewritten d (b.answers c (inPlace false) files) b.disk
        (b.run c (inPlace false) files).disk := by
  -- induction over the files to come, with the disk of the start kept fixed
  induction files generalizing b₀ b with
  | nil => exact ⟨rfl, hdisk, ⟨rfl, rfl, by simp [Batch.answers], fun _ _ => rfl⟩⟩
  | cons f files ih =>
    have hmem : f ∈ f :: files := by simp
    have hwet := step_eq (c := c) (p := inPlace false) rfl b f
    have hdry := step_eq (c := c) (p := inPlace true) rfl b₀ f
    rw [hdisk, ← hreg] at hdry
    obtain ⟨hanswer, hregistry, hsame, hcases⟩ := answer_eq (f := f) b.registry hd ht hk hmap hs hun
      hmem (hw _ List.mem_cons_self)
    have hdisk' : (b₀.step c (inPlace true) f).disk = d := (congrArg Batch.disk hdry).trans hsame
    have hreg' : (b.step c (inPlace false) f).registry = (b₀.step c (inPlace true) f).registry :=
      (congrArg Batch.registry hwet).trans (hregistry.trans (congrArg Batch.registry hdry).symm)
    have hstep : (b.step c (inPlace false) f).disk = (FileUpdate.run b.disk b.registry
        (fileOptions c (inPlace false)) f.path f.path).2.1 := congrArg Batch.disk hwet
    rw [← hstep] at hcases
    obtain ⟨hk', hun'⟩ := hcases.untouched hs hk hun
    obtain ⟨hanswers, hdisk'', hrest⟩ := ih hs.tail hdisk' hreg' hk' hun'
      fun a ha => hw a (List.mem_cons_of_mem _ ha)
    rw [run_cons, run_cons]
    refine ⟨?_, hdisk'', hcases.rewritten.cons hrest fun key node hstat g outcome node' hm hmod =>
      hrest.stat_ne hd hs (mem_of_mem_answers hm) hm hmod hstat⟩
    rw [Batch.answers, Batch.answers, hanswers, hdisk, ← hreg]
    exact congrArg (fun r => (f, r) :: _) hanswer.symm

theorem processFiles_eq {args : Args} (r : Report) (hout : args.outDir = none) (dryRun : Bool) :
    let files := inputs d c args
    let b := (opening d r c files.length).run c (inPlace dryRun) files
    processFiles d r c args dryRun =
      ⟨b.exit (inPlace dryRun), (b.close c (inPlace dryRun) files.length).report, b.disk⟩ := by
  have hplan : Plan.ofArgs args dryRun = inPlace dryRun := by
    cases dryRun <;> simp [Plan.ofArgs, inPlace, hout]
  rw [← hplan]
  refine processFiles_of_clash?_eq_none r ?_
  rw [hplan]
  rfl

/-- A dry run leaves the disk as it is, and tells which files a run in place rewrites, with how many
strings, and which failures it reports. -/
theorem check_predicts_run {r : Report} {args : Args} (hd : d.IsTree) (ht : d.Tidy)
    (hmap : c.config.sourceMap = false) (hout : args.outDir = none)
    (hs : Straight d (inputs d c args))
    (hw : ∀ a ∈ (opening d r c (inputs d c args).length).answers c (inPlace false) (inputs d c args),
      a.isUnwritable = false) :
    let count := (inputs d c args).length
    let start := opening d r c count
    let answers := start.answers c (inPlace false) (inputs d c args)
    let modified := answers.countP Answer.isModified
    let check := processFiles d r c args true
    let run := processFiles d r c args false
    check.disk = d ∧ Rewritten d answers d run.disk ∧
      check.report.out = start.report.out ++ answers.flatMap (Answer.out c (inPlace true)) ++
        closingOut c (inPlace true) count modified ∧
      run.report.out = start.report.out ++ answers.flatMap (Answer.out c (inPlace false)) ++
        closingOut c (inPlace false) count modified ∧
      check.report.err = run.report.err ∧
      (check.exit = 0 ↔ run.exit = 0 ∧ ∀ a ∈ answers, a.isModified = false) := by
  intro count start answers modified check run
  have huntouched : Untouched d d (inputs d c args) :=
    fun f _ key data mode hstat => Disk.get?_of_stat hd.way hstat
  obtain ⟨hanswers, hdisk, hrun⟩ :=
    answers_eq hd ht hmap hs (rfl : start.disk = d) (rfl : start.registry = start.registry)
      (Disk.SameKinds.refl d) huntouched hw
  obtain ⟨hreport, hmodified, hfailed⟩ :=
    report_run (c := c) (p := inPlace false) rfl start (inputs d c args)
  obtain ⟨hreport', hmodified', hfailed'⟩ :=
    report_run (c := c) (p := inPlace true) rfl start (inputs d c args)
  rw [hanswers] at hreport' hmodified' hfailed'
  have hstart : start.modified = 0 ∧ start.failed = 0 := ⟨rfl, rfl⟩
  rw [hstart.1, Nat.zero_add] at hmodified hmodified'
  rw [hstart.2, Nat.zero_add] at hfailed hfailed'
  have hcheck : check = _ := processFiles_eq r hout true
  have hwet : run = _ := processFiles_eq r hout false
  rw [hcheck, hwet]
  dsimp only
  rw [report_close, report_close, hreport, hreport', hmodified, hmodified', hfailed, hfailed',
    exit_eq_zero_iff, exit_eq_zero_iff, hmodified', hfailed, hfailed']
  have hnone : modified = 0 ↔ ∀ a ∈ answers, a.isModified = false := by
    simp only [modified, List.countP_eq_zero, Bool.not_eq_true]
  refine ⟨hdisk, hrun, rfl, rfl, rfl, ?_⟩
  constructor
  · rintro ⟨hf, hm⟩
    exact ⟨⟨hf, fun h => (by cases h)⟩, hnone.1 (hm rfl)⟩
  · rintro ⟨⟨hf, -⟩, hm⟩
    exact ⟨hf, fun _ => hnone.2 hm⟩

def assorted : Disk :=
  ⟨[(["a.c"], .file (Utf8.encode "SID(\"x\")\n") Disk.newMode),
    (["bad.c"], .file (Utf8.encode "SID(1)\n") Disk.newMode), (["d"], .directory),
    (["d", "b.c"], .file (Utf8.encode "SID(\"y\")\n") 0o600), (["l.c"], .link "d/b.c"),
    (["plain.c"], .file (Utf8.encode "int x;\n") Disk.newMode)], [], "7"⟩

theorem check_predicts_run_assorted :
    let c : Context := ⟨{ Config.default with detectCollisions := true, verbose := true }, [], false, .standard⟩
    let args : Args :=
      ⟨.run, ["a.c", "bad.c", "l.c", "gone.c", "plain.c"], {}, none, false, false⟩
    let check := processFiles assorted {} c args true
    let run := processFiles assorted {} c args false
    check.disk = assorted ∧ check.report.err = run.report.err ∧ check.exit = 1 ∧
      run.disk.get? ["d", "b.c"] = some (.file (Utf8.encode "0x0002b61e /* \"y\" */\n") 0o600) := by
  intro c args check run
  have htree : assorted.IsTree := Disk.isTree_of_entries (by decide) (by simp [assorted]) (by decide)
  have htidy : assorted.Tidy := Disk.tidy_of_entries (by decide) (by decide +kernel)
  have hinputs : inputs assorted c args = [⟨"a.c", "a.c"⟩, ⟨"bad.c", "bad.c"⟩, ⟨"l.c", "l.c"⟩,
      ⟨"gone.c", "gone.c"⟩, ⟨"plain.c", "plain.c"⟩] := by decide +kernel
  have hstraight : Straight assorted (inputs assorted c args) := by
    rw [hinputs]
    refine ⟨fun f hf _ _ => ?_, ?_⟩
    · simp only [List.mem_cons, List.not_mem_nil, or_false] at hf
      rcases hf with rfl | rfl | rfl | rfl | rfl
      · exact (Disk.Resolves.entry rfl rfl : assorted.Resolves "a.c" ["a.c"]).settled
      · exact (Disk.Resolves.entry rfl rfl : assorted.Resolves "bad.c" ["bad.c"]).settled
      · exact (Disk.Resolves.entry rfl rfl : assorted.Resolves "l.c" ["d", "b.c"]).settled
      · exact (Disk.Resolves.free rfl rfl : assorted.Resolves "gone.c" ["gone.c"]).settled
      · exact (Disk.Resolves.entry rfl rfl : assorted.Resolves "plain.c" ["plain.c"]).settled
    · have hpaths : [(⟨"a.c", "a.c"⟩ : InputFile), ⟨"bad.c", "bad.c"⟩, ⟨"l.c", "l.c"⟩,
          ⟨"gone.c", "gone.c"⟩, ⟨"plain.c", "plain.c"⟩].Pairwise fun f g =>
          (assorted.realPath f.path).toOption ≠ (assorted.realPath g.path).toOption := by
        decide +kernel
      exact hpaths.imp fun hne _ _ _ _ he => hne (by rw [he])
  obtain ⟨hdisk, -, -, -, herr, -⟩ := check_predicts_run (r := {}) htree htidy rfl rfl hstraight
    (by decide +kernel)
  exact ⟨hdisk, herr, by decide +kernel, by decide +kernel⟩

def twisted : Disk :=
  ⟨[(["x"], .directory), (["x", "a.c"], .file (Utf8.encode "SID(\"one\")\n") Disk.newMode),
    (["x", "y"], .directory), (["s"], .link "x/y"),
    (["a.c"], .file (Utf8.encode "SID(\"two\")\n") Disk.newMode), (["z"], .directory),
    (["p"], .directory), (["p", "q"], .link "../z"),
    (["p", "a.c"], .file (Utf8.encode "int p;\n") Disk.newMode)], [], "7"⟩

/-- The first output takes the place of the second file, in which nothing is left to replace then. -/
theorem run_misses_twisted :
    let check := execute Explorer.host twisted ["check", "s/../a.c", "p/q/../a.c"] ⟨[]⟩ [] false
    let run := execute Explorer.host twisted ["run", "s/../a.c", "p/q/../a.c"] ⟨[]⟩ [] false
    twisted.IsTree ∧ twisted.Tidy ∧
      (twisted.stat "s/../a.c").toOption.map (·.1) = some ["x", "a.c"] ∧
      (twisted.stat "p/q/../a.c").toOption.map (·.1) = some ["a.c"] ∧
      (twisted.realPath "s/../a.c").toOption = some "/a.c" ∧
      (twisted.realPath "p/q/../a.c").toOption = some "/p/a.c" ∧
      check.toOption.map (fun r => (r.exit, r.report)) =
        some (1, ⟨["s/../a.c: 1 string to hash", "p/q/../a.c: 1 string to hash"], []⟩) ∧
      run.toOption.map (fun r => (r.exit, r.report)) =
        some (0, ⟨["s/../a.c: hashed 1 string"], []⟩) ∧
      run.toOption.bind (·.disk.get? ["x", "a.c"]) =
        some (.file (Utf8.encode "SID(\"one\")\n") Disk.newMode) := by
  refine ⟨?_, ?_, ?_, ?_, ?_, ?_, ?_, ?_, ?_⟩
  · exact Disk.isTree_of_entries (by decide) (by simp [twisted]) (by decide)
  · exact Disk.tidy_of_entries (by decide) (by decide +kernel)
  all_goals decide +kernel

end Command

end HashedLiterals
