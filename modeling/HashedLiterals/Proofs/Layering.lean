import HashedLiterals.Proofs.Recording

/-!
Stages over registries. Main statement: whatever is done with a stage, its base keeps its entries until
the stage is committed, and the stage answers as one flat registry would that was given the entries of
the base and then the same ones as the stage; a commit leaves the base as that registry.
-/
set_option autoImplicit false

namespace HashedLiterals

theorem Entry.firsts_of_nodup {log : List Entry} (h : (log.map (·.hash)).Nodup) : firsts log = log := by
  induction log with
  | nil => rfl
  | cons e log ih =>
    obtain ⟨hnew, hrest⟩ := List.nodup_cons.1 h
    rw [firsts, ih hrest, List.filter_eq_self.2]
    intro f hf
    have hne : f.hash ≠ e.hash := fun he => hnew (List.mem_map.2 ⟨f, hf, he⟩)
    simpa using hne

namespace Registry

variable {r s base : Registry}

inductive Operation where
  | record (e : Entry)
  | check (hash : Int) (literal : String)
  | get (hash : Int)
  | size
  | list
  | clear

inductive Answer where
  | done
  | entry (found : Option Entry)
  | count (n : Nat)
  | entries (all : List Entry)
  deriving DecidableEq

def answer (r : Registry) : Operation → Answer
  | .record _ => .done
  | .check hash literal => .entry (r.clash? hash literal)
  | .get hash => .entry (r.get? hash)
  | .size => .count r.size
  | .list => .entries r.toList
  | .clear => .done

def after (cleared : Registry → Registry) (r : Registry) : Operation → Registry
  | .record e => r.record e
  | .clear => cleared r
  | _ => r

def perform (cleared : Registry → Registry) : Registry → List Operation → List Answer × Registry
  | r, [] => ([], r)
  | r, op :: ops =>
    let more := perform cleared (r.after cleared op) ops
    (r.answer op :: more.1, more.2)

/-- The entries are in one plain registry, and clearing brings the given ones back. -/
def performFlat (start : List Entry) (ops : List Operation) : List Answer × Registry :=
  perform (fun _ => .plain start) (.plain start) ops

/-- The same on a list of all that was recorded, in which the first entry of a hash wins. -/
def answerFrom (log : List Entry) : Operation → Answer
  | .record _ => .done
  | .check hash literal => .entry ((Entry.get? log hash).filter fun e => e.literal != literal)
  | .get hash => .entry (Entry.get? log hash)
  | .size => .count (Entry.firsts log).length
  | .list => .entries (Entry.firsts log)
  | .clear => .done

def logged (start log : List Entry) : Operation → List Entry
  | .record e => log ++ [e]
  | .clear => start
  | _ => log

def performLog (start log : List Entry) : List Operation → List Answer × List Entry
  | [] => ([], log)
  | op :: ops =>
    let more := performLog start (logged start log op) ops
    (answerFrom log op :: more.1, more.2)

theorem plain_recordAll (entries log : List Entry) :
    (plain entries).recordAll log = plain ((plain entries).recordAll log).toList := by
  induction log generalizing entries with
  | nil => rfl
  | cons e log ih => exact ih (Entry.add entries e)

theorem plain_firsts (log : List Entry) : plain (Entry.firsts log) = empty.recordAll log := by
  have hnew : ∀ e : Entry, ((plain []).get? e.hash).isNone = true := fun _ => rfl
  rw [empty, plain_recordAll, toList_recordAll, List.filter_eq_self.2 fun e _ => hnew e]
  rfl

theorem get?_firsts (log : List Entry) (hash : Int) :
    Entry.get? (Entry.firsts log) hash = Entry.get? log hash := by
  have hplain : Entry.get? (Entry.firsts log) hash = (empty.recordAll log).get? hash := by
    rw [← plain_firsts, get?]
  rw [hplain, get?_recordAll, empty, get?, Entry.get?, List.find?_nil, Option.none_or]

theorem answer_firsts (log : List Entry) (op : Operation) :
    (plain (Entry.firsts log)).answer op = answerFrom log op := by
  cases op with
  | check hash literal => rw [answer, answerFrom, clash?, Entry.clash?, get?_firsts]
  | get hash => rw [answer, answerFrom, get?, get?_firsts]
  | record _ | size | list | clear => rfl

theorem after_firsts {start : List Entry} (h : Entry.firsts start = start) (log : List Entry)
    (op : Operation) : (plain (Entry.firsts log)).after (fun _ => .plain start) op =
      plain (Entry.firsts (logged start log op)) := by
  cases op with
  | record e => rw [after, logged, plain_firsts, plain_firsts, recordAll_append]; rfl
  | clear => rw [after, logged, h]
  | check _ _ | get _ | size | list => rfl

theorem perform_firsts {start : List Entry} (h : Entry.firsts start = start) (log : List Entry)
    (ops : List Operation) :
    (plain (Entry.firsts log)).perform (fun _ => .plain start) ops =
      ((performLog start log ops).1, plain (Entry.firsts (performLog start log ops).2)) := by
  induction ops generalizing log with
  | nil => rfl
  | cons op ops ih => rw [perform, after_firsts h, ih, answer_firsts, performLog]

theorem performFlat_eq_log {start : List Entry} (h : (start.map (·.hash)).Nodup) (ops : List Operation) :
    performFlat start ops =
      ((performLog start start ops).1, plain (Entry.firsts (performLog start start ops).2)) := by
  have hstart := Entry.firsts_of_nodup h
  have hperform := perform_firsts hstart start ops
  rwa [hstart] at hperform

/-- No operation tells the two registries apart. -/
def Alike (r s : Registry) : Prop := ∀ op, r.answer op = s.answer op

/-- A registry, or a stack of stages over one, that was never changed beneath a stage which held entries
back. What is done to the base of an empty stage amounts to staging the base anew. -/
inductive Orderly : Registry → Prop
  | empty : Orderly .empty
  | record {r : Registry} (e : Entry) : Orderly r → Orderly (r.record e)
  | clear {r : Registry} : Orderly r → Orderly r.clear
  | commit {r : Registry} : Orderly r → Orderly r.commit
  | stage {r : Registry} : Orderly r → Orderly r.stage
  | base {r : Registry} : Orderly r → Orderly r.base

def hashes (r : Registry) : List Int := r.toList.map (·.hash)

theorem get?_eq_toList (r : Registry) (hash : Int) : r.get? hash = Entry.get? r.toList hash := by
  induction r with
  | plain entries => rfl
  | staged base pending ih => rw [get?_staged, ih, toList, Entry.get?, Entry.get?, Entry.get?,
      List.find?_append]

theorem get?_eq_none_iff {hash : Int} : r.get? hash = none ↔ hash ∉ r.hashes := by
  rw [get?_eq_toList, Entry.get?, List.find?_eq_none, hashes, List.mem_map]
  constructor
  · rintro h ⟨e, he, rfl⟩
    exact h e he (by simp)
  · intro h e he heq
    exact h ⟨e, he, by simpa using heq⟩

theorem hashes_staged (base : Registry) (pending : List Entry) :
    (staged base pending).hashes = base.hashes ++ pending.map (·.hash) := by
  rw [hashes, toList, List.map_append, hashes]

theorem nodup_hashes_record (h : r.hashes.Nodup) (e : Entry) : (r.record e).hashes.Nodup := by
  rw [hashes, toList_record]
  cases hg : r.get? e.hash with
  | some f => simpa [hashes] using h
  | none =>
    have hnew := get?_eq_none_iff.1 hg
    rw [hashes] at h hnew
    simp only [Option.isSome_none, Bool.false_eq_true, if_false, List.map_append, List.map_cons,
      List.map_nil]
    refine List.nodup_append.2 ⟨h, by simp, ?_⟩
    rintro x hx y hy rfl
    exact hnew (List.mem_singleton.1 hy ▸ hx)

theorem nodup_hashes_recordAll (h : r.hashes.Nodup) (entries : List Entry) :
    (r.recordAll entries).hashes.Nodup := by
  induction entries generalizing r with
  | nil => exact h
  | cons e entries ih => exact ih (nodup_hashes_record h e)

theorem nodup_hashes_base (h : r.hashes.Nodup) : r.base.hashes.Nodup := by
  cases r with
  | plain entries => exact h
  | staged base pending =>
    rw [hashes_staged] at h
    exact (List.nodup_append.1 h).1

theorem nodup_of_orderly (h : Orderly r) : r.hashes.Nodup := by
  induction h with
  | empty => exact List.nodup_nil
  | record e _ ih => exact nodup_hashes_record ih e
  | @clear r _ ih =>
    cases r with
    | plain entries => exact List.nodup_nil
    | staged base pending =>
      have hbase : base.hashes.Nodup := nodup_hashes_base ih
      simpa [clear, hashes_staged] using hbase
  | @commit r _ ih =>
    cases r with
    | plain entries => exact ih
    | staged base pending =>
      have hbase : base.hashes.Nodup := nodup_hashes_base ih
      simpa [commit, hashes_staged] using nodup_hashes_recordAll hbase pending
  | stage _ ih => simpa [stage, hashes_staged] using ih
  | base _ ih => exact nodup_hashes_base ih

theorem separate_of_nodup (h : r.hashes.Nodup) : r.Separate := by
  induction r with
  | plain entries => trivial
  | staged base pending ih =>
    rw [hashes_staged] at h
    obtain ⟨hbase, -, hdisjoint⟩ := List.nodup_append.1 h
    refine ⟨ih hbase, fun e he => get?_eq_none_iff.2 fun hm => ?_⟩
    exact hdisjoint _ hm _ (List.mem_map_of_mem he) rfl

theorem alike_plain (h : r.hashes.Nodup) : Alike r (.plain r.toList) := by
  intro op
  cases op with
  | record e => rfl
  | check hash literal =>
    rw [answer, answer, clash?_eq_filter (separate_of_nodup h), get?_eq_toList]
    rfl
  | get hash => rw [answer, answer, get?_eq_toList]; rfl
  | size => rw [answer, answer, ← length_toList]; rfl
  | list => rfl
  | clear => rfl

theorem plain_toList_record (r : Registry) (e : Entry) :
    (plain r.toList).record e = plain (r.record e).toList := by
  rw [record, Entry.add_eq_append, toList_record, get?_eq_toList]

theorem base_record (base : Registry) (e : Entry) (pending : List Entry) :
    ∃ more, (staged base pending).record e = staged base more := by
  rw [record]
  split
  · exact ⟨_, rfl⟩
  · exact ⟨_, rfl⟩

theorem after_staged (op : Operation) (pending : List Entry)
    (h : (staged base pending).hashes.Nodup) :
    ∃ more, (staged base pending).after clear op = staged base more ∧
      (staged base more).hashes.Nodup ∧
      (plain (staged base pending).toList).after (fun _ => .plain base.toList) op =
        plain (staged base more).toList := by
  cases op with
  | record e =>
    obtain ⟨more, hmore⟩ := base_record base e pending
    refine ⟨more, hmore, hmore ▸ nodup_hashes_record h e, ?_⟩
    rw [after, plain_toList_record, hmore]
  | clear =>
    refine ⟨[], rfl, ?_, ?_⟩
    · have hbase : base.hashes.Nodup := nodup_hashes_base h
      simpa [hashes_staged] using hbase
    · rw [after, toList, List.append_nil]
  | check _ _ | get _ | size | list => exact ⟨pending, rfl, h, rfl⟩

theorem perform_staged (ops : List Operation) (pending : List Entry)
    (h : (staged base pending).hashes.Nodup) :
    ∃ answers more, (staged base pending).perform clear ops = (answers, staged base more) ∧
      (staged base more).hashes.Nodup ∧
      (plain (staged base pending).toList).perform (fun _ => .plain base.toList) ops =
        (answers, plain (staged base more).toList) := by
  induction ops generalizing pending with
  | nil => exact ⟨[], pending, rfl, h, rfl⟩
  | cons op ops ih =>
    obtain ⟨next, hstage, hnodup, hflat⟩ := after_staged op pending h
    obtain ⟨answers, more, hs, hm, hf⟩ := ih next hnodup
    refine ⟨(staged base pending).answer op :: answers, more, ?_, hm, ?_⟩
    · rw [perform, hstage, hs]
    · rw [perform, hflat, hf, alike_plain h op]

theorem perform_stage {B : Registry} (h : Orderly B) (ops : List Operation) :
    ∃ answers more, B.stage.perform clear ops = (answers, staged B more) ∧
      (staged B more).hashes.Nodup ∧
      performFlat B.toList ops = (answers, plain (staged B more).toList) := by
  have hnodup : (staged B []).hashes.Nodup := by simpa [hashes_staged] using nodup_of_orderly h
  obtain ⟨answers, more, hs, hm, hf⟩ := perform_staged ops [] hnodup
  refine ⟨answers, more, hs, hm, ?_⟩
  rw [performFlat, ← hf, toList, List.append_nil]

/-- A stage answers as a list does to which all that is recorded is added, whose first entries count. -/
theorem stage_answers_as_log {B : Registry} (h : Orderly B) (ops : List Operation) :
    (B.stage.perform clear ops).1 = (performLog B.toList B.toList ops).1 := by
  obtain ⟨answers, more, hstage, -, hflat⟩ := perform_stage h ops
  rw [performFlat_eq_log (nodup_of_orderly h)] at hflat
  rw [hstage]
  exact (congrArg Prod.fst hflat).symm

theorem toList_recordAll_of_nodup {pending : List Entry} (h : (staged base pending).hashes.Nodup) :
    (base.recordAll pending).toList = base.toList ++ pending := by
  induction pending generalizing base with
  | nil => simp [recordAll]
  | cons e pending ih =>
    have hnone : base.get? e.hash = none := (separate_of_nodup h).2 e (by simp)
    have hrecord : (base.record e).toList = base.toList ++ [e] := by
      rw [toList_record, hnone]
      rfl
    have hrest : (staged (base.record e) pending).hashes.Nodup := by
      rw [hashes_staged, hashes, hrecord]
      rw [hashes_staged, hashes] at h
      simpa using h
    rw [recordAll_cons, ih hrest, hrecord, List.append_assoc, List.singleton_append]

theorem alike_commit {pending : List Entry} (h : (staged base pending).hashes.Nodup) :
    Alike (staged base pending).commit.base (.plain (staged base pending).toList) := by
  have hlist : (base.recordAll pending).toList = (staged base pending).toList :=
    toList_recordAll_of_nodup h
  rw [← hlist]
  exact alike_plain (nodup_hashes_recordAll (nodup_hashes_base h) pending)

/-- A stage over a registry answers as the flat registry does that is given the same entries after those
of the base. It leaves the base alone and lists no hash twice. Once it is committed, the base answers
as the flat registry, and the stage holds nothing back that a further commit or clearing could touch. -/
theorem stage_answers_as_flat {B : Registry} (h : Orderly B) (ops : List Operation) :
    (B.stage.perform clear ops).1 = (performFlat B.toList ops).1 ∧
    (B.stage.perform clear ops).2.base = B ∧
    Alike (B.stage.perform clear ops).2 (performFlat B.toList ops).2 ∧
    (B.stage.perform clear ops).2.hashes.Nodup ∧
    Alike (B.stage.perform clear ops).2.commit.base (performFlat B.toList ops).2 ∧
    (B.stage.perform clear ops).2.commit = (B.stage.perform clear ops).2.commit.base.stage ∧
    (B.stage.perform clear ops).2.commit.clear = (B.stage.perform clear ops).2.commit ∧
    (B.stage.perform clear ops).2.commit.commit = (B.stage.perform clear ops).2.commit := by
  obtain ⟨answers, more, hstage, hm, hflat⟩ := perform_stage h ops
  rw [hstage, hflat]
  exact ⟨rfl, rfl, alike_plain hm, hm, alike_commit hm, rfl, rfl, rfl⟩

/-- Over a stage that holds an entry back, entries with a known and a new hash, before and after
clearing. -/
theorem stage_answers_as_flat_twice :
    let a : Entry := ⟨1, "a", "x.c", 0⟩
    let b : Entry := ⟨2, "b", "x.c", 8⟩
    let c : Entry := ⟨3, "c", "y.c", 0⟩
    let B := (Registry.empty.record a).stage.record b
    let ops : List Operation := [.record c, .clear, .record ⟨2, "d", "y.c", 8⟩, .record c, .check 2 "d",
      .list]
    let r := B.stage.perform clear ops
    r.1 = [.done, .done, .done, .done, .entry (some b), .entries [a, b, c]] ∧
      r.1 = (performFlat B.toList ops).1 ∧ r.2.base = B ∧ r.2.commit.base.toList = [a, b, c] ∧
      Alike r.2.commit.base (performFlat B.toList ops).2 := by
  intro a b c B ops r
  have hB : Orderly B := .record b (.stage (.record a .empty))
  obtain ⟨hanswers, hbase, -, -, hcommit, -⟩ := stage_answers_as_flat hB ops
  exact ⟨by decide, hanswers, hbase, by decide, hcommit⟩

end Registry

end HashedLiterals
