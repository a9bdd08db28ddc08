import HashedLiterals.Proofs.Collisions

/-!
What calls leave in a registry that they share. Main statement: after any calls the registry holds what it
held before and, in the order of calls and sources, one entry for each hash that an accepted invocation
brought in. Calls that fail leave no trace.
-/
set_option autoImplicit false

namespace HashedLiterals

open Scan (Segmentation)

namespace Entry

/-- The entries without those whose hash an earlier one has. -/
def firsts : List Entry → List Entry
  | [] => []
  | e :: entries => e :: (firsts entries).filter fun f => f.hash != e.hash

theorem add_eq_append (entries : List Entry) (e : Entry) :
    add entries e = entries ++ if (get? entries e.hash).isSome then [] else [e] := by
  unfold add
  cases (get? entries e.hash).isSome <;> simp

end Entry

namespace Registry

theorem toList_record (r : Registry) (e : Entry) :
    (r.record e).toList = r.toList ++ if (r.get? e.hash).isSome then [] else [e] := by
  cases r with
  | plain entries => exact Entry.add_eq_append entries e
  | staged base pending =>
    rw [record, get?_staged, Option.isSome_or]
    cases (base.get? e.hash).isSome with
    | true => simp
    | false => simp [toList, Entry.add_eq_append]

theorem isNone_get?_record (r : Registry) (e : Entry) (hash : Int) :
    ((r.record e).get? hash).isNone = ((r.get? hash).isNone && hash != e.hash) := by
  rw [get?_record, Option.isNone_or]
  by_cases h : e.hash = hash
  · simp [h]
  · simp [h, Ne.symm h]

/-- A registry lists its entries in the order in which their hashes came up. -/
theorem toList_recordAll (r : Registry) (entries : List Entry) :
    (r.recordAll entries).toList =
      r.toList ++ (Entry.firsts entries).filter fun e => (r.get? e.hash).isNone := by
  induction entries generalizing r with
  | nil => simp [recordAll, Entry.firsts]
  | cons e entries ih =>
    simp only [recordAll_cons, ih, toList_record, isNone_get?_record, Entry.firsts,
      List.filter_cons, List.filter_filter, List.append_assoc]
    cases h : r.get? e.hash with
    | none => simp
    | some f => simp

end Registry

namespace FileUpdate

/-- Calls one after the other on one registry: each with its answer, and the registry they leave. -/
def runAll : Registry → List Call → List (Call × Answer) × Registry
  | r, [] => ([], r)
  | r, c :: calls =>
    let more := runAll (c.run r).2 calls
    ((c, (c.run r).1) :: more.1, more.2)

def entries (log : List (Call × Answer)) : List Entry :=
  log.flatMap fun (c, answer) => answer.invocations.map (·.entry c.source)

variable {r : Registry}

theorem entries_cons (c : Call) (answer : Answer) (log : List (Call × Answer)) :
    entries ((c, answer) :: log) = answer.invocations.map (·.entry c.source) ++ entries log := by
  simp [entries]

theorem registry_run (r : Registry) (c : Call) :
    (c.run r).2 = r.recordAll ((c.run r).1.invocations.map (·.entry c.source)) := by
  obtain ⟨e, hrun⟩ | ⟨f, hrun, -⟩ | ⟨outcome, m, input, pieces, tail, hrun, -⟩ := c.run_cases r
  · rw [hrun]
    rfl
  · rw [hrun]
    rfl
  · rw [hrun]
    rfl

theorem registry_runAll (r : Registry) (calls : List Call) :
    (runAll r calls).2 = r.recordAll (entries (runAll r calls).1) := by
  induction calls generalizing r with
  | nil => rfl
  | cons c calls ih =>
    simp only [runAll, entries_cons, Registry.recordAll_append, ih]
    rw [← registry_run]

theorem covers_runAll {seen : List Invocation} (calls : List Call) (h : Covers r seen) :
    Covers (runAll r calls).2
      (seen ++ (runAll r calls).1.flatMap fun (_, answer) => answer.invocations) := by
  induction calls generalizing r seen with
  | nil => simpa [runAll] using h
  | cons c calls ih =>
    have := ih (covers_run c h)
    rw [List.append_assoc] at this
    simpa [runAll] using this

theorem exists_run_of_mem {c : Call} {answer : Answer} {calls : List Call}
    (h : (c, answer) ∈ (runAll r calls).1) : ∃ r', (c.run r').1 = answer := by
  induction calls generalizing r with
  | nil => simp [runAll] at h
  | cons d calls ih =>
    simp only [runAll, List.mem_cons, Prod.mk.injEq] at h
    obtain ⟨rfl, rfl⟩ | h := h
    · exact ⟨r, rfl⟩
    · exact ih h

theorem invocations_of_run {c : Call} {outcome : Outcome} (h : (c.run r).1 = .ok (.ok outcome)) :
    ∃ m input pieces tail, c.Reads m input ∧ Segmentation m input pieces tail [] ∧
      outcome.invocations = Invocation.ofPieces c.options.hash 0 pieces := by
  obtain ⟨e, hrun⟩ | ⟨f, hrun, -⟩ | ⟨outcome', m, input, pieces, tail, hrun, hread, hs, hi, -⟩ :=
    c.run_cases r
  · simp [hrun] at h
  · simp [hrun] at h
  · simp only [hrun, Except.ok.injEq] at h
    subst h
    exact ⟨m, input, pieces, tail, hread, hs, hi⟩

/-- After calls that share a registry it holds what recording the invocations of the successful calls
one by one would have left: the entries from before, and behind them the first entry of each hash that
was not among these. Every accepted invocation finds its literal under its hash, and a call without an
outcome leaves the registry as it was. -/
theorem registry_after_calls (r : Registry) (calls : List Call) :
    (runAll r calls).2 = r.recordAll (entries (runAll r calls).1) ∧
    (runAll r calls).2.toList = r.toList ++
      (Entry.firsts (entries (runAll r calls).1)).filter (fun e => (r.get? e.hash).isNone) ∧
    (∀ c answer, (c, answer) ∈ (runAll r calls).1 →
      (∀ outcome, answer = .ok (.ok outcome) → ∃ m input pieces tail, c.Reads m input ∧
        Segmentation m input pieces tail [] ∧
        outcome.invocations = Invocation.ofPieces c.options.hash 0 pieces) ∧
      ∀ i ∈ answer.invocations, ∃ e, (runAll r calls).2.get? i.hash.toNat = some e ∧
        e.literal = i.literal) ∧
    ∀ (r' : Registry) (c : Call), (∀ outcome, (c.run r').1 ≠ .ok (.ok outcome)) →
      (c.run r').2 = r' := by
  refine ⟨registry_runAll r calls, ?_, fun c answer hmem => ⟨fun outcome ho => ?_, fun i hi => ?_⟩, ?_⟩
  · rw [registry_runAll, Registry.toList_recordAll]
  · obtain ⟨r', hrun⟩ := exists_run_of_mem hmem
    exact invocations_of_run (hrun.trans ho)
  · have hcov : Covers (runAll r calls).2 ([] ++ _) := covers_runAll calls (by simp [Covers])
    exact hcov i (List.mem_flatMap.2 ⟨(c, answer), hmem, hi⟩)
  · intro r' c hfail
    obtain ⟨e, hrun⟩ | ⟨f, hrun, -⟩ | ⟨outcome, m, input, pieces, tail, hrun, -⟩ := c.run_cases r'
    · rw [hrun]
    · rw [hrun]
    · exact absurd (by rw [hrun]) (hfail outcome)

end FileUpdate

end HashedLiterals
