import HashedLiterals.Proofs.Recording

/-!
Which entry a collision is reported with. Main statement: the report names the first invocation of the
same source that has the hash, and the entry of the registry only if there is none; both have the same
literal. So a literal that an earlier file brought in and that this source repeats is reported where it
is repeated, not where it was seen first.
-/
set_option autoImplicit false

namespace HashedLiterals

open Scan (Segmentation)

namespace Entry

def seenFirst (e : Entry) : String :=
  "\"" ++ e.literal ++ "\" was seen first in " ++ e.fileName ++ " at byte " ++ Number.text e.offset

theorem find?_of_get?_none {entries : List Entry} {hash : Int} (literal : String)
    (h : get? entries hash = none) :
    entries.find? (fun f => f.hash == hash && f.literal != literal) = none := by
  rw [List.find?_eq_none]
  intro f hf
  have := List.find?_eq_none.1 h f hf
  simp only [Bool.not_eq_true] at this
  simp [this]

theorem get?_append (es fs : List Entry) (hash : Int) :
    get? (es ++ fs) hash = (get? es hash).or (get? fs hash) := List.find?_append

theorem find?_of_get? {entries : List Entry} {hash : Int} {literal : String} {e : Entry}
    (h : get? entries hash = some e) (hl : e.literal ≠ literal) :
    entries.find? (fun f => f.hash == hash && f.literal != literal) = some e := by
  obtain ⟨he, before, after, rfl, hb⟩ := List.find?_eq_some_iff_append.1 h
  refine List.find?_eq_some_iff_append.2 ⟨by simpa [hl] using he, before, after, rfl, ?_⟩
  intro f hf
  have := hb f hf
  simp only [Bool.not_eq_true'] at this
  simp [this]

end Entry

def Registry.firstSeen? (r : Registry) (entries : List Entry) (hash : Int) : Option Entry :=
  (r.get? hash).or (Entry.get? entries hash)

namespace Failure

theorem notes_hashCollision (s : Site) (length : Nat) (literal : String) (hash : UInt32) (e : Entry) :
    (hashCollision s length literal hash e).diagnostic.notes = [e.seenFirst] := rfl

theorem kind_ofFault_ne (s : Site) (f : Scan.Fault) : (ofFault s f).kind ≠ .hashCollision := by
  cases f with
  | notALiteral => simp [ofFault, notALiteral]
  | unterminated => simp [ofFault, unterminatedLiteral]
  | unclosed => simp [ofFault, unclosedInvocation]

end Failure

namespace Preprocess

variable {o : Options} {r : Registry} {input : Bytes} {fileName : String} {existing : Entry}
  {i : Invocation}

theorem firstCollision?_eq_some {seen : List Entry} {is : List Invocation}
    (h : firstCollision? r fileName seen is = some (i, existing)) :
    ∃ earlier later, is = earlier ++ i :: later ∧ firstCollision? r fileName seen earlier = none ∧
      earlier? r (seen ++ earlier.map (·.entry fileName)) i.hash.toNat i.literal = some existing := by
  induction is generalizing seen with
  | nil => simp [firstCollision?] at h
  | cons j is ih =>
    rw [firstCollision?] at h
    cases hj : earlier? r seen j.hash.toNat j.literal with
    | some e =>
      simp only [hj, Option.some.injEq, Prod.mk.injEq] at h
      obtain ⟨rfl, rfl⟩ := h
      exact ⟨[], is, rfl, rfl, by simpa using hj⟩
    | none =>
      rw [hj] at h
      obtain ⟨earlier, later, rfl, hn, he⟩ := ih h
      refine ⟨j :: earlier, later, rfl, ?_, by simpa using he⟩
      exact (firstCollision?_cons_eq_none_iff r fileName seen j earlier).2 ⟨hj, hn⟩

/-- What a collision refers to: the first entry of the hash in the same source, or else a clash with the
registry. -/
theorem earlier?_eq_some {earlier : List Invocation} (hn : firstCollision? r fileName [] earlier = none)
    (h : earlier? r (earlier.map (·.entry fileName)) i.hash.toNat i.literal = some existing) :
    existing.literal ≠ i.literal ∧
      (Entry.get? (earlier.map (·.entry fileName)) i.hash.toNat).or
        (r.clash? i.hash.toNat i.literal) = some existing := by
  cases hg : Entry.get? (earlier.map (·.entry fileName)) i.hash.toNat with
  | none =>
    have hf := Entry.find?_of_get?_none i.literal hg
    rw [earlier?, hf, Option.none_or] at h
    exact ⟨Registry.literal_ne_of_clash? h, h⟩
  | some e =>
    obtain ⟨hmem, hkey⟩ := Entry.get?_eq_some hg
    obtain ⟨j, hj, rfl⟩ := List.mem_map.1 hmem
    have hji := Invocation.hash_entry_eq_iff.1 hkey
    by_cases hl : j.literal = i.literal
    · -- Then the invocation repeats the literal of one that collided with nothing.
      have hclash := (((firstCollision?_eq_none_iff _ _ _ _).1 hn).1 j hj).1
      have hnone : earlier? r (earlier.map (·.entry fileName)) i.hash.toNat i.literal = none := by
        refine (earlier?_eq_none_iff r _ _ _).2 ⟨by rw [← hji, ← hl]; exact hclash, ?_⟩
        intro e he hke
        obtain ⟨k, hk, rfl⟩ := List.mem_map.1 he
        have hki := Invocation.hash_entry_eq_iff.1 hke
        exact (FileUpdate.literal_eq_of_firstCollision? hn hk hj (hki.trans hji.symm)).trans hl
      rw [hnone] at h
      simp at h
    · have hf := Entry.find?_of_get? hg hl
      rw [earlier?, hf, Option.some_or] at h
      exact ⟨Option.some.inj h ▸ hl, h⟩

/-- The first entry of the hash has the same literal in the registry and in the source. -/
theorem literal_eq_of_get? {earlier : List Invocation} {e f : Entry}
    (hn : firstCollision? r fileName [] earlier = none)
    (he : Entry.get? (earlier.map (·.entry fileName)) i.hash.toNat = some e)
    (hf : r.get? i.hash.toNat = some f) : f.literal = e.literal := by
  obtain ⟨hmem, hkey⟩ := Entry.get?_eq_some he
  obtain ⟨j, hj, rfl⟩ := List.mem_map.1 hmem
  have hclash := (((firstCollision?_eq_none_iff _ _ _ _).1 hn).1 j hj).1
  rw [Invocation.hash_entry_eq_iff.1 hkey] at hclash
  exact Registry.literal_eq_of_clash? hclash hf

/-- The entry of a collision beside the first entry of the hash in the registry and the source. -/
theorem firstSeen?_of_earlier? {earlier : List Invocation} (hr : r.Separate)
    (hn : firstCollision? r fileName [] earlier = none)
    (h : earlier? r (earlier.map (·.entry fileName)) i.hash.toNat i.literal = some existing) :
    (Entry.get? (earlier.map (·.entry fileName)) i.hash.toNat).or (r.get? i.hash.toNat) =
        some existing ∧
      ∃ first, r.firstSeen? (earlier.map (·.entry fileName)) i.hash.toNat = some first ∧
        first.literal = existing.literal ∧
        (r.get? i.hash.toNat = none ∨
          Entry.get? (earlier.map (·.entry fileName)) i.hash.toNat = none → existing = first) := by
  obtain ⟨-, hor⟩ := earlier?_eq_some hn h
  rw [Registry.clash?_eq_filter hr] at hor
  rw [Registry.firstSeen?]
  cases hs : Entry.get? (earlier.map (·.entry fileName)) i.hash.toNat with
  | none =>
    rw [hs, Option.none_or] at hor
    have hreg := (Option.filter_eq_some_iff.1 hor).1
    rw [hreg]
    exact ⟨rfl, existing, rfl, rfl, fun _ => rfl⟩
  | some e =>
    rw [hs, Option.some_or, Option.some.injEq] at hor
    subst hor
    cases hreg : r.get? i.hash.toNat with
    | none => exact ⟨rfl, e, rfl, rfl, fun _ => rfl⟩
    | some g =>
      refine ⟨rfl, g, rfl, literal_eq_of_get? hn hs hreg, fun hnone => ?_⟩
      simp at hnone

theorem collision_of_run {f : Failure} (h : (run o (some r) input).1 = .error f)
    (hk : f.kind = .hashCollision) :
    ∃ i existing, firstCollision? r o.fileName []
        (Invocation.ofPieces o.hash 0 (Scan.scan o.marker input).pieces) = some (i, existing) ∧
      f = .hashCollision (site o input i.start) (i.stop - i.start) i.literal i.hash existing := by
  unfold run at h
  simp only at h
  split at h
  · next e hf =>
    rw [Except.error.injEq] at h
    subst h
    simp only [failure?, Option.bind_some] at hf
    split at hf
    · next i existing hc => exact ⟨i, existing, hc, (Option.some.inj hf).symm⟩
    · exact absurd (Option.some.inj hf ▸ hk) (Failure.kind_ofFault_ne _ _)
    · simp at hf
  · simp at h

end Preprocess

namespace FileUpdate

variable {r : Registry} {c : Call} {f : Failure}

theorem collision_of_call (h : (c.run r).1 = .ok (.error f)) (hk : f.kind = .hashCollision) :
    ∃ m input earlier i later existing, c.Reads m input ∧
      Invocation.ofPieces c.options.hash 0 (Scan.scan m input).pieces = earlier ++ i :: later ∧
      f = .hashCollision (Preprocess.site (c.preprocessing m) input i.start) (i.stop - i.start)
        i.literal i.hash existing ∧
      Preprocess.firstCollision? r.stage c.source [] earlier = none ∧
      Preprocess.earlier? r.stage (earlier.map (·.entry c.source)) i.hash.toNat i.literal =
        some existing := by
  obtain ⟨e, hrun⟩ | ⟨f', hrun, hf⟩ | ⟨outcome, m, input, pieces, tail, hrun, -⟩ := c.run_cases r
  · simp [hrun] at h
  · simp only [hrun, Except.ok.injEq, Except.error.injEq] at h
    subst h
    obtain ⟨m, input, hread, hpre⟩ := hf hk
    obtain ⟨i, existing, hc, rfl⟩ := Preprocess.collision_of_run hpre hk
    obtain ⟨earlier, later, hi, hn, he⟩ := Preprocess.firstCollision?_eq_some hc
    exact ⟨m, input, earlier, i, later, existing, hread, hi, rfl, hn, he⟩
  · simp [hrun] at h

theorem firstSeen?_runAll (r : Registry) (calls : List Call) (es : List Entry) (hash : Int) :
    (runAll r calls).2.firstSeen? es hash =
      r.firstSeen? (entries (runAll r calls).1 ++ es) hash := by
  rw [Registry.firstSeen?, registry_runAll, Registry.get?_recordAll, Registry.firstSeen?,
    Entry.get?_append, Option.or_assoc]

/-- Among calls that share a registry, a collision is reported with the first invocation of the same
source that has the hash, or else with the entry of the registry. The first entry of the hash in the run,
which the registry holds if it holds any, has the reported literal, and it is the reported entry
unless both the registry and the same source have the hash. -/
theorem reported_entry (hr : r.Separate) (calls : List Call)
    (h : (c.run (runAll r calls).2).1 = .ok (.error f)) (hk : f.kind = .hashCollision) :
    ∃ m input earlier i later existing first, c.Reads m input ∧
      Invocation.ofPieces c.options.hash 0 (Scan.scan m input).pieces = earlier ++ i :: later ∧
      f.offset = some (i.start : Int) ∧ f.diagnostic.notes = [existing.seenFirst] ∧
      existing.literal ≠ i.literal ∧
      (Entry.get? (earlier.map (·.entry c.source)) i.hash.toNat).or
        ((runAll r calls).2.get? i.hash.toNat) = some existing ∧
      (runAll r calls).2.firstSeen? (earlier.map (·.entry c.source)) i.hash.toNat = some first ∧
      r.firstSeen? (entries (runAll r calls).1 ++ earlier.map (·.entry c.source)) i.hash.toNat =
        some first ∧
      first.literal = existing.literal ∧
      ((runAll r calls).2.get? i.hash.toNat = none ∨
        Entry.get? (earlier.map (·.entry c.source)) i.hash.toNat = none → existing = first) := by
  obtain ⟨m, input, earlier, i, later, existing, hread, hi, rfl, hn, he⟩ := collision_of_call h hk
  have hsep : (runAll r calls).2.stage.Separate := by
    rw [registry_runAll]
    exact ⟨Registry.separate_recordAll hr _, by simp⟩
  obtain ⟨hor, first, hfirst, hl, heq⟩ := Preprocess.firstSeen?_of_earlier? hsep hn he
  have hne := (Preprocess.earlier?_eq_some hn he).1
  simp only [Registry.firstSeen?, Registry.get?_stage] at hor hfirst heq
  refine ⟨m, input, earlier, i, later, existing, first, hread, hi, rfl,
    Failure.notes_hashCollision _ _ _ _ _, hne, hor, hfirst, ?_, hl, heq⟩
  rw [← firstSeen?_runAll]
  exact hfirst

def repeated : Disk :=
  ⟨[(["a.c"], .file (Utf8.encode "SID(\"Ab\");\n") Disk.newMode),
    (["b.c"], .file (Utf8.encode "SID(\"Ab\");\nSID(\"BA\");\n") Disk.newMode)], [], ""⟩

def Call.tryOut (disk : Disk) (path : String) : Call := ⟨disk, { dryRun := true }, "SID", path, path⟩

theorem exists_failure (answer : Answer) (p : Failure → Bool)
    (h : (match answer with
      | .ok (.error f) => p f
      | _ => false) = true) : ∃ f, answer = .ok (.error f) ∧ p f = true := by
  split at h
  · next f => exact ⟨f, rfl, h⟩
  · simp at h

theorem run_repeated :
    ∃ f, ((Call.tryOut repeated "b.c").run (runAll .empty [.tryOut repeated "a.c"]).2).1 =
        .ok (.error f) ∧ f.kind = .hashCollision ∧ f.offset = some 11 ∧
      f.diagnostic.notes = ["\"Ab\" was seen first in b.c at byte 0"] := by
  obtain ⟨f, hf, h⟩ := exists_failure
    ((Call.tryOut repeated "b.c").run (runAll .empty [.tryOut repeated "a.c"]).2).1
    (fun f => f.kind = .hashCollision && f.offset = some 11 &&
      f.diagnostic.notes = ["\"Ab\" was seen first in b.c at byte 0"]) (by decide +kernel)
  simp only [Bool.and_eq_true, decide_eq_true_eq] at h
  exact ⟨f, hf, h.1.1, h.1.2, h.2⟩

theorem reported_entry_repeated :
    Registry.empty.Separate ∧ ∃ (f : Failure) (existing first : Entry),
      ((Call.tryOut repeated "b.c").run (runAll .empty [.tryOut repeated "a.c"]).2).1 =
        .ok (.error f) ∧ f.kind = .hashCollision ∧ f.diagnostic.notes = [existing.seenFirst] ∧
      existing.seenFirst = "\"Ab\" was seen first in b.c at byte 0" ∧
      first.literal = existing.literal := by
  obtain ⟨f, hf, hk, -, hnote⟩ := run_repeated
  obtain ⟨m, input, earlier, i, later, existing, first, -, -, -, hnotes, -, -, -, -, hl, -⟩ :=
    reported_entry (r := .empty) trivial _ hf hk
  refine ⟨trivial, f, existing, first, hf, hk, hnotes, ?_, hl⟩
  simpa [hnotes] using hnote

/-- A report can name an entry that the first file had before: the literal is reported in the second
file, though the registry holds it from the first. -/
theorem repeated_not_seen_first :
    ¬ ∀ (calls : List Call) (c : Call) (f : Failure),
      (c.run (runAll .empty calls).2).1 = .ok (.error f) → f.kind = .hashCollision →
      ∀ m input earlier i later, c.Reads m input →
        Invocation.ofPieces c.options.hash 0 (Scan.scan m input).pieces = earlier ++ i :: later →
        f.offset = some (i.start : Int) →
        ∃ first, (runAll .empty calls).2.firstSeen? (earlier.map (·.entry c.source)) i.hash.toNat =
          some first ∧ f.diagnostic.notes = [first.seenFirst] := by
  intro h
  obtain ⟨f, hf, hk, ho, hnote⟩ := run_repeated
  have hread : (Call.tryOut repeated "b.c").Reads .default
      (Utf8.encode "SID(\"Ab\");\nSID(\"BA\");\n") := ⟨rfl, rfl⟩
  obtain ⟨first, hfirst, hnotes⟩ := h _ _ f hf hk .default _
    [⟨0, 9, Utf8.encode "Ab", 0x00597308⟩] ⟨11, 20, Utf8.encode "BA", 0x00597308⟩ [] hread
    (by decide +kernel) ho
  have : first = ⟨0x00597308, "Ab", "a.c", 0⟩ := by
    rw [← Option.some.injEq, ← hfirst]
    decide +kernel
  subst this
  rw [hnotes] at hnote
  revert hnote
  decide +kernel

end FileUpdate

end HashedLiterals
