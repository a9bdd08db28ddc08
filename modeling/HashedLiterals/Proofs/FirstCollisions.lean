import HashedLiterals.Proofs.Faults
import HashedLiterals.Proofs.Layering
import HashedLiterals.Proofs.Reports

/-!
Which invocation a source is refused for. Main statement: with a registry that has one entry for each
hash, a source is refused for a collision exactly at the first invocation whose hash belongs to another
literal, in the registry or before it in the source; for a fault exactly if there is no such invocation;
and a source that passes adds one entry for each new hash, in the order of the source.
-/
set_option autoImplicit false

namespace HashedLiterals

open Scan (Piece Segmentation IsBody bytes)

namespace Scan

variable {m : Marker} {input : Bytes} {pieces : List Piece} {stop : Option Nat}

/-- A scan meets these pieces, and then the end of the source or, at the given offset, a first token that
opens no invocation. -/
def Meets (m : Marker) (input : Bytes) (pieces : List Piece) : Option Nat → Prop
  | none => ∃ tail, Segmentation m input pieces tail []
  | some i => ∃ tail after, Segmentation m input pieces tail (m.token ++ after) ∧
    i = (bytes pieces).length + tail.length ∧ input.WordStart i ∧
    ¬ ∃ body span rest, IsBody body span ∧ after = body ++ rest

def Scanned.stop? (s : Scanned) : Option Nat :=
  s.fault.map fun _ => (bytes s.pieces).length + s.tail.length

theorem meets_iff : Meets m input pieces stop ↔ (scan m input).pieces = pieces ∧
    (scan m input).stop? = stop := by
  cases stop with
  | none =>
    constructor
    · rintro ⟨tail, hs⟩
      rw [scan_eq_iff.2 hs]
      exact ⟨rfl, rfl⟩
    · rintro ⟨rfl, hstop⟩
      have hf : (scan m input).fault = none := by simpa [Scanned.stop?] using hstop
      exact ⟨(scan m input).tail, scan_eq_iff.1 (by rw [← hf])⟩
  | some i =>
    constructor
    · rintro ⟨tail, after, hs, rfl, hw, hno⟩
      obtain ⟨f, hf⟩ := exists_readBody_error_iff.2 hno
      rw [scan_eq_fault_iff.2 ⟨after, hs, hs.wordStart_iff.1 hw, hf⟩]
      exact ⟨rfl, rfl⟩
    · rintro ⟨rfl, hstop⟩
      obtain ⟨f, hf, rfl⟩ := Option.map_eq_some_iff.1 hstop
      obtain ⟨after, hs, hp, hr⟩ := scan_eq_fault_iff.1
        (show scan m input = ⟨_, _, some f⟩ by rw [← hf])
      exact ⟨_, after, hs, rfl, hs.wordStart_iff.2 hp, exists_readBody_error_iff.1 ⟨f, hr⟩⟩

end Scan

namespace Entry

theorem get?_of_mem {entries : List Entry} {e : Entry} (hn : (entries.map (·.hash)).Nodup)
    (he : e ∈ entries) : get? entries e.hash = some e := by
  induction entries with
  | nil => cases he
  | cons f entries ih =>
    rw [List.map_cons, List.nodup_cons] at hn
    rw [get?_cons]
    obtain rfl | he := List.mem_cons.1 he
    · rw [if_pos rfl]
    · rw [if_neg, ih hn.2 he]
      intro hf
      exact hn.1 (hf ▸ List.mem_map_of_mem he)

end Entry

namespace Registry

theorem clash?_eq_none_iff {r : Registry} (hr : r.hashes.Nodup) (hash : Int) (literal : String) :
    r.clash? hash literal = none ↔ ∀ e ∈ r.toList, e.hash = hash → e.literal = literal := by
  rw [clash?_eq_filter (separate_of_nodup hr), get?_eq_toList, Option.filter_eq_none_iff]
  constructor
  · rintro h e he rfl
    simpa using h e (Entry.get?_of_mem hr he)
  · intro h e he
    obtain ⟨hmem, hkey⟩ := Entry.get?_eq_some he
    simpa using h e hmem hkey

end Registry

namespace Preprocess

variable {o : Options} {r : Registry} {input : Bytes} {is : List Invocation} {k : Nat}
  {i : Invocation} {fileName : String}

/-- The hash of this invocation belongs to another literal, in the registry or before it in the
source. -/
def Collides (r : Registry) (is : List Invocation) (k : Nat) : Prop :=
  ∃ i, is[k]? = some i ∧
    ((∃ e ∈ r.toList, e.hash = i.hash.toNat ∧ e.literal ≠ i.literal) ∨
      ∃ j < k, ∃ earlier, is[j]? = some earlier ∧ earlier.hash = i.hash ∧ earlier.literal ≠ i.literal)

def CollidesFirst (r : Registry) (is : List Invocation) (k : Nat) : Prop :=
  Collides r is k ∧ ∀ j < k, ¬ Collides r is j

theorem CollidesFirst.unique {l : Nat} (hk : CollidesFirst r is k) (hl : CollidesFirst r is l) :
    k = l := by
  obtain h | h | h := Nat.lt_trichotomy k l
  · exact absurd hk.1 (hl.2 k h)
  · exact h
  · exact absurd hl.1 (hk.2 l h)

theorem collides_append_left {later : List Invocation} (hk : k < is.length) :
    Collides r (is ++ later) k ↔ Collides r is k := by
  have hget : ∀ j ≤ k, (is ++ later)[j]? = is[j]? := fun j hj =>
    List.getElem?_append_left (Nat.lt_of_le_of_lt hj hk)
  rw [Collides, Collides, hget k (Nat.le_refl k)]
  refine exists_congr fun i => and_congr_right fun _ => or_congr_right ?_
  refine exists_congr fun j => and_congr_right fun hj => ?_
  rw [hget j (Nat.le_of_lt hj)]

theorem not_collides_length_iff (fileName : String) (hr : r.hashes.Nodup) (earlier later : List Invocation) :
    ¬ Collides r (earlier ++ i :: later) earlier.length ↔
      earlier? r (earlier.map (·.entry fileName)) i.hash.toNat i.literal = none := by
  have hi : (earlier ++ i :: later)[earlier.length]? = some i := by simp
  rw [earlier?_eq_none_iff, Registry.clash?_eq_none_iff hr, Collides, hi]
  simp only [Option.some.injEq, exists_eq_left', not_or, List.forall_mem_map,
    Invocation.hash_entry_eq_iff]
  refine and_congr ⟨fun h e he hk => ?_, ?_⟩ ⟨fun h a ha hh => ?_, ?_⟩
  · exact Decidable.byContradiction fun hl => h ⟨e, he, hk, hl⟩
  · rintro h ⟨e, he, hk, hl⟩
    exact hl (h e he hk)
  · obtain ⟨j, hj, rfl⟩ := List.mem_iff_getElem.1 ha
    refine Decidable.byContradiction fun hl => h ⟨j, hj, earlier[j], ?_, hh, hl⟩
    rw [List.getElem?_append_left hj, List.getElem?_eq_getElem hj]
  · rintro h ⟨j, hj, a, ha, hh, hl⟩
    rw [List.getElem?_append_left hj] at ha
    exact hl (h a (List.mem_of_getElem? ha) hh)

theorem not_collides_of_length_le (hk : is.length ≤ k) : ¬ Collides r is k := by
  rintro ⟨i, hi, -⟩
  rw [List.getElem?_eq_none hk] at hi
  cases hi

theorem firstCollision?_eq_none_iff_of_earlier (fileName : String) (hr : r.hashes.Nodup)
    (earlier later : List Invocation) :
    firstCollision? r fileName (earlier.map (·.entry fileName)) later = none ↔
      ∀ k, earlier.length ≤ k → ¬ Collides r (earlier ++ later) k := by
  -- induction over the invocations to come, which join the earlier ones one by one
  induction later generalizing earlier with
  | nil =>
    refine ⟨fun _ k hk => ?_, fun _ => rfl⟩
    rw [List.append_nil]
    exact not_collides_of_length_le hk
  | cons i later ih =>
    have hsnoc : earlier.map (·.entry fileName) ++ [i.entry fileName] =
        (earlier ++ [i]).map (·.entry fileName) := by simp
    have hall : (earlier ++ [i]) ++ later = earlier ++ i :: later := by simp
    rw [firstCollision?_cons_eq_none_iff, hsnoc, ih, hall, ← not_collides_length_iff fileName hr earlier later,
      List.length_append, List.length_singleton]
    constructor
    · rintro ⟨hi, hrest⟩ k hk
      obtain rfl | hk := Nat.eq_or_lt_of_le hk
      · exact hi
      · exact hrest k hk
    · intro h
      exact ⟨h _ (Nat.le_refl _), fun k hk => h k (Nat.le_of_succ_le hk)⟩

theorem firstCollision?_eq_none_iff_collides (hr : r.hashes.Nodup) (is : List Invocation) :
    firstCollision? r fileName [] is = none ↔ ∀ k, ¬ Collides r is k := by
  simpa using firstCollision?_eq_none_iff_of_earlier fileName hr [] is

/-- The collision that is found is the first one. -/
theorem collidesFirst_of_firstCollision? {existing : Entry} (hr : r.hashes.Nodup)
    (h : firstCollision? r fileName [] is = some (i, existing)) :
    ∃ k, is[k]? = some i ∧ CollidesFirst r is k := by
  obtain ⟨earlier, later, rfl, hn, he⟩ := firstCollision?_eq_some h
  refine ⟨earlier.length, by simp, ?_, fun j hj => ?_⟩
  · refine Classical.not_not.1 fun hc => ?_
    have hnone := (not_collides_length_iff fileName hr earlier later).1 hc
    cases he.symm.trans hnone
  · rw [collides_append_left hj]
    exact (firstCollision?_eq_none_iff_collides hr earlier).1 hn j

theorem index_eq_of_start_eq {pieces : List Piece} {k l : Nat} {j : Invocation}
    (hne : ∀ p ∈ pieces, p.source ≠ []) (hi : (Invocation.ofPieces o.hash 0 pieces)[k]? = some i)
    (hj : (Invocation.ofPieces o.hash 0 pieces)[l]? = some j) (hs : i.start = j.start) : k = l := by
  have hpair := List.pairwise_iff_getElem.1 (Invocation.pairwise_ofPieces o.hash 0 pieces)
  have hlt := fun (a : Invocation) (ha : a ∈ Invocation.ofPieces o.hash 0 pieces) =>
    Invocation.start_lt_stop_ofPieces hne ha
  obtain ⟨hk, rfl⟩ := List.getElem?_eq_some_iff.1 hi
  obtain ⟨hl, rfl⟩ := List.getElem?_eq_some_iff.1 hj
  have hik := hlt _ (List.getElem_mem hk)
  have hjl := hlt _ (List.getElem_mem hl)
  obtain h | h | h := Nat.lt_trichotomy k l
  · have := hpair k l hk hl h
    omega
  · exact h
  · have := hpair l k hl hk h
    omega

/-- What becomes of a source with a registry: a first collision comes before a fault, and a fault before
a success. -/
theorem run_some_cases (o : Options) (input : Bytes) (hr : r.hashes.Nodup)
    (his : Invocation.ofPieces o.hash 0 (Scan.scan o.marker input).pieces = is) :
    (∃ k i f, is[k]? = some i ∧ CollidesFirst r is k ∧ f.kind = .hashCollision ∧
      f.offset = some (i.start : Int) ∧ run o (some r) input = (.error f, some r)) ∨
    (∀ k, ¬ Collides r is k) ∧
      ((∃ (n : Nat) (f : Failure), (Scan.scan o.marker input).stop? = some n ∧
        (f.kind = .notALiteral ∨ f.kind = .unterminatedLiteral ∨ f.kind = .unclosedInvocation) ∧
        f.offset = some (n : Int) ∧ run o (some r) input = (.error f, some r)) ∨
      (Scan.scan o.marker input).stop? = none ∧ ∃ s, s.invocations = is ∧
        run o (some r) input = (.ok s, some (r.recordAll (is.map (·.entry o.fileName))))) := by
  cases hc : firstCollision? r o.fileName [] is with
  | some found =>
    obtain ⟨i, existing⟩ := found
    obtain ⟨k, hk, hfirst⟩ := collidesFirst_of_firstCollision? hr hc
    exact .inl ⟨k, i, _, hk, hfirst, rfl, rfl, by simp [run, failure?, his, hc]; rfl⟩
  | none =>
    refine .inr ⟨(firstCollision?_eq_none_iff_collides hr is).1 hc, ?_⟩
    cases hf : (Scan.scan o.marker input).fault with
    | some fault =>
      refine .inl ⟨_, .ofFault (site o input (faultOffset (Scan.scan o.marker input))) fault,
        by rw [Scan.Scanned.stop?, hf]; rfl, ?_, ?_, by simp [run, failure?, his, hc, hf]⟩
      · cases fault <;> simp [Failure.ofFault, Failure.notALiteral, Failure.unterminatedLiteral,
          Failure.unclosedInvocation]
      · rw [Failure.offset_ofFault, faultOffset_eq]
        rfl
    | none =>
      refine .inr ⟨by rw [Scan.Scanned.stop?, hf]; rfl, success o input (Scan.scan o.marker input), his, ?_⟩
      simp [run, failure?, his, hc, hf, success]

section Verdict

variable (hr : r.hashes.Nodup)
  (his : Invocation.ofPieces o.hash 0 (Scan.scan o.marker input).pieces = is)

include hr his

theorem collision_iff : (∃ f, (run o (some r) input).1 = .error f ∧ f.kind = .hashCollision) ↔
    ∃ k, CollidesFirst r is k := by
  obtain ⟨k, i, f, -, hfirst, hkind, -, hrun⟩ | ⟨hnone, ⟨n, f, -, hkind, -, hrun⟩ | ⟨-, s, -, hrun⟩⟩ :=
    run_some_cases o input hr his
  · exact iff_of_true ⟨f, by rw [hrun], hkind⟩ ⟨k, hfirst⟩
  · refine iff_of_false ?_ fun ⟨k, hk⟩ => hnone k hk.1
    rintro ⟨f', hf', hk'⟩
    rw [hrun, Except.error.injEq] at hf'
    subst hf'
    simp [hk'] at hkind
  · refine iff_of_false ?_ fun ⟨k, hk⟩ => hnone k hk.1
    rintro ⟨f, hf, -⟩
    simp [hrun] at hf

theorem collision_at_iff (hi : is[k]? = some i) :
    (∃ f, (run o (some r) input).1 = .error f ∧ f.kind = .hashCollision ∧
      f.offset = some (i.start : Int)) ↔ CollidesFirst r is k := by
  constructor
  · rintro ⟨f, hf, hkind, hoff⟩
    obtain ⟨l, j, f', hj, hfirst, -, hoff', hrun⟩ | ⟨hnone, -⟩ := run_some_cases o input hr his
    · rw [hrun, Except.error.injEq] at hf
      rw [← hf, hoff', Option.some.injEq, Int.natCast_inj] at hoff
      have hne : ∀ p ∈ (Scan.scan o.marker input).pieces, p.source ≠ [] := fun p hp =>
        ((Scan.scan_cases o.marker input).1 p hp).isInvocation.ne_nil
      rw [← his] at hi hj
      rwa [index_eq_of_start_eq hne hi hj hoff.symm]
    · obtain ⟨l, hl⟩ := (collision_iff hr his).1 ⟨f, hf, hkind⟩
      exact absurd hl.1 (hnone l)
  · intro hk
    obtain ⟨l, j, f, hj, hfirst, hkind, hoff, hrun⟩ | ⟨hnone, -⟩ := run_some_cases o input hr his
    · obtain rfl := hk.unique hfirst
      obtain rfl := Option.some.inj (hi.symm.trans hj)
      exact ⟨f, by rw [hrun], hkind, hoff⟩
    · exact absurd hk.1 (hnone k)

theorem fault_at_iff (n : Nat) :
    (∃ f, (run o (some r) input).1 = .error f ∧ (f.kind = .notALiteral ∨
      f.kind = .unterminatedLiteral ∨ f.kind = .unclosedInvocation) ∧ f.offset = some (n : Int)) ↔
    (Scan.scan o.marker input).stop? = some n ∧ ∀ k, ¬ Collides r is k := by
  obtain ⟨k, i, f, -, hfirst, hkind, -, hrun⟩ |
    ⟨hnone, ⟨l, f, hstop, hkind, hoff, hrun⟩ | ⟨hstop, s, -, hrun⟩⟩ := run_some_cases o input hr his
  · refine iff_of_false ?_ fun h => h.2 k hfirst.1
    rintro ⟨f', hf', hk', -⟩
    rw [hrun, Except.error.injEq] at hf'
    simp [← hf', hkind] at hk'
  · rw [hstop, Option.some.injEq]
    constructor
    · rintro ⟨f', hf', -, hoff'⟩
      rw [hrun, Except.error.injEq] at hf'
      rw [← hf', hoff, Option.some.injEq, Int.natCast_inj] at hoff'
      exact ⟨hoff', hnone⟩
    · rintro ⟨rfl, -⟩
      exact ⟨f, by rw [hrun], hkind, hoff⟩
  · refine iff_of_false ?_ fun h => ?_
    · rintro ⟨f, hf, -⟩
      simp [hrun] at hf
    · cases hstop.symm.trans h.1

theorem ok_iff : (∃ s, (run o (some r) input).1 = .ok s) ↔
    (Scan.scan o.marker input).stop? = none ∧ ∀ k, ¬ Collides r is k := by
  obtain ⟨k, i, f, -, hfirst, -, -, hrun⟩ | ⟨hnone, ⟨n, f, hstop, -, -, hrun⟩ | ⟨hstop, s, -, hrun⟩⟩ :=
    run_some_cases o input hr his
  · refine iff_of_false ?_ fun h => h.2 k hfirst.1
    rintro ⟨s, hs⟩
    simp [hrun] at hs
  · refine iff_of_false ?_ fun h => ?_
    · rintro ⟨s, hs⟩
      simp [hrun] at hs
    · cases hstop.symm.trans h.1
  · exact iff_of_true ⟨s, by rw [hrun]⟩ ⟨hstop, hnone⟩

/-- A source that passes is recorded, each new hash with its first entry. -/
theorem registry_of_ok {s : Success} (h : (run o (some r) input).1 = .ok s) :
    s.invocations = is ∧ ∃ r', (run o (some r) input).2 = some r' ∧ r'.toList = r.toList ++
      (Entry.firsts (is.map (·.entry o.fileName))).filter fun e => e.hash ∉ r.hashes := by
  obtain ⟨k, i, f, -, -, -, -, hrun⟩ | ⟨-, ⟨n, f, -, -, -, hrun⟩ | ⟨-, s', hs', hrun⟩⟩ :=
    run_some_cases o input hr his
  · simp [hrun] at h
  · simp [hrun] at h
  · rw [hrun, Except.ok.injEq] at h
    refine ⟨h ▸ hs', _, by rw [hrun], ?_⟩
    have hnew : (fun e : Entry => (r.get? e.hash).isNone) = fun e => decide (e.hash ∉ r.hashes) := by
      funext e
      rw [Bool.eq_iff_iff, Option.isNone_iff_eq_none, Registry.get?_eq_none_iff, decide_eq_true_iff]
    rw [Registry.toList_recordAll, hnew]

end Verdict

theorem registry_of_error {registry : Option Registry} {f : Failure}
    (h : (run o registry input).1 = .error f) : (run o registry input).2 = registry := by
  rw [run] at h ⊢
  split
  · rfl
  · next hf => simp [hf] at h

/-- With one entry for each hash in the registry, a source is refused at the first invocation whose hash
belongs to another literal, and for a fault only if there is none; it leaves the registry as it was then.
A source that passes adds one entry for each hash that was new, in the order of first occurrence. -/
theorem refused_at_first_collision (o : Options) (input : Bytes) (hr : r.hashes.Nodup) :
    ∃ pieces stop, Scan.Meets o.marker input pieces stop ∧
      (∀ pieces' stop', Scan.Meets o.marker input pieces' stop' → pieces' = pieces ∧ stop' = stop) ∧
      let is := Invocation.ofPieces o.hash 0 pieces
      let result := run o (some r) input
      (∀ k i, is[k]? = some i → ((∃ f, result.1 = .error f ∧ f.kind = .hashCollision ∧
        f.offset = some (i.start : Int)) ↔ CollidesFirst r is k)) ∧
      ((∃ f, result.1 = .error f ∧ f.kind = .hashCollision) ↔ ∃ k, CollidesFirst r is k) ∧
      (∀ n : Nat, (∃ f, result.1 = .error f ∧ (f.kind = .notALiteral ∨ f.kind = .unterminatedLiteral ∨
          f.kind = .unclosedInvocation) ∧ f.offset = some (n : Int)) ↔
        stop = some n ∧ ∀ k, ¬ Collides r is k) ∧
      (∀ f, result.1 = .error f → result.2 = some r) ∧
      ((∃ s, result.1 = .ok s) ↔ stop = none ∧ ∀ k, ¬ Collides r is k) ∧
      ∀ s, result.1 = .ok s → s.invocations = is ∧ ∃ r', result.2 = some r' ∧
        r'.toList = r.toList ++
          (Entry.firsts (is.map (·.entry o.fileName))).filter fun e => e.hash ∉ r.hashes := by
  refine ⟨_, _, Scan.meets_iff.2 ⟨rfl, rfl⟩, fun pieces' stop' h => ?_, ?_⟩
  · obtain ⟨rfl, rfl⟩ := Scan.meets_iff.1 h
    exact ⟨rfl, rfl⟩
  · intro is result
    exact ⟨fun k i hi => collision_at_iff hr rfl hi, collision_iff hr rfl, fault_at_iff hr rfl,
      fun f => registry_of_error, ok_iff hr rfl, fun s => registry_of_ok hr rfl⟩

def repeating : Bytes := Utf8.encode "SID(\"Ab\")SID(\"x\")SID(\"x\")SID(\"BA\")SID("

def knowing : Registry := (Registry.plain [⟨0x00597308, "Ab", "a.c", 7⟩]).stage

theorem refused_at_first_collision_repeating :
    knowing.hashes.Nodup ∧ ∃ is : List Invocation,
      is.map (·.literal) = ["Ab", "x", "x", "BA"] ∧ CollidesFirst knowing is 3 ∧
      ∃ f, (run {} (some knowing) repeating).1 = .error f ∧ f.kind = .hashCollision ∧
        f.offset = some 25 ∧ (run {} (some knowing) repeating).2 = some knowing := by
  have hn : knowing.hashes.Nodup := by decide
  obtain ⟨pieces, stop, hmeets, -, hat, -, -, herr, -⟩ := refused_at_first_collision {} repeating hn
  obtain ⟨rfl, -⟩ := Scan.meets_iff.1 hmeets
  have hrun : (match (run {} (some knowing) repeating).1 with
      | .error f => decide (f.kind = .hashCollision ∧ f.offset = some 25)
      | .ok _ => false) = true := by decide +kernel
  split at hrun
  · next f hf =>
    obtain ⟨hkind, hoff⟩ := of_decide_eq_true hrun
    refine ⟨hn, Invocation.ofPieces Hash.Algorithm.djb2.function 0 (Scan.scan .default repeating).pieces,
      by decide +kernel, ?_, f, hf, hkind, hoff, herr f hf⟩
    exact (hat 3 ⟨25, 34, Utf8.encode "BA", 0x00597308⟩ (by decide +kernel)).1 ⟨f, hf, hkind, hoff⟩
  · cases hrun

end Preprocess

end HashedLiterals
