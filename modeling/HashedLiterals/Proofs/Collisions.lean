import HashedLiterals.FileUpdate
import HashedLiterals.Proofs.Registry
import HashedLiterals.Proofs.Rewriting
import HashedLiterals.Proofs.Utf8

/-!
Collisions over whole sessions of files that share a registry and a hash. Main statements: literals of
accepted files that have the same hash are the same text, and a hash function keeps them the same bytes
exactly when it tells apart any two literals that are read as the same text. The default hash does not.
-/
set_option autoImplicit false

namespace HashedLiterals

open Scan (Piece Segmentation IsInvocation bytes)

namespace Scan

theorem IsInvocation.isSpan {m : Marker} {source span : Bytes} (h : IsInvocation m source span) :
    Literal.IsSpan span := by
  obtain ⟨-, ⟨-, -, -, -, hspan, -⟩, -⟩ := h
  exact hspan

def bare (m : Marker) (span : Bytes) : Piece :=
  ⟨[], m.token ++ Bytes.quote :: (span ++ [Bytes.quote, Bytes.closeParen]), span⟩

theorem segmentation_bare (m : Marker) {spans : List Bytes} (h : ∀ x ∈ spans, Literal.IsSpan x) :
    Segmentation m (bytes (spans.map (bare m))) (spans.map (bare m)) [] [] := by
  refine segmentation_iff.2 ⟨by simp, fun p hp => ?_, by simp⟩
  obtain ⟨x, hx, rfl⟩ := List.mem_map.1 hp
  exact ⟨.inl rfl, m.absent_nil, _, ⟨[], [], by simp, by simp, h x hx, rfl⟩, rfl⟩

end Scan

namespace Invocation

variable {hash : HashFunction} {pieces : List Piece} {i : Invocation}

/-- The invocation stands in the input, and its hash is that of its literal. -/
structure StandsIn (i : Invocation) (m : Marker) (hash : HashFunction) (input : Bytes) : Prop where
  isInvocation : IsInvocation m ((input.take i.stop).drop i.start) i.span
  hash_eq : i.hash = Hash.word (hash i.span)

theorem hash_entry_eq_iff {fileName : String} {j : Invocation} :
    (i.entry fileName).hash = j.hash.toNat ↔ i.hash = j.hash := by
  rw [entry, Int.natCast_inj, UInt32.toNat_inj]

theorem mem_ofPieces {offset : Nat} (h : i ∈ ofPieces hash offset pieces) :
    ∃ before p after, pieces = before ++ p :: after ∧
      i = ⟨offset + (bytes before).length + p.gap.length,
        offset + (bytes before).length + p.gap.length + p.source.length, p.span,
        Hash.word (hash p.span)⟩ := by
  induction pieces generalizing offset with
  | nil => simp [ofPieces] at h
  | cons p pieces ih =>
    simp only [ofPieces, List.mem_cons] at h
    obtain rfl | h := h
    · exact ⟨[], p, pieces, rfl, by simp⟩
    · obtain ⟨before, q, after, rfl, rfl⟩ := ih h
      exact ⟨p :: before, q, after, rfl, by simp [Nat.add_assoc]⟩

theorem standsIn_of_segmentation {m : Marker} {input tail : Bytes}
    (hs : Segmentation m input pieces tail []) (h : i ∈ ofPieces hash 0 pieces) :
    i.StandsIn m hash input := by
  obtain ⟨before, p, after, rfl, rfl⟩ := mem_ofPieces h
  have hi : input = (bytes before ++ p.gap) ++ (p.source ++ (bytes after ++ tail)) := by
    simp [hs.input_eq]
  refine ⟨?_, rfl⟩
  simp only [Nat.zero_add]
  rw [hi, ← List.length_append, List.take_length_add_append, List.drop_left, List.take_left]
  exact hs.isInvocation p (by simp)

end Invocation

namespace Preprocess

variable {o : Options} {input : Bytes}

theorem earlier?_eq_none_iff (r : Registry) (seen : List Entry) (hash : Int) (literal : String) :
    earlier? r seen hash literal = none ↔
      r.clash? hash literal = none ∧ ∀ e ∈ seen, e.hash = hash → e.literal = literal := by
  rw [earlier?, Option.or_eq_none_iff, and_comm]
  simp

theorem firstCollision?_cons_eq_none_iff (r : Registry) (fileName : String) (seen : List Entry)
    (i : Invocation) (is : List Invocation) :
    firstCollision? r fileName seen (i :: is) = none ↔
      earlier? r seen i.hash.toNat i.literal = none ∧
        firstCollision? r fileName (seen ++ [i.entry fileName]) is = none := by
  rw [firstCollision?]
  cases earlier? r seen i.hash.toNat i.literal <;> simp

/-- No invocation collides exactly when none clashes with the registry, with an earlier entry of its
source, or with an invocation before it. -/
theorem firstCollision?_eq_none_iff (r : Registry) (fileName : String) (seen : List Entry)
    (is : List Invocation) :
    firstCollision? r fileName seen is = none ↔
      (∀ i ∈ is, r.clash? i.hash.toNat i.literal = none ∧
        ∀ e ∈ seen, e.hash = i.hash.toNat → e.literal = i.literal) ∧
      is.Pairwise fun i j => i.hash = j.hash → i.literal = j.literal := by
  induction is generalizing seen with
  | nil => simp [firstCollision?]
  | cons i is ih =>
    rw [firstCollision?_cons_eq_none_iff, earlier?_eq_none_iff, ih, List.pairwise_cons]
    simp only [List.mem_append, List.mem_cons, List.not_mem_nil, or_false, or_imp, forall_and,
      forall_eq, Invocation.hash_entry_eq_iff]
    constructor
    · rintro ⟨⟨h₁, h₂⟩, ⟨h₃, h₄, h₅⟩, h₆⟩
      exact ⟨⟨⟨h₁, h₃⟩, h₂, h₄⟩, h₅, h₆⟩
    · rintro ⟨⟨⟨h₁, h₃⟩, h₂, h₄⟩, h₅, h₆⟩
      exact ⟨⟨h₁, h₂⟩, ⟨h₃, h₄, h₅⟩, h₆⟩

theorem run_some_of_ok {r : Registry} {s : Success} {r' : Option Registry}
    (h : run o (some r) input = (.ok s, r')) :
    ∃ pieces tail, Segmentation o.marker input pieces tail [] ∧
      s = success o input ⟨pieces, tail, none⟩ ∧
      firstCollision? r o.fileName [] s.invocations = none ∧
      r' = some (r.recordAll (s.invocations.map (·.entry o.fileName))) := by
  unfold run at h
  simp only at h
  split at h
  · simp at h
  · next hf =>
    simp only [Prod.mk.injEq, Except.ok.injEq, Option.map_some] at h
    obtain ⟨rfl, rfl⟩ := h
    simp only [failure?, Option.bind_some] at hf
    split at hf
    · simp at hf
    · simp at hf
    · next hc hn =>
      cases hs : Scan.scan o.marker input with
      | mk pieces tail fault =>
        rw [hs] at hc hn
        simp only at hn
        subst hn
        exact ⟨pieces, tail, Scan.scan_eq_iff.1 hs, rfl, hc, rfl⟩

theorem run_some_of_segmentation {pieces : List Piece} {tail : Bytes} {r : Registry}
    (h : Segmentation o.marker input pieces tail [])
    (hc : firstCollision? r o.fileName [] (Invocation.ofPieces o.hash 0 pieces) = none) :
    (run o (some r) input).1 = .ok (success o input ⟨pieces, tail, none⟩) := by
  have hs := Scan.scan_eq_iff.2 h
  simp [run, failure?, hs, hc]

theorem run_none_of_ok {s : Success} {registry registry' : Option Registry}
    (h : run o registry input = (.ok s, registry')) : (run o none input).1 = .ok s := by
  cases registry with
  | none => rw [h]
  | some r =>
    obtain ⟨pieces, tail, hs, rfl, -, -⟩ := run_some_of_ok h
    exact run_of_segmentation hs

end Preprocess

namespace FileUpdate

/-- A call: the disk as the call finds it, and what it is asked to do. Anything may happen to the disk
between two calls. -/
structure Call where
  disk : Disk
  options : Options
  marker : String
  source : String
  destination : String

def Call.step (hash : HashFunction) (r : Registry) (c : Call) : List Invocation × Registry :=
  match runWith c.disk (some r) { c.options with hash := hash } c.marker c.source c.destination with
  | .ok (.ok outcome, _, r') => (outcome.invocations, r'.getD r)
  | .ok (.error _, _, r') => ([], r'.getD r)
  | .error _ => ([], r)

def session (hash : HashFunction) : Registry → List Call → List Invocation × Registry
  | r, [] => ([], r)
  | r, c :: calls =>
    let more := session hash (c.step hash r).2 calls
    ((c.step hash r).1 ++ more.1, more.2)

/-- Each of the invocations has its literal registered under its hash. -/
def Covers (r : Registry) (is : List Invocation) : Prop :=
  ∀ i ∈ is, ∃ e, r.get? i.hash.toNat = some e ∧ e.literal = i.literal

abbrev Answer := Except ConfigError (Except Failure Outcome)

def Answer.invocations : Answer → List Invocation
  | .ok (.ok outcome) => outcome.invocations
  | _ => []

def Call.run (r : Registry) (c : Call) : Answer × Registry :=
  match runWith c.disk (some r) c.options c.marker c.source c.destination with
  | .ok (result, _, r') => (.ok result, r'.getD r)
  | .error e => (.error e, r)

def Call.withHash (hash : HashFunction) (c : Call) : Call :=
  { c with options := { c.options with hash := hash } }

theorem Call.step_eq (hash : HashFunction) (r : Registry) (c : Call) :
    c.step hash r = (((c.withHash hash).run r).1.invocations, ((c.withHash hash).run r).2) := by
  simp only [step, run, withHash]
  split
  · next hr => rw [hr]; rfl
  · next hr => rw [hr]; rfl
  · next hr => rw [hr]; rfl

/-- What the call is about: its marker, and the bytes of its source. -/
structure Call.Reads (c : Call) (m : Marker) (input : Bytes) : Prop where
  marker : Marker.ofText? c.marker = some m
  read : c.disk.read c.source = .ok input

def Call.preprocessing (c : Call) (m : Marker) : Preprocess.Options :=
  ⟨m, c.options.hash, c.source, c.options.sourceMap, c.options.mapper⟩

theorem update_cases (d : Disk) (r : Registry) (o : Options) (source destination : String)
    (input : Bytes) :
    (∃ f d', update d (some r) o source destination input = (.error f, d', some r) ∧
      (f.kind = .destinationUnwritable ∨
        (Preprocess.run ⟨o.marker, o.hash, source, o.sourceMap, o.mapper⟩ (some r.stage) input).1 = .error f)) ∨
    ∃ outcome d' pieces tail, update d (some r) o source destination input =
        (.ok outcome, d', some (r.recordAll (outcome.invocations.map (·.entry source)))) ∧
      Segmentation o.marker input pieces tail [] ∧
      outcome.invocations = Invocation.ofPieces o.hash 0 pieces ∧
      Preprocess.firstCollision? r.stage source [] outcome.invocations = none := by
  unfold update
  simp only [Option.map_some]
  split
  · next f staged hrun => exact .inl ⟨f, _, rfl, .inr (by rw [hrun])⟩
  · next s staged hrun =>
    obtain ⟨pieces, tail, hs, rfl, hc, rfl⟩ := Preprocess.run_some_of_ok hrun
    split
    · next hn =>
      have hp : pieces = [] := by simpa [Preprocess.success] using hn
      subst hp
      exact .inr ⟨_, _, _, _, rfl, hs, rfl, rfl⟩
    · split
      · exact .inl ⟨_, _, rfl, .inl rfl⟩
      · have hr := congrArg some (Registry.commit_recordAll_stage r
          ((Invocation.ofPieces o.hash 0 pieces).map (·.entry source)))
        exact .inr ⟨_, _, _, _, Prod.ext rfl (Prod.ext rfl hr), hs, rfl, hc⟩

/-- What one call can do: it refuses its marker, it fails, or it accepts all invocations of its source.
Only what is accepted is recorded. -/
theorem Call.run_cases (r : Registry) (c : Call) :
    (∃ e, c.run r = (.error e, r)) ∨
    (∃ f, c.run r = (.ok (.error f), r) ∧ (f.kind = .hashCollision → ∃ m input, c.Reads m input ∧
      (Preprocess.run (c.preprocessing m) (some r.stage) input).1 = .error f)) ∨
    ∃ outcome m input pieces tail,
      c.run r = (.ok (.ok outcome), r.recordAll (outcome.invocations.map (·.entry c.source))) ∧
      c.Reads m input ∧ Segmentation m input pieces tail [] ∧
      outcome.invocations = Invocation.ofPieces c.options.hash 0 pieces ∧
      Preprocess.firstCollision? r.stage c.source [] outcome.invocations = none := by
  cases hd : c.disk.read c.source with
  | error e =>
    refine .inr (.inl ⟨.sourceUnreadable c.source e.cause, by simp [run, runWith, hd], ?_⟩)
    intro hk
    simp [Failure.sourceUnreadable] at hk
  | ok input =>
    cases hm : Marker.ofText? c.marker with
    | none => exact .inl ⟨_, by simp [run, runWith, hd, Config.markerOption, hm]; rfl⟩
    | some m =>
      have hrun := runWith.eq_1 c.disk (some r) c.options c.marker c.source c.destination
      simp only [hd, Config.markerOption, hm] at hrun
      obtain ⟨f, d', hu, hf⟩ | ⟨outcome, d', pieces, tail, hu, hrest⟩ := update_cases c.disk r
        { c.options with marker := m } c.source c.destination input
      · refine .inr (.inl ⟨f, by simp [run, hrun, hu], fun hk => ⟨m, input, ⟨hm, hd⟩, ?_⟩⟩)
        exact hf.resolve_left (by simp [hk])
      · exact .inr (.inr ⟨outcome, m, input, pieces, tail, by simp [run, hrun, hu], ⟨hm, hd⟩, hrest⟩)

variable {hash : HashFunction} {r : Registry} {calls : List Call} {i j : Invocation}

/-- In one source, invocations of the same hash have the same literal. -/
theorem literal_eq_of_firstCollision? {fileName : String} {is : List Invocation}
    (h : Preprocess.firstCollision? r fileName [] is = none) (hi : i ∈ is) (hj : j ∈ is)
    (hij : i.hash = j.hash) : i.literal = j.literal := by
  have hp := ((Preprocess.firstCollision?_eq_none_iff r fileName [] is).1 h).2
  exact hp.forall_of_forall_of_flip (fun _ _ _ => rfl)
    (hp.imp fun hab hba => (hab hba.symm).symm) hi hj hij

theorem covers_run {seen : List Invocation} (c : Call) (h : Covers r seen) :
    Covers (c.run r).2 (seen ++ (c.run r).1.invocations) := by
  obtain ⟨e, hrun⟩ | ⟨f, hrun, -⟩ | ⟨outcome, m, input, pieces, tail, hrun, -, -, -, hc⟩ :=
    c.run_cases r
  · simpa [hrun, Answer.invocations] using h
  · simpa [hrun, Answer.invocations] using h
  · rw [hrun]
    intro i hi
    simp only [Registry.get?_recordAll]
    obtain hi | hi := List.mem_append.1 hi
    · obtain ⟨e, he, hl⟩ := h i hi
      exact ⟨e, by rw [he, Option.some_or], hl⟩
    · -- The entry is one from before the call, or the first of this source with the hash.
      have hclash := (((Preprocess.firstCollision?_eq_none_iff _ _ _ _).1 hc).1 i hi).1
      cases he : r.get? i.hash.toNat with
      | some e =>
        exact ⟨e, rfl, Registry.literal_eq_of_clash? hclash (by rw [Registry.get?_stage, he])⟩
      | none =>
        rw [Option.none_or]
        have hmem : i.entry c.source ∈ outcome.invocations.map (·.entry c.source) :=
          List.mem_map_of_mem hi
        obtain ⟨e, he⟩ := Option.isSome_iff_exists.1 (Entry.isSome_get? hmem)
        refine ⟨e, he, ?_⟩
        obtain ⟨hmem, hkey⟩ := Entry.get?_eq_some he
        obtain ⟨j, hj, rfl⟩ := List.mem_map.1 hmem
        exact literal_eq_of_firstCollision? hc hj hi (Invocation.hash_entry_eq_iff.1 hkey)

theorem covers_session (hash : HashFunction) {seen : List Invocation} (calls : List Call)
    (h : Covers r seen) :
    Covers (session hash r calls).2 (seen ++ (session hash r calls).1) := by
  induction calls generalizing r seen with
  | nil => simpa [session] using h
  | cons c calls ih =>
    have hc := covers_run (c.withHash hash) h
    have := ih hc
    rw [List.append_assoc] at this
    simpa only [session, c.step_eq hash r] using this

theorem literal_eq_of_covers {is : List Invocation} (h : Covers r is) (hi : i ∈ is) (hj : j ∈ is)
    (hij : i.hash = j.hash) : i.literal = j.literal := by
  obtain ⟨e, he, hl⟩ := h i hi
  obtain ⟨e', he', hl'⟩ := h j hj
  rw [hij, he', Option.some.injEq] at he
  rw [← hl, ← hl', he]

theorem literal_eq_of_session (hi : i ∈ (session hash r calls).1)
    (hj : j ∈ (session hash r calls).1) (hij : i.hash = j.hash) :
    i.literal = j.literal := by
  have h : Covers (session hash r calls).2 ([] ++ (session hash r calls).1) :=
    covers_session hash calls (by simp [Covers])
  exact literal_eq_of_covers h hi hj hij

theorem standsIn_run {c : Call} (h : i ∈ (c.run r).1.invocations) :
    ∃ m input, c.Reads m input ∧ i.StandsIn m c.options.hash input := by
  obtain ⟨e, hrun⟩ | ⟨f, hrun, -⟩ | ⟨outcome, m, input, pieces, tail, hrun, hread, hs, hi, -⟩ :=
    c.run_cases r
  · simp [hrun, Answer.invocations] at h
  · simp [hrun, Answer.invocations] at h
  · rw [hrun] at h
    simp only [Answer.invocations, hi] at h
    exact ⟨m, input, hread, Invocation.standsIn_of_segmentation hs h⟩

theorem standsIn_session (h : i ∈ (session hash r calls).1) :
    ∃ c ∈ calls, ∃ m input, Marker.ofText? c.marker = some m ∧ c.disk.read c.source = .ok input ∧
      i.StandsIn m hash input := by
  induction calls generalizing r with
  | nil => simp [session] at h
  | cons c calls ih =>
    obtain h | h := List.mem_append.1 h
    · rw [c.step_eq] at h
      obtain ⟨m, input, hread, hst⟩ := standsIn_run h
      exact ⟨c, List.mem_cons_self, m, input, hread.marker, hread.read, hst⟩
    · obtain ⟨c', hc', hrest⟩ := ih h
      exact ⟨c', List.mem_cons_of_mem c hc', hrest⟩

theorem isSpan_of_session (h : i ∈ (session hash r calls).1) : Literal.IsSpan i.span := by
  obtain ⟨_, _, _, _, _, _, hst⟩ := standsIn_session h
  exact hst.isInvocation.isSpan

theorem hash_eq_of_session (h : i ∈ (session hash r calls).1) :
    i.hash = Hash.word (hash i.span) := by
  obtain ⟨_, _, _, _, _, _, hst⟩ := standsIn_session h
  exact hst.hash_eq

def Call.trial (data : Bytes) : Call :=
  ⟨⟨[(["a"], .file data Disk.newMode)], [], ""⟩, { dryRun := true }, "SID", "a", "a"⟩

theorem read_trial (data : Bytes) : (Call.trial data).disk.read "a" = .ok data := by
  have hs : Disk.steps "a" = ["a"] := by decide +kernel
  have ha : Path.isAbsolute "a" = false := by decide +kernel
  have hz : Disk.hasZero "a" = false := by decide +kernel
  have hp : ¬ Disk.pathLimit < "a".utf8ByteSize := by decide +kernel
  have hl : Disk.isTooLong "a" = false := by decide +kernel
  simp [Call.trial, Disk.read, Disk.stat, Disk.find, hs, ha, hz, hp, hl, Disk.linkLimit, Disk.walk,
    Disk.walkParts, Disk.get?]

theorem step_trial {input tail : Bytes} {pieces : List Piece}
    (hs : Segmentation .default input pieces tail [])
    (hp : (Invocation.ofPieces hash 0 pieces).Pairwise
      fun i j => i.hash = j.hash → i.literal = j.literal) :
    ((Call.trial input).step hash .empty).1 = Invocation.ofPieces hash 0 pieces := by
  have hn : Utf8.encode "SID" = Marker.default.name := by decide +kernel
  have hm : Marker.ofText? "SID" = some .default := by
    simp only [Marker.ofText?, hn]
    exact dif_pos ⟨Marker.default.name_ne_nil, List.all_eq_true.2 Marker.default.isAlnum_of_mem⟩
  have hc : Preprocess.firstCollision? Registry.empty.stage "a" []
      (Invocation.ofPieces hash 0 pieces) = none := by
    exact (Preprocess.firstCollision?_eq_none_iff _ _ _ _).2 ⟨fun i _ => ⟨rfl, by simp⟩, hp⟩
  have hrun := Preprocess.run_some_of_segmentation (o := ⟨.default, hash, "a", false, .standard⟩) hs hc
  have hd := read_trial input
  simp only [Call.trial] at hd
  simp only [Call.step, Call.trial, runWith, hd, Config.markerOption, hm, update, Option.map_some]
  cases hr : Preprocess.run ⟨.default, hash, "a", false, .standard⟩ (some Registry.empty.stage) input with
  | mk result staged =>
    rw [hr] at hrun
    simp only at hrun
    subst hrun
    cases pieces with
    | nil => simp [Preprocess.success, Invocation.ofPieces]
    | cons p pieces => simp [Preprocess.success]

/-- The literals that sessions from an empty registry can accept: those of the same hash are read as the
same text, and nothing more. -/
theorem exists_session_iff (hash : HashFunction) (spans : List Bytes) :
    (∃ calls, (session hash .empty calls).1.map Invocation.span = spans) ↔
      (∀ x ∈ spans, Literal.IsSpan x) ∧ ∀ x ∈ spans, ∀ y ∈ spans,
        Hash.word (hash x) = Hash.word (hash y) → Utf8.decode x = Utf8.decode y := by
  constructor
  · rintro ⟨calls, rfl⟩
    simp only [List.forall_mem_map]
    refine ⟨fun i hi => isSpan_of_session hi, fun i hi j hj hij => ?_⟩
    rw [← hash_eq_of_session hi, ← hash_eq_of_session hj] at hij
    exact literal_eq_of_session hi hj hij
  · rintro ⟨hspan, htext⟩
    have hs := Scan.segmentation_bare .default hspan
    have hmap : (Invocation.ofPieces hash 0 (spans.map (Scan.bare .default))).map Invocation.span =
        spans := by
      rw [Invocation.map_span_ofPieces, List.map_map]
      exact List.map_id spans
    refine ⟨[.trial (bytes (spans.map (Scan.bare .default)))], ?_⟩
    simp only [session, List.append_nil]
    rw [step_trial hs, hmap]
    refine List.pairwise_of_forall_mem_list fun i hi j hj hij => ?_
    rw [(Invocation.standsIn_of_segmentation hs hi).hash_eq,
      (Invocation.standsIn_of_segmentation hs hj).hash_eq] at hij
    have hx := List.mem_map_of_mem (f := Invocation.span) hi
    have hy := List.mem_map_of_mem (f := Invocation.span) hj
    rw [hmap] at hx hy
    exact htext _ hx _ hy hij

/-- Literals of the same hash are the same bytes in all sessions exactly when the hash tells apart any
two literals that are read as the same text. -/
theorem span_eq_of_hash_eq_iff (hash : HashFunction) :
    (∀ calls, ∀ i ∈ (session hash .empty calls).1, ∀ j ∈ (session hash .empty calls).1,
        i.hash = j.hash → i.span = j.span) ↔
      ∀ x y, Literal.IsSpan x → Literal.IsSpan y → Utf8.decode x = Utf8.decode y →
        Hash.word (hash x) = Hash.word (hash y) → x = y := by
  constructor
  · intro h x y hx hy hxy hh
    obtain ⟨calls, hc⟩ := (exists_session_iff hash [x, y]).2 (by simp [hx, hy, hxy])
    have hx' : x ∈ (session hash .empty calls).1.map Invocation.span := by simp [hc]
    have hy' : y ∈ (session hash .empty calls).1.map Invocation.span := by simp [hc]
    obtain ⟨i, hi, rfl⟩ := List.mem_map.1 hx'
    obtain ⟨j, hj, rfl⟩ := List.mem_map.1 hy'
    exact h calls i hi j hj (by rw [hash_eq_of_session hi, hash_eq_of_session hj, hh])
  · intro h calls i hi j hj hij
    have hl := literal_eq_of_session hi hj hij
    rw [hash_eq_of_session hi, hash_eq_of_session hj] at hij
    exact h i.span j.span (isSpan_of_session hi) (isSpan_of_session hj) hl hij

/-- Sessions from an empty registry. What they accept stands in the sources they read, and literals of
the same hash are the same text, hence the same bytes if they spell texts. They are the same bytes in
all sessions exactly when the hash tells apart any two literals that are read as the same text. -/
theorem same_hash_same_span_iff (hash : HashFunction) :
    ((∀ calls, ∀ i ∈ (session hash .empty calls).1, ∀ j ∈ (session hash .empty calls).1,
        i.hash = j.hash → i.span = j.span) ↔
      ∀ x y, Literal.IsSpan x → Literal.IsSpan y → Utf8.decode x = Utf8.decode y →
        Hash.word (hash x) = Hash.word (hash y) → x = y) ∧
    ∀ calls, ∀ i ∈ (session hash .empty calls).1,
      (∃ c ∈ calls, ∃ m input, Marker.ofText? c.marker = some m ∧ c.disk.read c.source = .ok input ∧
        i.StandsIn m hash input) ∧
      ∀ j ∈ (session hash .empty calls).1, i.hash = j.hash → i.literal = j.literal ∧
        ((∃ s, Utf8.encode s = i.span) → (∃ t, Utf8.encode t = j.span) → i.span = j.span) := by
  refine ⟨span_eq_of_hash_eq_iff hash, fun calls i hi => ⟨standsIn_session hi, fun j hj hij => ?_⟩⟩
  have hl := literal_eq_of_session hi hj hij
  exact ⟨hl, fun hx hy => Utf8.eq_of_decode_eq hx hy hl⟩

/-- The default hash has two literals that are read as the same text, so their collision is not seen. -/
theorem djb2_same_hash_other_span :
    ¬ ∀ calls, ∀ i ∈ (session Hash.Algorithm.djb2.function .empty calls).1,
      ∀ j ∈ (session Hash.Algorithm.djb2.function .empty calls).1,
        i.hash = j.hash → i.span = j.span := by
  rw [span_eq_of_hash_eq_iff]
  intro h
  have := h [0x80, 0xf5] [0x81, 0xd4] (by decide) (by decide) (by decide +kernel) (by decide +kernel)
  exact absurd this (by decide)

end FileUpdate

end HashedLiterals
