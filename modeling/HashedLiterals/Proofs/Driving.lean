import HashedLiterals.Preprocess
import HashedLiterals.Proofs.Segmentation
import HashedLiterals.Proofs.Stepping

set_option autoImplicit false

namespace HashedLiterals.Scan.Cursor

variable {c d e : Cursor} {hash : HashFunction} {before more : Bytes} {body : Body} {fault : Fault}

theorem enter_read (c : Cursor) : 0 ≤ c.enter.read ∧ c.read ≤ c.enter.read := by
  simp only [enter]
  omega

theorem next_eq_invocation (h : c.next = (.invocation, d)) :
    d.text = c.text ∧ d.marker = c.marker ∧ c.read < c.text.length ∧ c.read < d.read ∧ 0 ≤ d.read := by
  obtain ⟨hpos, hle⟩ := c.enter_read
  simp only [next] at h
  cases hgap : gap c.enter.marker c.enter.rest with
  | mk before more =>
    rw [hgap] at h
    cases more with
    | none => cases h
    | some more =>
      obtain ⟨-, rfl⟩ := Prod.mk.inj h
      have hlt := gap_length_lt (congrArg Prod.snd hgap)
      have htoken := c.enter.marker.length_token
      simp only [rest, List.length_drop] at hlt
      have htext : c.enter.text = c.text := rfl
      rw [htext] at hlt
      refine ⟨rfl, rfl, by omega, ?_, ?_⟩
      · simp only [pass, copy]
        omega
      · simp only [pass, copy]
        omega

theorem replace_eq_ok (h : c.replace hash = (.ok body, d)) :
    0 ≤ c.read ∧ readBody c.rest = .ok body ∧
      d = { c with
        read := c.read + body.length
        out := c.out.append (Literal.replacement (hash body.span) body.span) } := by
  rw [replace] at h
  split at h
  · cases h
  · next hneg =>
    split at h
    · next hread =>
      cases h
      exact ⟨by omega, hread, rfl⟩
    all_goals cases h

theorem exists_replace_of_ok (hash : HashFunction) (h : 0 ≤ c.read) (hread : readBody c.rest = .ok body) :
    ∃ d, c.replace hash = (.ok body, d) ∧ d.marker = c.marker ∧ d.rest = body.rest ∧
      d.read = c.read + body.length ∧
      d.out.toBytes = c.out.toBytes ++ Literal.replacement (hash body.span) body.span := by
  obtain ⟨text, -, hlength, htext⟩ := isBody_of_readBody hread
  have hoffset : (c.read + body.length).toNat = c.read.toNat + body.length := by omega
  rw [replace, if_neg (Int.not_lt.2 h), hread]
  refine ⟨_, rfl, rfl, ?_, rfl, Buffer.toBytes_append _ _⟩
  have hdrop : c.rest.drop body.length = body.rest := by rw [htext, hlength, List.drop_left]
  rwa [rest, List.drop_drop, ← hoffset] at hdrop

theorem exists_replace_of_error (hash : HashFunction) (h : 0 ≤ c.read) (hread : readBody c.rest = .error fault) :
    ∃ stopped, c.replace hash = (.error fault, stopped) ∧ stopped.tokenStart = c.tokenStart := by
  rw [replace, if_neg (Int.not_lt.2 h), hread]
  cases fault <;> exact ⟨_, rfl, rfl⟩

theorem remaining_replace (h : c.next = (.invocation, d)) (hr : d.replace hash = (.ok body, e)) :
    e.remaining < c.remaining := by
  obtain ⟨htext, -, hlt, hread, -⟩ := next_eq_invocation h
  obtain ⟨-, -, rfl⟩ := replace_eq_ok hr
  simp only [remaining, htext]
  omega

/-- Replaces one invocation after the other, up to the end or to the first fault. -/
def drive (hash : HashFunction) (c : Cursor) : List Invocation × Option Fault × Cursor :=
  match hn : c.next with
  | (.invocation, token) =>
    match hr : token.replace hash with
    | (.error fault, stopped) => ([], some fault, stopped)
    | (.ok body, behind) =>
      have := remaining_replace hn hr
      let (more, fault, final) := drive hash behind
      (⟨token.tokenStart.getD 0, behind.read.toNat, body.span, Hash.word (hash body.span)⟩ :: more,
        fault, final)
  | (_, final) => ([], none, final)
termination_by c.remaining

theorem drive_of_finished (h : c.next = (.finished, d)) : c.drive hash = ([], none, d) := by
  rw [drive]
  split <;> simp_all

theorem drive_of_fault (h : c.next = (.invocation, d)) (hr : d.replace hash = (.error fault, e)) :
    c.drive hash = ([], some fault, e) := by
  rw [drive]
  split
  · next hn =>
    obtain rfl : _ = d := (Prod.mk.inj (hn.symm.trans h)).2
    split <;> simp_all
  · simp_all

theorem drive_of_replaced (h : c.next = (.invocation, d)) (hr : d.replace hash = (.ok body, e)) :
    c.drive hash = (⟨d.tokenStart.getD 0, e.read.toNat, body.span, Hash.word (hash body.span)⟩ ::
      (e.drive hash).1, (e.drive hash).2) := by
  rw [drive]
  split
  · next hn =>
    obtain rfl : _ = d := (Prod.mk.inj (hn.symm.trans h)).2
    split
    · next hr' => simp [hr] at hr'
    · next hr' =>
      rw [hr, Prod.mk.injEq, Except.ok.injEq] at hr'
      obtain ⟨rfl, rfl⟩ := hr'
      rfl
  · simp_all

theorem exists_next_of_gap (h : 0 ≤ c.read) (hgap : gap c.marker c.rest = (before, some more)) :
    ∃ d, c.next = (.invocation, d) ∧ d.marker = c.marker ∧ d.rest = more ∧
      d.read = c.read + (before.length + c.marker.token.length : Nat) ∧
      d.out.toBytes = c.out.toBytes ++ before ∧ d.tokenStart = some (c.read.toNat + before.length) := by
  obtain ⟨hrest, -, -⟩ := gap_eq_some (congrArg Prod.snd hgap)
  rw [hgap] at hrest
  have hread : c.read + before.length + c.marker.token.length =
      c.read + (before.length + c.marker.token.length : Nat) := by omega
  have hoffset : (c.read + (before.length + c.marker.token.length : Nat)).toNat =
      c.read.toNat + (before.length + c.marker.token.length) := by omega
  have hstart : (c.read + before.length).toNat = c.read.toNat + before.length := by omega
  refine ⟨_, next_of_gap_some h hgap, rfl, ?_, hread, ?_, congrArg some hstart⟩
  · have hdrop : c.rest.drop (before.length + c.marker.token.length) = more := by
      rw [hrest, ← List.append_assoc, ← List.length_append, List.drop_left]
    rwa [rest, List.drop_drop, ← hoffset, ← hread] at hdrop
  · rw [pass, copy, Buffer.toBytes_append, hrest, List.take_left]

theorem drive_of_scan (hash : HashFunction) (c : Cursor) (h : 0 ≤ c.read) :
    ∃ final, c.drive hash =
        (Invocation.ofPieces hash c.read.toNat (scan c.marker c.rest).pieces, (scan c.marker c.rest).fault,
          final) ∧
      ((scan c.marker c.rest).fault = none →
        final.out.toBytes = c.out.toBytes ++ Preprocess.output hash (scan c.marker c.rest)) ∧
      ((scan c.marker c.rest).fault ≠ none →
        final.tokenStart = some (c.read.toNat + Preprocess.faultOffset (scan c.marker c.rest))) := by
  induction hn : c.remaining using Nat.strongRecOn generalizing c with
  | ind n ih =>
    subst hn
    cases hgap : gap c.marker c.rest with
    | mk before more =>
      cases more with
      | none =>
        obtain ⟨hbefore, habsent⟩ := gap_eq_none (congrArg Prod.snd hgap)
        rw [hgap] at hbefore
        obtain rfl : before = c.rest := hbefore
        rw [scan_of_absent habsent, drive_of_finished (next_of_gap_none h hgap)]
        refine ⟨_, rfl, fun _ => ?_, fun hf => absurd rfl hf⟩
        simp [copy, Preprocess.output]
      | some more =>
        obtain ⟨d, hnext, hmarker, hrest, hread, hout, htoken⟩ := exists_next_of_gap h hgap
        have hpos : 0 ≤ d.read := by omega
        cases hbody : readBody more with
        | error fault =>
          obtain ⟨stopped, hr, hstart⟩ := exists_replace_of_error hash hpos (hrest ▸ hbody)
          rw [scan_of_readBody_error hgap hbody, drive_of_fault hnext hr]
          refine ⟨stopped, rfl, fun hf => absurd hf (Option.some_ne_none fault), fun _ => ?_⟩
          rw [hstart, htoken]
          rfl
        | ok body =>
          obtain ⟨e, hr, hmarker', hrest', hread', hout'⟩ := exists_replace_of_ok hash hpos (hrest ▸ hbody)
          obtain ⟨text, -, hlength, htext⟩ := isBody_of_readBody hbody
          have hsource : more.take body.length = text := by rw [htext, hlength, List.take_left]
          -- behind the invocation the rest of the source is driven through in the same way
          obtain ⟨final, hdrive, hdone, hstopped⟩ := ih _ (remaining_replace hnext hr) e (by omega) rfl
          rw [hmarker', hmarker, hrest'] at hdrive hdone hstopped
          have hstart : d.tokenStart.getD 0 = c.read.toNat + before.length := by rw [htoken]; rfl
          have hstop : e.read.toNat = c.read.toNat + before.length + (c.marker.token ++ text).length := by
            rw [List.length_append]
            omega
          rw [scan_of_readBody_ok hgap hbody, drive_of_replaced hnext hr, hsource]
          refine ⟨final, ?_, fun hf => ?_, fun hf => ?_⟩
          · rw [hdrive, hstart, hstop]
            rfl
          · rw [hdone hf, hout', hout]
            simp [Preprocess.output]
          · rw [hstopped hf, hstop]
            simp only [Preprocess.faultOffset, List.foldr_cons, Option.some.injEq]
            omega

/-- A cursor that is driven through a source comes upon the invocations and the fault of the scan. Without a
fault it has written the output; else the token met last is that of the fault. -/
theorem drive_start (hash : HashFunction) (m : Marker) (input : Bytes) :
    ∃ final, drive hash { text := input, marker := m } =
        (Invocation.ofPieces hash 0 (scan m input).pieces, (scan m input).fault, final) ∧
      ((scan m input).fault = none → final.out.toBytes = Preprocess.output hash (scan m input)) ∧
      ((scan m input).fault ≠ none → final.tokenStart = some (Preprocess.faultOffset (scan m input))) := by
  obtain ⟨final, hdrive, hdone, hstopped⟩ :=
    drive_of_scan hash { text := input, marker := m } (Int.le_refl 0)
  refine ⟨final, hdrive, hdone, fun hf => ?_⟩
  rw [hstopped hf]
  exact congrArg some (Nat.zero_add _)

end HashedLiterals.Scan.Cursor
