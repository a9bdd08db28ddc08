import HashedLiterals.Proofs.Staging

set_option autoImplicit false

namespace HashedLiterals.Disk

variable {d e e' : Disk} {key k : Key}

structure Way (d : Disk) (key : Key) : Prop where
  plain : ∀ part ∈ key, Path.IsPlain part
  directory : ∀ i, d.get? (key.take i) = some .directory

theorem Scratch.way {keys : List Key} (h : Scratch d keys e) (hw : d.Way key) : e.Way key := by
  refine ⟨hw.plain, fun i => ?_⟩
  have hd := hw.directory i
  rw [h.get?_eq, hd]
  intro hm
  rw [h.get?_free hm] at hd
  cases hd

theorem resolveParts_linkFree {jump : String → List String → Except DiskError Key} {node : Node}
    {parts : List String} (hdir : ∀ i < parts.length, d.get? (key ++ parts.take i) = some .directory)
    (hnode : d.get? (key ++ parts) = some node) (hlink : ∀ target, node ≠ .link target) :
    d.resolveParts jump key parts = .ok (key ++ parts) := by
  induction parts generalizing key with
  | nil => simp [resolveParts]
  | cons part rest ih =>
    have h₀ : d.get? key = some .directory := by simpa using hdir 0 (by simp)
    have hrest : d.resolveParts jump (key ++ [part]) rest = .ok (key ++ part :: rest) := by
      rw [List.append_cons key part rest] at hnode ⊢
      refine ih (fun i hi => ?_) hnode
      simpa using hdir (i + 1) (by simpa using hi)
    have h₁ : ∃ next, d.get? (key ++ [part]) = some next ∧ ∀ target, next ≠ .link target := by
      cases rest with
      | nil => exact ⟨node, hnode, hlink⟩
      | cons _ _ => exact ⟨.directory, by simpa using hdir 1 (by simp), by simp⟩
    obtain ⟨next, hn, hl⟩ := h₁
    cases next with
    | link target => exact absurd rfl (hl target)
    | directory => simp only [resolveParts, h₀, hn, hrest]
    | file data mode => simp only [resolveParts, h₀, hn, hrest]

theorem resolve_linkFree {links : Nat} {node : Node} {parts : List String}
    (hdir : ∀ i < parts.length, d.get? (key ++ parts.take i) = some .directory)
    (hnode : d.get? (key ++ parts) = some node) (hlink : ∀ target, node ≠ .link target) :
    d.resolve links key parts = .ok (key ++ parts) := by
  cases links <;> exact resolveParts_linkFree hdir hnode hlink

theorem toKey_empty (hg : d.Way d.cwd) : Path.toKey d.cwd "" = d.cwd := by
  have hp : Path.parts "" = [""] := by decide
  have ha : Path.isAbsolute "" = false := by decide
  rw [Path.toKey_eq_follow hg.plain, ha, if_neg (by simp), hp, Path.follow_empty]

theorem realPath_empty (hg : d.Way d.cwd) : d.realPath "" = .ok (Path.ofKey d.cwd) := by
  have hz : hasZero "" = false := by decide
  have hcwd : d.get? d.cwd = some .directory := by simpa using hg.directory d.cwd.length
  have hw : ∀ links, d.resolve links [] d.cwd = .ok d.cwd := fun links =>
    resolve_linkFree (fun i _ => hg.directory i) hcwd (by simp)
  simp [realPath, hz, toKey_empty hg, hw, Except.map]

theorem targetOf_ne_empty {destination target : String} (hg : d.Way d.cwd)
    (h : d.targetOf destination = .ok target) : target ≠ "" := by
  rintro rfl
  rw [targetOf] at h
  split at h
  · next path hr =>
    obtain rfl := Except.ok.inj h
    simp only [realPath] at hr
    split at hr
    · cases hr
    · cases hres : d.resolve (linkLimit * ((Path.toKey d.cwd destination).length + 1)) []
          (Path.toKey d.cwd destination) with
      | error err => simp [hres, Except.map] at hr
      | ok key => simp [hres, Except.map, Path.ofKey] at hr
  · next err hr =>
    split at h
    · obtain rfl := Except.ok.inj h
      cases (realPath_empty hg).symm.trans hr
    · cases h

structure Slot where
  pending : Pending
  staged : Staged
  directory : Key

namespace Slot

def place (x : Slot) : Key := x.staged.place x.directory

def scratch (x : Slot) (d : Disk) : Key := x.staged.scratch d x.directory

theorem place_ne_nil (x : Slot) : x.place ≠ [] := by simp [place, Staged.place]

theorem scratch_ne_nil (x : Slot) (d : Disk) : x.scratch d ≠ [] := by simp [scratch, Staged.scratch]

theorem place_eq_of_scratch_eq {x y : Slot} {d : Disk} (h : x.scratch d = y.scratch d) :
    x.place = y.place := by
  have hdir := congrArg List.dropLast h
  have hlast := congrArg List.getLast? h
  simp only [scratch, Staged.scratch, List.dropLast_concat, List.getLast?_concat, Option.some.injEq,
    String.append_left_inj] at hdir hlast
  rw [place, place, Staged.place, Staged.place, hdir, hlast]

theorem scratch_eq_of_place_eq {x y : Slot} {d : Disk} (h : x.place = y.place) :
    x.scratch d = y.scratch d := by
  have hdir := congrArg List.dropLast h
  have hlast := congrArg List.getLast? h
  simp only [place, Staged.place, List.dropLast_concat, List.getLast?_concat, Option.some.injEq]
    at hdir hlast
  rw [scratch, scratch, Staged.scratch, Staged.scratch, hdir, hlast]

theorem scratch_ne_place (x : Slot) (d : Disk) : x.scratch d ≠ x.place := by
  intro h
  have hlast := congrArg List.getLast? h
  simp only [scratch, place, Staged.scratch, Staged.place, List.getLast?_concat, Option.some.injEq]
    at hlast
  have hlen := congrArg String.length hlast
  have hsuffix := d.two_lt_length_temporarySuffix
  rw [String.length_append] at hlen
  omega

end Slot

/-- The disk `e` is `d` with files staged on it. -/
structure Staging (d : Disk) (slots : List Slot) (e : Disk) : Prop where
  scratch : Scratch d (slots.map (·.scratch d)) e
  ready : ∀ x ∈ slots, Ready d x.staged x.directory
  target : ∀ before x after, slots = before ++ x :: after → ∃ e',
    Scratch d (before.map (·.scratch d)) e' ∧ e'.targetOf x.pending.destination = .ok x.staged.target
  filled : ∀ x ∈ slots, ∃ data mode, e.get? (x.scratch d) = some (.file data mode)
  data : (slots.map (·.scratch d)).Nodup → ∀ x ∈ slots, ∃ mode,
    e.get? (x.scratch d) = some (.file x.pending.data mode) ∧ d.KeepsMode x.place mode

section Slots

variable {slots : List Slot} {s : Staged} {p : Pending}

theorem staging_nil (d : Disk) : Staging d [] d :=
  ⟨Scratch.refl d, by simp, by simp, by simp, by simp⟩

theorem Staging.snoc {mode : Nat} (h : Staging d slots e) (hr : Ready d s k)
    (hm : d.KeepsMode (s.place k) mode) (ht : e.targetOf p.destination = .ok s.target) :
    Staging d (slots ++ [⟨p, s, k⟩]) (e.put (s.scratch d k) (.file p.data mode)) := by
  have hget : ∀ key, (e.put (s.scratch d k) (.file p.data mode)).get? key =
      if key = s.scratch d k then some (.file p.data mode) else e.get? key :=
    fun key => get?_put _ _ _ _ (scratch_ne_nil s d k)
  refine ⟨?_, ?_, ?_, ?_, ?_⟩
  · simpa [Slot.scratch] using h.scratch.put (scratch_ne_nil s d k) hr.free
  · intro x hx
    obtain hx | rfl := List.mem_append.1 hx |>.imp_right List.mem_singleton.1
    · exact h.ready x hx
    · exact hr
  · intro before x after hx
    rcases List.eq_nil_or_concat after with rfl | ⟨after, y, rfl⟩
    · obtain ⟨rfl, hy⟩ := List.append_inj' hx rfl
      obtain rfl := List.singleton_inj.1 hy
      exact ⟨e, h.scratch, ht⟩
    · rw [List.concat_eq_append, ← List.cons_append, ← List.append_assoc] at hx
      exact h.target before x after (List.append_inj' hx rfl).1
  · intro x hx
    rw [hget]
    split
    · exact ⟨_, _, rfl⟩
    · next hne =>
      obtain hx | rfl := List.mem_append.1 hx |>.imp_right List.mem_singleton.1
      · exact h.filled x hx
      · exact absurd rfl hne
  · intro hd x hx
    rw [List.map_append, List.nodup_append] at hd
    rw [hget]
    obtain hx | rfl := List.mem_append.1 hx |>.imp_right List.mem_singleton.1
    · have hne : x.scratch d ≠ s.scratch d k :=
        hd.2.2 _ (List.mem_map_of_mem hx) _ (by simp [Slot.scratch])
      rw [if_neg hne]
      exact h.data hd.1 x hx
    · exact ⟨mode, if_pos rfl, hm⟩

theorem stageAll_cases {files : List Pending} {staged : List Staged} {failed : Option DiskError}
    (ht : Tidy d) (hg : d.Way d.cwd) (h : Staging d slots e)
    (hst : e.stageAll (slots.map (·.staged)) files = (staged, e', failed)) :
    ∃ more, Staging d (slots ++ more) e' ∧
      (failed = none ∧ staged = (slots ++ more).map (·.staged) ∧ more.map (·.pending) = files ∨
        ∃ err rest, failed = some err ∧ staged = (slots ++ more).map (·.staged) ++ rest ∧
          (rest = [] ∨ ∃ target, rest = [⟨target ++ d.temporarySuffix, target⟩])) := by
  induction files generalizing slots e with
  | nil =>
    obtain ⟨rfl, rfl, rfl⟩ : slots.map (·.staged) = staged ∧ e = e' ∧ none = failed := by
      simpa [stageAll] using hst
    exact ⟨[], by simpa using h, .inl ⟨rfl, by simp, rfl⟩⟩
  | cons p files ih =>
    have hproc : e.temporarySuffix = d.temporarySuffix := by
      rw [temporarySuffix, h.scratch.process_eq, temporarySuffix]
    rw [stageAll] at hst
    split at hst
    · next err hto =>
      obtain ⟨rfl, rfl, rfl⟩ : slots.map (·.staged) = staged ∧ e = e' ∧ some err = failed := by
        simpa using hst
      exact ⟨[], by simpa using h, .inr ⟨err, [], rfl, by simp, .inl rfl⟩⟩
    · next target hto =>
      simp only [temporaryOf_eq, hproc] at hst
      split at hst
      · next err hf =>
        obtain ⟨rfl, rfl, rfl⟩ : slots.map (·.staged) ++ [⟨target ++ d.temporarySuffix, target⟩] =
            staged ∧ e = e' ∧ some err = failed := by simpa using hst
        exact ⟨[], by simpa using h, .inr ⟨err, _, rfl, by simp, .inr ⟨target, rfl⟩⟩⟩
      · next e₁ hf =>
        -- the invariant holds with one more slot, and the rest is staged from there
        obtain ⟨k, mode, hr, hkeeps, rfl⟩ := ready_of_fill ht h.scratch rfl
          (targetOf_ne_empty (h.scratch.cwd_eq ▸ h.scratch.way hg) hto) hf
        let x : Slot := ⟨p, ⟨target ++ d.temporarySuffix, target⟩, k⟩
        have hsnoc : Staging d (slots ++ [x]) (e.put (x.scratch d) (.file p.data mode)) :=
          h.snoc hr hkeeps hto
        obtain ⟨more, hmore, hcases⟩ := ih hsnoc (by simpa [x, Slot.scratch] using hst)
        refine ⟨x :: more, by simpa using hmore, ?_⟩
        obtain ⟨hn, hs, hp⟩ | ⟨err, rest, hn, hs, hrest⟩ := hcases
        · exact .inl ⟨hn, by simpa using hs, by simp [hp, x]⟩
        · exact .inr ⟨err, rest, hn, by simpa using hs, hrest⟩

theorem erase_eq_self (hk : k ≠ []) (h : d.get? k = none) : d.erase k = d := by
  have hw : d.erase k = d.without [k] := by
    simp only [erase, without, List.contains_cons, List.contains_nil, Bool.or_false]
    rfl
  rw [hw, without_eq_self (by simp [hk.symm]) (by simpa using h)]

theorem discard_ready {keys : List Key} (ht : Tidy d) (hsc : Scratch d keys e) (hr : Ready d s k)
    (hk : s.scratch d k ∈ keys) : e.discard s.temporary = .ok (e.erase (s.scratch d k)) := by
  have hf := hr.find_temporary ht (hsc.beside_iff.2 hr.beside) (.inl rfl)
  obtain hn | ⟨data, mode, hg⟩ := hsc.get?_mem _ hk
  · rw [erase_eq_self (scratch_ne_nil s d k) hn]
    simp [discard, hf, foundAt, hn]
  · simp [discard, hf, foundAt, hg]

theorem discardAll_slots {keys : List Key} (ht : Tidy d) (hsc : Scratch d keys e)
    (hr : ∀ x ∈ slots, Ready d x.staged x.directory ∧ x.scratch d ∈ keys) (rest : List Staged) :
    ∃ e', Scratch d keys e' ∧ e.discardAll (slots.map (·.staged) ++ rest) = e'.discardAll rest ∧
      (∀ x ∈ slots, e'.get? (x.scratch d) = none) ∧ ∀ key, e.get? key = none → e'.get? key = none := by
  induction slots generalizing e with
  | nil => exact ⟨e, hsc, rfl, by simp, fun _ h => h⟩
  | cons x slots ih =>
    obtain ⟨hx, hk⟩ := hr x (by simp)
    have hget : ∀ key, (e.erase (x.scratch d)).get? key =
        if key = x.scratch d then none else e.get? key :=
      fun key => get?_erase _ _ _ (x.scratch_ne_nil d)
    obtain ⟨e', hsc', hd, hnone, hkeep⟩ := ih (hsc.erase hk) fun y hy => hr y (by simp [hy])
    refine ⟨e', hsc', ?_, ?_, fun key hn => hkeep key (by rw [hget, hn, ite_self])⟩
    · rw [List.map_cons, List.cons_append, discardAll, discard_ready ht hsc hx hk]
      exact hd
    · intro y hy
      obtain rfl | hy := List.mem_cons.1 hy
      · exact hkeep _ (by rw [hget, if_pos rfl])
      · exact hnone y hy

theorem Staging.discardAll (h : Staging d slots e) (ht : Tidy d) (rest : List Staged) :
    e.discardAll (slots.map (·.staged) ++ rest) = d.discardAll rest := by
  obtain ⟨e', hsc, hd, hnone, -⟩ := discardAll_slots ht h.scratch
    (fun x hx => ⟨h.ready x hx, List.mem_map_of_mem hx⟩) rest
  have he : e' = d := by
    refine hsc.eq_of_none fun key hm => ?_
    obtain ⟨x, hx, rfl⟩ := List.mem_map.1 hm
    exact hnone x hx
  rw [hd, he]

theorem discardAll_tidy (ht : Tidy d) (target : String) :
    (d.discardAll [⟨target ++ d.temporarySuffix, target⟩]).1 = d := by
  have hd : ∀ d', d.discard (target ++ d.temporarySuffix) = .ok d' → d' = d := by
    intro d' hd
    have hnode : ∀ key node, d.find false (target ++ d.temporarySuffix) = .ok (.entry key node) →
        node = .directory := by
      intro key node hf
      obtain ⟨hn, k, hb⟩ := isName_of_find_append ht.isPart d.two_lt_length_temporarySuffix hf
      rw [find_append_eq_foundAt ht.isPart (accepted_of_find hf) hb hn d.temporarySuffix_ne_empty
        (.inl rfl)] at hf
      exact ht.directory _ _ _ (foundAt_eq_entry (Except.ok.inj hf)).2
    rw [discard] at hd
    split at hd
    · exact (Except.ok.inj hd).symm
    · cases hd
    · next hf => cases hnode _ _ hf
    · next hf => cases hnode _ _ hf
    · exact (Except.ok.inj hd).symm
  rw [Disk.discardAll]
  split
  · rfl
  · next d' h => rw [hd d' h, Disk.discardAll]

/-- The disk `e` differs from `d` in dead ends only, and none of them has become a directory. -/
structure Near (d : Disk) (ends : List Key) (e : Disk) : Prop where
  cwd_eq : e.cwd = d.cwd
  get?_eq : ∀ key, key ∉ ends → e.get? key = d.get? key
  deadEnd : ∀ key ∈ ends, d.DeadEnd key
  not_directory : ∀ key ∈ ends, e.get? key ≠ some .directory

theorem Near.beside {ends : List Key} {path : String} (h : Near d ends e) (hb : d.Beside path k) :
    e.Beside path k := by
  rw [Beside, start, h.cwd_eq]
  exact walk_directory_congr (· ∈ ends) h.deadEnd h.get?_eq hb

def move (e : Disk) (old new : Key) : Disk :=
  match e.get? old with
  | none => e
  | some node => (e.erase old).put new node

theorem get?_move {old new : Key} {node : Node} (ho : old ≠ []) (hn : new ≠ [])
    (h : e.get? old = some node) :
    (e.move old new).get? key =
      if key = new then some node else if key = old then none else e.get? key := by
  rw [move, h]
  simp only [get?_put _ _ _ _ hn, get?_erase _ _ _ ho]

theorem Near.move {ends : List Key} {old new : Key} {data : Bytes} {mode : Nat} (h : Near d ends e)
    (ho : old ≠ []) (hn : new ≠ []) (hf : e.get? old = some (.file data mode)) (hold : old ∈ ends)
    (hnew : new ∈ ends) : Near d ends (e.move old new) := by
  refine ⟨?_, fun key hk => ?_, h.deadEnd, fun key hk => ?_⟩
  · rw [Disk.move, hf]
    exact h.cwd_eq
  · rw [get?_move ho hn hf, if_neg (by rintro rfl; exact hk hnew),
      if_neg (by rintro rfl; exact hk hold), h.get?_eq key hk]
  · rw [get?_move ho hn hf]
    split
    · simp
    · split
      · simp
      · exact h.not_directory key hk

theorem rename_ready {ends : List Key} {data : Bytes} {mode : Nat} (ht : Tidy d) (hn : Near d ends e)
    (hr : Ready d s k) (hp : s.place k ∈ ends)
    (hf : e.get? (s.scratch d k) = some (.file data mode)) :
    e.rename s.temporary s.target = .ok (e.move (s.scratch d k) (s.place k)) := by
  have hb := hn.beside hr.beside
  have hold := hr.find_temporary ht hb (.inl rfl)
  have hnew := hr.find_target hb
  rw [foundAt_of_some hf] at hold
  rw [move, hf]
  cases hg : e.get? (s.place k) with
  | none => simp [rename, hold, hnew, foundAt, hg]
  | some node =>
    cases node with
    | directory => exact absurd hg (hn.not_directory _ hp)
    | file _ _ => simp [rename, hold, hnew, foundAt, hg]
    | link _ => simp [rename, hold, hnew, foundAt, hg]

theorem renameAll_slots {ends : List Key} (ht : Tidy d) (hn : Near d ends e)
    (hr : ∀ x ∈ slots, Ready d x.staged x.directory)
    (hends : ∀ x ∈ slots, x.scratch d ∈ ends ∧ x.place ∈ ends)
    (hf : ∀ x ∈ slots, ∃ data mode, e.get? (x.scratch d) = some (.file data mode))
    (hd : (slots.map (·.scratch d)).Nodup) :
    e.renameAll (slots.map (·.staged)) =
      (slots.foldl (fun e x => e.move (x.scratch d) x.place) e, none) := by
  induction slots generalizing e with
  | nil => rfl
  | cons x slots ih =>
    obtain ⟨data, mode, hx⟩ := hf x (by simp)
    obtain ⟨hold, hnew⟩ := hends x (by simp)
    have hren : e.rename x.staged.temporary x.staged.target = .ok (e.move (x.scratch d) x.place) :=
      rename_ready ht hn (hr x (by simp)) hnew hx
    rw [List.map_cons, List.nodup_cons] at hd
    rw [List.map_cons, renameAll, hren, List.foldl_cons]
    refine ih (hn.move (x.scratch_ne_nil d) x.place_ne_nil hx hold hnew)
      (fun y hy => hr y (by simp [hy])) (fun y hy => hends y (by simp [hy])) (fun y hy => ?_) hd.2
    rw [get?_move (x.scratch_ne_nil d) x.place_ne_nil hx]
    split
    · exact ⟨data, mode, rfl⟩
    · have hne : y.scratch d ≠ x.scratch d := fun he => hd.1 (he ▸ List.mem_map_of_mem hy)
      rw [if_neg hne]
      exact hf y (by simp [hy])

theorem Staging.near (h : Staging d slots e) :
    Near d (slots.map (·.scratch d) ++ slots.map (·.place)) e := by
  refine ⟨h.scratch.cwd_eq, fun key hk => ?_, fun key hk => ?_, fun key hk => ?_⟩
  · rw [List.mem_append, not_or] at hk
    exact h.scratch.get?_eq hk.1
  · obtain hk | hk := List.mem_append.1 hk
    · exact deadEnd_of_none (h.scratch.get?_free hk)
    · obtain ⟨x, hx, rfl⟩ := List.mem_map.1 hk
      exact (h.ready x hx).deadEnd
  · by_cases hs : key ∈ slots.map (·.scratch d)
    · obtain hn | ⟨data, mode, hf⟩ := h.scratch.get?_mem key hs
      · simp [hn]
      · simp [hf]
    · obtain ⟨x, hx, rfl⟩ := List.mem_map.1 ((List.mem_append.1 hk).resolve_left hs)
      rw [h.scratch.get?_eq hs]
      exact (h.ready x hx).deadEnd.1

theorem Staging.renameAll (h : Staging d slots e) (ht : Tidy d)
    (hd : (slots.map (·.scratch d)).Nodup) :
    e.renameAll (slots.map (·.staged)) =
      (slots.foldl (fun e x => e.move (x.scratch d) x.place) e, none) :=
  renameAll_slots ht h.near h.ready
    (fun _ hx => ⟨List.mem_append_left _ (List.mem_map_of_mem hx),
      List.mem_append_right _ (List.mem_map_of_mem hx)⟩) h.filled hd

/-- Two files staged for one place share their temporary file, so only one can be renamed. -/
theorem Staging.place_ne_of_renameAll {x y : Slot} {d' : Disk} (h : Staging d [y, x] e) (ht : Tidy d)
    (hren : e.renameAll [y.staged, x.staged] = (d', none)) : y.place ≠ x.place := by
  intro hplace
  have hscratch : y.scratch d = x.scratch d := Slot.scratch_eq_of_place_eq hplace
  have hready := h.ready x (by simp)
  obtain ⟨data, mode, hy⟩ := h.filled y (by simp)
  have hfirst : e.rename y.staged.temporary y.staged.target =
      .ok (e.move (y.scratch d) y.place) :=
    rename_ready ht h.near (h.ready y (by simp)) (by simp [Slot.place]) hy
  have hnear := h.near.move (y.scratch_ne_nil d) y.place_ne_nil hy (by simp) (by simp)
  have hgone : (e.move (y.scratch d) y.place).get? (x.staged.scratch d x.directory) = none := by
    change (e.move (y.scratch d) y.place).get? (x.scratch d) = none
    rw [get?_move (y.scratch_ne_nil d) y.place_ne_nil hy, ← hscratch, if_neg (y.scratch_ne_place d),
      if_pos rfl]
  have hfree := hready.find_temporary ht (hnear.beside hready.beside) (.inl rfl)
  rw [foundAt, hgone] at hfree
  rw [Disk.renameAll, hfirst] at hren
  simp [Disk.renameAll, rename, hfree] at hren

/-- All files can be staged, but two of them in one temporary file. -/
def SharesTemporary (d : Disk) (files : List Pending) : Prop :=
  ∃ staged e, d.stageAll [] files = (staged, e, none) ∧
    ¬ (staged.map fun s => e.find false s.temporary).Nodup

theorem Staging.map_find (h : Staging d slots e) (ht : Tidy d) :
    (slots.map (·.staged)).map (fun s => e.find false s.temporary) =
      (slots.map (·.scratch d)).map fun key => .ok (e.foundAt key) := by
  simp only [List.map_map]
  refine List.map_congr_left fun x hx => ?_
  have hr := h.ready x hx
  exact hr.find_temporary ht (h.scratch.beside_iff.2 hr.beside) (.inl rfl)

theorem Staging.nodup (h : Staging d slots e) (ht : Tidy d)
    (hd : ((slots.map (·.staged)).map fun s => e.find false s.temporary).Nodup) :
    (slots.map (·.scratch d)).Nodup := by
  rw [h.map_find ht] at hd
  exact List.Pairwise.of_map _ (fun _ _ hne he => hne (by rw [he])) hd

theorem writeAll_failed {files : List Pending} {err : DiskError} (ht : Tidy d) (hg : d.Way d.cwd)
    (hs : ¬ d.SharesTemporary files) (h : d.writeAll files = (some err, e)) : e = d := by
  rw [writeAll] at h
  split at h
  · next staged e₁ failed hst =>
    obtain ⟨slots, hslots, hcases⟩ := stageAll_cases ht hg (staging_nil d) hst
    obtain ⟨hn, -⟩ | ⟨_, rest, -, rfl, hrest⟩ := hcases
    · cases hn
    · rw [List.nil_append] at hslots
      rw [abandon, List.nil_append, hslots.discardAll ht rest] at h
      have he : (d.discardAll rest).1 = e := congrArg Prod.snd h
      obtain rfl | ⟨target, rfl⟩ := hrest
      · exact he.symm
      · rw [← he, discardAll_tidy ht target]
  · next staged e₁ hst =>
    obtain ⟨slots, hslots, hcases⟩ := stageAll_cases ht hg (staging_nil d) hst
    obtain ⟨-, rfl, -⟩ | ⟨_, _, hn, -⟩ := hcases
    · rw [List.nil_append] at hslots h hst
      have hd : ((slots.map (·.staged)).map fun s => e₁.find false s.temporary).Nodup :=
        Classical.not_not.1 fun hd => hs ⟨_, e₁, hst, hd⟩
      rw [hslots.renameAll ht (hslots.nodup ht hd)] at h
      cases h
    · cases hn

theorem get?_foldl_move (hd : (slots.map (·.scratch d)).Nodup) (hp : (slots.map (·.place)).Nodup)
    (hne : slots.Pairwise fun x y => x.place ≠ y.scratch d)
    (hf : ∀ x ∈ slots, ∃ data mode, e.get? (x.scratch d) = some (.file data mode)) :
    let e' := slots.foldl (fun e x => e.move (x.scratch d) x.place) e
    e'.cwd = e.cwd ∧ e'.process = e.process ∧
      (∀ x ∈ slots, e'.get? x.place = e.get? (x.scratch d)) ∧
      (∀ key, key ∉ slots.map (·.place) → key ∈ slots.map (·.scratch d) → e'.get? key = none) ∧
      ∀ key, key ∉ slots.map (·.place) → key ∉ slots.map (·.scratch d) → e'.get? key = e.get? key := by
  induction slots generalizing e with
  | nil => simp
  | cons x slots ih =>
    obtain ⟨data, mode, hx⟩ := hf x (by simp)
    rw [List.map_cons, List.nodup_cons] at hd hp
    rw [List.pairwise_cons] at hne
    have hmove : ∀ key, (e.move (x.scratch d) x.place).get? key = if key = x.place then
        some (.file data mode) else if key = x.scratch d then none else e.get? key :=
      fun key => get?_move (x.scratch_ne_nil d) x.place_ne_nil hx
    -- the move touches neither the temporary files that are left nor, later, what it has put
    have hrest : ∀ y ∈ slots,
        (e.move (x.scratch d) x.place).get? (y.scratch d) = e.get? (y.scratch d) := by
      intro y hy
      have hs : y.scratch d ≠ x.scratch d := fun he => hd.1 (he ▸ List.mem_map_of_mem hy)
      rw [hmove, if_neg (hne.1 y hy).symm, if_neg hs]
    obtain ⟨hcwd, hproc, hplaces, hnone, hkeep⟩ := ih hd.2 hp.2 hne.2
      fun y hy => hrest y hy ▸ hf y (by simp [hy])
    have hplace : x.place ∉ slots.map (·.scratch d) := by
      intro hm
      obtain ⟨z, hz, he⟩ := List.mem_map.1 hm
      exact hne.1 z hz he.symm
    rw [List.foldl_cons]
    refine ⟨?_, ?_, fun y hy => ?_, fun key hk hs => ?_, fun key hk hs => ?_⟩
    · rw [hcwd, move, hx]
      rfl
    · rw [hproc, move, hx]
      rfl
    · obtain rfl | hy := List.mem_cons.1 hy
      · rw [hkeep _ hp.1 hplace, hmove, if_pos rfl, hx]
      · rw [hplaces y hy, hrest y hy]
    · rw [List.map_cons, List.mem_cons, not_or] at hk
      obtain rfl | hs := List.mem_cons.1 hs
      · rw [hkeep _ hk.2 hd.1, hmove, if_neg hk.1, if_pos rfl]
      · exact hnone key hk.2 hs
    · rw [List.map_cons, List.mem_cons, not_or] at hk hs
      rw [hkeep key hk.2 hs.2, hmove, if_neg hk.1, if_neg hs.1]

/-- Where a destination leads, whatever files are staged. -/
def Leads (d : Disk) (destination : String) (place : Key) : Prop :=
  ∀ keys e target r, Scratch d keys e → e.targetOf destination = .ok target →
    d.find false target = .ok r → r = d.foundAt place

theorem foundAt_inj {key other : Key} (h : d.foundAt key = d.foundAt other) : key = other := by
  cases hk : d.foundAt key with
  | free k => exact (foundAt_eq_free hk).1.symm.trans (foundAt_eq_free (h ▸ hk)).1
  | entry k node => exact (foundAt_eq_entry hk).1.symm.trans (foundAt_eq_entry (h ▸ hk)).1

theorem exists_staging_of_writeAll {files : List Pending} {d' : Disk} (ht : Tidy d) (hg : d.Way d.cwd)
    (h : d.writeAll files = (none, d')) :
    ∃ slots e, Staging d slots e ∧ slots.map (·.pending) = files ∧
      e.renameAll (slots.map (·.staged)) = (d', none) := by
  rw [writeAll] at h
  split at h
  · cases h
  · next staged e hst =>
    obtain ⟨slots, hslots, hcases⟩ := stageAll_cases ht hg (staging_nil d) hst
    obtain ⟨-, rfl, rfl⟩ | ⟨_, _, hnone, -⟩ := hcases
    · rw [List.nil_append] at hslots h
      refine ⟨slots, e, hslots, rfl, ?_⟩
      split at h
      · cases h
      · next hr =>
        obtain ⟨-, rfl⟩ := Prod.mk.inj h
        exact hr
    · cases hnone

theorem Staging.place_eq {x : Slot} {place : Key} (h : Staging d slots e) (hx : x ∈ slots)
    (hl : d.Leads x.pending.destination place) : x.place = place := by
  obtain ⟨before, after, hslots⟩ := List.append_of_mem hx
  obtain ⟨e', hsc, hto⟩ := h.target before x after hslots
  have hr := h.ready x hx
  exact foundAt_inj (hl _ e' _ _ hsc hto (hr.find_target hr.beside))

/-- Staged files that are all renamed change their places and nothing else. -/
theorem Staging.get?_of_renameAll {d' : Disk} (h : Staging d slots e) (ht : Tidy d)
    (hp : (slots.map (·.place)).Nodup) (hne : slots.Pairwise fun x y => x.place ≠ y.scratch d)
    (hren : e.renameAll (slots.map (·.staged)) = (d', none)) :
    d'.cwd = d.cwd ∧ d'.process = d.process ∧
      (∀ x ∈ slots, ∃ mode, d'.get? x.place = some (.file x.pending.data mode) ∧
        d.KeepsMode x.place mode) ∧
      ∀ key, key ∉ slots.map (·.place) → d'.get? key = d.get? key := by
  -- files in different places have temporary files of their own
  have hscratch : (slots.map (·.scratch d)).Nodup := by
    rw [List.Nodup, List.pairwise_map] at hp ⊢
    exact hp.imp fun hne he => hne (Slot.place_eq_of_scratch_eq he)
  rw [h.renameAll ht hscratch] at hren
  obtain ⟨rfl, -⟩ := Prod.mk.inj hren
  obtain ⟨hcwd, hproc, hplaces, hnone, hkeep⟩ := get?_foldl_move hscratch hp hne h.filled
  refine ⟨hcwd.trans h.scratch.cwd_eq, hproc.trans h.scratch.process_eq, fun x hx => ?_,
    fun key hk => ?_⟩
  · rw [hplaces x hx]
    exact h.data hscratch x hx
  · by_cases hs : key ∈ slots.map (·.scratch d)
    · rw [hnone key hk hs, h.scratch.get?_free hs]
    · rw [hkeep key hk hs, h.scratch.get?_eq hs]

theorem Staging.near_of_renameAll {d' : Disk} (h : Staging d slots e) (ht : Tidy d)
    (hp : (slots.map (·.place)).Nodup) (hne : slots.Pairwise fun x y => x.place ≠ y.scratch d)
    (hren : e.renameAll (slots.map (·.staged)) = (d', none)) : Near d (slots.map (·.place)) d' := by
  obtain ⟨hcwd, -, hfiles, hkeep⟩ := h.get?_of_renameAll ht hp hne hren
  refine ⟨hcwd, hkeep, fun key hk => ?_, fun key hk => ?_⟩
  · obtain ⟨x, hx, rfl⟩ := List.mem_map.1 hk
    exact (h.ready x hx).deadEnd
  · obtain ⟨x, hx, rfl⟩ := List.mem_map.1 hk
    obtain ⟨mode, hfile, -⟩ := hfiles x hx
    simp [hfile]

theorem writeAll_ok {files : List Pending} {d' : Disk} (place : Pending → Key) (ht : Tidy d)
    (hg : d.Way d.cwd) (hl : ∀ p ∈ files, d.Leads p.destination (place p))
    (hp : (files.map place).Nodup)
    (hn : files.Pairwise fun p _ => ∀ key name, place p ≠ key ++ [name ++ d.temporarySuffix])
    (h : d.writeAll files = (none, d')) :
    d'.cwd = d.cwd ∧ d'.process = d.process ∧
      (∀ p ∈ files, ∃ mode, d'.get? (place p) = some (.file p.data mode) ∧
        d.KeepsMode (place p) mode) ∧
      (∀ key, key ∉ files.map place → d'.get? key = d.get? key) ∧
      ∀ p ∈ files, d.get? (place p) ≠ some .directory ∧
        ∃ key name, place p = key ++ [name] ∧ IsName name := by
  obtain ⟨slots, e, hslots, rfl, hren⟩ := exists_staging_of_writeAll ht hg h
  have hplace : ∀ x ∈ slots, x.place = place x.pending :=
    fun x hx => hslots.place_eq hx (hl _ (List.mem_map_of_mem hx))
  have hmap : (slots.map (·.pending)).map place = slots.map (·.place) := by
    rw [List.map_map]
    exact List.map_congr_left fun x hx => (hplace x hx).symm
  have hne : slots.Pairwise fun x y => x.place ≠ y.scratch d := by
    rw [List.pairwise_map] at hn
    refine hn.imp_of_mem fun {x y} hx _ hname => ?_
    rw [hplace x hx]
    exact hname _ _
  rw [hmap] at hp ⊢
  obtain ⟨hcwd, hproc, hplaces, hkeep⟩ := hslots.get?_of_renameAll ht hp hne hren
  refine ⟨hcwd, hproc, fun p hm => ?_, hkeep, fun p hm => ?_⟩
  · obtain ⟨x, hx, rfl⟩ := List.mem_map.1 hm
    rw [← hplace x hx]
    exact hplaces x hx
  · obtain ⟨x, hx, rfl⟩ := List.mem_map.1 hm
    have hr := hslots.ready x hx
    rw [← hplace x hx]
    exact ⟨hr.deadEnd.1, _, _, rfl, hr.isName⟩

end Slots

end HashedLiterals.Disk
