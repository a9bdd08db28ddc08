import HashedLiterals.Proofs.Effects
import HashedLiterals.Proofs.Resolution

/-!
Everything that an update does to a disk. Main statement: provided that the destination and its map
lead to two places, which are also what the two paths are resolved to as texts, an update leaves behind
its two files, directories on the way to the destination if it is to make them, and nothing else. A link
with `..` behind another link is resolved elsewhere than it leads, and is replaced itself.
-/
set_option autoImplicit false

namespace HashedLiterals

namespace Disk

variable {d d' e : Disk} {key k : Key} {path : String} {onTheWay : Bool} {failed : Option Errno}

/-- The disk `d'` is `d` with more directories, all of which lie on the way along the parts. -/
structure GrowsAlong (d : Disk) (parts : List String) (d' : Disk) : Prop extends Grows d d' where
  made : ∀ key, d'.get? key = d.get? key ∨ ∃ pre, pre <+: parts ∧
    d'.find true (Path.joinParts pre) = .ok (.entry key .directory)

namespace GrowsAlong

variable {parts more : List String}

theorem refl (d : Disk) (parts : List String) : GrowsAlong d parts d :=
  ⟨Grows.refl d, fun _ => .inl rfl⟩

theorem mono (h : GrowsAlong d parts d') (hp : parts <+: more) : GrowsAlong d more d' := by
  refine ⟨h.toGrows, fun key => (h.made key).imp_right ?_⟩
  rintro ⟨pre, hpre, hf⟩
  exact ⟨pre, hpre.trans hp, hf⟩

theorem trans (h : GrowsAlong d parts e) (h' : GrowsAlong e parts d') : GrowsAlong d parts d' := by
  refine ⟨h.toGrows.trans h'.toGrows, fun key => ?_⟩
  rcases h'.made key with hsame | hmade
  · rcases h.made key with hsame' | ⟨pre, hpre, hf⟩
    · exact .inl (hsame.trans hsame')
    · exact .inr ⟨pre, hpre, h'.writes.find hf (by simp)⟩
  · exact .inr hmade

end GrowsAlong

theorem growsAlong_ensureDirectory {parts : List String}
    (h : d.ensureDirectory onTheWay parts = (failed, d')) : GrowsAlong d parts d' := by
  refine ⟨grows_ensureDirectory h, fun other => ?_⟩
  rcases ensureDirectory_cases h with rfl | ⟨key, hf, rfl⟩
  · exact .inl rfl
  · by_cases ho : other = key
    · subst ho
      exact .inr ⟨parts, List.prefix_refl _, find_put_directory hf⟩
    · obtain ⟨k, -, -, -, rfl, -⟩ := of_find_eq_free hf
      exact .inl (by rw [get?_put _ _ _ _ (by simp), if_neg ho])

theorem growsAlong_makeAll {parts : List String} (h : d.makeAll onTheWay parts = (failed, d')) :
    GrowsAlong d parts.reverse d' := by
  induction parts generalizing onTheWay failed d' with
  | nil =>
    obtain ⟨-, rfl⟩ := Prod.mk.inj h
    exact GrowsAlong.refl d _
  | cons part above ih =>
    have habove : above.reverse <+: (part :: above).reverse := by
      rw [List.reverse_cons]
      exact List.prefix_append _ _
    rcases makeAll_cases h with h | ⟨-, e, made, ha, rfl | ⟨-, h⟩⟩
    · exact growsAlong_ensureDirectory h
    · exact (ih ha).mono habove
    · exact ((ih ha).mono habove).trans (growsAlong_ensureDirectory h)

theorem growsAlong_makeDirectories {e : Option DiskError} (h : d.makeDirectories path = (e, d')) :
    GrowsAlong d (Path.parts path) d' := by
  obtain ⟨failed, hm⟩ := exists_makeAll h
  simpa using growsAlong_makeAll hm

theorem Resolves.exists_found (h : d.Resolves path key) : ∃ follow r, d.find follow path = .ok r := by
  cases h with
  | entry hs _ => exact ⟨true, _, stat_eq_ok_iff.1 hs⟩
  | free hf _ => exact ⟨false, _, hf⟩

theorem Resolves.of_append {suffix : String} (h : d.Resolves (path ++ suffix) key)
    (hg : d.Way d.cwd) (hp : Path.IsPart suffix) (hs : suffix ≠ "") (hsettled : d.Settled path) :
    ∃ place, d.Resolves path place := by
  by_cases hempty : path = ""
  · exact hsettled (.inl ⟨_, hempty ▸ realPath_empty hg⟩)
  · obtain ⟨follow, r, hf⟩ := h.exists_found
    obtain ⟨k, hb⟩ := beside_of_find hf
    have hlast := Path.lastPart_append path hp
    have hlong := not_tooLong_of_find hf (by simp [hlast, hs])
    rw [hlast] at hlong
    exact hsettled (.inr (exists_find ((accepted_of_find hf).of_append hempty)
      ((beside_append hp k).1 hb) (isTooLong_append hlong)))

section Slots

variable {x y : Slot} {rest : List Slot}

theorem Staging.targetOf_head (h : Staging d (x :: rest) e) :
    d.targetOf x.pending.destination = .ok x.staged.target := by
  obtain ⟨e', hsc, hto⟩ := h.target [] x rest rfl
  rwa [hsc.eq_of_none (by simp)] at hto

theorem Staging.resolves_head (h : Staging d (x :: rest) e) (hs : d.Settled x.pending.destination)
    (hg : d.Way d.cwd) : d.Resolves x.pending.destination x.place := by
  have hready := h.ready x (by simp)
  have hfound := hready.find_target hready.beside
  have hto := h.targetOf_head
  have hresolves : ∃ key, d.Resolves x.pending.destination key := by
    rw [targetOf] at hto
    split at hto
    · next real hr => exact hs (.inl ⟨real, hr⟩)
    · next err hr =>
      split at hto
      · exact hs (.inr ⟨_, Except.ok.inj hto ▸ hfound⟩)
      · cases hto
  obtain ⟨key, hkey⟩ := hresolves
  rwa [h.place_eq (by simp) (leads_of_resolves hg hkey)]

theorem Staging.resolves_pair (h : Staging d [y, x] e) (hg : d.Way d.cwd)
    (hy : y.pending.destination = x.pending.destination ++ ".map")
    (hsy : d.Settled y.pending.destination) (hsx : d.Settled x.pending.destination) :
    d.Resolves y.pending.destination y.place ∧ d.Resolves x.pending.destination x.place := by
  have hmap := h.resolves_head hsy hg
  rw [hy] at hmap
  obtain ⟨key, hkey⟩ := hmap.of_append hg (by decide) (by decide) hsx
  refine ⟨hy ▸ hmap, ?_⟩
  rwa [h.place_eq (by simp) (leads_of_resolves hg hkey)]

theorem Staging.place_map_cases {destination : String} (h : Staging d (y :: rest) e)
    (hg : d.Way d.cwd) (hy : y.pending.destination = destination ++ ".map") :
    (∃ node, d.get? y.place = some node ∧ ∀ target, node ≠ .link target) ∨
      ∃ k, y.place = k ++ [Path.lastPart destination ++ ".map"] := by
  have hto := h.targetOf_head
  rw [targetOf] at hto
  split at hto
  · next real hr =>
    obtain ⟨k, rfl, hreal⟩ := real_of_realPath hg hr
    rw [h.place_eq (by simp) (leads_of_realPath hg hr hreal)]
    exact .inl hreal.exists_node
  · split at hto
    · refine .inr ⟨y.directory, ?_⟩
      rw [Slot.place, Staged.place, ← Except.ok.inj hto, hy, Path.lastPart_append _ (by decide)]
    · cases hto

theorem Staging.place_map_ne {destination : String} (h : Staging d (y :: rest) e) (ht : Tidy d)
    (hg : d.Way d.cwd) (hy : y.pending.destination = destination ++ ".map") (key : Key)
    (name : String) : y.place ≠ key ++ [name ++ d.temporarySuffix] := by
  intro hplace
  rcases h.place_map_cases hg hy with ⟨node, hn, -⟩ | ⟨k, hk⟩
  · obtain rfl := ht.directory key name node (hplace ▸ hn)
    exact (h.ready y (by simp)).deadEnd.1 hn
  · have hlast := congrArg List.getLast? (hk.symm.trans hplace)
    simp only [List.getLast?_concat, Option.some.injEq] at hlast
    exact append_map_ne d _ _ hlast

end Slots

end Disk

namespace FileUpdate

variable {d d' e : Disk} {registry registry' : Option Registry} {o : Options}
  {source destination : String} {output : Bytes} {map : Option SourceMap}
  {result : Except Failure Outcome}

theorem growsAlong_prepared (d : Disk) (o : Options) (destination : String) :
    d.GrowsAlong (Path.parts (Path.parent destination)) (prepared d o destination) := by
  rw [prepared]
  split
  · cases hm : d.makeDirectories (Path.parent destination) with
    | mk e made => exact Disk.growsAlong_makeDirectories hm
  · exact Disk.GrowsAlong.refl d _

theorem prepared_eq_self (h : o.createDirectories = false) : prepared d o destination = d := by
  rw [prepared, if_neg (by simp [h])]

def Placed (d : Disk) (path : String) (data : Bytes) (d' : Disk) : Prop :=
  ∃ place mode, d.Resolves path place ∧ d.get? place ≠ some .directory ∧
    d'.get? place = some (.file data mode) ∧ d.KeepsMode place mode

/-- From `d` to `d'` the files of an update were put in their places, and nothing else has changed. -/
structure Updated (d : Disk) (destination : String) (output : Bytes) (map : Option SourceMap)
    (d' : Disk) : Prop where
  cwd_eq : d'.cwd = d.cwd
  process_eq : d'.process = d.process
  written : Placed d destination output d'
  written_map : ∀ m, map = some m →
    Placed d (destination ++ ".map") (Utf8.encode (m.write ++ "\n")) d'
  same : ∀ key, ¬ d.Resolves destination key →
    (map.isSome → ¬ d.Resolves (destination ++ ".map") key) → d'.get? key = d.get? key

theorem slots_of_pending {slots : List Disk.Slot}
    (h : slots.map (·.pending) = pending destination output map) :
    ∃ x, x.pending = ⟨destination, output⟩ ∧ (map = none ∧ slots = [x] ∨ ∃ m y, map = some m ∧
      y.pending = ⟨destination ++ ".map", Utf8.encode (m.write ++ "\n")⟩ ∧ slots = [y, x]) := by
  cases map with
  | none =>
    obtain ⟨x, rfl, hx⟩ := List.map_eq_singleton_iff.1 h
    exact ⟨x, hx, .inl ⟨rfl, rfl⟩⟩
  | some m =>
    obtain ⟨y, rest, rfl, hy, hrest⟩ := List.map_eq_cons_iff.1 h
    obtain ⟨x, rfl, hx⟩ := List.map_eq_singleton_iff.1 hrest
    exact ⟨x, hx, .inr ⟨m, y, rfl, hy, rfl⟩⟩

theorem exists_slots (ht : d.Tidy) (hg : d.Way d.cwd)
    (hw : d.writeAll (pending destination output map) = (none, d')) :
    ∃ slots e, d.Staging slots e ∧ slots.map (·.pending) = pending destination output map ∧
      (slots.map (·.place)).Nodup ∧ (slots.Pairwise fun x y => x.place ≠ y.scratch d) ∧
      e.renameAll (slots.map (·.staged)) = (d', none) := by
  obtain ⟨slots, e, hslots, hp, hren⟩ := Disk.exists_staging_of_writeAll ht hg hw
  refine ⟨slots, e, hslots, hp, ?_⟩
  obtain ⟨x, -, ⟨rfl, rfl⟩ | ⟨m, y, rfl, hy, rfl⟩⟩ := slots_of_pending hp
  · exact ⟨by simp, by simp, hren⟩
  · have hplace : y.place ≠ x.place := hslots.place_ne_of_renameAll ht hren
    have hscratch : y.place ≠ x.scratch d := hslots.place_map_ne ht hg (by rw [hy]) _ _
    exact ⟨by simpa using hplace, by simpa using hscratch, hren⟩

theorem updated_of_writeAll (ht : d.Tidy) (hg : d.Way d.cwd) (hs : d.Settled destination)
    (hm : map.isSome → d.Settled (destination ++ ".map"))
    (hw : d.writeAll (pending destination output map) = (none, d')) :
    Updated d destination output map d' := by
  obtain ⟨slots, e, hslots, hp, hnodup, hscratch, hren⟩ := exists_slots ht hg hw
  obtain ⟨hcwd, hproc, hfiles, hkeep⟩ := hslots.get?_of_renameAll ht hnodup hscratch hren
  obtain ⟨x, hx, ⟨rfl, rfl⟩ | ⟨m, y, rfl, hy, rfl⟩⟩ := slots_of_pending hp
  · have hres : d.Resolves destination x.place := by
      have hhead := hslots.resolves_head (by rwa [hx]) hg
      rwa [hx] at hhead
    obtain ⟨mode, hfile, hmode⟩ := hfiles x (by simp)
    have hdir := (hslots.ready x (by simp)).deadEnd.1
    refine ⟨hcwd, hproc, ⟨_, mode, hres, hdir, by rw [hfile, hx], hmode⟩, by simp, fun key hk _ => ?_⟩
    refine hkeep key fun hm => hk ?_
    rwa [List.mem_singleton.1 hm]
  · have hyx : y.pending.destination = x.pending.destination ++ ".map" := by rw [hy, hx]
    obtain ⟨hresy, hresx⟩ := hslots.resolves_pair hg hyx (by rw [hy]; exact hm rfl) (by rwa [hx])
    rw [hy] at hresy
    rw [hx] at hresx
    obtain ⟨mode, hfile, hmode⟩ := hfiles x (by simp)
    obtain ⟨mode', hfile', hmode'⟩ := hfiles y (by simp)
    have hdir := (hslots.ready x (by simp)).deadEnd.1
    have hdir' := (hslots.ready y (by simp)).deadEnd.1
    refine ⟨hcwd, hproc, ⟨_, mode, hresx, hdir, by rw [hfile, hx], hmode⟩, ?_, fun key hkx hky => ?_⟩
    · rintro _ ⟨rfl⟩
      exact ⟨_, mode', hresy, hdir', by rw [hfile', hy], hmode'⟩
    · refine hkeep key fun hm => ?_
      rcases List.mem_cons.1 hm with rfl | hm
      · exact hky rfl hresy
      · rw [List.mem_singleton.1 hm] at hkx
        exact hkx hresx

/-- The map's place and the file's, if both are written, lead to where they are resolved as texts, and
are two places. -/
structure Distinct (d : Disk) (map : Bool) (destination : String) : Prop where
  settled : d.Settled destination
  settled_map : map = true → d.Settled (destination ++ ".map")
  ne : map = true → ∀ key, d.Resolves destination key → ¬ d.Resolves (destination ++ ".map") key

theorem Distinct.not_sharesTemporary {mapped : Bytes} (h : Distinct d true destination) (ht : d.Tidy)
    (hg : d.Way d.cwd) :
    ¬ d.SharesTemporary [⟨destination ++ ".map", mapped⟩, ⟨destination, output⟩] := by
  rintro ⟨staged, e, hst, hdouble⟩
  obtain ⟨slots, hslots, ⟨-, rfl, hp⟩ | ⟨_, _, hn, -⟩⟩ :=
    Disk.stageAll_cases ht hg (Disk.staging_nil d) hst
  · rw [List.nil_append] at hslots hdouble
    obtain ⟨y, rest, rfl, hy, hrest⟩ := List.map_eq_cons_iff.1 hp
    obtain ⟨x, rfl, hx⟩ := List.map_eq_singleton_iff.1 hrest
    have hyx : y.pending.destination = x.pending.destination ++ ".map" := by rw [hy, hx]
    obtain ⟨hresy, hresx⟩ := hslots.resolves_pair hg hyx (by rw [hy]; exact h.settled_map rfl)
      (by rw [hx]; exact h.settled)
    rw [hy] at hresy
    rw [hx] at hresx
    refine hdouble ?_
    rw [hslots.map_find ht]
    simp only [List.map_cons, List.map_nil, List.nodup_cons, List.mem_singleton, Except.ok.injEq,
      List.not_mem_nil, not_false_eq_true, List.nodup_nil, and_true]
    intro he
    have hplace := Disk.Slot.place_eq_of_scratch_eq (Disk.foundAt_inj he)
    exact h.ne rfl _ hresx (hplace ▸ hresy)
  · cases hn

theorem Updated.link {key : Key} {target : String} (h : Updated d destination output map d')
    (hg : d.Way d.cwd) (hl : d.get? key = some (.link target)) :
    d'.get? key = some (.link target) := by
  rw [h.same key (fun hres => hres.not_link hg target hl) fun _ hres => hres.not_link hg target hl]
  exact hl

/-- What an update with the given result leaves behind. -/
inductive Leaves (d : Disk) (o : Options) (source destination : String) :
    Except Failure Outcome → Disk → Prop
  | failed (f : Failure) : Leaves d o source destination (.error f) d
  | failed_made (f : Failure) :
    Leaves d o source destination (.error f) (prepared d o destination)
  | unchanged : Leaves d o source destination (.ok ⟨false, [], none, none⟩) d
  | dry (outcome : Outcome) (h : o.dryRun = true) : Leaves d o source destination (.ok outcome) d
  | written {input : Bytes} {s : Preprocess.Success} {d' : Disk}
    (read : d.read source = .ok input)
    (preprocessed : (Preprocess.run ⟨o.marker, o.hash, source, o.sourceMap, o.mapper⟩ none input).1 = .ok s)
    (updated : Updated (prepared d o destination) destination s.output
      (s.map.map (rebase d source destination)) d') :
    Leaves d o source destination
      (.ok ⟨true, s.invocations, some s.output, s.map.map (rebase d source destination)⟩) d'

theorem Leaves.link {key : Key} {target : String} (h : Leaves d o source destination result d')
    (hg : d.Way d.cwd) (hl : d.get? key = some (.link target)) :
    d'.get? key = some (.link target) := by
  have hgrows := grows_prepared d o destination
  have hmade : (prepared d o destination).get? key = some (.link target) :=
    hgrows.writes.get?_of_some hl (by simp)
  cases h with
  | failed f => exact hl
  | failed_made f => exact hmade
  | unchanged => exact hl
  | dry outcome _ => exact hl
  | written _ _ updated => exact updated.link (hgrows.cwd_eq ▸ hgrows.way hg) hmade

theorem leaves_of_error {f : Failure} (hd : d.IsTree) (ht : d.Tidy)
    (hdistinct : Distinct (prepared d o destination) o.sourceMap destination)
    (h : run d registry o source destination = (.error f, d', registry')) :
    Leaves d o source destination (.error f) d' := by
  have hgrows := grows_prepared d o destination
  have hshare : o.sourceMap = true → ∀ map output, ¬ (prepared d o destination).SharesTemporary
      [⟨destination ++ ".map", map⟩, ⟨destination, output⟩] := by
    intro hmap map output
    rw [hmap] at hdistinct
    exact hdistinct.not_sharesTemporary (hgrows.tidy ht) (hgrows.cwd_eq ▸ hgrows.way hd.way)
  rcases disk_of_failed_run hd ht hshare h with rfl | rfl
  · exact .failed f
  · exact .failed_made f

theorem leaves_of_ok {outcome : Outcome} (hd : d.IsTree) (ht : d.Tidy)
    (hdistinct : Distinct (prepared d o destination) o.sourceMap destination)
    (h : run d registry o source destination = (.ok outcome, d', registry')) :
    Leaves d o source destination (.ok outcome) d' := by
  have hgrows := grows_prepared d o destination
  obtain ⟨input, s, hread, hs, ⟨rfl, -, rfl⟩ | ⟨rfl, hmap, hwhat⟩⟩ := ok_run_cases h
  · exact .unchanged
  · rcases hwhat with ⟨hdry, rfl⟩ | ⟨-, hw⟩
    · exact .dry _ hdry
    · rcases writeOut_cases hw with ⟨⟨err, he⟩, -⟩ | hall
      · cases he
      · rw [← hmap] at hdistinct
        exact .written hread hs (updated_of_writeAll (hgrows.tidy ht)
          (hgrows.cwd_eq ▸ hgrows.way hd.way) hdistinct.settled hdistinct.settled_map hall)

theorem run_dry (ho : o.dryRun = true)
    (h : run d registry o source destination = (result, d', registry')) : d' = d := by
  obtain ⟨-, hd, -⟩ | ⟨input, s, staged, -, -, ⟨-, -, hd, -⟩ | ⟨-, failed, hw, -⟩⟩ := run_cases h
  · exact hd
  · exact hd
  · rw [if_pos ho] at hw
    exact (Prod.mk.inj hw).2.symm

/-- An update writes its files in their places, makes directories on the way to the destination if it is
to, and leaves everything else. A dry run leaves all as it is. -/
theorem run_leaves (hd : d.IsTree) (ht : d.Tidy)
    (hdistinct : Distinct (prepared d o destination) o.sourceMap destination)
    (h : run d registry o source destination = (result, d', registry')) :
    Leaves d o source destination result d' ∧ (o.dryRun = true → d' = d) ∧
      d.GrowsAlong (Path.parts (Path.parent destination)) (prepared d o destination) ∧
      (o.createDirectories = false → prepared d o destination = d) ∧
      ∀ key target, d.get? key = some (.link target) → d'.get? key = some (.link target) := by
  have hleaves : Leaves d o source destination result d' := by
    cases result with
    | error f => exact leaves_of_error hd ht hdistinct h
    | ok outcome => exact leaves_of_ok hd ht hdistinct h
  exact ⟨hleaves, fun hdry => run_dry hdry h, growsAlong_prepared d o destination, prepared_eq_self,
    fun key target hl => hleaves.link hd.way hl⟩

def guarded : Disk :=
  ⟨[(["a.c"], .file (Utf8.encode "SID(\"x\")\n") Disk.newMode), (["out"], .directory),
    (["out", "a.c"], .file (Utf8.encode "old") 0o600), (["l"], .link "out/a.c")], [], "7"⟩

theorem run_leaves_linked :
    let o : Options := { sourceMap := true, createDirectories := true }
    let r := run guarded none o "a.c" "l"
    r.1.toOption.map (·.modified) = some true ∧ Leaves guarded o "a.c" "l" r.1 r.2.1 ∧
      r.2.1.get? ["l"] = some (.link "out/a.c") := by
  intro o r
  have htree : guarded.IsTree := Disk.isTree_of_entries (by decide) (by simp [guarded]) (by decide)
  have htidy : guarded.Tidy := Disk.tidy_of_entries (by decide) (by decide +kernel)
  have hmade : prepared guarded o "l" = guarded := by decide +kernel
  have hfile : guarded.Resolves "l" ["out", "a.c"] :=
    .entry rfl rfl
  have hmap : guarded.Resolves ("l" ++ ".map") ["l.map"] :=
    .free rfl rfl
  have hdistinct : Distinct guarded true "l" := by
    refine ⟨hfile.settled, fun _ => hmap.settled, fun _ key hk hk' => ?_⟩
    have hne := (hk.unique hfile).symm.trans (hk'.unique hmap)
    revert hne
    decide
  obtain ⟨hleaves, -, -, -, hlink⟩ := run_leaves htree htidy (hmade ▸ hdistinct)
    (rfl : r = (r.1, r.2.1, r.2.2))
  exact ⟨by decide +kernel, hleaves, hlink ["l"] "out/a.c" (by decide)⟩

def crossed : Disk :=
  ⟨[(["s.c"], .file (Utf8.encode "SID(\"x\")\n") Disk.newMode), (["d"], .directory),
    (["d", "e"], .directory), (["d", "t.c"], .file (Utf8.encode "old") 0o600), (["k"], .link "d/e"),
    (["l"], .link "k/../t.c")], [], "7"⟩

/-- The link leads to a file, but is replaced by the output, and the file stays. -/
theorem run_replaces_crossed :
    let r := run crossed none {} "s.c" "l"
    crossed.IsTree ∧ crossed.Tidy ∧
      (crossed.stat "l").toOption = some (["d", "t.c"], .file (Utf8.encode "old") 0o600) ∧
      (crossed.find true "l.map").toOption = some (.free ["l.map"]) ∧
      r.1.toOption.map (·.modified) = some true ∧
      r.2.1.get? ["l"] = some (.file (Utf8.encode "0x0002b61d /* \"x\" */\n") 0o600) ∧
      r.2.1.get? ["d", "t.c"] = some (.file (Utf8.encode "old") 0o600) := by
  refine ⟨?_, ?_, by decide +kernel, by decide +kernel, by decide +kernel, by decide +kernel,
    by decide +kernel⟩
  · exact Disk.isTree_of_entries (by decide) (by simp [crossed]) (by decide)
  · exact Disk.tidy_of_entries (by decide) (by decide +kernel)

end FileUpdate

end HashedLiterals
