import HashedLiterals.Proofs.Collisions
import HashedLiterals.Proofs.FailedUpdates
import HashedLiterals.Proofs.Lexical

set_option autoImplicit false

namespace HashedLiterals

namespace Disk

variable {d d' : Disk} {places : List Key} {key : Key} {path : String}

namespace Writes

theorem link_of_link {target : String} (h : Writes places d d')
    (hg : d'.get? key = some (.link target)) : d.get? key = some (.link target) := by
  by_cases hk : key ∈ places
  · obtain ⟨data, mode, hf⟩ := h.file key hk
    rw [hf] at hg
    cases hg
  · obtain he | ⟨-, hd⟩ := h.keeps key hk
    · rw [← he, hg]
    · rw [hd] at hg
      cases hg

theorem linkFree (h : Writes places d d') (hl : d.LinkFree path) : d'.LinkFree path := by
  intro qs hqs target hg
  rw [start, h.cwd_eq] at hg
  exact hl qs hqs target (h.link_of_link hg)

end Writes

section Suffix

variable {suffix : String}

theorem toKey_append (hg : d.Way d.cwd) (hp : Path.IsPart suffix) (hs : 2 < suffix.length) :
    Path.toKey d.cwd (path ++ suffix) =
      Path.follow (d.start path) (Path.directoryParts path) ++ [Path.lastPart path ++ suffix] := by
  have hlen : 2 < (Path.lastPart path ++ suffix).length := by
    rw [String.length_append]
    omega
  have hplain : Path.IsPlain (Path.lastPart path ++ suffix) := by
    refine ⟨(Path.isPart_lastPart path).append hp, ?_, ?_, ?_⟩
    all_goals
      intro h
      rw [h] at hlen
      revert hlen
      decide
  rw [toKey_eq hg, start_append hp, Path.parts_append path hp, Path.follow_append,
    Path.follow_plain hplain]

theorem toKey_append_ne (hg : d.Way d.cwd) (hp : Path.IsPart suffix) (hs : 2 < suffix.length) :
    Path.toKey d.cwd (path ++ suffix) ≠ Path.toKey d.cwd path := by
  have hdir : ∀ part ∈ Path.follow (d.start path) (Path.directoryParts path), Path.IsPlain part :=
    Path.plain_follow (hg.start path).plain fun p hm =>
      Path.isPart_of_mem_parts (List.dropLast_subset _ hm)
  rw [toKey_append hg hp hs, toKey_eq hg path, Path.parts_eq, Path.follow_append]
  obtain he | he | he | he := Path.plain_cases (Path.isPart_lastPart path)
  · rw [he, Path.follow_empty]
    simp
  · rw [he, Path.follow_dot]
    simp
  · rw [he, Path.follow_dotDot hdir]
    intro h
    have hlen := congrArg List.length h
    simp only [List.length_append, List.length_singleton, List.length_dropLast] at hlen
    omega
  · rw [Path.follow_plain he]
    intro h
    have hlast := congrArg List.getLast? h
    simp only [List.getLast?_concat, Option.some.injEq] at hlast
    have hlen := congrArg String.length hlast
    rw [String.length_append] at hlen
    omega

end Suffix

theorem append_map_ne (d : Disk) (a b : String) : a ++ ".map" ≠ b ++ d.temporarySuffix := by
  intro h
  have hmap : ".map".toList = ['.', 'm', 'a', 'p'] := rfl
  have htmp : ".tmp".toList = ['.', 't', 'm', 'p'] := rfl
  have hchars := congrArg (fun text : String => text.toList.reverse) h
  simp [temporarySuffix, hmap, htmp] at hchars

theorem toKey_map_ne (hg : d.Way d.cwd) (key : Key) (name : String) :
    Path.toKey d.cwd (path ++ ".map") ≠ key ++ [name ++ d.temporarySuffix] := by
  rw [toKey_append hg (by decide) (by decide)]
  intro h
  have hlast := congrArg List.getLast? h
  simp only [List.getLast?_concat, Option.some.injEq] at hlast
  exact append_map_ne d _ _ hlast

theorem not_tooLong_of_toKey {name : String} (hg : d.Way d.cwd) (hlast : Path.lastPart path ≠ "")
    (hk : Path.toKey d.cwd path = key ++ [name]) (hn : IsName name) :
    isTooLong (Path.lastPart path) = false := by
  obtain he | he | he | he := Path.plain_cases (Path.isPart_lastPart path)
  · exact absurd he hlast
  · rw [he]
    decide
  · rw [he]
    decide
  · rw [toKey_eq hg, Path.parts_eq, Path.follow_append, Path.follow_plain he] at hk
    have hname := congrArg List.getLast? hk
    simp only [List.getLast?_concat, Option.some.injEq] at hname
    rw [hname]
    exact hn.not_tooLong

theorem key_of_stat {node : Node} (hg : d.Way d.cwd) (hl : d.LinkFree path)
    (h : d.stat path = .ok (key, node)) : key = Path.toKey d.cwd path :=
  (foundAt_eq_entry (find_eq_foundAt_toKey hg hl (stat_eq_ok_iff.1 h)).symm).1

theorem writes_put {data : Bytes} {mode : Nat} (hd : d.get? key ≠ some .directory)
    (hl : ∀ target, d.get? key ≠ some (.link target)) :
    Writes [key] d (d.put key (.file data mode)) := by
  have hk : key ≠ [] := by
    rintro rfl
    exact hd (way_nil d).get?_eq
  refine ⟨rfl, rfl, fun other ho => .inl ?_, fun other ho => ⟨data, mode, ?_⟩, ?_, ?_⟩
  · rw [get?_put _ _ _ _ hk, if_neg (by simpa using ho)]
  · rw [List.mem_singleton.1 ho, get?_put _ _ _ _ hk, if_pos rfl]
  · simpa using hd
  · simpa using hl

theorem copy_cases {source target : String} (hg : d.Way d.cwd) (hl : d.LinkFree target)
    (h : d.copy source target = .ok d') :
    ∃ key data mode r, d.stat source = .ok (key, .file data mode) ∧ d.find true target = .ok r ∧
      d.get? (Path.toKey d.cwd target) ≠ some .directory ∧
      d' = d.put (Path.toKey d.cwd target) (.file data mode) := by
  simp only [copy] at h
  split at h
  · cases h
  · cases h
  · next key data mode k hs hf =>
    obtain ⟨rfl, hfree⟩ := foundAt_eq_free (find_eq_foundAt_toKey hg hl hf).symm
    exact ⟨key, data, mode, _, hs, hf, by simp [hfree], (Except.ok.inj h).symm⟩
  · next key data mode k _ _ hs hf =>
    obtain ⟨rfl, hfile⟩ := foundAt_eq_entry (find_eq_foundAt_toKey hg hl hf).symm
    exact ⟨key, data, mode, _, hs, hf, by simp [hfile], (Except.ok.inj h).symm⟩
  · cases h

theorem writes_copy {source target : String} (hg : d.Way d.cwd) (hl : d.LinkFree target)
    (hlast : Path.lastPart target ≠ "") (h : d.copy source target = .ok d') :
    d.Writes [Path.toKey d.cwd target] d' ∧ ∃ data mode, d.read source = .ok data ∧
      d'.stat target = .ok (Path.toKey d.cwd target, .file data mode) := by
  obtain ⟨key, data, mode, r, hs, hf, hd, rfl⟩ := copy_cases hg hl h
  have hw : d.Writes [Path.toKey d.cwd target] (d.put (Path.toKey d.cwd target) (.file data mode)) :=
    writes_put hd fun link => hl.above hg (List.prefix_refl _) link
  obtain ⟨k, hb⟩ := beside_of_find hf
  have hput : (d.put (Path.toKey d.cwd target) (.file data mode)).get? (Path.toKey d.cwd target) =
      some (.file data mode) := by
    have hk : Path.toKey d.cwd target ≠ [] := fun he => hd (he ▸ (way_nil d).get?_eq)
    rw [get?_put _ _ _ _ hk, if_pos rfl]
  refine ⟨hw, data, mode, read_eq_ok_iff.2 ⟨key, mode, hs⟩, ?_⟩
  exact stat_of_file (hw.way hg) (hw.linkFree hl) (accepted_of_find hf) (hw.beside hb) hlast
    (not_tooLong_of_find hf hlast) hput

end Disk

namespace Preprocess

variable {o : Options} {input : Bytes} {s : Success}

theorem changed_cases (h : (run o none input).1 = .ok s) :
    s.changed = false ∧ s.output = input ∨ s.changed = true ∧ s.map.isSome = o.sourceMap := by
  obtain ⟨pieces, tail, hs, rfl⟩ := exists_segmentation_of_run h
  cases pieces with
  | nil =>
    obtain ⟨hi, -, -⟩ := Scan.segmentation_nil_iff.1 hs
    exact .inl ⟨rfl, by rw [hi]; rfl⟩
  | cons p pieces =>
    refine .inr ⟨rfl, ?_⟩
    cases hm : o.sourceMap <;> simp [success, hm]

end Preprocess

namespace FileUpdate

variable {d d' : Disk} {registry registry' : Option Registry} {o : Options}
  {source destination : String}

def places (d : Disk) (map : Bool) (destination : String) : List Key :=
  (if map then [Path.toKey d.cwd (destination ++ ".map")] else []) ++ [Path.toKey d.cwd destination]

/-- The path can be opened as a file. -/
structure NamesFile (path : String) : Prop extends Disk.Accepted path where
  last_ne_empty : Path.lastPart path ≠ ""

/-- Nothing is in the way of writing a destination, and a map if one is wanted. -/
structure Clear (d : Disk) (map : Bool) (destination : String) : Prop where
  linkFree : d.LinkFree destination
  linkFree_map : map = true → d.LinkFree (destination ++ ".map")
  not_temporary : ∀ key name, Path.toKey d.cwd destination ≠ key ++ [name ++ d.temporarySuffix]

theorem clear_of_entries {map : Bool} (hl : ∀ x ∈ d.entries, ∀ target, x.2 ≠ .link target)
    (ht : ¬ d.temporarySuffix.toList <:+ ((Path.toKey d.cwd destination).getLastD "").toList) :
    Clear d map destination := by
  have hget : ∀ key target, d.get? key ≠ some (.link target) := by
    intro key target hg
    by_cases hk : key = []
    · simp [hk, Disk.get?] at hg
    · exact hl _ (Disk.mem_entries_of_get? hk hg) target rfl
  refine ⟨fun qs _ => hget _, fun _ qs _ => hget _, fun key name he => ht ?_⟩
  rw [he, List.getLastD_eq_getLast?, List.getLast?_concat, Option.getD_some, String.toList_append]
  exact List.suffix_append _ _

theorem Clear.of_writes {places : List Key} {map : Bool} (h : Clear d map destination)
    (hw : d.Writes places d') : Clear d' map destination := by
  refine ⟨hw.linkFree h.linkFree, fun hm => hw.linkFree (h.linkFree_map hm), ?_⟩
  rw [hw.cwd_eq, Disk.temporarySuffix, hw.process_eq]
  exact h.not_temporary

theorem Clear.places_not_temporary {map : Bool} (h : Clear d map destination) (hg : d.Way d.cwd)
    (key : Key) (name : String) : key ++ [name ++ d.temporarySuffix] ∉ places d map destination := by
  intro hm
  rw [places, List.mem_append, List.mem_singleton] at hm
  obtain hm | hm := hm
  · split at hm
    · exact Disk.toKey_map_ne hg key name (List.mem_singleton.1 hm).symm
    · cases hm
  · exact h.not_temporary key name hm.symm

theorem map_pending (d : Disk) (destination : String) (output : Bytes) (map : Option SourceMap) :
    (pending destination output map).map (fun p => Path.toKey d.cwd p.destination) =
      places d map.isSome destination := by
  cases map <;> simp [pending, places]

theorem Clear.linkFree_pending {output : Bytes} {map : Option SourceMap} {p : Disk.Pending}
    (h : Clear d map.isSome destination) (hm : p ∈ pending destination output map) :
    d.LinkFree p.destination := by
  cases map with
  | none =>
    obtain rfl : p = ⟨destination, output⟩ := by simpa [pending] using hm
    exact h.linkFree
  | some m =>
    simp only [pending, Option.toList_some, List.map_cons, List.map_nil, List.singleton_append,
      List.mem_cons, List.not_mem_nil, or_false] at hm
    obtain rfl | rfl := hm
    · exact h.linkFree_map rfl
    · exact h.linkFree

theorem nodup_places (hg : d.Way d.cwd) (map : Bool) : (places d map destination).Nodup := by
  cases map with
  | false => simp [places]
  | true => simpa [places] using Disk.toKey_append_ne hg (by decide) (by decide)

theorem writes_writeAll {output : Bytes} {map : Option SourceMap} (ht : d.Tidy) (hg : d.Way d.cwd)
    (hc : Clear d map.isSome destination)
    (h : d.writeAll (pending destination output map) = (none, d')) :
    d.Writes (places d map.isSome destination) d' ∧
      (∃ mode, d'.get? (Path.toKey d.cwd destination) = some (.file output mode)) ∧
      ∃ key name, Path.toKey d.cwd destination = key ++ [name] ∧ Disk.IsName name := by
  have hmap := map_pending d destination output map
  have hlast : (⟨destination, output⟩ : Disk.Pending) ∈ pending destination output map := by
    simp [pending]
  have hne : ∀ p ∈ pending destination output map, ∀ key name,
      Path.toKey d.cwd p.destination ≠ key ++ [name ++ d.temporarySuffix] := by
    intro p hm key name he
    refine hc.places_not_temporary hg key name ?_
    rw [← hmap, ← he]
    exact List.mem_map.2 ⟨p, hm, rfl⟩
  obtain ⟨hcwd, hproc, hfile, hkeep, hbefore⟩ :=
    Disk.writeAll_ok (fun p => Path.toKey d.cwd p.destination) ht hg
      (fun p hm => Disk.leads_of_linkFree hg (hc.linkFree_pending hm))
      (by rw [hmap]; exact nodup_places hg _)
      (List.pairwise_of_forall_mem_list fun p hm _ _ => hne p hm) h
  have hat : ∀ key ∈ places d map.isSome destination, ∃ p ∈ pending destination output map,
      Path.toKey d.cwd p.destination = key := by
    intro key hk
    rw [← hmap] at hk
    exact List.mem_map.1 hk
  rw [hmap] at hkeep
  obtain ⟨mode, hwritten, -⟩ := hfile ⟨destination, output⟩ hlast
  refine ⟨⟨hcwd, hproc, fun key hk => .inl (hkeep key hk), ?_, ?_, ?_⟩, ⟨mode, hwritten⟩,
    (hbefore ⟨destination, output⟩ hlast).2⟩
  · intro key hk
    obtain ⟨p, hp, rfl⟩ := hat key hk
    obtain ⟨mode, hm, -⟩ := hfile p hp
    exact ⟨p.data, mode, hm⟩
  · intro key hk
    obtain ⟨p, hp, rfl⟩ := hat key hk
    exact (hbefore p hp).1
  · intro key hk
    obtain ⟨p, hp, rfl⟩ := hat key hk
    exact (hc.linkFree_pending hp).above hg (List.prefix_refl _)

theorem writes_writeOut {output : Bytes} {map : Option SourceMap} (ht : d.Tidy) (hg : d.Way d.cwd)
    (ho : o.createDirectories = true) (hc : Clear d map.isSome destination)
    (h : writeOut d o destination (pending destination output map) = (none, d')) :
    d.Writes (places d map.isSome destination) d' ∧ (NamesFile destination →
      ∃ mode, d'.stat destination = .ok (Path.toKey d.cwd destination, .file output mode)) := by
  rw [writeOut] at h
  simp only [ho, if_true] at h
  cases hm : d.makeDirectories (Path.parent destination) with
  | mk failed made =>
    rw [hm] at h
    cases failed with
    | some e => cases (Prod.mk.inj h).1
    | none =>
      have hgrows := Disk.grows_makeDirectories hm
      have hmade := hgrows.writes
      have hcwd : made.cwd = d.cwd := hgrows.cwd_eq
      have hg' : made.Way made.cwd := hcwd ▸ hgrows.way hg
      obtain ⟨hw, ⟨mode, hf⟩, key, name, hk, hn⟩ :=
        writes_writeAll (hgrows.tidy ht) hg' (hc.of_writes hmade) h
      refine ⟨?_, fun hname => ⟨mode, ?_⟩⟩
      · have htrans := hmade.trans hw
        rwa [List.nil_append, places, hcwd] at htrans
      · obtain ⟨k, hb⟩ := Disk.beside_of_makeDirectories hname.last_ne_empty hm
        have hd' : d'.cwd = made.cwd := hw.cwd_eq
        have hlong := Disk.not_tooLong_of_toKey hg' hname.last_ne_empty hk hn
        rw [← hd'] at hf hg'
        rw [← hcwd, ← hd']
        exact Disk.stat_of_file (hd' ▸ hw.way (hd' ▸ hg')) (hw.linkFree (hmade.linkFree hc.linkFree))
          hname.toAccepted (hw.beside hb) hname.last_ne_empty hlong hf

/-- An update that succeeds has found nothing to replace, or it has written its files or was to write
nothing. -/
theorem ok_run_cases {outcome : Outcome}
    (h : run d registry o source destination = (.ok outcome, d', registry')) :
    ∃ input s, d.read source = .ok input ∧
      (Preprocess.run ⟨o.marker, o.hash, source, o.sourceMap, o.mapper⟩ none input).1 = .ok s ∧
      (outcome = ⟨false, [], none, none⟩ ∧ s.output = input ∧ d' = d ∨
        outcome = ⟨true, s.invocations, some s.output, s.map.map (rebase d source destination)⟩ ∧
        outcome.map.isSome = o.sourceMap ∧ (o.dryRun = true ∧ d' = d ∨ o.dryRun = false ∧
          writeOut d o destination (pending destination s.output outcome.map) = (none, d'))) := by
  obtain ⟨⟨f, hf⟩, -⟩ | ⟨input, s, staged, hread, hrun, hcases⟩ := run_cases h
  · cases hf
  · have hnone := Preprocess.run_none_of_ok hrun
    refine ⟨input, s, hread, hnone, ?_⟩
    obtain ⟨hc, ho', hd, -⟩ | ⟨hc, failed, hw, hcases⟩ := hcases
    · cases Except.ok.inj ho'
      obtain ⟨-, hout⟩ | ⟨hc', -⟩ := Preprocess.changed_cases hnone
      · exact .inl ⟨rfl, hout, hd⟩
      · exact absurd (hc.symm.trans hc') (by simp)
    · obtain ⟨e, -, hf, -⟩ | ⟨rfl, ho'⟩ := hcases
      · cases hf
      · cases Except.ok.inj ho'
        obtain ⟨hc', -⟩ | ⟨-, hmap⟩ := Preprocess.changed_cases hnone
        · exact absurd (hc.symm.trans hc') (by simp)
        · refine .inr ⟨rfl, by rw [Option.isSome_map]; exact hmap, ?_⟩
          split at hw
          · next hdry => exact .inl ⟨hdry, (Prod.mk.inj hw).2.symm⟩
          · next hdry => exact .inr ⟨Bool.eq_false_iff.2 hdry, hw⟩

end FileUpdate

end HashedLiterals
