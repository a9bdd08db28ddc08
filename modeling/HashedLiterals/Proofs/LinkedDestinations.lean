import HashedLiterals.Proofs.Footprint

/-!
Destinations that are links. Main statement: when an update has written its files, a link that could be
resolved to an existing entry still stands, and the output is where the link was resolved to, which is
where it leads if that is also its place as a text. A link that leads nowhere is replaced.
-/
set_option autoImplicit false

namespace HashedLiterals

namespace Disk

variable {d d' e : Disk} {key k : Key} {path target : String} {x y : Slot} {slots : List Slot}

theorem of_find_link (h : d.find false path = .ok (.entry key (.link target))) :
    ∃ k, d.Beside path k ∧ IsName (Path.lastPart path) ∧ Path.lastPart path ≠ "" ∧
      key = k ++ [Path.lastPart path] ∧ d.get? key = some (.link target) := by
  rcases of_find h with ⟨key, hr⟩ | ⟨k, hb, hn, he, hr⟩
  · cases hr
  · obtain ⟨rfl, hg⟩ := foundAt_eq_entry hr.symm
    exact ⟨k, hb, hn, he, rfl, hg⟩

theorem Near.find_link {ends : List Key} {node : Node} (h : Near d ends d')
    (hf : d.find false path = .ok (.entry key (.link target))) (hg : d'.get? key = some node) :
    d'.find false path = .ok (.entry key node) := by
  obtain ⟨k, hb, hn, he, rfl, -⟩ := of_find_link hf
  rw [find_eq_foundAt (accepted_of_find hf) (h.beside hb) hn he (.inl rfl), foundAt_of_some hg]

theorem Near.read_target {s : Staged} {ends : List Key} {data : Bytes} {mode : Nat}
    (h : Near d ends d') (hr : Ready d s k) (hg : d'.get? (s.place k) = some (.file data mode)) :
    d'.read s.target = .ok data := by
  have ha : Accepted s.target := (hr.temporary ▸ hr.accepted).of_append hr.target_ne_empty
  refine read_eq_ok_iff.2 ⟨s.place k, mode, stat_eq_ok_iff.2 ?_⟩
  rw [← foundAt_of_some hg]
  exact find_eq_foundAt ha (h.beside hr.beside) hr.isName hr.last_ne_empty
    (.inr (by rw [Staged.place] at hg; simp [hg]))

/-- Whatever is staged before it, a file goes where its destination is resolved to. -/
theorem Staging.target_eq {real : String} (h : Staging d slots e) (hx : x ∈ slots)
    (hr : d.realPath x.pending.destination = .ok real) : x.staged.target = real := by
  obtain ⟨before, after, hslots⟩ := List.append_of_mem hx
  obtain ⟨e', hsc, hto⟩ := h.target before x after hslots
  rw [targetOf, hsc.keeps.realPath hr] at hto
  exact (Except.ok.inj hto).symm

theorem Staging.place_not_link {real : String} (h : Staging d slots e) (hx : x ∈ slots)
    (hg : d.Way d.cwd) (hr : d.realPath x.pending.destination = .ok real) (target : String) :
    d.get? x.place ≠ some (.link target) := by
  obtain ⟨k, rfl, hreal⟩ := real_of_realPath hg hr
  rw [h.place_eq hx (leads_of_realPath hg hr hreal)]
  exact hreal.not_link (List.prefix_refl _) target

/-- Nor does a map take the place of a link beside which it is. -/
theorem Staging.place_map_not_link {rest : List Slot} (h : Staging d (y :: rest) e) (hg : d.Way d.cwd)
    (hy : y.pending.destination = path ++ ".map")
    (hf : d.find false path = .ok (.entry key (.link target))) : y.place ≠ key := by
  rintro rfl
  obtain ⟨k, -, -, -, hkey, hlink⟩ := of_find_link hf
  rcases h.place_map_cases hg hy with ⟨node, hn, hl⟩ | ⟨k', hk'⟩
  · exact hl target (Option.some.inj (hn.symm.trans hlink))
  · have hlast := congrArg List.getLast? (hk'.symm.trans hkey)
    simp only [List.getLast?_concat, Option.some.injEq] at hlast
    have hlen := congrArg String.length hlast
    have hmap : ".map".length = 4 := by decide
    rw [String.length_append, hmap] at hlen
    omega

end Disk

namespace FileUpdate

variable {d d' : Disk} {registry registry' : Option Registry} {o : Options}
  {source destination target real : String} {output : Bytes} {map : Option SourceMap} {key : Key}

theorem prepared_of_find_link (h : d.find false destination = .ok (.entry key (.link target))) :
    prepared d o destination = d := by
  obtain ⟨k, hb, -, he, -, -⟩ := Disk.of_find_link h
  rw [prepared]
  split
  · exact Disk.makeDirectories_of_beside he (Disk.accepted_of_find h) hb
  · rfl

theorem link_kept_of_writeAll (ht : d.Tidy) (hg : d.Way d.cwd)
    (hf : d.find false destination = .ok (.entry key (.link target)))
    (hr : d.realPath destination = .ok real)
    (hw : d.writeAll (pending destination output map) = (none, d')) :
    d'.find false destination = .ok (.entry key (.link target)) ∧ d'.read real = .ok output := by
  obtain ⟨slots, e, hslots, hp, hnodup, hscratch, hren⟩ := exists_slots ht hg hw
  obtain ⟨-, -, hfiles, hkeep⟩ := hslots.get?_of_renameAll ht hnodup hscratch hren
  have hnear := hslots.near_of_renameAll ht hnodup hscratch hren
  obtain ⟨-, -, -, -, -, hlink⟩ := Disk.of_find_link hf
  obtain ⟨x, hx, hcases⟩ := slots_of_pending hp
  have hmem : x ∈ slots := by
    rcases hcases with ⟨-, rfl⟩ | ⟨m, y, -, -, rfl⟩ <;> simp
  have hdest : d.realPath x.pending.destination = .ok real := by rw [hx, hr]
  obtain ⟨mode, hfile, -⟩ := hfiles x hmem
  have hplace : x.place ≠ key := fun he => hslots.place_not_link hmem hg hdest target (he ▸ hlink)
  have hnot : key ∉ slots.map (·.place) := by
    rcases hcases with ⟨-, rfl⟩ | ⟨m, y, -, hy, rfl⟩
    · simpa using hplace.symm
    · have hmap : y.place ≠ key := hslots.place_map_not_link hg (by rw [hy]) hf
      simpa using ⟨hmap.symm, hplace.symm⟩
  refine ⟨hnear.find_link hf ((hkeep key hnot).trans hlink), ?_⟩
  rw [← hslots.target_eq hmem hdest]
  rw [hx] at hfile
  exact hnear.read_target (hslots.ready x hmem) hfile

theorem link_replaced_of_writeAll (ht : d.Tidy) (hg : d.Way d.cwd)
    (hf : d.find false destination = .ok (.entry key (.link target)))
    (hr : ∀ real, d.realPath destination ≠ .ok real)
    (hw : d.writeAll (pending destination output none) = (none, d')) :
    ∃ mode, d'.find false destination = .ok (.entry key (.file output mode)) := by
  obtain ⟨slots, e, hslots, hp, hnodup, hscratch, hren⟩ := exists_slots ht hg hw
  obtain ⟨-, -, hfiles, -⟩ := hslots.get?_of_renameAll ht hnodup hscratch hren
  have hnear := hslots.near_of_renameAll ht hnodup hscratch hren
  obtain ⟨x, hx, ⟨-, rfl⟩ | ⟨m, y, hm, -⟩⟩ := slots_of_pending hp
  · obtain ⟨mode, hfile, -⟩ := hfiles x (by simp)
    have hready := hslots.ready x (by simp)
    have hto := hslots.targetOf_head
    rw [hx, Disk.targetOf] at hto
    have htarget : x.staged.target = destination := by
      split at hto
      · next real hreal => exact absurd hreal (hr real)
      · split at hto
        · exact (Except.ok.inj hto).symm
        · cases hto
    have hfound := hready.find_target hready.beside
    rw [htarget, hf] at hfound
    have hkey : x.place = key := (Disk.foundAt_eq_entry (Except.ok.inj hfound).symm).1.symm
    rw [hx, hkey] at hfile
    exact ⟨mode, hnear.find_link hf hfile⟩
  · cases hm

theorem Placed.not_resolves {path : String} {data : Bytes} {node : Node} (h : Placed d path data d')
    (hg : d.Way d.cwd) (hn : d.get? key = some node) (hf : ∀ data mode, node ≠ .file data mode) :
    ¬ d.Resolves path key := by
  intro hkey
  obtain ⟨place, mode, hres, hdir, -⟩ := h
  obtain rfl := hkey.unique hres
  cases node with
  | directory => exact hdir hn
  | file data mode => exact hf data mode rfl
  | link target => exact hkey.not_link hg target hn

theorem Updated.keeps (h : Updated d destination output map d') (hg : d.Way d.cwd) : d.Keeps d' := by
  refine ⟨h.cwd_eq, fun key node hn hf => ?_, fun key data mode hfile => ?_⟩
  · rw [h.same key (h.written.not_resolves hg hn hf) fun hm => ?_]
    · exact hn
    · obtain ⟨m, hm⟩ := Option.isSome_iff_exists.1 hm
      exact (h.written_map m hm).not_resolves hg hn hf
  · by_cases hd : d.Resolves destination key
    · obtain ⟨place, mode', hres, -, hfile', -⟩ := h.written
      obtain rfl := hd.unique hres
      exact ⟨_, _, hfile'⟩
    · by_cases hm : map.isSome ∧ d.Resolves (destination ++ ".map") key
      · obtain ⟨m, hsome⟩ := Option.isSome_iff_exists.1 hm.1
        obtain ⟨place, mode', hres, -, hfile', -⟩ := h.written_map m hsome
        obtain rfl := hm.2.unique hres
        exact ⟨_, _, hfile'⟩
      · rw [h.same key hd fun hs hk => hm ⟨hs, hk⟩]
        exact ⟨data, mode, hfile⟩

theorem Updated.read {node : Node} (h : Updated d destination output map d') (hg : d.Way d.cwd)
    (hs : d.stat destination = .ok (key, node)) : d'.read destination = .ok output := by
  obtain ⟨place, mode, hres, hdir, hfile, -⟩ := h.written
  obtain ⟨rfl, hr⟩ := hres.of_stat hs
  have hget := Disk.get?_of_stat hg hs
  cases node with
  | directory => exact absurd hget hdir
  | file data old => exact Disk.read_eq_ok_iff.2 ⟨_, _, (h.keeps hg).stat_of_file hfile hs⟩
  | link target =>
    exact absurd hget ((Disk.real_of_stat hg hs hr).not_link (List.prefix_refl _) target)

/-- An update of a destination that is a link puts the output where the link is resolved to. If that is
nowhere, the output replaces the link. -/
theorem run_linked {outcome : Outcome} (hd : d.IsTree) (ht : d.Tidy)
    (hf : d.find false destination = .ok (.entry key (.link target))) (hdry : o.dryRun = false)
    (hm : outcome.modified = true)
    (h : run d registry o source destination = (.ok outcome, d', registry')) :
    ∃ output, outcome.output = some output ∧
      (∀ real, d.realPath destination = .ok real →
        d'.find false destination = .ok (.entry key (.link target)) ∧ d'.read real = .ok output) ∧
      (d.Settled destination → (o.sourceMap = true → d.Settled (destination ++ ".map")) →
        d'.find false destination = .ok (.entry key (.link target)) ∧
          d'.read destination = .ok output) ∧
      (o.sourceMap = false → (∀ real, d.realPath destination ≠ .ok real) →
        ∃ mode, d'.find false destination = .ok (.entry key (.file output mode))) := by
  obtain ⟨input, s, -, -, ⟨rfl, -⟩ | ⟨rfl, hmap, ⟨hdry', -⟩ | ⟨-, hw⟩⟩⟩ := ok_run_cases h
  · cases hm
  · rw [hdry] at hdry'
    cases hdry'
  · rcases writeOut_cases hw with ⟨⟨err, he⟩, -⟩ | hall
    · cases he
    · rw [prepared_of_find_link hf] at hall
      refine ⟨s.output, rfl, fun real hr => link_kept_of_writeAll ht hd.way hf hr hall,
        fun hs hsmap => ?_, fun hmap' hr => ?_⟩
      · obtain ⟨k, hres⟩ := hs (.inr ⟨_, hf⟩)
        cases hres with
        | entry hstat hr =>
          refine ⟨(link_kept_of_writeAll ht hd.way hf hr hall).1, ?_⟩
          exact (updated_of_writeAll ht hd.way hs (fun hm => hsmap (hmap.symm.trans hm)) hall).read
            hd.way hstat
        | free hfree _ => cases hf.symm.trans hfree
      · have hnone : s.map.map (rebase d source destination) = none := by
          rwa [hmap', Option.isSome_eq_false_iff, Option.isNone_iff_eq_none] at hmap
        rw [hnone] at hall
        exact link_replaced_of_writeAll ht hd.way hf hr hall

theorem run_linked_guarded :
    let r := run guarded none {} "a.c" "l"
    (r.2.1.find false "l").toOption = some (.entry ["l"] (.link "out/a.c")) ∧
      r.2.1.read "/out/a.c" = r.2.1.read "l" ∧
      r.1.toOption.bind (·.output) = (r.2.1.read "l").toOption := by
  intro r
  have hmodified : (r.1.toOption.map (·.modified)) = some true := by decide +kernel
  cases hr : r.1 with
  | error f => simp [hr, Except.toOption] at hmodified
  | ok outcome =>
    have htree : guarded.IsTree := Disk.isTree_of_entries (by decide) (by simp [guarded]) (by decide)
    have htidy : guarded.Tidy := Disk.tidy_of_entries (by decide) (by decide +kernel)
    have hfile : guarded.Resolves "l" ["out", "a.c"] := .entry rfl rfl
    have hm : outcome.modified = true := by simpa [hr, Except.toOption] using hmodified
    obtain ⟨output, ho, hkept, hsettled, -⟩ := run_linked htree htidy (rfl : guarded.find false "l" =
      .ok (.entry ["l"] (.link "out/a.c"))) rfl hm (Prod.ext hr rfl : r = (.ok outcome, r.2.1, r.2.2))
    obtain ⟨hlink, hread⟩ := hsettled hfile.settled (by simp)
    have hreal := (hkept "/out/a.c" rfl).2
    exact ⟨by rw [hlink]; rfl, hreal.trans hread.symm, by simp [Except.toOption, ho, hread]⟩

def dangling : Disk :=
  ⟨[(["a.c"], .file (Utf8.encode "SID(\"x\")\n") Disk.newMode), (["l"], .link "t.c")], [], "7"⟩

theorem run_replaces_dangling :
    let r := run dangling none {} "a.c" "l"
    dangling.IsTree ∧ dangling.Tidy ∧
      (dangling.find false "l").toOption = some (.entry ["l"] (.link "t.c")) ∧
      r.1.toOption.map (·.modified) = some true ∧
      (r.2.1.find false "l").toOption = some (.entry ["l"]
        (.file (Utf8.encode "0x0002b61d /* \"x\" */\n") Disk.newMode)) ∧
      (r.2.1.read "t.c").toOption = none := by
  refine ⟨?_, ?_, by decide +kernel, by decide +kernel, by decide +kernel, by decide +kernel⟩
  · exact Disk.isTree_of_entries (by decide) (by simp [dangling]) (by decide)
  · exact Disk.tidy_of_entries (by decide) (by decide +kernel)

end FileUpdate

end HashedLiterals
