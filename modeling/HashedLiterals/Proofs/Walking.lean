import Mathlib.Data.List.Basic
import HashedLiterals.Proofs.FailedUpdates
import HashedLiterals.Proofs.JoinedNames
import HashedLiterals.Proofs.UnitOrder

/-!
Walks through directories. Main statement: below a directory argument whose path does not go up, every
wanted file is collected once, under the names on the way to it and in the order of these, unless the
path of a directory on the way is too long; such a directory stands for itself.
-/
set_option autoImplicit false

namespace HashedLiterals

namespace Disk

variable {d : Disk} {key : Key} {name : String} {node : Node}

/-- Entries as a file system has them: one for a key, with names that can be looked up. -/
structure WellNamed (d : Disk) : Prop extends Named d where
  nodup : (d.entries.map (·.1)).Nodup
  usable : ∀ x ∈ d.entries, ∀ part ∈ x.1, isTooLong part = false ∧ hasZero part = false

theorem child_eq_some_iff {k : Key} {node' : Node} :
    (match k.getLast? with
      | some last => if k.dropLast = key then some (last, node') else none
      | none => none) = some (name, node) ↔ k = key ++ [name] ∧ node' = node := by
  constructor
  · intro h
    split at h
    · next last hlast =>
      split at h
      · next hk =>
        obtain ⟨rfl, rfl⟩ := Prod.mk.inj (Option.some.inj h)
        exact ⟨by rw [← hk, List.dropLast_append_getLast? _ hlast], rfl⟩
      · cases h
    · cases h
  · rintro ⟨rfl, rfl⟩
    simp

theorem mem_children : (name, node) ∈ d.children key ↔ (key ++ [name], node) ∈ d.entries := by
  rw [children, List.mem_filterMap]
  constructor
  · rintro ⟨⟨k, node'⟩, hm, hc⟩
    obtain ⟨rfl, rfl⟩ := child_eq_some_iff.1 hc
    exact hm
  · intro hm
    exact ⟨_, hm, child_eq_some_iff.2 ⟨rfl, rfl⟩⟩

theorem WellNamed.mem_children_iff (h : d.WellNamed) :
    (name, node) ∈ d.children key ↔ d.get? (key ++ [name]) = some node := by
  rw [mem_children]
  constructor
  · intro hm
    obtain ⟨before, after, he⟩ := List.append_of_mem hm
    have hn := h.nodup
    rw [he, List.map_append, List.map_cons, List.nodup_append] at hn
    rw [get?, if_neg (by simp), List.lookup_eq_some_iff]
    refine ⟨before, after, he, fun x hx => bne_iff_ne.2 fun hk => ?_⟩
    exact hn.2.2 _ (List.mem_map_of_mem hx) _ List.mem_cons_self hk.symm
  · exact mem_entries_of_get? (by simp)

theorem WellNamed.nodup_children (h : d.WellNamed) (key : Key) : ((d.children key).map (·.1)).Nodup := by
  rw [List.Nodup, List.pairwise_map, children, List.pairwise_filterMap]
  refine (List.pairwise_map.1 h.nodup).imp fun {x y} hne a ha b hb hab => hne ?_
  obtain ⟨hx, -⟩ := child_eq_some_iff.1 ha
  obtain ⟨hy, -⟩ := child_eq_some_iff.1 hb
  rw [hx, hy, hab]

theorem WellNamed.child (h : d.WellNamed) (hg : d.get? (key ++ [name]) = some node) :
    Path.IsPlain name ∧ isTooLong name = false ∧ hasZero name = false := by
  have hm := mem_entries_of_get? (by simp) hg
  exact ⟨h.entries _ hm name (by simp), h.usable _ hm name (by simp)⟩

end Disk

namespace Collect

variable {d : Disk} {extensions : List String} {dir name : String} {key : Key} {node : Node}
  {names above : List String} {depth : Nat}

def Entered (name : String) : Prop := name.toList.head? ≠ some '.' ∧ name ≠ "node_modules"

theorem isSkipped_eq_false_iff : isSkipped name = false ↔ Entered name := by
  simp [isSkipped, Entered]

theorem isWanted_iff : isWanted extensions name = true ↔
    Lowercase.lower (Path.extension name) ∈ extensions := by simp [isWanted]

def descentsVia (extensions : List String) (below : List (List String)) (name : String) :
    Node → List (List String)
  | .directory => if isSkipped name then [] else below.map (name :: ·)
  | .file _ _ => if isWanted extensions name then [[name]] else []
  | .link _ => []

/-- The ways from a directory down to what is collected there, as lists of names. -/
def descents (d : Disk) (extensions : List String) : Nat → String → Key → List (List String)
  | 0, _, _ => []
  | depth + 1, dir, key =>
    if Disk.pathLimit < dir.utf8ByteSize then [[]]
    else (sortNames (d.children key)).flatMap fun (name, node) =>
      descentsVia extensions (descents d extensions depth (Path.join dir name) (key ++ [name])) name node

theorem mem_descentsVia {below : List (List String)} :
    names ∈ descentsVia extensions below name node ↔ ∃ rest, names = name :: rest ∧
      (node = .directory ∧ Entered name ∧ rest ∈ below ∨
        (∃ data mode, node = .file data mode) ∧ isWanted extensions name = true ∧ rest = []) := by
  cases node with
  | directory =>
    cases hskip : isSkipped name with
    | true => simp [descentsVia, hskip, ← isSkipped_eq_false_iff]
    | false =>
      have hvia : descentsVia extensions below name .directory = below.map (name :: ·) := by
        simp [descentsVia, hskip]
      rw [hvia, List.mem_map]
      constructor
      · rintro ⟨rest, hrest, rfl⟩
        exact ⟨rest, rfl, .inl ⟨rfl, isSkipped_eq_false_iff.1 hskip, hrest⟩⟩
      · rintro ⟨rest, rfl, ⟨-, -, hrest⟩ | ⟨⟨_, _, he⟩, -⟩⟩
        · exact ⟨rest, hrest, rfl⟩
        · cases he
  | file data mode =>
    cases hw : isWanted extensions name <;> simp [descentsVia, hw]
  | link target => simp [descentsVia]

/-- A walk collects what stands at the end of its descents. -/
theorem walk_eq_map {root : String} (ways : List String) (hd : d.WellNamed) (hdir : dir ≠ "")
    (hup : ".." ∉ Path.parts dir) (hf : dir.utf8ByteSize ≤ Disk.pathLimit →
      d.find true dir = .ok (.entry key .directory))
    (hroot : ways = [] → dir.utf8ByteSize ≤ Disk.pathLimit)
    (hkey : Path.toKey d.cwd dir = Path.toKey d.cwd root ++ ways) (hp : ∀ p ∈ ways, Path.IsPlain p) :
    walk d extensions root depth dir = (descents d extensions depth dir key).map fun names =>
      ⟨names.foldl Path.join dir, Path.joinParts (ways ++ names)⟩ := by
  -- induction on the depth; `ways` are the names from the root of the walk to the directory
  induction depth generalizing dir key ways with
  | zero => rfl
  | succ depth ih =>
    rw [walk, descents]
    by_cases hlong : Disk.pathLimit < dir.utf8ByteSize
    · obtain ⟨errno, herr⟩ := Disk.find_of_long d true hlong
      have hlist : d.list dir = .error (.on "scandir" dir errno) := by simp [Disk.list, Disk.stat, herr]
      have hempty : (Path.joinParts ways).isEmpty = false := by
        refine Bool.eq_false_iff.2 fun he => absurd hlong (Nat.not_lt.2 (hroot ?_))
        exact (Path.joinParts_isEmpty_iff fun p hm => .inl (hp p hm)).1 he
      simp [hlist, hlong, relative_eq hkey, hempty]
    · have hfind := hf (Nat.not_lt.1 hlong)
      have hlist : d.list dir = .ok (d.children key) := by
        rw [Disk.list, Disk.stat_eq_ok_iff.2 hfind]
      simp only [hlist, if_neg hlong, List.map_flatMap]
      refine List.flatMap_congr fun x hm => ?_
      obtain ⟨name, node⟩ := x
      have hg := hd.mem_children_iff.1 (mem_sortNames.1 hm)
      obtain ⟨hn, hl, hz⟩ := hd.child hg
      have hkey' := toKey_join_name hd.toNamed hdir hkey hn
      cases node with
      | directory =>
        cases hskip : isSkipped name with
        | true => simp [descentsVia, hskip]
        | false =>
          simp only [descentsVia, hskip, Bool.false_eq_true, if_false, List.map_map]
          rw [ih (ways ++ [name]) (Path.join_ne_empty dir name) (Path.up_not_mem_join_name hdir hup hn)
            (fun hs => Disk.find_join_name hfind hup hn hl hz hs hg (by simp)) (by simp) hkey'
            (Disk.plain_snoc hp hn)]
          refine List.map_congr_left fun names _ => ?_
          simp
      | file data mode =>
        simp only [descentsVia, relative_eq hkey']
        split <;> simp
      | link target => rfl

/-- What is collected below a directory, by the names above it and its own: a wanted file, or a directory
whose path is too long. All directories on the way are entered, and none is a link. -/
structure Collected (d : Disk) (extensions : List String) (dir : String) (key : Key)
    (above : List String) (name : String) : Prop where
  way : ∀ before last, before ++ [last] <+: above →
    d.get? (key ++ (before ++ [last])) = some .directory ∧ Entered last ∧
      ((before ++ [last]).foldl Path.join dir).utf8ByteSize ≤ Disk.pathLimit
  last : (∃ data mode, d.get? (key ++ (above ++ [name])) = some (.file data mode)) ∧
      Lowercase.lower (Path.extension name) ∈ extensions ∨
    d.get? (key ++ (above ++ [name])) = some .directory ∧ Entered name ∧
      Disk.pathLimit < ((above ++ [name]).foldl Path.join dir).utf8ByteSize

theorem collected_cons_iff {first : String} :
    Collected d extensions dir key (first :: above) name ↔
      d.get? (key ++ [first]) = some .directory ∧ Entered first ∧
      (Path.join dir first).utf8ByteSize ≤ Disk.pathLimit ∧
      Collected d extensions (Path.join dir first) (key ++ [first]) above name := by
  constructor
  · rintro ⟨hway, hlast⟩
    obtain ⟨hg, he, hs⟩ := hway [] first (by simp)
    refine ⟨hg, he, hs, fun before last hpre => ?_, ?_⟩
    · simpa using hway (first :: before) last (by simpa using hpre)
    · simpa using hlast
  · rintro ⟨hg, he, hs, hway, hlast⟩
    refine ⟨fun before last hpre => ?_, by simpa using hlast⟩
    cases before with
    | nil =>
      obtain ⟨rfl, -⟩ := List.cons_prefix_cons.1 hpre
      exact ⟨hg, he, hs⟩
    | cons first' before =>
      obtain ⟨rfl, hpre'⟩ := List.cons_prefix_cons.1 hpre
      simpa using hway before last hpre'

theorem cons_mem_descents_iff {first : String} {rest : List String}
    (hs : dir.utf8ByteSize ≤ Disk.pathLimit) (hd : d.WellNamed) :
    first :: rest ∈ descents d extensions (depth + 1) dir key ↔
      d.get? (key ++ [first]) = some .directory ∧ Entered first ∧
        rest ∈ descents d extensions depth (Path.join dir first) (key ++ [first]) ∨
      (∃ data mode, d.get? (key ++ [first]) = some (.file data mode)) ∧
        isWanted extensions first = true ∧ rest = [] := by
  simp only [descents, if_neg (Nat.not_lt.2 hs), List.mem_flatMap, mem_descentsVia, List.cons.injEq]
  constructor
  · rintro ⟨⟨name, node⟩, hm, rest', ⟨rfl, rfl⟩, hwhat⟩
    have hg := hd.mem_children_iff.1 (mem_sortNames.1 hm)
    obtain ⟨rfl, he, hrest⟩ | ⟨⟨data, mode, rfl⟩, hw, hnil⟩ := hwhat
    · exact .inl ⟨hg, he, hrest⟩
    · exact .inr ⟨⟨data, mode, hg⟩, hw, hnil⟩
  · rintro (⟨hg, he, hrest⟩ | ⟨⟨data, mode, hg⟩, hw, hnil⟩)
    · exact ⟨(first, .directory), mem_sortNames.2 (hd.mem_children_iff.2 hg), rest, ⟨rfl, rfl⟩,
        .inl ⟨rfl, he, hrest⟩⟩
    · exact ⟨(first, .file data mode), mem_sortNames.2 (hd.mem_children_iff.2 hg), rest, ⟨rfl, rfl⟩,
        .inr ⟨⟨data, mode, rfl⟩, hw, hnil⟩⟩

theorem nil_mem_descents_iff :
    [] ∈ descents d extensions (depth + 1) dir key ↔ Disk.pathLimit < dir.utf8ByteSize := by
  rw [descents]
  split
  · next hlong => simp [hlong]
  · next hlong => simp [hlong, mem_descentsVia]

theorem collected_of_mem_descents (hd : d.WellNamed) (hs : dir.utf8ByteSize ≤ Disk.pathLimit)
    (h : above ++ [name] ∈ descents d extensions depth dir key) :
    Collected d extensions dir key above name := by
  induction above generalizing depth dir key with
  | nil =>
    cases depth with
    | zero => cases h
    | succ depth =>
      refine ⟨fun before last hpre => by simp at hpre, ?_⟩
      obtain ⟨hg, he, hrest⟩ | ⟨hg, hw, -⟩ := (cons_mem_descents_iff hs hd).1 h
      -- below a directory there is an empty descent only if its path is too long
      · cases depth with
        | zero => cases hrest
        | succ depth => exact .inr ⟨hg, he, nil_mem_descents_iff.1 hrest⟩
      · exact .inl ⟨hg, isWanted_iff.1 hw⟩
  | cons first above ih =>
    cases depth with
    | zero => cases h
    | succ depth =>
      obtain ⟨hg, he, hrest⟩ | ⟨-, -, hnil⟩ := (cons_mem_descents_iff hs hd).1 h
      · have hs' : (Path.join dir first).utf8ByteSize ≤ Disk.pathLimit := by
          refine Nat.not_lt.1 fun hlong => ?_
          cases depth with
          | zero => cases hrest
          | succ depth => simp [descents, hlong] at hrest
        exact collected_cons_iff.2 ⟨hg, he, hs', ih hs' hrest⟩
      · simp at hnil

theorem mem_descents_of_collected (hd : d.WellNamed) (hs : dir.utf8ByteSize ≤ Disk.pathLimit)
    (h : Collected d extensions dir key above name) (hdepth : above.length + 2 ≤ depth) :
    above ++ [name] ∈ descents d extensions depth dir key := by
  obtain ⟨depth, rfl⟩ := Nat.exists_eq_add_of_le' (Nat.le_of_add_left_le hdepth)
  induction above generalizing depth dir key with
  | nil =>
    refine (cons_mem_descents_iff hs hd).2 ?_
    obtain ⟨hg, hw⟩ | ⟨hg, he, hlong⟩ := h.last
    · exact .inr ⟨hg, isWanted_iff.2 hw, rfl⟩
    · exact .inl ⟨hg, he, nil_mem_descents_iff.2 hlong⟩
  | cons first above ih =>
    obtain ⟨hg, he, hs', h'⟩ := collected_cons_iff.1 h
    refine (cons_mem_descents_iff hs hd).2 (.inl ⟨hg, he, ?_⟩)
    obtain ⟨depth, rfl⟩ : ∃ n, depth = n + 1 := ⟨depth - 1, by simp at hdepth; omega⟩
    exact ih hs' h' depth (by simpa using hdepth)

theorem pairwise_descents (hd : d.WellNamed) (extensions : List String) (depth : Nat) (dir : String)
    (key : Key) : (descents d extensions depth dir key).Pairwise
      (List.Lex Units.Before) := by
  induction depth generalizing dir key with
  | zero => simp [descents]
  | succ depth ih =>
    rw [descents]
    split
    · simp
    · rw [List.pairwise_flatMap]
      refine ⟨fun x _ => ?_, (pairwise_sortNames (hd.nodup_children key)).imp ?_⟩
      · obtain ⟨name, node⟩ := x
        cases node with
        | directory =>
          simp only [descentsVia]
          split
          · simp
          · exact List.pairwise_map.2 ((ih _ _).imp .cons)
        | file data mode =>
          simp only [descentsVia]
          split <;> simp
        | link target => simp [descentsVia]
      · rintro ⟨name, node⟩ ⟨name', node'⟩ hlt names hm names' hm'
        obtain ⟨rest, rfl, -⟩ := mem_descentsVia.1 hm
        obtain ⟨rest', rfl, -⟩ := mem_descentsVia.1 hm'
        exact .rel hlt

/-- On the way to what is collected, every directory has an entry of its own. -/
theorem Collected.length_le (h : Collected d extensions dir key above name) :
    above.length ≤ d.entries.length := by
  let keys := (List.range above.length).map fun i => key ++ above.take (i + 1)
  have hnodup : keys.Nodup := by
    refine List.pairwise_map.2 (List.nodup_range.imp_of_mem fun {i j} hi hj hne he => hne ?_)
    rw [List.mem_range] at hi hj
    have hlen := congrArg List.length he
    simp only [List.length_append, List.length_take] at hlen
    omega
  have hsub : keys ⊆ d.entries.map (·.1) := by
    intro k hk
    obtain ⟨i, hi, rfl⟩ := List.mem_map.1 hk
    rw [List.mem_range] at hi
    have htake : above.take (i + 1) = above.take i ++ [above[i]] :=
      List.take_succ_eq_append_getElem hi
    have hg := (h.way (above.take i) above[i] (htake ▸ List.take_prefix (i + 1) above)).1
    have hne : key ++ (above.take i ++ [above[i]]) ≠ [] := by
      rw [← List.append_assoc]
      exact List.append_ne_nil_of_right_ne_nil _ (List.cons_ne_nil _ _)
    simp only [htake]
    exact List.mem_map_of_mem (Disk.mem_entries_of_get? hne hg)
  simpa [keys] using hnodup.length_le_of_subset hsub

theorem Collected.find (hd : d.WellNamed) (hf : d.find true dir = .ok (.entry key .directory))
    (hup : ".." ∉ Path.parts dir) (h : Collected d extensions dir key above name)
    (hs : ((above ++ [name]).foldl Path.join dir).utf8ByteSize ≤ Disk.pathLimit) :
    ∃ data mode, d.find true ((above ++ [name]).foldl Path.join dir) =
      .ok (.entry (key ++ (above ++ [name])) (.file data mode)) := by
  have hdir := (Disk.accepted_of_find hf).ne_empty
  induction above generalizing dir key with
  | nil =>
    obtain ⟨⟨data, mode, hg⟩, -⟩ | ⟨-, -, hlong⟩ := h.last
    · obtain ⟨hn, hl, hz⟩ := hd.child hg
      exact ⟨data, mode, Disk.find_join_name hf hup hn hl hz hs hg (by simp)⟩
    · exact absurd hlong (Nat.not_lt.2 hs)
  | cons first above ih =>
    obtain ⟨hg, -, hs', h'⟩ := collected_cons_iff.1 h
    obtain ⟨hn, hl, hz⟩ := hd.child hg
    have hf' := Disk.find_join_name hf hup hn hl hz hs' hg (by simp)
    simpa using ih hf' (Path.up_not_mem_join_name hdir hup hn) h' hs
      (Path.join_ne_empty dir first)

theorem files_eq_map {input : String} (hd : d.WellNamed) (hs : d.stat input = .ok (key, .directory))
    (hup : ".." ∉ Path.parts input) (extensions : List String) (cwd : Key) :
    files d [input] extensions cwd =
      (descents d (extensions.map Lowercase.lower) (d.entries.length + 2) input key).map fun names =>
        ⟨names.foldl Path.join input, Path.joinParts names⟩ := by
  have hfind := Disk.stat_eq_ok_iff.1 hs
  have ha := Disk.accepted_of_find hfind
  have hinput : files d [input] extensions cwd = walk d (extensions.map Lowercase.lower) input
      (d.entries.length + 2) input := by simp [files, ofInput, hs]
  rw [hinput, walk_eq_map [] hd ha.ne_empty hup (fun _ => hfind) (fun _ => ha.short)
    (List.append_nil _).symm (by simp)]
  rfl

/-- What is collected below a directory argument, each file once and in the order of the names that lead
to it. The collected files of several arguments follow one another. -/
theorem files_below_directory {input : String} (hd : d.WellNamed)
    (hs : d.stat input = .ok (key, .directory)) (hup : ".." ∉ Path.parts input)
    (extensions : List String) (cwd : Key) :
    ∃ found : List (List String),
      files d [input] extensions cwd = found.map (fun names =>
        ⟨names.foldl Path.join input, Path.joinParts names⟩) ∧
      (∀ names, names ∈ found ↔ ∃ above name, names = above ++ [name] ∧
        Collected d (extensions.map Lowercase.lower) input key above name) ∧
      found.Pairwise (List.Lex Units.Before) ∧
      (∀ names ∈ found, (names.foldl Path.join input).utf8ByteSize ≤ Disk.pathLimit →
        ∃ data mode, d.stat (names.foldl Path.join input) = .ok (key ++ names, .file data mode)) ∧
      ∀ inputs, files d inputs extensions cwd =
        inputs.flatMap fun input => files d [input] extensions cwd := by
  have hfind := Disk.stat_eq_ok_iff.1 hs
  have ha := Disk.accepted_of_find hfind
  let found := descents d (extensions.map Lowercase.lower) (d.entries.length + 2) input key
  have hmem : ∀ names, names ∈ found ↔ ∃ above name, names = above ++ [name] ∧
      Collected d (extensions.map Lowercase.lower) input key above name := by
    intro names
    rcases List.eq_nil_or_concat names with rfl | ⟨above, name, rfl⟩
    · simp [found, nil_mem_descents_iff, ha.short]
    · rw [List.concat_eq_append]
      constructor
      · exact fun h => ⟨above, name, rfl, collected_of_mem_descents hd ha.short h⟩
      · rintro ⟨above', name', he, h⟩
        rw [he]
        exact mem_descents_of_collected hd ha.short h (Nat.add_le_add_right h.length_le 2)
  refine ⟨found, files_eq_map hd hs hup extensions cwd, hmem, pairwise_descents hd _ _ _ _, ?_, ?_⟩
  · intro names hm hshort
    obtain ⟨above, name, rfl, h⟩ := (hmem names).1 hm
    obtain ⟨data, mode, hfound⟩ := h.find hd hfind hup hshort
    exact ⟨data, mode, Disk.stat_eq_ok_iff.2 hfound⟩
  · intro inputs
    simp [files]

def sources : Disk :=
  ⟨[(["src"], .directory), (["src", "b.c"], .file (Utf8.encode "int x;\n") Disk.newMode),
    (["src", "b"], .directory), (["src", "b", "x.C"], .file (Utf8.encode "int y;\n") Disk.newMode),
    (["src", ".git"], .directory), (["src", ".git", "y.c"], .file (Utf8.encode "\n") Disk.newMode),
    (["src", "l.c"], .link "b.c")], [], "7"⟩

theorem files_below_directory_sources :
    ".." ∉ Path.parts "./src/" ∧ ∃ found : List (List String),
      files sources ["./src/"] [".c"] [] = found.map (fun names =>
        ⟨names.foldl Path.join "./src/", Path.joinParts names⟩) ∧
      ["b", "x.C"] ∈ found ∧ ["b.c"] ∈ found ∧ [".git", "y.c"] ∉ found ∧
      found.Pairwise (List.Lex Units.Before) := by
  have hd : sources.WellNamed :=
    ⟨⟨by decide +kernel, by decide⟩, by decide +kernel, by decide +kernel⟩
  have hs : sources.stat "./src/" = .ok (["src"], .directory) := rfl
  have hup : ".." ∉ Path.parts "./src/" := by decide +kernel
  obtain ⟨found, hfiles, hmem, horder, -⟩ := files_below_directory hd hs hup [".c"] []
  refine ⟨hup, found, hfiles, (hmem _).2 ⟨["b"], "x.C", rfl, ?_, ?_⟩,
    (hmem _).2 ⟨[], "b.c", rfl, by simp, ?_⟩, fun hgit => ?_, horder⟩
  · intro before last hpre
    obtain ⟨rfl, rfl⟩ : before = [] ∧ last = "b" := by
      cases before with
      | nil => exact ⟨rfl, (List.cons_prefix_cons.1 hpre).1⟩
      | cons first before => simp [List.cons_prefix_cons] at hpre
    exact ⟨by decide +kernel, ⟨by decide, by decide⟩, by decide +kernel⟩
  · exact .inl ⟨⟨_, _, rfl⟩, by decide +kernel⟩
  · exact .inl ⟨⟨_, _, rfl⟩, by decide +kernel⟩
  · obtain ⟨above, name, he, h⟩ := (hmem _).1 hgit
    have happend : [".git"] ++ ["y.c"] = above ++ [name] := he
    obtain ⟨rfl, -⟩ := List.append_singleton_inj.1 happend
    exact (h.way [] ".git" (List.prefix_refl _)).2.1.1 (by decide)

@[irreducible] def longName (c : Char) : String := String.ofList (List.replicate Disk.nameLimit c)

theorem mem_longName {c x : Char} : x ∈ (longName c).toList ↔ x = c := by
  rw [longName, String.toList_ofList, List.mem_replicate]
  exact and_iff_right (by decide)

theorem longName_ne {c x : Char} {text : String} (hx : x ∈ text.toList) (hc : x ≠ c) :
    longName c ≠ text := fun he => hc (mem_longName.1 (he ▸ hx))

theorem plain_longName {c : Char} (hs : c ≠ '/') (hd : c ≠ '.') : Path.IsPlain (longName c) where
  isPart := fun h => hs (mem_longName.1 h).symm
  ne_empty := fun he => by simpa [he] using (mem_longName (c := c)).2 rfl
  ne_dot := longName_ne (x := '.') (by decide) hd.symm
  ne_dotDot := longName_ne (x := '.') (by decide) hd.symm

theorem entered_longName {c : Char} (hd : c ≠ '.') : Entered (longName c) := by
  refine ⟨fun h => hd (mem_longName.1 (List.mem_of_mem_head? h)).symm, ?_⟩
  by_cases hc : c = 'n'
  · exact longName_ne (x := 'o') (by decide) (by rw [hc]; decide)
  · exact longName_ne (x := 'n') (by decide) (Ne.symm hc)

theorem hasZero_longName {c : Char} (hc : c ≠ '\x00') : Disk.hasZero (longName c) = false := by
  rw [Bool.eq_false_iff, Ne, Disk.hasZero_iff, mem_longName]
  exact Ne.symm hc

def deep : Disk :=
  ⟨[(["d"], .directory), (["d", longName 'n'], .link "."), (["d", longName 's'], .directory),
    (["d", longName 's', "a.c"], .file (Utf8.encode "int x;\n") Disk.newMode)], [], "7"⟩

theorem utf8ByteSize_longName : (longName 'n').utf8ByteSize = 255 ∧ (longName 's').utf8ByteSize = 255 := by
  decide +kernel

theorem wellNamed_deep : deep.WellNamed := by
  have hplain : ∀ x ∈ deep.entries, ∀ part ∈ x.1,
      part = "d" ∨ part = "a.c" ∨ part = longName 'n' ∨ part = longName 's' := by
    simp [deep]
  refine ⟨⟨fun x hx part hp => ?_, by decide⟩, by decide +kernel, fun x hx part hp => ?_⟩
  · obtain rfl | rfl | rfl | rfl := hplain x hx part hp
    · decide
    · decide
    · exact plain_longName (by decide) (by decide)
    · exact plain_longName (by decide) (by decide)
  · obtain rfl | rfl | rfl | rfl := hplain x hx part hp
    · decide
    · decide
    · exact ⟨by simp [Disk.isTooLong, utf8ByteSize_longName.1, Disk.nameLimit],
        hasZero_longName (by decide)⟩
    · exact ⟨by simp [Disk.isTooLong, utf8ByteSize_longName.2, Disk.nameLimit],
        hasZero_longName (by decide)⟩

theorem walk_deep {count links : Nat} (h : count ≤ links) :
    deep.walk true links ["d"] (List.replicate count (longName 'n')) =
      .ok (.entry ["d"] .directory) := by
  induction count generalizing links with
  | zero => exact Disk.walk_nil deep true links ["d"]
  | succ count ih =>
    obtain ⟨links, rfl⟩ := Nat.exists_eq_add_of_le' (Nat.le_of_add_left_le h)
    have hplain : Path.IsPlain (longName 'n') := plain_longName (by decide) (by decide)
    have hlong : Disk.isTooLong (longName 'n') = false := by
      simp [Disk.isTooLong, utf8ByteSize_longName.1, Disk.nameLimit]
    have hg : deep.get? (["d"] ++ [longName 'n']) = some (.link ".") := by decide +kernel
    have hsteps : Disk.steps "." = ["."] := by decide
    rw [List.replicate_succ, Disk.walk_jump ⟨hplain.ne_dot, hplain.ne_dotDot, hlong⟩ hg (.inr rfl), hsteps,
      List.singleton_append, Disk.walk_dot]
    exact ih (Nat.le_of_succ_le_succ h)

def deepPath : String := Path.joinParts ("d" :: List.replicate 15 (longName 'n'))

theorem plain_deepPath : ∀ p ∈ "d" :: List.replicate 15 (longName 'n'), Path.IsPlain p := by
  intro p hp
  obtain rfl | hp := List.mem_cons.1 hp
  · decide
  · exact (List.mem_replicate.1 hp).2 ▸ plain_longName (by decide) (by decide)

theorem up_not_mem_deepPath : ".." ∉ Path.parts deepPath := by
  rw [deepPath, Path.parts_joinParts (List.cons_ne_nil _ _) fun p hp => (plain_deepPath p hp).isPart]
  exact fun hm => (plain_deepPath _ hm).ne_dotDot rfl

theorem steps_deepPath : Disk.steps deepPath = "d" :: List.replicate 15 (longName 'n') :=
  Disk.steps_joinParts (List.cons_ne_nil _ _) plain_deepPath

theorem isAbsolute_deepPath : Path.isAbsolute deepPath = false :=
  Path.isAbsolute_joinParts fun p hp => .inl (plain_deepPath p hp)

theorem utf8ByteSize_deepPath : deepPath.utf8ByteSize = 3841 := by
  have hd : "d".utf8ByteSize = 1 := by decide
  rw [deepPath, Path.utf8ByteSize_joinParts_replicate, utf8ByteSize_longName.1, hd]

theorem deepPath_ne_empty : deepPath ≠ "" := by
  intro he
  have hsize := utf8ByteSize_deepPath
  rw [he] at hsize
  exact absurd hsize (by decide)

theorem find_deepPath : deep.find true deepPath = .ok (.entry ["d"] .directory) := by
  have hzero : Disk.hasZero deepPath = false := by
    rw [Bool.eq_false_iff, Ne, Disk.hasZero_iff, deepPath, Path.mem_joinParts (by decide)]
    rintro ⟨p, hp, hc⟩
    obtain rfl | hp := List.mem_cons.1 hp
    · exact absurd hc (by decide)
    · rw [(List.mem_replicate.1 hp).2, mem_longName] at hc
      exact absurd hc (by decide)
  have hshort : deepPath.utf8ByteSize ≤ Disk.pathLimit := by
    rw [utf8ByteSize_deepPath]
    decide
  have hg : deep.get? ([] ++ ["d"]) = some .directory := by decide +kernel
  rw [Disk.find_eq_walk_steps ⟨hzero, deepPath_ne_empty, hshort⟩, steps_deepPath, Disk.start,
    isAbsolute_deepPath]
  exact (Disk.walk_directory ⟨by decide, by decide, by decide⟩ hg).trans (walk_deep (by decide))

theorem join_deepPath_long : Disk.pathLimit < (Path.join deepPath (longName 's')).utf8ByteSize := by
  have hnames : Path.names deepPath = "d" :: List.replicate 15 (longName 'n') := by
    rw [← Disk.filter_steps, steps_deepPath]
    exact List.filter_eq_self.2 fun p hp => by simpa using (plain_deepPath p hp).ne_dot
  have hjoin : Path.join deepPath (longName 's') = deepPath ++ "/" ++ longName 's' := by
    rw [Path.join_name deepPath_ne_empty up_not_mem_deepPath (plain_longName (by decide) (by decide)),
      isAbsolute_deepPath, hnames, Path.joinParts_append_singleton, if_neg (List.cons_ne_nil _ _)]
    exact String.empty_append
  have hslash : "/".utf8ByteSize = 1 := by decide
  rw [hjoin, String.utf8ByteSize_append, String.utf8ByteSize_append, utf8ByteSize_deepPath, hslash,
    utf8ByteSize_longName.2]
  decide

theorem descents_deepPath : descents deep ([".c"].map Lowercase.lower) (deep.entries.length + 2)
    deepPath ["d"] = [[longName 's']] := by
  have hchildren : deep.children ["d"] = [(longName 'n', .link "."), (longName 's', .directory)] := by
    decide +kernel
  have hskip := isSkipped_eq_false_iff.2 (entered_longName (c := 's') (by decide))
  have hshort : ¬ Disk.pathLimit < deepPath.utf8ByteSize := by
    rw [utf8ByteSize_deepPath]
    decide
  have hbelow (key : Key) : descents deep ([".c"].map Lowercase.lower) 5
      (Path.join deepPath (longName 's')) key = [[]] := by
    rw [descents, if_pos join_deepPath_long]
  have hlength : deep.entries.length + 2 = 5 + 1 := rfl
  rw [hlength, descents, if_neg hshort]
  refine List.perm_singleton.1 (((List.mergeSort_perm _ _).flatMap_right _).trans ?_)
  rw [hchildren, List.flatMap_cons, List.flatMap_cons, List.flatMap_nil]
  simp only [hbelow, descentsVia, hskip]
  simp

/-- The path of the other directory is too long there. That directory stands for itself, and the file
in it is left out. -/
theorem files_leaves_out_deep :
    deep.WellNamed ∧ deep.stat deepPath = .ok (["d"], .directory) ∧ ".." ∉ Path.parts deepPath ∧
      deep.get? ["d", longName 's'] = some .directory ∧ Entered (longName 's') ∧
      deep.get? ["d", longName 's', "a.c"] = some (.file (Utf8.encode "int x;\n") Disk.newMode) ∧
      Lowercase.lower (Path.extension "a.c") ∈ [".c"].map Lowercase.lower ∧
      files deep [deepPath] [".c"] [] = [⟨Path.join deepPath (longName 's'), longName 's'⟩] := by
  have hstat := Disk.stat_eq_ok_iff.2 find_deepPath
  refine ⟨wellNamed_deep, hstat, up_not_mem_deepPath, by decide +kernel, entered_longName (by decide),
    by decide +kernel, by decide +kernel, ?_⟩
  rw [files_eq_map wellNamed_deep hstat up_not_mem_deepPath, descents_deepPath, List.map_singleton,
    Path.joinParts_singleton, List.foldl_cons, List.foldl_nil]

end Collect

end HashedLiterals
