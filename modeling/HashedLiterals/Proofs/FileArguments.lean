import Mathlib.Data.List.Basic
import HashedLiterals.Proofs.Answers
import HashedLiterals.Proofs.Containment
import HashedLiterals.Proofs.OutputTree

/-!
File arguments inside the working directory. Main statement: arguments for different places there have
different outputs in any output directory, unless the first name below the working directory begins with
two dots and does not end the path. Such a name is taken for the way up, and only the base name is kept.
-/
set_option autoImplicit false

namespace HashedLiterals

namespace Path

variable {key other : Key} {ps qs : List String}

theorem joinParts_inj (hp : ∀ p ∈ ps, IsPlain p) (hq : ∀ q ∈ qs, IsPlain q) (hpn : ps ≠ [])
    (hqn : qs ≠ []) (h : joinParts ps = joinParts qs) : ps = qs := by
  rw [← parts_joinParts hpn fun p hm => (hp p hm).isPart, h,
    parts_joinParts hqn fun q hm => (hq q hm).isPart]

theorem dots_prefix_joinParts_iff {name : String} (hn : IsPlain name) (rest : List String) :
    "..".toList <+: (joinParts (name :: rest)).toList ↔ "..".toList <+: name.toList := by
  by_cases hr : rest = []
  · rw [hr, joinParts_singleton]
  · have hs : "/".toList = ['/'] := rfl
    have hdots : "..".toList = ['.', '.'] := rfl
    rw [joinParts_cons hr, String.append_assoc, String.toList_append, String.toList_append, hs, hdots]
    cases hname : name.toList with
    | nil => exact absurd (by simpa using hname) hn.ne_empty
    | cons first more =>
      cases more with
      | nil => simp [List.cons_prefix_cons]
      | cons second more => simp [List.cons_prefix_cons]

end Path

namespace Collect

variable {d : Disk} {cwd : Key} {input : String} {inputs extensions : List String}

/-- A file argument that names a place strictly inside a directory. -/
structure IsInside (d : Disk) (cwd : Key) (input : String) : Prop where
  below : cwd <+: Path.toKey cwd input
  ne : Path.toKey cwd input ≠ cwd
  not_directory : ∀ key, d.stat input ≠ .ok (key, .directory)

def namesFrom (cwd : Key) (input : String) : List String :=
  Path.relativeParts cwd (Path.toKey cwd input)

/-- The first of these names begins with two dots, and is not all that the argument's base name says. -/
def LooksUp (cwd : Key) (input : String) : Prop :=
  ∃ name rest, namesFrom cwd input = name :: rest ∧ "..".toList <+: name.toList ∧
    (rest ≠ [] ∨ Path.baseName input ≠ name)

theorem IsInside.toKey_eq (h : IsInside d cwd input) :
    Path.toKey cwd input = cwd ++ namesFrom cwd input := by
  obtain ⟨names, hnames⟩ := h.below
  rw [namesFrom, ← hnames, Path.relativeParts_append]

theorem IsInside.names_ne_nil (h : IsInside d cwd input) : namesFrom cwd input ≠ [] := by
  intro hnil
  have hkey := h.toKey_eq
  rw [hnil, List.append_nil] at hkey
  exact h.ne hkey

theorem IsInside.plain_names (hcwd : ∀ part ∈ cwd, Path.IsPlain part) (h : IsInside d cwd input) :
    ∀ part ∈ namesFrom cwd input, Path.IsPlain part := by
  intro part hm
  refine Path.plain_toKey hcwd input part ?_
  rw [h.toKey_eq]
  exact List.mem_append_right _ hm

theorem files_inside (hcwd : ∀ part ∈ cwd, Path.IsPlain part) (h : IsInside d cwd input)
    (extensions : List String) :
    (¬ LooksUp cwd input →
      files d [input] extensions cwd = [⟨input, Path.joinParts (namesFrom cwd input)⟩]) ∧
    (LooksUp cwd input → files d [input] extensions cwd = [⟨input, Path.baseName input⟩]) := by
  have hfiles : files d [input] extensions cwd = [⟨input, relativeTo cwd input⟩] := by
    rw [files, List.flatMap_cons, List.flatMap_nil, List.append_nil, ofInput]
    split
    · next key hs => exact absurd hs (h.not_directory key)
    · rfl
  have hplain := h.plain_names hcwd
  have hkept : ∀ p ∈ namesFrom cwd input, Path.IsKept p := fun p hm => .inl (hplain p hm)
  have hempty : (Path.joinParts (namesFrom cwd input)).isEmpty = false :=
    Bool.eq_false_iff.2 (mt (Path.joinParts_isEmpty_iff hkept).1 h.names_ne_nil)
  obtain ⟨name, rest, hnames⟩ := List.exists_cons_of_ne_nil h.names_ne_nil
  have hup : "..".toList.isPrefixOf (Path.joinParts (namesFrom cwd input)).toList = true ↔
      "..".toList <+: name.toList := by
    rw [List.isPrefixOf_iff_prefix, hnames, Path.dots_prefix_joinParts_iff (hplain name (by simp [hnames]))]
  have hrelative : relativeTo cwd input = if "..".toList.isPrefixOf
      (Path.joinParts (namesFrom cwd input)).toList then Path.baseName input
      else Path.joinParts (namesFrom cwd input) := by
    have habs := Path.isAbsolute_joinParts hkept
    simp only [namesFrom] at hempty habs ⊢
    simp [relativeTo, hempty, habs]
  rw [hfiles, hrelative]
  constructor
  · intro hn
    split
    · next hdots =>
      have hwhole : rest = [] ∧ Path.baseName input = name := by
        by_contra hpart
        exact hn ⟨name, rest, hnames, hup.1 hdots, Decidable.not_and_iff_or_not.1 hpart⟩
      rw [hnames, hwhole.1, hwhole.2, Path.joinParts_singleton]
    · rfl
  · rintro ⟨name', rest', hnames', hdots, -⟩
    obtain ⟨rfl, -⟩ := List.cons.inj (hnames.symm.trans hnames')
    rw [if_pos (hup.2 hdots)]

theorem files_eq_map_names (hcwd : ∀ part ∈ cwd, Path.IsPlain part)
    (hin : ∀ input ∈ inputs, IsInside d cwd input) (hup : ∀ input ∈ inputs, ¬ LooksUp cwd input)
    (extensions : List String) : files d inputs extensions cwd =
      inputs.map fun input => ⟨input, Path.joinParts (namesFrom cwd input)⟩ := by
  have hall : files d inputs extensions cwd =
      inputs.flatMap fun input => files d [input] extensions cwd := by simp [files]
  rw [hall, List.map_eq_flatMap]
  refine List.flatMap_congr fun input hm => ?_
  exact (files_inside hcwd (hin input hm) extensions).1 (hup input hm)

theorem pairwise_namesFrom (hin : ∀ input ∈ inputs, IsInside d cwd input)
    (hne : inputs.Pairwise fun i j => Path.toKey cwd i ≠ Path.toKey cwd j) :
    inputs.Pairwise fun i j => namesFrom cwd i ≠ namesFrom cwd j := by
  refine hne.imp_of_mem fun {i j} hi hj hkey he => hkey ?_
  rw [(hin i hi).toKey_eq, (hin j hj).toKey_eq, he]

end Collect

namespace Command

open Collect (IsInside LooksUp namesFrom)

variable {d : Disk} {cwd : Key} {inputs extensions : List String}

/-- File arguments for different places inside the working directory are collected under different
paths, which lead from there to these places, and have different outputs, unless one looks like the way
up; a command on them is carried out. -/
theorem file_arguments_apart (hd : ∀ part ∈ d.cwd, Path.IsPlain part)
    (hcwd : ∀ part ∈ cwd, Path.IsPlain part) (hin : ∀ input ∈ inputs, IsInside d cwd input)
    (hup : ∀ input ∈ inputs, ¬ LooksUp cwd input)
    (hne : inputs.Pairwise fun i j => Path.toKey cwd i ≠ Path.toKey cwd j)
    (extensions : List String) :
    let files := Collect.files d inputs extensions cwd
    files = inputs.map (fun input => ⟨input, Path.joinParts (namesFrom cwd input)⟩) ∧
      files.Pairwise (fun f g => f.relative ≠ g.relative) ∧
      (∀ dir, clash? d.cwd dir [] files = none) ∧
      ∀ (r : Report) (c : Context) (args : Args) (dryRun : Bool), args.paths = inputs →
        c.config.extensions = extensions → c.cwd = cwd →
        let p := Plan.ofArgs args dryRun
        let b := (opening d r c files.length).run c p files
        processFiles d r c args dryRun = ⟨b.exit p, (b.close c p files.length).report, b.disk⟩ := by
  intro files
  have hfiles : files = _ := Collect.files_eq_map_names hcwd hin hup extensions
  have hnames := Collect.pairwise_namesFrom hin hne
  have hclash : ∀ dir, clash? d.cwd dir [] files = none := by
    intro dir
    have hdir := Path.plain_toKey hd dir
    rw [clash?_eq_none_iff, hfiles, List.pairwise_map]
    refine ⟨fun f _ => rfl, hnames.imp_of_mem fun {i j} hi hj hij he => hij ?_⟩
    rw [Path.toKey_joinParts hdir ((hin i hi).plain_names hcwd) (hin i hi).names_ne_nil,
      Path.toKey_joinParts hdir ((hin j hj).plain_names hcwd) (hin j hj).names_ne_nil] at he
    exact List.append_cancel_left he
  refine ⟨hfiles, ?_, hclash, ?_⟩
  · rw [hfiles, List.pairwise_map]
    refine hnames.imp_of_mem fun {i j} hi hj hij he => hij ?_
    exact Path.joinParts_inj ((hin i hi).plain_names hcwd) ((hin j hj).plain_names hcwd)
      (hin i hi).names_ne_nil (hin j hj).names_ne_nil he
  · rintro r c args dryRun rfl rfl rfl
    refine processFiles_of_clash?_eq_none r ?_
    cases hp : (Plan.ofArgs args dryRun).outDir with
    | none => rw [Plan.clash?, hp, Option.bind_none]
    | some dir => rw [Plan.clash?, hp, Option.bind_some]; exact hclash dir

def dotted : Disk :=
  ⟨[(["a.c"], .file (Utf8.encode "SID(\"x\")\n") Disk.newMode), (["..d"], .directory),
    (["..d", "a.c"], .file (Utf8.encode "SID(\"y\")\n") Disk.newMode), (["d"], .directory),
    (["d", "a.c"], .file (Utf8.encode "SID(\"z\")\n") Disk.newMode)], [], "7"⟩

theorem file_arguments_apart_dotted :
    let files := Collect.files dotted ["./a.c", "d//a.c"] [".c"] []
    files = [⟨"./a.c", "a.c"⟩, ⟨"d//a.c", "d/a.c"⟩] ∧ clash? [] "out" [] files = none := by
  have hin : ∀ input ∈ ["./a.c", "d//a.c"], IsInside dotted [] input := by
    intro input hm
    simp only [List.mem_cons, List.not_mem_nil, or_false] at hm
    obtain rfl | rfl := hm
    · exact ⟨List.nil_prefix, by decide +kernel, fun key h => by cases h⟩
    · exact ⟨List.nil_prefix, by decide +kernel, fun key h => by cases h⟩
  have hup : ∀ input ∈ ["./a.c", "d//a.c"], ¬ LooksUp [] input := by
    rintro input hm ⟨name, rest, hnames, hdots, -⟩
    simp only [List.mem_cons, List.not_mem_nil, or_false] at hm
    obtain rfl | rfl := hm
    · obtain ⟨rfl, -⟩ := List.cons.inj ((by decide +kernel : ["a.c"] = _).trans hnames)
      revert hdots
      decide
    · obtain ⟨rfl, -⟩ := List.cons.inj ((by decide +kernel : ["d", "a.c"] = _).trans hnames)
      revert hdots
      decide
  have hcwd : ∀ part ∈ dotted.cwd, Path.IsPlain part := by simp [dotted]
  have hne : ["./a.c", "d//a.c"].Pairwise fun i j => Path.toKey [] i ≠ Path.toKey [] j := by
    decide +kernel
  obtain ⟨hfiles, -, hclash, -⟩ := file_arguments_apart hcwd (by simp) hin hup hne [".c"]
  exact ⟨hfiles.trans (by decide +kernel), hclash "out"⟩

/-- The place in the directory with the two dots lies inside, but is collected under its base name; the
command is refused. -/
theorem execute_refuses_dotted :
    Path.toKey [] "..d/a.c" = ["..d", "a.c"] ∧ Path.toKey [] "a.c" = ["a.c"] ∧
      (dotted.stat "..d/a.c").toOption.map (·.1) = some ["..d", "a.c"] ∧
      (dotted.stat "a.c").toOption.map (·.1) = some ["a.c"] ∧
      Collect.files dotted ["..d/a.c", "a.c"] [".c"] [] = [⟨"..d/a.c", "a.c"⟩, ⟨"a.c", "a.c"⟩] ∧
      (execute Explorer.host dotted ["run", "--out-dir", "out", "..d/a.c", "a.c"] ⟨[]⟩ [] false).toOption.map
        (fun r => (r.exit, r.report)) = some (1, ⟨[], ["..d/a.c and a.c would both be written to " ++
          "out/a.c\nUsage: strid <run|check|expand|hash> [options] <paths...>"]⟩) := by
  refine ⟨?_, ?_, ?_, ?_, ?_, ?_⟩
  all_goals decide +kernel

end Command

end HashedLiterals
