import Mathlib.Data.List.Induction
import HashedLiterals.Proofs.Containment

set_option autoImplicit false

namespace HashedLiterals

namespace Path

variable {path dir name : String} {ps : List String}

def names (path : String) : List String := (parts path).filter fun p => p ≠ "" ∧ p ≠ "."

theorem foldl_push_of_not_mem (absolute : Bool) (stack : List String) (h : ".." ∉ ps) :
    ps.foldl (push absolute) stack = (ps.filter fun p => p ≠ "" ∧ p ≠ ".").reverse ++ stack := by
  induction ps generalizing stack with
  | nil => rfl
  | cons p ps ih =>
    rw [List.mem_cons, not_or] at h
    rw [List.foldl_cons, ih _ h.2]
    unfold push
    by_cases hp : p = "" ∨ p = "."
    · have hkeep : ¬ (p ≠ "" ∧ p ≠ ".") := fun hn => hp.elim hn.1 hn.2
      rw [if_pos hp, List.filter_cons_of_neg (by simpa using hkeep)]
    · have hkeep : p ≠ "" ∧ p ≠ "." := not_or.1 hp
      rw [if_neg hp, if_neg (Ne.symm h.1), List.filter_cons_of_pos (by simpa using hkeep)]
      simp

theorem collapse_eq_names (absolute : Bool) (h : ".." ∉ parts path) :
    collapse absolute (parts path) = names path := by
  rw [collapse, foldl_push_of_not_mem absolute [] h, List.append_nil, List.reverse_reverse, names]

theorem plain_of_mem_names {p : String} (h : ".." ∉ parts path) (hp : p ∈ names path) : IsPlain p := by
  obtain ⟨hm, hkeep⟩ := List.mem_filter.1 hp
  obtain ⟨hne, hdot⟩ := of_decide_eq_true hkeep
  exact ⟨isPart_of_mem_parts hm, hne, hdot, fun he => h (he ▸ hm)⟩

theorem plain_names_append (h : ".." ∉ parts dir) (hn : IsPlain name) :
    ∀ p ∈ names dir ++ [name], IsPlain p := by
  intro p hp
  obtain hp | hp := List.mem_append.1 hp
  · exact plain_of_mem_names h hp
  · exact List.mem_singleton.1 hp ▸ hn

theorem join_name (hd : dir ≠ "") (h : ".." ∉ parts dir) (hn : IsPlain name) :
    join dir name = (if isAbsolute dir then "/" else "") ++ joinParts (names dir ++ [name]) := by
  have hone : parts name = [name] := by
    have hpart : ∀ p ∈ [name], IsPart p := by simpa using hn.isPart
    have hparts := parts_joinParts (by simp) hpart
    rwa [joinParts_singleton] at hparts
  have hparts : parts (dir ++ "/" ++ name) = parts dir ++ [name] := by rw [parts_append_slash, hone]
  have hnames : names (dir ++ "/" ++ name) = names dir ++ [name] := by
    rw [names, hparts, List.filter_append, ← names,
      List.filter_cons_of_pos (by simp [hn.ne_empty, hn.ne_dot]), List.filter_nil]
  have hup : ".." ∉ parts (dir ++ "/" ++ name) := by
    rw [hparts, List.mem_append, List.mem_singleton, not_or]
    exact ⟨h, Ne.symm hn.ne_dotDot⟩
  have habs : isAbsolute (dir ++ "/" ++ name) = isAbsolute dir := by
    rw [String.append_assoc, isAbsolute_append hd]
  have hlast : ((dir ++ "/" ++ name).toList.getLast? == some '/') = false := by
    rw [beq_eq_false_iff_ne, Ne, getLast?_eq_slash_iff]
    rintro ⟨hempty, -⟩
    have hlast : lastPart (dir ++ "/" ++ name) = name := by simp [lastPart, hparts]
    exact hn.ne_empty (hlast.symm.trans hempty)
  have hbody : (joinParts (names dir ++ [name])).isEmpty = false := by
    refine Bool.eq_false_iff.2 fun he => ?_
    have hnil := (joinParts_isEmpty_iff fun p hp => .inl (plain_names_append h hn p hp)).1 he
    simp at hnil
  have hj : join dir name = normalize (dir ++ "/" ++ name) := by
    simp [join, hd, hn.ne_empty, joinParts]
  rw [hj, normalize, collapse_eq_names _ hup, hnames, habs, hlast, hbody]
  simp

theorem parts_join_name (hd : dir ≠ "") (h : ".." ∉ parts dir) (hn : IsPlain name) :
    parts (join dir name) = (if isAbsolute dir then [""] else []) ++ (names dir ++ [name]) := by
  have hbody : parts (joinParts (names dir ++ [name])) = names dir ++ [name] :=
    parts_joinParts (by simp) fun p hp => (plain_names_append h hn p hp).isPart
  rw [join_name hd h hn]
  split
  · rw [parts_slash_append, hbody]
    rfl
  · rw [String.empty_append, hbody]
    rfl

theorem up_not_mem_join_name (hd : dir ≠ "") (h : ".." ∉ parts dir) (hn : IsPlain name) :
    ".." ∉ parts (join dir name) := by
  rw [parts_join_name hd h hn, List.mem_append, not_or]
  refine ⟨by split <;> simp, fun hm => ?_⟩
  exact (plain_names_append h hn _ hm).ne_dotDot rfl

theorem isAbsolute_join_name (hd : dir ≠ "") (h : ".." ∉ parts dir) (hn : IsPlain name) :
    isAbsolute (join dir name) = isAbsolute dir := by
  rw [join_name hd h hn]
  cases ha : isAbsolute dir with
  | true => rw [if_pos rfl, isAbsolute_append (by decide)]; decide
  | false =>
    rw [if_neg (by simp), String.empty_append]
    exact isAbsolute_joinParts fun p hp => .inl (plain_names_append h hn p hp)

theorem utf8ByteSize_joinParts_replicate (p q : String) (count : Nat) :
    (joinParts (p :: List.replicate count q)).utf8ByteSize =
      p.utf8ByteSize + count * (q.utf8ByteSize + 1) := by
  induction count generalizing p with
  | zero => simp [joinParts_singleton]
  | succ count ih =>
    have hslash : "/".utf8ByteSize = 1 := by decide
    rw [List.replicate_succ, joinParts_cons (by simp), String.utf8ByteSize_append,
      String.utf8ByteSize_append, ih, hslash, Nat.succ_mul]
    omega

theorem mem_joinParts {c : Char} (hc : c ≠ '/') :
    c ∈ (joinParts ps).toList ↔ ∃ p ∈ ps, c ∈ p.toList := by
  have hs : "/".toList = ['/'] := rfl
  induction ps with
  | nil => simp [joinParts]
  | cons p ps ih =>
    by_cases hps : ps = []
    · simp [hps, joinParts_singleton]
    · simp [joinParts_cons hps, String.toList_append, hs, hc, ih]

end Path

namespace Disk

variable {d : Disk} {key k : Key} {links : Nat} {path dir name : String} {node : Node}

theorem hasZero_iff : hasZero path = true ↔ '\x00' ∈ path.toList := by simp [hasZero]

theorem hasZero_join_name (hd : dir ≠ "") (h : ".." ∉ Path.parts dir) (hn : Path.IsPlain name)
    (hz : hasZero dir = false) (hzn : hasZero name = false) : hasZero (Path.join dir name) = false := by
  rw [Bool.eq_false_iff, Ne, hasZero_iff] at hz hzn ⊢
  rw [Path.join_name hd h hn, String.toList_append, List.mem_append, not_or,
    Path.mem_joinParts (by decide)]
  refine ⟨by split <;> decide, ?_⟩
  rintro ⟨p, hp, hc⟩
  obtain hp | hp := List.mem_append.1 hp
  · refine hz ?_
    rw [← Path.joinParts_parts dir, Path.mem_joinParts (by decide)]
    exact ⟨p, (List.mem_filter.1 hp).1, hc⟩
  · exact hzn (List.mem_singleton.1 hp ▸ hc)

/-- On the way to a directory, the parts that say to stay can be left out. -/
theorem walk_without_dots {parts : List String}
    (h : d.walk true links key parts = .ok (.entry k .directory)) (rest : List String) :
    d.walk true links key (parts.filter (· ≠ ".") ++ rest) = d.walk true links key (parts ++ rest) := by
  -- induction from the end: up to its last part the way leads to a directory, too
  induction parts using List.reverseRecOn generalizing k rest with
  | nil => rfl
  | append_singleton parts part ih =>
    obtain ⟨above, habove⟩ := exists_directory_of_walk_append h (by simp)
    by_cases hp : part = "."
    · obtain ⟨fewer, -, hw⟩ := walk_append habove
      have hstay := hw true (part :: rest) (.inr rfl)
      rw [hp, walk_dot, ← hw true rest (.inr rfl)] at hstay
      rw [List.filter_append, hp, List.filter_cons_of_neg (by simp), List.filter_nil, List.append_nil,
        ih habove rest, List.append_assoc]
      exact hstay.symm
    · rw [List.filter_append, List.filter_cons_of_pos (by simpa using hp), List.filter_nil,
        List.append_assoc, List.append_assoc, ih habove]

theorem find_eq_walk_steps {follow : Bool} (h : Accepted path) :
    d.find follow path = d.walk follow linkLimit (d.start path) (steps path) := by
  rw [find_eq_walk h, steps_eq h.ne_empty]

theorem filter_steps (path : String) : (steps path).filter (· ≠ ".") = Path.names path := by
  have hnamed : ((Path.parts path).filter fun p => !p.isEmpty).filter (· ≠ ".") = Path.names path := by
    rw [List.filter_filter, Path.names]
    refine List.filter_congr fun p _ => ?_
    by_cases he : p = "" <;> by_cases hd : p = "." <;> simp [he, hd]
  rw [steps]
  split
  · rw [List.filter_append, hnamed]
    simp
  · exact hnamed

theorem steps_joinParts {ps : List String} (hne : ps ≠ []) (hp : ∀ p ∈ ps, Path.IsPlain p) :
    steps (Path.joinParts ps) = ps := by
  have hparts : Path.parts (Path.joinParts ps) = ps := Path.parts_joinParts hne fun p hm => (hp p hm).isPart
  have hslash : ¬ ((Path.joinParts ps).toList.getLast? == some '/') = true := by
    rw [beq_iff_eq, Path.getLast?_eq_slash_iff]
    rintro ⟨hlast, -⟩
    have hmem := Path.lastPart_mem (Path.joinParts ps)
    rw [hparts] at hmem
    exact (hp _ hmem).ne_empty hlast
  rw [steps, if_neg hslash, hparts]
  exact List.filter_eq_self.2 fun p hm => by simpa using (hp p hm).ne_empty

theorem steps_join_name (hd : dir ≠ "") (h : ".." ∉ Path.parts dir) (hn : Path.IsPlain name) :
    steps (Path.join dir name) = Path.names dir ++ [name] := by
  have hlast : Path.lastPart (Path.join dir name) = name := by
    simp [Path.lastPart, Path.parts_join_name hd h hn]
  have hslash : ¬ ((Path.join dir name).toList.getLast? == some '/') = true := by
    rw [beq_iff_eq, Path.getLast?_eq_slash_iff, hlast]
    exact fun he => hn.ne_empty he.1
  have hkept : (Path.names dir ++ [name]).filter (fun p => !p.isEmpty) = Path.names dir ++ [name] := by
    refine List.filter_eq_self.2 fun p hp => ?_
    simpa using (Path.plain_names_append h hn p hp).ne_empty
  rw [steps, if_neg hslash, Path.parts_join_name hd h hn, List.filter_append, hkept]
  split <;> rfl

theorem find_join_name (hf : d.find true dir = .ok (.entry key .directory)) (h : ".." ∉ Path.parts dir)
    (hn : Path.IsPlain name) (hl : isTooLong name = false) (hz : hasZero name = false)
    (hs : (Path.join dir name).utf8ByteSize ≤ pathLimit) (hg : d.get? (key ++ [name]) = some node)
    (hlink : ∀ target, node ≠ .link target) :
    d.find true (Path.join dir name) = .ok (.entry (key ++ [name]) node) := by
  have ha := accepted_of_find hf
  have haj : Accepted (Path.join dir name) :=
    ⟨hasZero_join_name ha.ne_empty h hn ha.noZero hz, Path.join_ne_empty dir name, hs⟩
  have hstart : d.start (Path.join dir name) = d.start dir := by
    rw [start, Path.isAbsolute_join_name ha.ne_empty h hn, start]
  rw [find_eq_walk_steps ha] at hf
  rw [find_eq_walk_steps haj, hstart, steps_join_name ha.ne_empty h hn, ← filter_steps,
    walk_without_dots hf]
  refine (walk_append_name hf ⟨hn.ne_dot, hn.ne_dotDot, hl⟩ (.inr fun target he => ?_)).trans ?_
  · exact hlink target (Option.some.inj (hg.symm.trans he))
  · rw [foundAt, hg]

theorem find_of_long (d : Disk) (follow : Bool) (h : pathLimit < path.utf8ByteSize) :
    ∃ errno, d.find follow path = .error errno := by
  cases hf : d.find follow path with
  | error errno => exact ⟨errno, rfl⟩
  | ok r => exact absurd (accepted_of_find hf).short (Nat.not_le.2 h)

end Disk

end HashedLiterals
