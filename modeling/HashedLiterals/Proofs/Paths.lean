import HashedLiterals.Disk.Lookup

set_option autoImplicit false

namespace HashedLiterals.Path

def IsPart (text : String) : Prop := '/' ∉ text.toList

instance (text : String) : Decidable (IsPart text) := inferInstanceAs (Decidable (_ ∉ _))

theorem IsPart.append {a b : String} (ha : IsPart a) (hb : IsPart b) : IsPart (a ++ b) := by
  simp only [IsPart, String.toList_append, List.mem_append, not_or] at *
  exact ⟨ha, hb⟩

theorem parts_ne_nil (path : String) : parts path ≠ [] := by
  simp [parts, List.splitOn_ne_nil]

theorem joinParts_parts (path : String) : joinParts (parts path) = path := by
  have hid : String.toList ∘ String.ofList = id := funext fun _ => String.toList_ofList
  apply String.toList_injective
  rw [joinParts, String.toList_intercalate, parts, List.map_map, hid, List.map_id]
  exact List.intercalate_splitOn '/'

theorem parts_joinParts {ps : List String} (hne : ps ≠ []) (h : ∀ p ∈ ps, IsPart p) :
    parts (joinParts ps) = ps := by
  have hid : String.ofList ∘ String.toList = id := funext fun _ => String.ofList_toList
  have hs : "/".toList = ['/'] := rfl
  rw [parts, joinParts, String.toList_intercalate, hs,
    List.splitOn_intercalate '/' (by simpa [IsPart] using h) (by simpa using hne), List.map_map, hid,
    List.map_id]

theorem not_mem_of_mem_splitOn {c : Char} {xs ys : List Char} (h : ys ∈ xs.splitOn c) : c ∉ ys := by
  by_cases hc : c ∈ xs
  · obtain ⟨as, bs, rfl⟩ := List.append_of_mem hc
    rw [List.splitOn_append_cons_self, List.mem_append] at h
    obtain h | h := h <;> exact not_mem_of_mem_splitOn h
  · rw [List.splitOn_eq_singleton hc, List.mem_singleton] at h
    rwa [h]
  termination_by xs.length
  decreasing_by
    · subst_vars; simp
    · subst_vars; simp; omega

theorem isPart_of_mem_parts {path p : String} (h : p ∈ parts path) : IsPart p := by
  obtain ⟨cs, hcs, rfl⟩ := List.mem_map.1 h
  rw [IsPart, String.toList_ofList]
  exact not_mem_of_mem_splitOn hcs

def directoryParts (path : String) : List String := (parts path).dropLast

def lastPart (path : String) : String := (parts path).getLast (parts_ne_nil path)

theorem parts_eq (path : String) : parts path = directoryParts path ++ [lastPart path] :=
  (List.dropLast_concat_getLast (parts_ne_nil path)).symm

theorem lastPart_mem (path : String) : lastPart path ∈ parts path :=
  List.getLast_mem (parts_ne_nil path)

theorem isPart_lastPart (path : String) : IsPart (lastPart path) :=
  isPart_of_mem_parts (lastPart_mem path)

theorem joinParts_cons {p : String} {ps : List String} (h : ps ≠ []) :
    joinParts (p :: ps) = p ++ "/" ++ joinParts ps := by
  cases ps with
  | nil => exact absurd rfl h
  | cons q qs => exact String.intercalate_cons_cons

theorem joinParts_append {ps qs : List String} (hp : ps ≠ []) (hq : qs ≠ []) :
    joinParts (ps ++ qs) = joinParts ps ++ "/" ++ joinParts qs := by
  induction ps with
  | nil => exact absurd rfl hp
  | cons p ps ih =>
    by_cases hps : ps = []
    · subst hps
      rw [List.singleton_append, joinParts_cons hq]
      rfl
    · rw [List.cons_append, joinParts_cons (by simp [hps]), ih hps, joinParts_cons hps]
      simp only [String.append_assoc]

theorem joinParts_append_singleton (ps : List String) (p : String) :
    joinParts (ps ++ [p]) = if ps = [] then p else joinParts ps ++ "/" ++ p := by
  split
  · next h => simp [h, joinParts]
  · next h => rw [joinParts_append h (by simp)]; rfl

theorem joinParts_append_last (ps : List String) (p suffix : String) :
    joinParts (ps ++ [p ++ suffix]) = joinParts (ps ++ [p]) ++ suffix := by
  rw [joinParts_append_singleton, joinParts_append_singleton]
  split <;> simp [String.append_assoc]

theorem parts_append {suffix : String} (path : String) (h : IsPart suffix) :
    parts (path ++ suffix) = directoryParts path ++ [lastPart path ++ suffix] := by
  have hp : path ++ suffix = joinParts (directoryParts path ++ [lastPart path ++ suffix]) := by
    rw [joinParts_append_last, ← parts_eq, joinParts_parts]
  rw [hp, parts_joinParts (by simp)]
  intro p hm
  rw [List.mem_append, List.mem_singleton] at hm
  obtain hm | rfl := hm
  · exact isPart_of_mem_parts (List.dropLast_subset _ hm)
  · exact (isPart_lastPart path).append h

theorem directoryParts_append {suffix : String} (path : String) (h : IsPart suffix) :
    directoryParts (path ++ suffix) = directoryParts path := by
  rw [directoryParts, parts_append path h, List.dropLast_concat]

theorem lastPart_append {suffix : String} (path : String) (h : IsPart suffix) :
    lastPart (path ++ suffix) = lastPart path ++ suffix := by
  simp [lastPart, parts_append path h]

theorem getLast?_toList_ne_slash {p : String} (h : IsPart p) : p.toList.getLast? ≠ some '/' :=
  fun hl => h (List.mem_of_getLast? hl)

theorem parts_append_slash (a b : String) : parts (a ++ "/" ++ b) = parts a ++ parts b := by
  have hs : "/".toList = ['/'] := rfl
  rw [parts, parts, parts, String.toList_append, String.toList_append, hs, List.append_assoc,
    List.singleton_append, List.splitOn_append_cons_self, List.map_append]

theorem isAbsolute_append {a : String} (h : a ≠ "") (b : String) :
    isAbsolute (a ++ b) = isAbsolute a := by
  obtain ⟨c, cs, hc⟩ := List.exists_cons_of_ne_nil (show a.toList ≠ [] by simpa using h)
  simp [isAbsolute, hc]

theorem directoryParts_joinParts {ps : List String} {p : String} (h : ∀ q ∈ ps ++ [p], IsPart q) :
    directoryParts (joinParts (ps ++ [p])) = ps := by
  rw [directoryParts, parts_joinParts (by simp) h, List.dropLast_concat]

theorem parent_cases (path : String) :
    (∃ rest, path = parent path ++ "/" ++ rest) ∨
      parent path = "." ∨ parent path = "/" ∨ parent path = "//" := by
  rw [parent]
  split
  · by_cases ha : isAbsolute path <;> simp [ha]
  · by_cases ha : isAbsolute path <;> simp [ha]
  · by_cases ha : isAbsolute path <;> simp [ha]
  · next c rest _ _ hs =>
    left
    have hc : c = '/' := by
      have hh := List.head?_dropWhile_not (fun c => !isSlash c) (path.toList.reverse.dropWhile isSlash)
      rw [hs] at hh
      simpa [isSlash] using hh
    obtain ⟨before, hb⟩ : c :: rest <:+ path.toList.reverse := by
      rw [← hs]
      exact (List.dropWhile_suffix _).trans (List.dropWhile_suffix _)
    refine ⟨String.ofList before.reverse, String.toList_injective ?_⟩
    have hp := congrArg List.reverse hb
    rw [List.reverse_reverse, List.reverse_append, List.reverse_cons, hc] at hp
    rw [← hp]
    simp

theorem parent_ne_empty (path : String) : parent path ≠ "" := by
  rw [parent]
  split
  · split <;> decide
  · split <;> decide
  · split <;> decide
  · next hone _ _ =>
    intro he
    exact hone (by simpa using congrArg String.toList he)

theorem getLast?_eq_slash_iff (path : String) :
    path.toList.getLast? = some '/' ↔ lastPart path = "" ∧ path ≠ "" := by
  have hp : path = joinParts (directoryParts path ++ [lastPart path]) := by
    rw [← parts_eq, joinParts_parts]
  have hn := getLast?_toList_ne_slash (isPart_lastPart path)
  by_cases hl : lastPart path = ""
  · rw [joinParts_append_singleton, hl] at hp
    split at hp
    · simp [hp]
    · rw [hl, hp]
      simp
  · have hs : (lastPart path).toList ≠ [] := by simpa using hl
    have hg : path.toList.getLast? = (lastPart path).toList.getLast? := by
      rw [joinParts_append_singleton] at hp
      split at hp
      · rw [← hp]
      · rw [congrArg String.toList hp, String.toList_append, List.getLast?_append,
          List.getLast?_eq_some_getLast hs, Option.some_or]
    simp [hg, hn, hl]

theorem IsPart.not_isSlash {p : String} (h : IsPart p) : ∀ c ∈ p.toList.reverse, (!isSlash c) = true := by
  intro c hc
  have hne : c ≠ '/' := by
    rintro rfl
    exact h (List.mem_reverse.1 hc)
  simpa [isSlash] using hne

theorem dropWhile_reverse_part {p : String} (h : IsPart p) (rest : List Char) :
    (p.toList.reverse ++ '/' :: rest).dropWhile (fun c => !isSlash c) = '/' :: rest := by
  rw [List.dropWhile_append_of_pos h.not_isSlash]
  rfl

theorem toList_reverse (path : String) : path.toList.reverse = (lastPart path).toList.reverse ++
    if directoryParts path = [] then [] else '/' :: (joinParts (directoryParts path)).toList.reverse := by
  have hp := joinParts_parts path
  rw [parts_eq, joinParts_append_singleton] at hp
  split
  · next hd =>
    rw [if_pos hd] at hp
    rw [hp, List.append_nil]
  · next hd =>
    rw [if_neg hd] at hp
    simpa using (congrArg (fun text : String => text.toList.reverse) hp).symm

theorem dropWhile_isSlash_reverse {path : String} (h : lastPart path ≠ "") :
    path.toList.reverse.dropWhile isSlash = path.toList.reverse := by
  have hlast := mt (getLast?_eq_slash_iff path).1 fun hc => h hc.1
  cases hr : path.toList.reverse with
  | nil => rfl
  | cons c cs =>
    have hc : c ≠ '/' := by
      rintro rfl
      exact hlast (by rw [← List.head?_reverse, hr, List.head?_cons])
    rw [List.dropWhile_cons_of_neg (by simpa [isSlash] using hc)]

theorem parts_parent {path : String} (h : lastPart path ≠ "") :
    parts (parent path) = directoryParts path ∨ ((directoryParts path).filter fun p => !p.isEmpty) = [] := by
  by_cases hd : directoryParts path = []
  · exact .inr (by simp [hd])
  · let dir := joinParts (directoryParts path)
    have hdir : parts dir = directoryParts path :=
      parts_joinParts hd fun p hm => isPart_of_mem_parts (List.dropLast_subset _ hm)
    have hshort : (path.toList.reverse.dropWhile isSlash).dropWhile (fun c => !isSlash c) =
        '/' :: dir.toList.reverse := by
      rw [dropWhile_isSlash_reverse h, toList_reverse, if_neg hd,
        dropWhile_reverse_part (isPart_lastPart path)]
    rw [parent, hshort]
    split
    · next hc => cases hc
    · next hc =>
      obtain ⟨-, hnil⟩ := List.cons.inj hc
      have he : dir = "" := by simpa using hnil
      right
      rw [← hdir, he]
      decide
    · next hc =>
      obtain ⟨-, hone⟩ := List.cons.inj hc
      have he : dir = "/" := by
        apply String.toList_injective
        simpa using congrArg List.reverse hone
      right
      rw [← hdir, he]
      decide
    · next rest _ _ hc =>
      obtain ⟨-, rfl⟩ := List.cons.inj hc
      left
      rw [List.reverse_reverse, String.ofList_toList, hdir]

theorem baseName_eq_lastPart {path : String} (h : lastPart path ≠ "") :
    baseName path = lastPart path := by
  have htake : path.toList.reverse.takeWhile (fun c => !isSlash c) =
      (lastPart path).toList.reverse := by
    rw [toList_reverse, List.takeWhile_append_of_pos (isPart_lastPart path).not_isSlash]
    split
    · simp
    · rw [List.takeWhile_cons_of_neg (by simp [isSlash]), List.append_nil]
  rw [baseName, dropWhile_isSlash_reverse h, htake, List.reverse_reverse, String.ofList_toList]

/-- A part that stands for itself. -/
structure IsPlain (part : String) : Prop where
  isPart : IsPart part
  ne_empty : part ≠ ""
  ne_dot : part ≠ "."
  ne_dotDot : part ≠ ".."

instance (part : String) : Decidable (IsPlain part) :=
  decidable_of_iff (IsPart part ∧ part ≠ "" ∧ part ≠ "." ∧ part ≠ "..")
    ⟨fun ⟨hp, he, hd, hu⟩ => ⟨hp, he, hd, hu⟩, fun h => ⟨h.1, h.2, h.3, h.4⟩⟩

theorem plain_cases {p : String} (h : IsPart p) : p = "" ∨ p = "." ∨ p = ".." ∨ IsPlain p := by
  by_cases he : p = ""
  · exact .inl he
  · by_cases hd : p = "."
    · exact .inr (.inl hd)
    · by_cases hu : p = ".."
      · exact .inr (.inr (.inl hu))
      · exact .inr (.inr (.inr ⟨h, he, hd, hu⟩))

def follow (key : Key) (ps : List String) : Key := (ps.foldl (push true) key.reverse).reverse

section Follow

variable {key : Key} {p : String} {ps : List String}

@[simp] theorem follow_nil (key : Key) : follow key [] = key := by simp [follow]

theorem follow_append (key : Key) (ps qs : List String) :
    follow key (ps ++ qs) = follow (follow key ps) qs := by simp [follow]

theorem follow_cons (key : Key) (p : String) (ps : List String) :
    follow key (p :: ps) = follow (follow key [p]) ps := follow_append key [p] ps

@[simp] theorem follow_empty (key : Key) : follow key [""] = key := by simp [follow, push]

@[simp] theorem follow_dot (key : Key) : follow key ["."] = key := by simp [follow, push]

theorem follow_dotDot (h : ∀ part ∈ key, IsPlain part) : follow key [".."] = key.dropLast := by
  cases hr : key.reverse with
  | nil =>
    obtain rfl := List.reverse_eq_nil_iff.1 hr
    rfl
  | cons top below =>
    have hk : key = below.reverse ++ [top] := by
      rw [← List.reverse_reverse key, hr, List.reverse_cons]
    have hu : top ≠ ".." := (h top (by simp [hk])).ne_dotDot
    simp [follow, push, hu, hk]

theorem follow_plain (h : IsPlain p) (key : Key) : follow key [p] = key ++ [p] := by
  simp [follow, push, h.ne_empty, h.ne_dot, h.ne_dotDot]

theorem follow_plains (h : ∀ p ∈ ps, IsPlain p) (key : Key) : follow key ps = key ++ ps := by
  induction ps generalizing key with
  | nil => simp
  | cons p ps ih =>
    rw [follow_cons, follow_plain (h p (by simp)), ih fun q hq => h q (by simp [hq])]
    simp

theorem follow_of_filter_nil (h : (ps.filter fun p => !p.isEmpty) = []) (key : Key) :
    follow key ps = key := by
  induction ps with
  | nil => simp
  | cons p ps ih =>
    rw [List.filter_eq_nil_iff] at h
    have hp : p = "" := by simpa using h p (by simp)
    rw [follow_cons, hp, follow_empty]
    exact ih (List.filter_eq_nil_iff.2 fun q hq => h q (by simp [hq]))

theorem plain_follow (hk : ∀ part ∈ key, IsPlain part) (hp : ∀ p ∈ ps, IsPart p) :
    ∀ part ∈ follow key ps, IsPlain part := by
  induction ps generalizing key with
  | nil => simpa using hk
  | cons p ps ih =>
    rw [follow_cons]
    refine ih ?_ fun q hq => hp q (by simp [hq])
    obtain rfl | rfl | rfl | h := plain_cases (hp p (by simp))
    · simpa using hk
    · simpa using hk
    · rw [follow_dotDot hk]
      exact fun part hm => hk part (List.dropLast_subset _ hm)
    · intro part hm
      rw [follow_plain h, List.mem_append, List.mem_singleton] at hm
      obtain hm | rfl := hm
      · exact hk part hm
      · exact h

/-- On the way to a key, one is above the start or where a beginning of the parts leads. -/
theorem prefix_follow_cases {above : Key} (hk : ∀ part ∈ key, IsPlain part)
    (hp : ∀ p ∈ ps, IsPart p) (h : above <+: follow key ps) :
    above <+: key ∨ ∃ qs, qs <+: ps ∧ above = follow key qs := by
  induction ps generalizing key with
  | nil => exact .inl (by simpa using h)
  | cons p ps ih =>
    have hstep : ∀ part ∈ follow key [p], IsPlain part :=
      plain_follow hk fun q hq => hp q (List.mem_singleton.1 hq ▸ List.mem_cons_self)
    rw [follow_cons] at h
    obtain h | ⟨qs, hqs, rfl⟩ := ih hstep (fun q hq => hp q (by simp [hq])) h
    · obtain rfl | rfl | rfl | hplain := plain_cases (hp p (by simp))
      · exact .inl (by simpa using h)
      · exact .inl (by simpa using h)
      · rw [follow_dotDot hk] at h
        exact .inl (h.trans (List.dropLast_prefix key))
      · rw [follow_plain hplain, List.prefix_concat_iff] at h
        obtain rfl | h := h
        · exact .inr ⟨[p], by simp, (follow_plain hplain key).symm⟩
        · exact .inl h
    · exact .inr ⟨p :: qs, by simpa using hqs, (follow_cons key p qs).symm⟩

theorem collapse_eq_follow (hk : ∀ part ∈ key, IsPlain part) (ps : List String) :
    collapse true (key ++ ps) = follow key ps := by
  have hkey : follow [] key = key := by simpa using follow_plains hk []
  calc
    collapse true (key ++ ps) = follow [] (key ++ ps) := rfl
    _ = follow key ps := by rw [follow_append, hkey]

theorem toKey_eq_follow (hk : ∀ part ∈ key, IsPlain part) (path : String) :
    toKey key path = follow (if isAbsolute path then [] else key) (parts path) := by
  rw [toKey]
  split
  · rfl
  · exact collapse_eq_follow hk (parts path)

end Follow

end HashedLiterals.Path

namespace HashedLiterals.Disk

open HashedLiterals.Path

def directorySteps (path : String) : List String :=
  (directoryParts path).filter fun p => !p.isEmpty

def lastStep (path : String) : String := if lastPart path = "" then "." else lastPart path

theorem steps_eq {path : String} (h : path ≠ "") :
    steps path = directorySteps path ++ [lastStep path] := by
  have hg := getLast?_eq_slash_iff path
  rw [steps, parts_eq, List.filter_append, directorySteps, lastStep]
  by_cases hl : lastPart path = ""
  · simp [hg, hl, h]
  · simp [hg, hl]

end HashedLiterals.Disk
