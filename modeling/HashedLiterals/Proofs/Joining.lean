import HashedLiterals.Proofs.Paths

set_option autoImplicit false

namespace HashedLiterals.Path

variable {key : Key} {ps : List String} {p : String}

def IsKept (part : String) : Prop := IsPlain part ∨ part = ".."

theorem IsKept.isPart (h : IsKept p) : IsPart p := by
  obtain h | rfl := h
  · exact h.isPart
  · decide

theorem IsKept.ne_empty (h : IsKept p) : p ≠ "" := by
  obtain h | rfl := h
  · exact h.ne_empty
  · decide

theorem mem_push {absolute : Bool} {stack : List String} {q : String}
    (h : q ∈ push absolute stack p) : q ∈ stack ∨ q = p ∧ p ≠ "" ∧ p ≠ "." := by
  unfold push at h
  split at h
  · exact .inl h
  · next hp =>
    rw [not_or] at hp
    split at h
    · next hu =>
      split at h
      · split at h
        · cases h
        · exact .inr ⟨(List.mem_singleton.1 h).trans hu.symm, hp⟩
      · split at h
        · obtain rfl | h := List.mem_cons.1 h
          · exact .inr ⟨hu.symm, hp⟩
          · exact .inl h
        · exact .inl (by simp [h])
    · obtain rfl | h := List.mem_cons.1 h
      · exact .inr ⟨rfl, hp⟩
      · exact .inl h

theorem isKept_push {absolute : Bool} {stack : List String} (hp : IsPart p)
    (hs : ∀ q ∈ stack, IsKept q) : ∀ q ∈ push absolute stack p, IsKept q := by
  intro q hq
  obtain hq | ⟨rfl, he, hd⟩ := mem_push hq
  · exact hs q hq
  · obtain h | h | h | h := plain_cases hp
    · exact absurd h he
    · exact absurd h hd
    · exact .inr h
    · exact .inl h

theorem isKept_foldl_push {absolute : Bool} {stack : List String} (hp : ∀ p ∈ ps, IsPart p)
    (hs : ∀ q ∈ stack, IsKept q) : ∀ q ∈ ps.foldl (push absolute) stack, IsKept q := by
  induction ps generalizing stack with
  | nil => exact hs
  | cons p ps ih => exact ih (fun q hq => hp q (by simp [hq])) (isKept_push (hp p (by simp)) hs)

theorem isKept_collapse (absolute : Bool) (path : String) :
    ∀ p ∈ collapse absolute (parts path), IsKept p := by
  intro p hm
  exact isKept_foldl_push (fun _ => isPart_of_mem_parts) (by simp) p (List.mem_reverse.1 hm)

theorem follow_push {stack : List String} (hk : ∀ part ∈ key, IsPlain part)
    (hs : ∀ q ∈ stack, IsKept q) (p : String) :
    follow key (push false stack p).reverse = follow key (stack.reverse ++ [p]) := by
  have hstack : ∀ part ∈ follow key stack.reverse, IsPlain part :=
    plain_follow hk fun q hq => (hs q (List.mem_reverse.1 hq)).isPart
  rw [follow_append]
  unfold push
  split
  · next h => obtain rfl | rfl := h <;> simp
  · split
    · next hu =>
      subst hu
      split
      · simp
      · next top below =>
        split
        · rw [List.reverse_cons, follow_append]
        · next ht =>
          have hplain : IsPlain top := (hs top (by simp)).resolve_right ht
          have hbelow : ∀ part ∈ follow key below.reverse, IsPlain part :=
            plain_follow hk fun q hq => (hs q (by simpa using .inr (by simpa using hq))).isPart
          rw [List.reverse_cons, follow_append, follow_plain hplain]
          rw [follow_dotDot, List.dropLast_concat]
          intro part hm
          obtain hm | rfl := (List.mem_append.1 hm).imp_right List.mem_singleton.1
          · exact hbelow part hm
          · exact hplain
    · rw [List.reverse_cons, follow_append]

theorem follow_foldl_push {stack : List String} (hk : ∀ part ∈ key, IsPlain part)
    (hp : ∀ p ∈ ps, IsPart p) (hs : ∀ q ∈ stack, IsKept q) :
    follow key (ps.foldl (push false) stack).reverse = follow key (stack.reverse ++ ps) := by
  induction ps generalizing stack with
  | nil => simp
  | cons p ps ih =>
    rw [List.foldl_cons, ih (fun q hq => hp q (by simp [hq])) (isKept_push (hp p (by simp)) hs),
      follow_append, follow_push hk hs, ← follow_append]
    simp

theorem follow_collapse (path : String) (hk : ∀ part ∈ key, IsPlain part) :
    follow (if isAbsolute path then [] else key) (collapse (isAbsolute path) (parts path)) =
      follow (if isAbsolute path then [] else key) (parts path) := by
  cases isAbsolute path with
  | false =>
    have hstack : ∀ q ∈ ([] : List String), IsKept q := by simp
    have hparts : ∀ p ∈ parts path, IsPart p := fun _ => isPart_of_mem_parts
    simpa [collapse] using follow_foldl_push hk hparts hstack
  | true =>
    have hplain : ∀ p ∈ follow [] (parts path), IsPlain p :=
      plain_follow (by simp) fun _ => isPart_of_mem_parts
    have hc : collapse true (parts path) = follow [] (parts path) := rfl
    rw [if_pos rfl, hc, follow_plains hplain, List.nil_append]

theorem joinParts_isEmpty_iff (h : ∀ p ∈ ps, IsKept p) : (joinParts ps).isEmpty = true ↔ ps = [] := by
  cases ps with
  | nil => simp [joinParts]
  | cons p ps =>
    have hp := (h p (by simp)).ne_empty
    by_cases hps : ps = []
    · subst hps
      simpa [joinParts] using hp
    · simp [joinParts_cons hps]

theorem isAbsolute_joinParts (h : ∀ p ∈ ps, IsKept p) : isAbsolute (joinParts ps) = false := by
  cases ps with
  | nil => decide
  | cons p ps =>
    have hp := h p (by simp)
    have ha : isAbsolute p = false := by
      rw [isAbsolute, beq_eq_false_iff_ne]
      exact fun hc => hp.isPart (List.mem_of_mem_head? hc)
    by_cases hps : ps = []
    · subst hps
      simpa [joinParts] using ha
    · rw [joinParts_cons hps, String.append_assoc, isAbsolute_append hp.ne_empty, ha]

theorem parts_joinParts_append {text : String} (hne : ps ≠ []) (h : ∀ p ∈ ps, IsKept p)
    (ht : text = "" ∨ text = "/") (key : Key) :
    follow key (parts (joinParts ps ++ text)) = follow key ps := by
  have hps : parts (joinParts ps) = ps := parts_joinParts hne fun p hm => (h p hm).isPart
  obtain rfl | rfl := ht
  · rw [String.append_empty, hps]
  · have he : parts "" = [""] := by decide
    rw [← String.append_empty (s := joinParts ps ++ "/"), parts_append_slash, hps, he, follow_append,
      follow_empty]

theorem parts_slash_append (path : String) : parts ("/" ++ path) = "" :: parts path := by
  have he : parts "" = [""] := by decide
  have hp := parts_append_slash "" path
  rwa [String.empty_append, he, List.singleton_append] at hp

theorem follow_normalize (path : String) (key : Key) :
    isAbsolute (normalize path) = isAbsolute path ∧
      follow key (parts (normalize path)) = follow key (collapse (isAbsolute path) (parts path)) := by
  have hkept := isKept_collapse (isAbsolute path) path
  rw [normalize]
  by_cases hc : collapse (isAbsolute path) (parts path) = []
  · have hempty : (joinParts (collapse (isAbsolute path) (parts path))).isEmpty = true :=
      (joinParts_isEmpty_iff hkept).2 hc
    simp only [hempty, if_true]
    rw [hc, follow_nil]
    split
    · next ha =>
      have hp : parts "/" = ["", ""] := by decide
      rw [ha, hp, follow_cons, follow_empty, follow_empty]
      exact ⟨by decide, rfl⟩
    · next ha =>
      rw [Bool.not_eq_true] at ha
      rw [ha]
      split
      · have hp : parts "./" = [".", ""] := by decide
        exact ⟨by decide, by rw [hp, follow_cons, follow_dot, follow_empty]⟩
      · have hp : parts "." = ["."] := by decide
        exact ⟨by decide, by rw [hp, follow_dot]⟩
  · have hempty : (joinParts (collapse (isAbsolute path) (parts path))).isEmpty = false :=
      Bool.eq_false_iff.2 (mt (joinParts_isEmpty_iff hkept).1 hc)
    have hbody : joinParts (collapse (isAbsolute path) (parts path)) ≠ "" := by
      simpa using hempty
    obtain ⟨text, htext, ht⟩ : ∃ text, (if path.toList.getLast? == some '/' then "/" else "") = text ∧
        (text = "" ∨ text = "/") := by
      split <;> simp
    simp only [hempty, Bool.false_eq_true, if_false, htext]
    have hfollow := parts_joinParts_append hc hkept ht key
    split
    · next ha =>
      rw [String.append_assoc, isAbsolute_append (by decide), parts_slash_append, follow_cons,
        follow_empty, hfollow, ha]
      exact ⟨by decide, rfl⟩
    · next ha =>
      rw [Bool.not_eq_true] at ha
      rw [String.empty_append, isAbsolute_append hbody, isAbsolute_joinParts hkept, hfollow, ha]
      exact ⟨rfl, rfl⟩

theorem toKey_normalize (hk : ∀ part ∈ key, IsPlain part) (path : String) :
    toKey key (normalize path) = toKey key path := by
  rw [toKey_eq_follow hk, toKey_eq_follow hk, (follow_normalize path key).1, ← follow_collapse path hk]
  exact (follow_normalize path _).2

/-- A joined path leads where the second one leads from the place of the first. -/
theorem toKey_join (hk : ∀ part ∈ key, IsPlain part) {dir relative : String} (hd : dir ≠ "")
    (hr : isAbsolute relative = false) :
    toKey key (join dir relative) = toKey (toKey key dir) relative := by
  have hdir : ∀ part ∈ toKey key dir, IsPlain part := by
    rw [toKey_eq_follow hk]
    refine plain_follow ?_ fun _ => isPart_of_mem_parts
    split
    · simp
    · exact hk
  rw [toKey_eq_follow hdir, hr, if_neg (by simp), toKey_eq_follow hk dir]
  by_cases he : relative = ""
  · have hp : parts "" = [""] := by decide
    have hj : join dir "" = normalize dir := by simp [join, hd, joinParts]
    rw [he, hj, toKey_normalize hk, hp, follow_empty, toKey_eq_follow hk]
  · have hj : join dir relative = normalize (dir ++ "/" ++ relative) := by
      simp [join, hd, he, joinParts]
    rw [hj, toKey_normalize hk, toKey_eq_follow hk, parts_append_slash, follow_append,
      String.append_assoc, isAbsolute_append hd]

@[simp] theorem relativeParts_append (key : Key) (ps : List String) :
    relativeParts key (key ++ ps) = ps := by
  induction key with
  | nil => cases ps <;> simp [relativeParts]
  | cons k key ih => simp [relativeParts, ih]

theorem relativeParts_cases (source target : Key) :
    (∃ rest, relativeParts source target = ".." :: rest) ∨
      target = source ++ relativeParts source target := by
  fun_induction relativeParts source target with
  | case1 as b bs ih => exact ih.imp_right (congrArg (b :: ·))
  | case2 => exact .inl ⟨_, rfl⟩
  | case3 as bs hne =>
    cases as with
    | nil => exact .inr rfl
    | cons a as => exact .inl ⟨_, rfl⟩

end HashedLiterals.Path
