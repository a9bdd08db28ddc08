import HashedLiterals.Diagnostic.Basic

set_option autoImplicit false

namespace HashedLiterals

namespace Template

inductive Piece where
  | text (chars : List Char)
  | hole (name : String)
  deriving DecidableEq, Repr

def chunkPieces (chunk : List Char) : List Piece :=
  match chunk.dropWhile (· != '\x7d') with
  | [] => [.text ('\x7b' :: chunk)]
  | _ :: rest => [.hole (String.ofList (chunk.takeWhile (· != '\x7d'))), .text rest]

def pieces (template : List Char) : List Piece :=
  match template.splitOn '\x7b' with
  | [] => []
  | first :: chunks => .text first :: chunks.flatMap chunkPieces

def instantiate (content : String → List Char) (ps : List Piece) : List Char :=
  ps.flatMap fun
    | .text chars => chars
    | .hole name => content name

/-- Fills all holes of a template at once. A hole that no argument has the name of stays. -/
def fillAtOnce (template : String) (arguments : List (String × String)) : String :=
  String.ofList <| instantiate
    (fun name => ((arguments.lookup name).map String.toList).getD (hole name)) (pieces template.toList)

def fillChars (arguments : List (String × String)) (text : List Char) : List Char :=
  arguments.foldl (fun text (name, value) => replaceAll (hole name) value.toList text) text

theorem fill_eq (template : String) (arguments : List (String × String)) :
    fill template arguments = String.ofList (fillChars arguments template.toList) := rfl

/-- The arguments, each with the holes for the later ones in its value filled. -/
def settle : List (String × String) → List (String × String)
  | [] => []
  | (name, value) :: later => (name, fill value later) :: settle later

def IsName (name : String) : Prop := ∀ c ∈ name.toList, c.isAlpha = true

instance (name : String) : Decidable (IsName name) := List.decidableBAll _ name.toList

def IsSeparator (c : Char) : Prop := c.isAlpha = false ∧ c ≠ '\x7b' ∧ c ≠ '\x7d'

instance (c : Char) : Decidable (IsSeparator c) := inferInstanceAs (Decidable (_ ∧ _))

/-- Texts have no opening brace, and behind each hole there is the end or a separator. -/
def Spaced : List Piece → Prop
  | [] => True
  | .text chars :: ps => '\x7b' ∉ chars ∧ Spaced ps
  | .hole name :: ps => IsName name ∧ (∀ c ∈ (instantiate hole ps).head?, IsSeparator c) ∧ Spaced ps

instance decidableSpaced : (ps : List Piece) → Decidable (Spaced ps)
  | [] => .isTrue trivial
  | .text _ :: ps => @instDecidableAnd _ _ _ (decidableSpaced ps)
  | .hole _ :: ps =>
    @instDecidableAnd _ _ _ (@instDecidableAnd _ _ (Option.decidableForallMem _) (decidableSpaced ps))

variable {pattern value x y : List Char} {c : Char} {name other : String} {ps : List Piece}
  {arguments : List (String × String)}

theorem replaceAll_cons_of_not_prefix (h : ¬ pattern <+: c :: x) :
    replaceAll pattern value (c :: x) = c :: replaceAll pattern value x := by
  rw [replaceAll, if_neg (by simpa [List.isPrefixOf_iff_prefix] using h)]

theorem replaceAll_append_self (hne : pattern ≠ []) (value x : List Char) :
    replaceAll pattern value (pattern ++ x) = value ++ replaceAll pattern value x := by
  obtain ⟨c, rest, rfl⟩ := List.exists_cons_of_ne_nil hne
  rw [List.cons_append, replaceAll, if_pos (by simp)]
  simp

theorem eq_append_drop {rest : List Char} (hne : pattern ≠ [])
    (hp : pattern.isPrefixOf (c :: rest) = true) :
    c :: rest = pattern ++ rest.drop (pattern.length - 1) := by
  obtain ⟨t, ht⟩ := List.isPrefixOf_iff_prefix.1 hp
  obtain ⟨d, more, rfl⟩ := List.exists_cons_of_ne_nil hne
  simp only [List.cons_append, List.cons.injEq] at ht
  simp [← ht.1, ← ht.2]

theorem prefix_of_prefix_append_cons (hc : c ∉ pattern) (h : pattern <+: x ++ c :: y) : pattern <+: x := by
  obtain hlt | hle := Nat.lt_or_ge x.length pattern.length
  · obtain ⟨t, rfl⟩ := List.prefix_of_prefix_length_le (List.prefix_append x (c :: y)) h (by omega)
    obtain ⟨t', ht'⟩ := h
    rw [List.append_assoc, List.append_cancel_left_eq] at ht'
    cases t with
    | nil => simp at hlt
    | cons d t =>
      simp only [List.cons_append, List.cons.injEq] at ht'
      exact absurd (by simp [ht'.1]) hc
  · exact List.prefix_of_prefix_length_le h (List.prefix_append _ _) hle

theorem replaceAll_append_cons (hne : pattern ≠ []) (hc : c ∉ pattern) (value x y : List Char) :
    replaceAll pattern value (x ++ c :: y) =
      replaceAll pattern value x ++ replaceAll pattern value (c :: y) := by
  fun_induction replaceAll pattern value x with
  | case1 => rfl
  | case2 d rest hp ih =>
    rw [eq_append_drop hne hp, List.append_assoc, replaceAll_append_self hne, ih, List.append_assoc]
  | case3 d rest hp ih =>
    have hno : ¬ pattern <+: d :: (rest ++ c :: y) := fun h =>
      hp (List.isPrefixOf_iff_prefix.2 (prefix_of_prefix_append_cons (x := d :: rest) hc h))
    rw [List.cons_append, replaceAll_cons_of_not_prefix hno, ih, List.cons_append]

theorem length_replaceAll (hne : pattern ≠ []) (value x : List Char) :
    (pattern.length ≤ value.length → x.length ≤ (replaceAll pattern value x).length) ∧
      (value.length ≤ pattern.length → (replaceAll pattern value x).length ≤ x.length) := by
  fun_induction replaceAll pattern value x with
  | case1 => simp
  | case2 c rest hp ih =>
    have hlen := congrArg List.length (eq_append_drop hne hp)
    rw [List.length_append] at hlen
    rw [hlen, List.length_append]
    omega
  | case3 c rest hp ih =>
    simp only [List.length_cons]
    omega

theorem replaceAll_of_not_infix (h : ¬ pattern <:+: x) : replaceAll pattern value x = x := by
  fun_induction replaceAll pattern value x with
  | case1 => rfl
  | case2 c rest hp ih => exact absurd (List.isPrefixOf_iff_prefix.1 hp).isInfix h
  | case3 c rest hp ih => rw [ih fun hi => h (List.infix_cons_iff.2 (.inr hi))]

theorem replaceAll_same (hne : pattern ≠ []) (x : List Char) : replaceAll pattern pattern x = x := by
  fun_induction replaceAll pattern pattern x with
  | case1 => rfl
  | case2 c rest hp ih => rw [ih, ← eq_append_drop hne hp]
  | case3 c rest hp ih => rw [ih]

theorem eq_of_replaceAll_eq_self (hne : pattern ≠ []) (hi : pattern <:+: x)
    (h : replaceAll pattern value x = x) : value = pattern := by
  fun_induction replaceAll pattern value x with
  | case1 => exact absurd (List.infix_nil.1 hi) hne
  | case2 c rest hp ih =>
    rw [eq_append_drop hne hp] at h
    have hlen := congrArg List.length h
    have hrest := length_replaceAll hne value (rest.drop (pattern.length - 1))
    simp only [List.length_append] at hlen
    exact (List.append_inj h (by omega)).1
  | case3 c rest hp ih =>
    refine ih ((List.infix_cons_iff.1 hi).resolve_left fun hpre => hp ?_) (List.cons.inj h).2
    exact List.isPrefixOf_iff_prefix.2 hpre

theorem replaceAll_eq_self_iff (hne : pattern ≠ []) :
    replaceAll pattern value x = x ↔ ¬ pattern <:+: x ∨ value = pattern := by
  refine ⟨fun h => ?_, ?_⟩
  · by_cases hi : pattern <:+: x
    · exact .inr (eq_of_replaceAll_eq_self hne hi h)
    · exact .inl hi
  · rintro (h | rfl)
    · exact replaceAll_of_not_infix h
    · exact replaceAll_same hne x

theorem hole_ne_nil (name : String) : hole name ≠ [] := by simp [hole]

theorem not_mem_hole (hn : IsName name) (hc : IsSeparator c) : c ∉ hole name := by
  simp only [hole, List.mem_append, List.mem_singleton]
  rintro ((h | h) | h)
  · exact hc.2.1 h
  · exact Bool.false_ne_true (hc.1.symm.trans (hn c h))
  · exact hc.2.2 h

theorem replaceAll_hole_append (h : '\x7b' ∉ x) (name : String) (value y : List Char) :
    replaceAll (hole name) value (x ++ y) = x ++ replaceAll (hole name) value y := by
  induction x with
  | nil => rfl
  | cons c x ih =>
    rw [List.mem_cons, not_or] at h
    have hno : ¬ hole name <+: c :: (x ++ y) := fun hp =>
      h.1 (List.cons_prefix_cons.1 (show '\x7b' :: _ <+: _ from hp)).1
    rw [List.cons_append, replaceAll_cons_of_not_prefix hno, ih h.2, List.cons_append]

theorem replaceAll_hole (hn : IsName other) (value : List Char) :
    replaceAll (hole name) value (hole other) = if name = other then value else hole other := by
  split
  · next he =>
    subst he
    have := replaceAll_append_self (hole_ne_nil name) value []
    rwa [List.append_nil, replaceAll, List.append_nil] at this
  · next he =>
    have hopen : '\x7b' ∉ other.toList ++ ['\x7d'] := by
      rw [List.mem_append, List.mem_singleton]
      exact fun h => h.elim (fun hm => absurd (hn _ hm) (by decide)) (by decide)
    have hclose : '\x7d' ∉ other.toList := fun hm => absurd (hn _ hm) (by decide)
    refine replaceAll_of_not_infix fun h => ?_
    obtain h | h := List.infix_cons_iff.1 (show '\x7b' :: (name.toList ++ ['\x7d']) <:+:
      '\x7b' :: (other.toList ++ ['\x7d']) from h)
    · obtain h | h := List.prefix_concat_iff.1 (List.cons_prefix_cons.1 h).2
      · exact he (String.toList_inj.1 (List.append_cancel_right h))
      · exact hclose (h.subset (by simp))
    · exact hopen (h.subset (by simp))

@[simp] theorem instantiate_nil (content : String → List Char) : instantiate content [] = [] := rfl

@[simp] theorem instantiate_text (content : String → List Char) (chars : List Char) (ps : List Piece) :
    instantiate content (.text chars :: ps) = chars ++ instantiate content ps := rfl

@[simp] theorem instantiate_hole (content : String → List Char) (name : String) (ps : List Piece) :
    instantiate content (.hole name :: ps) = content name ++ instantiate content ps := rfl

theorem instantiate_append (content : String → List Char) (ps qs : List Piece) :
    instantiate content (ps ++ qs) = instantiate content ps ++ instantiate content qs :=
  List.flatMap_append

theorem instantiate_chunkPieces (chunk : List Char) :
    instantiate hole (chunkPieces chunk) = '\x7b' :: chunk := by
  have hsplit := List.takeWhile_append_dropWhile (p := (· != '\x7d')) (l := chunk)
  unfold chunkPieces
  split
  · simp [instantiate]
  · next c rest hd =>
    have hc := List.head?_dropWhile_not (· != '\x7d') chunk
    rw [hd] at hc hsplit
    have hclose : c = '\x7d' := by simpa using hc
    subst hclose
    calc instantiate hole [.hole (String.ofList (chunk.takeWhile (· != '\x7d'))), .text rest]
        = '\x7b' :: (chunk.takeWhile (· != '\x7d') ++ '\x7d' :: rest) := by simp [hole, instantiate]
      _ = '\x7b' :: chunk := by rw [hsplit]

theorem instantiate_pieces (template : List Char) : instantiate hole (pieces template) = template := by
  have hjoin : ['\x7b'].intercalate (template.splitOn '\x7b') = template :=
    List.intercalate_splitOn '\x7b'
  unfold pieces
  split
  · next h => rw [← hjoin, h]; rfl
  · next first chunks h =>
    rw [← hjoin, h, instantiate_text]
    clear h hjoin
    induction chunks generalizing first with
    | nil => simp [instantiate, List.intercalate]
    | cons chunk chunks ih =>
      rw [List.flatMap_cons, instantiate_append, instantiate_chunkPieces, List.cons_append, ih chunk,
        List.intercalate_cons_cons, List.append_assoc,
        List.singleton_append]

theorem instantiate_congr {content content' : String → List Char}
    (h : ∀ name, .hole name ∈ ps → content name = content' name) :
    instantiate content ps = instantiate content' ps := by
  induction ps with
  | nil => rfl
  | cons p ps ih =>
    have ih := ih fun name hp => h name (List.mem_cons_of_mem p hp)
    cases p with
    | text chars => rw [instantiate_text, instantiate_text, ih]
    | hole name => rw [instantiate_hole, instantiate_hole, ih, h name List.mem_cons_self]

theorem Spaced.isName (h : Spaced ps) (hp : .hole name ∈ ps) : IsName name := by
  induction ps with
  | nil => simp at hp
  | cons p ps ih =>
    cases p with
    | text chars => exact ih h.2 (by simpa using hp)
    | hole other =>
      obtain he | hp := List.mem_cons.1 hp
      · exact (Piece.hole.inj he) ▸ h.1
      · exact ih h.2.2 hp

theorem instantiate_of_spaced (h : Spaced ps)
    (hc : ∀ c ∈ (instantiate hole ps).head?, IsSeparator c) (content : String → List Char) :
    instantiate content ps = [] ∨ ∃ c rest, instantiate content ps = c :: rest ∧ IsSeparator c := by
  induction ps with
  | nil => exact .inl rfl
  | cons p ps ih =>
    cases p with
    | text chars =>
      cases chars with
      | nil => exact ih h.2 hc
      | cons c chars => exact .inr ⟨c, _, rfl, hc c rfl⟩
    | hole name => exact absurd rfl (hc '\x7b' rfl).2.1

/-- In a spaced template the holes do not touch, so an argument is looked for in each by itself. -/
theorem replaceAll_instantiate (hn : IsName name) (h : Spaced ps) (value : List Char)
    (content : String → List Char) :
    replaceAll (hole name) value (instantiate content ps) =
      instantiate (fun other => replaceAll (hole name) value (content other)) ps := by
  induction ps with
  | nil => exact replaceAll.eq_1 _ _
  | cons p ps ih =>
    cases p with
    | text chars =>
      rw [instantiate_text, replaceAll_hole_append h.1, ih h.2, instantiate_text]
    | hole other =>
      obtain ⟨-, hsep, hrest⟩ := h
      rw [instantiate_hole, instantiate_hole, ← ih hrest]
      obtain hnil | ⟨c, rest, hcons, hc⟩ := instantiate_of_spaced hrest hsep content
      · rw [hnil, List.append_nil, replaceAll, List.append_nil]
      · rw [hcons, replaceAll_append_cons (hole_ne_nil name) (not_mem_hole hn hc)]

theorem fillChars_instantiate (hn : ∀ a ∈ arguments, IsName a.1) (h : Spaced ps)
    (content : String → List Char) :
    fillChars arguments (instantiate content ps) =
      instantiate (fun name => fillChars arguments (content name)) ps := by
  induction arguments generalizing content with
  | nil => rfl
  | cons a arguments ih =>
    have hlater := ih fun b hb => hn b (List.mem_cons_of_mem a hb)
    simp only [fillChars, List.foldl_cons] at hlater ⊢
    rw [replaceAll_instantiate (hn a List.mem_cons_self) h, hlater]

theorem fillChars_hole (hname : IsName name) :
    fillChars arguments (hole name) =
      (((settle arguments).lookup name).map String.toList).getD (hole name) := by
  induction arguments with
  | nil => rfl
  | cons a arguments ih =>
    obtain ⟨other, value⟩ := a
    simp only [fillChars, List.foldl_cons, settle, List.lookup_cons] at ih ⊢
    rw [replaceAll_hole hname]
    by_cases he : other = name
    · subst he
      simp [fill]
    · have hne : (name == other) = false := by simpa using Ne.symm he
      rw [if_neg he, ih, hne]

/-- In a spaced template, filling one argument after another is filling all at once, with values in which
the holes for later arguments are filled. -/
theorem fill_eq_fillAtOnce {template : String} (h : Spaced (pieces template.toList))
    (hn : ∀ a ∈ arguments, IsName a.1) :
    fill template arguments = fillAtOnce template (settle arguments) := by
  have hself : template.toList = instantiate hole (pieces template.toList) :=
    (instantiate_pieces template.toList).symm
  rw [fill_eq, hself, fillChars_instantiate hn h, fillAtOnce]
  exact congrArg String.ofList (instantiate_congr fun name hp => fillChars_hole (h.isName hp))

theorem fillChars_of_not_mem (h : '\x7b' ∉ x) : fillChars arguments x = x := by
  induction arguments with
  | nil => rfl
  | cons a arguments ih =>
    obtain ⟨name, value⟩ := a
    have hx := replaceAll_hole_append h name value.toList []
    rw [List.append_nil, replaceAll, List.append_nil] at hx
    simp only [fillChars, List.foldl_cons, hx] at ih ⊢
    exact ih

theorem fill_of_not_mem {text : String} (h : '\x7b' ∉ text.toList) : fill text arguments = text := by
  rw [fill_eq, fillChars_of_not_mem h, String.ofList_toList]

@[simp] theorem fill_nil (text : String) : fill text [] = text := String.ofList_toList

theorem infix_instantiate (content : String → List Char) (h : .hole name ∈ ps) :
    content name <:+: instantiate content ps := by
  obtain ⟨before, after, rfl⟩ := List.append_of_mem h
  rw [instantiate_append, instantiate_hole]
  exact ⟨_, _, List.append_assoc ..⟩

end Template

end HashedLiterals
