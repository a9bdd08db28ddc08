import HashedLiterals.Proofs.Paths

set_option autoImplicit false

namespace HashedLiterals.Disk

variable {d d' : Disk} {follow : Bool} {links : Nat} {key : Key} {part : String} {rest : List String}

/-- What can be looked up in a directory. -/
structure IsName (part : String) : Prop where
  ne_dot : part ≠ "."
  ne_dotDot : part ≠ ".."
  not_tooLong : isTooLong part = false

def linkBase (key : Key) (target : String) : Key := if Path.isAbsolute target then [] else key

def foundAt (d : Disk) (key : Key) : Found :=
  match d.get? key with
  | none => .free key
  | some node => .entry key node

def jump (d : Disk) (follow : Bool) (links : Nat) (key : Key) (parts : List String) :
    Except Errno Found :=
  match links with
  | 0 => .error .tooManyLinks
  | links + 1 => d.walk follow links key parts

theorem walk_eq_walkParts (d : Disk) (follow : Bool) (links : Nat) (key : Key) (parts : List String) :
    d.walk follow links key parts = d.walkParts follow (d.jump follow links) key parts := by
  cases links <;> rfl

@[simp] theorem walk_nil (d : Disk) (follow : Bool) (links : Nat) (key : Key) :
    d.walk follow links key [] = .ok (.entry key .directory) := by
  rw [walk_eq_walkParts, walkParts]

@[simp] theorem walk_dot (d : Disk) (follow : Bool) (links : Nat) (key : Key) (rest : List String) :
    d.walk follow links key ("." :: rest) = d.walk follow links key rest := by
  rw [walk_eq_walkParts, walkParts, if_pos rfl, ← walk_eq_walkParts]

@[simp] theorem walk_dotDot (d : Disk) (follow : Bool) (links : Nat) (key : Key) (rest : List String) :
    d.walk follow links key (".." :: rest) = d.walk follow links key.dropLast rest := by
  rw [walk_eq_walkParts, walkParts, if_neg (by decide), if_pos rfl, ← walk_eq_walkParts]

theorem walk_tooLong (h : isTooLong part = true) :
    d.walk follow links key (part :: rest) = .error .nameTooLong := by
  have hd : part ≠ "." := by rintro rfl; revert h; decide
  have hu : part ≠ ".." := by rintro rfl; revert h; decide
  rw [walk_eq_walkParts, walkParts, if_neg hd, if_neg hu, if_pos h]

theorem walk_none (hn : IsName part) (h : d.get? (key ++ [part]) = none) :
    d.walk follow links key (part :: rest) =
      if rest.isEmpty then .ok (.free (key ++ [part])) else .error .noEntry := by
  simp [walk_eq_walkParts, walkParts, hn.ne_dot, hn.ne_dotDot, hn.not_tooLong, h]

theorem walk_directory (hn : IsName part) (h : d.get? (key ++ [part]) = some .directory) :
    d.walk follow links key (part :: rest) = d.walk follow links (key ++ [part]) rest := by
  simp [walk_eq_walkParts, walkParts, hn.ne_dot, hn.ne_dotDot, hn.not_tooLong, h]

theorem walk_file {data : Bytes} {mode : Nat} (hn : IsName part)
    (h : d.get? (key ++ [part]) = some (.file data mode)) :
    d.walk follow links key (part :: rest) =
      if rest.isEmpty then .ok (.entry (key ++ [part]) (.file data mode))
      else .error .notDirectory := by
  simp [walk_eq_walkParts, walkParts, hn.ne_dot, hn.ne_dotDot, hn.not_tooLong, h]

theorem walk_link {target : String} (hn : IsName part)
    (h : d.get? (key ++ [part]) = some (.link target)) :
    d.walk follow links key (part :: rest) =
      if rest.isEmpty && !follow then .ok (.entry (key ++ [part]) (.link target))
      else d.jump follow links (linkBase key target) (steps target ++ rest) := by
  simp [walk_eq_walkParts, walkParts, hn.ne_dot, hn.ne_dotDot, hn.not_tooLong, h, linkBase]

theorem walk_induction {motive : Nat → Key → List String → Prop}
    (nil : ∀ links key, motive links key [])
    (cons : ∀ links key part rest, (∀ key, motive links key rest) →
      (∀ fewer, links = fewer + 1 → ∀ key parts, motive fewer key parts) →
      motive links key (part :: rest))
    (links : Nat) (key : Key) (parts : List String) : motive links key parts := by
  induction links generalizing key parts with
  | zero =>
    induction parts generalizing key with
    | nil => exact nil 0 key
    | cons part rest ih => exact cons 0 key part rest ih (by simp)
  | succ links outer =>
    induction parts generalizing key with
    | nil => exact nil (links + 1) key
    | cons part rest ih =>
      refine cons (links + 1) key part rest ih fun fewer hf => ?_
      obtain rfl := Nat.succ.inj hf
      exact outer

theorem part_cases (part : String) :
    part = "." ∨ part = ".." ∨ isTooLong part = true ∨ IsName part := by
  by_cases hd : part = "."
  · exact .inl hd
  · by_cases hu : part = ".."
    · exact .inr (.inl hu)
    · cases hl : isTooLong part with
      | true => exact .inr (.inr (.inl rfl))
      | false => exact .inr (.inr (.inr ⟨hd, hu, hl⟩))

/-- A walk that succeeds, part by part. -/
inductive Walks (d : Disk) (follow : Bool) : Nat → Key → List String → Found → Prop
  | done (links : Nat) (key : Key) : Walks d follow links key [] (.entry key .directory)
  | dot {links : Nat} {key : Key} {rest : List String} {r : Found} :
    Walks d follow links key rest r → Walks d follow links key ("." :: rest) r
  | dotDot {links : Nat} {key : Key} {rest : List String} {r : Found} :
    Walks d follow links key.dropLast rest r → Walks d follow links key (".." :: rest) r
  | enter {links : Nat} {key : Key} {part : String} {rest : List String} {r : Found}
    (hn : IsName part) (hg : d.get? (key ++ [part]) = some .directory) :
    Walks d follow links (key ++ [part]) rest r → Walks d follow links key (part :: rest) r
  | free {links : Nat} {key : Key} {part : String} (hn : IsName part)
    (hg : d.get? (key ++ [part]) = none) :
    Walks d follow links key [part] (.free (key ++ [part]))
  | file {links : Nat} {key : Key} {part : String} {data : Bytes} {mode : Nat} (hn : IsName part)
    (hg : d.get? (key ++ [part]) = some (.file data mode)) :
    Walks d follow links key [part] (.entry (key ++ [part]) (.file data mode))
  | link {links : Nat} {key : Key} {part target : String} (hn : IsName part)
    (hg : d.get? (key ++ [part]) = some (.link target)) (hf : follow = false) :
    Walks d follow links key [part] (.entry (key ++ [part]) (.link target))
  | jump {links : Nat} {key : Key} {part target : String} {rest : List String} {r : Found}
    (hn : IsName part) (hg : d.get? (key ++ [part]) = some (.link target))
    (hf : rest ≠ [] ∨ follow = true) :
    Walks d follow links (linkBase key target) (steps target ++ rest) r →
      Walks d follow (links + 1) key (part :: rest) r

theorem walk_jump {target : String} (hn : IsName part)
    (hg : d.get? (key ++ [part]) = some (.link target)) (hf : rest ≠ [] ∨ follow = true) :
    d.walk follow (links + 1) key (part :: rest) =
      d.walk follow links (linkBase key target) (steps target ++ rest) := by
  rw [walk_link hn hg, if_neg, jump]
  obtain hf | rfl := hf
  · simp [hf]
  · simp

theorem walks_of_walk {parts : List String} {r : Found} (h : d.walk follow links key parts = .ok r) :
    Walks d follow links key parts r := by
  induction links, key, parts using walk_induction with
  | nil links key =>
    rw [walk_nil] at h
    obtain rfl := Except.ok.inj h
    exact .done links key
  | cons links key part rest ih jumped =>
    obtain rfl | rfl | hl | hn := part_cases part
    · rw [walk_dot] at h
      exact .dot (ih key h)
    · rw [walk_dotDot] at h
      exact .dotDot (ih key.dropLast h)
    · simp [walk_tooLong hl] at h
    · cases hg : d.get? (key ++ [part]) with
      | none =>
        rw [walk_none hn hg] at h
        split at h
        · next he =>
          obtain rfl := List.isEmpty_iff.1 he
          obtain rfl := Except.ok.inj h
          exact .free hn hg
        · cases h
      | some node =>
        cases node with
        | directory =>
          rw [walk_directory hn hg] at h
          exact .enter hn hg (ih _ h)
        | file data mode =>
          rw [walk_file hn hg] at h
          split at h
          · next he =>
            obtain rfl := List.isEmpty_iff.1 he
            obtain rfl := Except.ok.inj h
            exact .file hn hg
          · cases h
        | link target =>
          rw [walk_link hn hg] at h
          split at h
          · next he =>
            obtain ⟨hr, hf⟩ := Bool.and_eq_true_iff.1 he
            obtain rfl := List.isEmpty_iff.1 hr
            obtain rfl := Except.ok.inj h
            exact .link hn hg (by simpa using hf)
          · next he =>
            have hf : rest ≠ [] ∨ follow = true := by
              cases rest with
              | nil => exact .inr (by simpa using he)
              | cons next rest => exact .inl (by simp)
            cases links with
            | zero => simp [jump] at h
            | succ links => exact .jump hn hg hf (jumped links rfl _ _ h)

theorem Walks.walk_eq {parts : List String} {r : Found} (h : Walks d follow links key parts r) :
    d.walk follow links key parts = .ok r := by
  induction h with
  | done links key => exact walk_nil d follow links key
  | dot _ ih => rw [walk_dot, ih]
  | dotDot _ ih => rw [walk_dotDot, ih]
  | enter hn hg _ ih => rw [walk_directory hn hg, ih]
  | free hn hg => simp [walk_none hn hg]
  | file hn hg => simp [walk_file hn hg]
  | link hn hg hf => simp [walk_link hn hg, hf]
  | jump hn hg hf _ ih => rw [walk_jump hn hg hf, ih]

/-- Behind a directory, a walk goes on with the links that are left. -/
theorem walk_append {parts : List String} {k : Key}
    (h : d.walk true links key parts = .ok (.entry k .directory)) :
    ∃ fewer ≤ links, ∀ follow rest, rest ≠ [] ∨ follow = true →
      d.walk follow links key (parts ++ rest) = d.walk follow fewer k rest := by
  have hw := walks_of_walk h
  clear h
  generalize hr : Found.entry k .directory = r at hw
  induction hw with
  | done links key =>
    obtain ⟨rfl, -⟩ := Found.entry.inj hr
    exact ⟨links, Nat.le_refl _, fun follow rest _ => by rw [List.nil_append]⟩
  | dot _ ih => simpa only [List.cons_append, walk_dot] using ih hr
  | dotDot _ ih => simpa only [List.cons_append, walk_dotDot] using ih hr
  | enter hn hg _ ih => simpa only [List.cons_append, walk_directory hn hg] using ih hr
  | free hn hg => cases hr
  | file hn hg => cases hr
  | link hn hg hf => cases hr
  | jump hn hg _ _ ih =>
    obtain ⟨fewer, hle, hw⟩ := ih hr
    refine ⟨fewer, Nat.le_succ_of_le hle, fun follow rest hf => ?_⟩
    rw [List.cons_append, walk_jump hn hg (hf.imp_left fun hr => by simp [hr]), ← hw follow rest hf,
      List.append_assoc]

theorem Walks.exists_directory {parts : List String} {r : Found}
    (h : Walks d follow links key (parts ++ rest) r) (hr : rest ≠ []) :
    ∃ k, Walks d true links key parts (.entry k .directory) := by
  induction links, key, parts using walk_induction with
  | nil links key => exact ⟨key, .done links key⟩
  | cons links key part parts ih jumped =>
    have hne : parts ++ rest ≠ [] := by simp [hr]
    rw [List.cons_append] at h
    generalize hall : parts ++ rest = all at h
    cases h with
    | dot hw => exact (ih _ (hall ▸ hw)).imp fun _ => .dot
    | dotDot hw => exact (ih _ (hall ▸ hw)).imp fun _ => .dotDot
    | enter hn hg hw => exact (ih _ (hall ▸ hw)).imp fun _ => .enter hn hg
    | free hn hg => exact absurd hall hne
    | file hn hg => exact absurd hall hne
    | link hn hg hf => exact absurd hall hne
    | jump hn hg hf hw =>
      rw [← hall, ← List.append_assoc] at hw
      exact (jumped _ rfl _ _ hw).imp fun _ => .jump hn hg (.inr rfl)

theorem exists_directory_of_walk_append {parts : List String} {r : Found}
    (h : d.walk follow links key (parts ++ rest) = .ok r) (hr : rest ≠ []) :
    ∃ k, d.walk true links key parts = .ok (.entry k .directory) :=
  ((walks_of_walk h).exists_directory hr).imp fun _ => Walks.walk_eq

/-- The number of links that may be followed matters only when it is too small. -/
theorem walk_of_le {parts : List String} {x : Except Errno Found} {more : Nat}
    (h : d.walk follow links key parts = x) (hx : x ≠ .error .tooManyLinks) (hle : links ≤ more) :
    d.walk follow more key parts = x := by
  induction links, key, parts using walk_induction generalizing more with
  | nil links key => simpa using h
  | cons links key part rest ih jumped =>
    obtain rfl | rfl | hl | hn := part_cases part
    · rw [walk_dot] at h ⊢
      exact ih key h hle
    · rw [walk_dotDot] at h ⊢
      exact ih key.dropLast h hle
    · rwa [walk_tooLong hl] at h ⊢
    · cases hg : d.get? (key ++ [part]) with
      | none => rwa [walk_none hn hg] at h ⊢
      | some node =>
        cases node with
        | directory =>
          rw [walk_directory hn hg] at h ⊢
          exact ih _ h hle
        | file data mode => rwa [walk_file hn hg] at h ⊢
        | link target =>
          rw [walk_link hn hg] at h ⊢
          split at h
          · next hc => rwa [if_pos hc]
          · next hc =>
            rw [if_neg hc]
            cases links with
            | zero => exact absurd h.symm hx
            | succ links =>
              cases more with
              | zero => omega
              | succ more => exact jumped links rfl _ _ h (Nat.le_of_succ_le_succ hle)

/-- Nothing can be looked up behind the key: it is no directory, and no link to one. -/
def DeadEnd (d : Disk) (key : Key) : Prop :=
  d.get? key ≠ some .directory ∧ ∀ target, d.get? key = some (.link target) → ∀ links k,
    d.walk true links (linkBase key.dropLast target) (steps target) ≠ .ok (.entry k .directory)

theorem deadEnd_of_none (h : d.get? key = none) : d.DeadEnd key := by simp [DeadEnd, h]

theorem deadEnd_of_file {data : Bytes} {mode : Nat} (h : d.get? key = some (.file data mode)) :
    d.DeadEnd key := by simp [DeadEnd, h]

/-- A walk to a directory passes no dead ends, so it does not notice what becomes of them. -/
theorem walk_directory_congr {parts : List String} {k : Key} (ends : Key → Prop)
    (hends : ∀ key, ends key → d.DeadEnd key)
    (hsame : ∀ key, ¬ ends key → d'.get? key = d.get? key)
    (h : d.walk true links key parts = .ok (.entry k .directory)) :
    d'.walk true links key parts = .ok (.entry k .directory) := by
  have hw := walks_of_walk h
  clear h
  generalize hr : Found.entry k .directory = r at hw
  induction hw with
  | done links key => exact walk_nil d' true links key
  | dot _ ih => rw [walk_dot, ih hr]
  | dotDot _ ih => rw [walk_dotDot, ih hr]
  | @enter links key part rest _ hn hg _ ih =>
    have he : ¬ ends (key ++ [part]) := fun he => (hends _ he).1 hg
    rw [walk_directory hn (by rw [hsame _ he, hg]), ih hr]
  | free hn hg => cases hr
  | file hn hg => cases hr
  | link hn hg hf => cases hr
  | @jump links key part target rest _ hn hg hf hw ih =>
    have he : ¬ ends (key ++ [part]) := by
      intro he
      have hdead := (hends _ he).2 target hg links
      rw [List.dropLast_concat] at hdead
      by_cases hrest : rest = []
      · rw [hrest, List.append_nil] at hw
        exact hdead k (hr ▸ hw.walk_eq)
      · obtain ⟨k', hk⟩ := hw.exists_directory hrest
        exact hdead k' hk.walk_eq
    rw [walk_jump hn (by rw [hsame _ he, hg]) hf, ih hr]

/-- A walk to an entry passes directories and links only, and notices no change but to them and to the
entry. -/
theorem walk_entry_congr {parts : List String} {k : Key} {node : Node}
    (hsame : ∀ key other, d.get? key = some other →
      key = k ∧ other = node ∨ (∀ data mode, other ≠ .file data mode) → d'.get? key = some other)
    (h : d.walk follow links key parts = .ok (.entry k node)) :
    d'.walk follow links key parts = .ok (.entry k node) := by
  have hw := walks_of_walk h
  clear h
  generalize hr : Found.entry k node = r at hw
  induction hw with
  | done links key => exact walk_nil d' follow links key
  | dot _ ih => rw [walk_dot, ih hr]
  | dotDot _ ih => rw [walk_dotDot, ih hr]
  | enter hn hg _ ih => rw [walk_directory hn (hsame _ _ hg (.inr (by simp))), ih hr]
  | free hn hg => cases hr
  | file hn hg =>
    obtain ⟨rfl, rfl⟩ := Found.entry.inj hr
    simp [walk_file hn (hsame _ _ hg (.inl ⟨rfl, rfl⟩))]
  | link hn hg hf => simp [walk_link hn (hsame _ _ hg (.inr (by simp))), hf]
  | jump hn hg hf _ ih => rw [walk_jump hn (hsame _ _ hg (.inr (by simp))) hf, ih hr]

theorem walk_append_name {parts : List String} {k : Key} {name : String}
    (h : d.walk true links key parts = .ok (.entry k .directory)) (hn : IsName name)
    (hf : follow = false ∨ ∀ target, d.get? (k ++ [name]) ≠ some (.link target)) :
    d.walk follow links key (parts ++ [name]) = .ok (d.foundAt (k ++ [name])) := by
  obtain ⟨fewer, -, hw⟩ := walk_append h
  rw [hw follow [name] (.inl (by simp))]
  cases hg : d.get? (k ++ [name]) with
  | none => simp [walk_none hn hg, foundAt, hg]
  | some node =>
    cases node with
    | directory => simp [walk_directory hn hg, foundAt, hg]
    | file data mode => simp [walk_file hn hg, foundAt, hg]
    | link target =>
      obtain rfl | hf := hf
      · simp [walk_link hn hg, foundAt, hg]
      · exact absurd hg (hf target)

def start (d : Disk) (path : String) : Key := if Path.isAbsolute path then [] else d.cwd

/-- The path is looked up at all. -/
structure Accepted (path : String) : Prop where
  noZero : hasZero path = false
  ne_empty : path ≠ ""
  short : path.utf8ByteSize ≤ pathLimit

def Beside (d : Disk) (path : String) (k : Key) : Prop :=
  d.walk true linkLimit (d.start path) (directorySteps path) = .ok (.entry k .directory)

theorem find_eq_walk {path : String} (h : Accepted path) :
    d.find follow path =
      d.walk follow linkLimit (d.start path) (directorySteps path ++ [lastStep path]) := by
  rw [find, if_neg (by simp [h.noZero]), if_neg (by simpa using h.ne_empty),
    if_neg (Nat.not_lt.2 h.short), steps_eq h.ne_empty]
  rfl

theorem accepted_of_find {path : String} {r : Found} (h : d.find follow path = .ok r) :
    Accepted path := by
  rw [find] at h
  split at h
  · cases h
  · next hz =>
    split at h
    · cases h
    · next he =>
      split at h
      · cases h
      · next hs => exact ⟨by simpa using hz, by simpa using he, Nat.not_lt.1 hs⟩

theorem Accepted.of_append {path suffix : String} (h : Accepted (path ++ suffix)) (hp : path ≠ "") :
    Accepted path where
  noZero := by
    have hz := h.noZero
    simp only [hasZero, String.toList_append, List.contains_append, Bool.or_eq_false_iff] at hz ⊢
    exact hz.1
  ne_empty := hp
  short := by
    have hs := h.short
    rw [String.utf8ByteSize_append] at hs
    omega

theorem stat_eq_ok_iff {path : String} {node : Node} :
    d.stat path = .ok (key, node) ↔ d.find true path = .ok (.entry key node) := by
  rw [stat]
  split
  · next hf => simp [hf]
  · next hf => simp [hf]
  · next hf => simp [hf]

theorem read_eq_ok_iff {path : String} {data : Bytes} :
    d.read path = .ok data ↔ ∃ key mode, d.stat path = .ok (key, .file data mode) := by
  rw [read]
  constructor
  · intro h
    split at h
    · cases h
    · next key data' mode hs =>
      obtain rfl := Except.ok.inj h
      exact ⟨key, mode, hs⟩
    · cases h
  · rintro ⟨key, mode, hs⟩
    rw [hs]

theorem beside_of_find {path : String} {r : Found} (h : d.find follow path = .ok r) :
    ∃ k, d.Beside path k := by
  rw [find_eq_walk (accepted_of_find h)] at h
  exact exists_directory_of_walk_append h (by simp)

theorem find_eq_foundAt {path : String} {k : Key} (ha : Accepted path) (hb : d.Beside path k)
    (hn : IsName (Path.lastPart path)) (he : Path.lastPart path ≠ "")
    (hf : follow = false ∨ ∀ target, d.get? (k ++ [Path.lastPart path]) ≠ some (.link target)) :
    d.find follow path = .ok (d.foundAt (k ++ [Path.lastPart path])) := by
  rw [find_eq_walk ha, lastStep, if_neg he]
  exact walk_append_name hb hn hf

/-- A path whose last part is no name leads to a directory, unless it is too long. -/
theorem find_directory_or_isName {path : String} {k : Key} (ha : Accepted path) (hb : d.Beside path k)
    (hl : isTooLong (Path.lastPart path) = false) :
    (∃ key, d.find true path = .ok (.entry key .directory)) ∨
      IsName (Path.lastPart path) ∧ Path.lastPart path ≠ "" := by
  obtain ⟨fewer, -, hw⟩ := walk_append hb
  rw [find_eq_walk ha, hw true _ (.inr rfl), lastStep]
  by_cases he : Path.lastPart path = ""
  · exact .inl ⟨k, by rw [if_pos he, walk_dot, walk_nil]⟩
  · rw [if_neg he]
    obtain hd | hu | ht | hname := part_cases (Path.lastPart path)
    · exact .inl ⟨k, by rw [hd, walk_dot, walk_nil]⟩
    · exact .inl ⟨k.dropLast, by rw [hu, walk_dotDot, walk_nil]⟩
    · simp [hl] at ht
    · exact .inr ⟨hname, he⟩

theorem of_find {path : String} {r : Found} (h : d.find false path = .ok r) :
    (∃ key, r = .entry key .directory) ∨ ∃ k, d.Beside path k ∧ IsName (Path.lastPart path) ∧
      Path.lastPart path ≠ "" ∧ r = d.foundAt (k ++ [Path.lastPart path]) := by
  obtain ⟨k, hb⟩ := beside_of_find h
  have ha := accepted_of_find h
  obtain ⟨fewer, -, hw⟩ := walk_append hb
  have hlast := h
  rw [find_eq_walk ha, hw false _ (.inl (by simp)), lastStep] at hlast
  by_cases he : Path.lastPart path = ""
  · rw [if_pos he, walk_dot, walk_nil] at hlast
    exact .inl ⟨_, (Except.ok.inj hlast).symm⟩
  · rw [if_neg he] at hlast
    obtain hd | hu | ht | hn := part_cases (Path.lastPart path)
    · rw [hd, walk_dot, walk_nil] at hlast
      exact .inl ⟨_, (Except.ok.inj hlast).symm⟩
    · rw [hu, walk_dotDot, walk_nil] at hlast
      exact .inl ⟨_, (Except.ok.inj hlast).symm⟩
    · rw [walk_tooLong ht] at hlast
      cases hlast
    · rw [find_eq_foundAt ha hb hn he (.inl rfl)] at h
      exact .inr ⟨k, hb, hn, he, (Except.ok.inj h).symm⟩

theorem of_find_eq_free {path : String} {key : Key} (h : d.find false path = .ok (.free key)) :
    ∃ k, d.Beside path k ∧ IsName (Path.lastPart path) ∧ Path.lastPart path ≠ "" ∧
      key = k ++ [Path.lastPart path] ∧ d.get? key = none := by
  obtain ⟨key, hr⟩ | ⟨k, hb, hn, he, hr⟩ := of_find h
  · cases hr
  · rw [foundAt] at hr
    split at hr
    · next hg => exact ⟨k, hb, hn, he, Found.free.inj hr, Found.free.inj hr ▸ hg⟩
    · cases hr

theorem not_tooLong_of_find {path : String} {r : Found} (h : d.find follow path = .ok r)
    (hlast : Path.lastPart path ≠ "") : isTooLong (Path.lastPart path) = false := by
  obtain ⟨k, hb⟩ := beside_of_find h
  obtain ⟨fewer, -, hw⟩ := walk_append hb
  cases hl : isTooLong (Path.lastPart path) with
  | false => rfl
  | true =>
    rw [find_eq_walk (accepted_of_find h), hw follow _ (.inl (by simp)), lastStep, if_neg hlast,
      walk_tooLong hl] at h
    cases h

theorem exists_find {path : String} {k : Key} (ha : Accepted path) (hb : d.Beside path k)
    (hl : isTooLong (Path.lastPart path) = false) : ∃ r, d.find false path = .ok r := by
  obtain ⟨fewer, -, hw⟩ := walk_append hb
  by_cases he : Path.lastPart path = ""
  · rw [find_eq_walk ha, hw false _ (.inl (by simp)), lastStep, if_pos he, walk_dot, walk_nil]
    exact ⟨_, rfl⟩
  · obtain hd | hu | ht | hn := part_cases (Path.lastPart path)
    · rw [find_eq_walk ha, hw false _ (.inl (by simp)), lastStep, if_neg he, hd, walk_dot, walk_nil]
      exact ⟨_, rfl⟩
    · rw [find_eq_walk ha, hw false _ (.inl (by simp)), lastStep, if_neg he, hu, walk_dotDot, walk_nil]
      exact ⟨_, rfl⟩
    · simp [hl] at ht
    · exact ⟨_, find_eq_foundAt ha hb hn he (.inl rfl)⟩

theorem exists_entry_of_find {path : String} {k : Key} {node : Node}
    (h : d.find true path = .ok (.entry k node)) :
    ∃ k' node', d.find false path = .ok (.entry k' node') := by
  have ha := accepted_of_find h
  obtain ⟨dir, hdir⟩ := beside_of_find h
  have hlong : isTooLong (Path.lastPart path) = false := by
    by_cases he : Path.lastPart path = ""
    · rw [he]
      decide
    · exact not_tooLong_of_find h he
  obtain ⟨r, hr⟩ := exists_find ha hdir hlong
  cases r with
  | entry k' node' => exact ⟨k', node', hr⟩
  | free key =>
    obtain ⟨base, hb, hn, he, rfl, hnone⟩ := of_find_eq_free hr
    rw [find_eq_foundAt ha hb hn he (.inr (by simp [hnone])), foundAt, hnone] at h
    cases h

theorem deadEnd_of_find {path : String} {k : Key} {x : Except Errno Found} (ha : Accepted path)
    (hb : d.Beside path k) (hn : IsName (Path.lastPart path)) (he : Path.lastPart path ≠ "")
    (hx : d.find true path = x) (hm : x ≠ .error .tooManyLinks)
    (hd : ∀ key, x ≠ .ok (.entry key .directory)) : d.DeadEnd (k ++ [Path.lastPart path]) := by
  obtain ⟨fewer, -, hw⟩ := walk_append hb
  rw [find_eq_walk ha, hw true _ (.inr rfl), lastStep, if_neg he] at hx
  refine ⟨fun hg => ?_, fun target hg links key hwalk => ?_⟩
  · rw [walk_directory hn hg, walk_nil] at hx
    exact hd _ hx.symm
  · rw [walk_link hn hg, Bool.not_true, Bool.and_false, if_neg (by simp), List.append_nil] at hx
    rw [List.dropLast_concat] at hwalk
    cases fewer with
    | zero => exact hm hx.symm
    | succ fewer =>
      rw [jump] at hx
      -- both walks end, so the longer allowance gives the answer of either
      have h₁ := walk_of_le hx hm (Nat.le_max_left fewer links)
      have h₂ := walk_of_le hwalk (by simp) (Nat.le_max_right fewer links)
      exact hd key (h₁.symm.trans h₂)

section Suffix

variable {path suffix : String}

theorem start_append (h : Path.IsPart suffix) : d.start (path ++ suffix) = d.start path := by
  by_cases hp : path = ""
  · have ha : Path.isAbsolute suffix = false := by
      rw [Path.isAbsolute, beq_eq_false_iff_ne]
      exact fun hs => h (List.mem_of_mem_head? hs)
    have he : Path.isAbsolute "" = false := by decide
    rw [hp, String.empty_append, start, start, ha, he]
  · rw [start, start, Path.isAbsolute_append hp]

theorem beside_append (h : Path.IsPart suffix) (k : Key) :
    d.Beside (path ++ suffix) k ↔ d.Beside path k := by
  rw [Beside, Beside, start_append h, directorySteps, Path.directoryParts_append path h]
  rfl

theorem isName_append (hs : 2 < suffix.length) (hl : isTooLong (Path.lastPart path ++ suffix) = false) :
    IsName (Path.lastPart path ++ suffix) := by
  have hlen : 2 < (Path.lastPart path ++ suffix).length := by
    rw [String.length_append]
    omega
  refine ⟨fun h => ?_, fun h => ?_, hl⟩
  · rw [h] at hlen
    revert hlen
    decide
  · rw [h] at hlen
    revert hlen
    decide

theorem isName_of_find_append {r : Found} (hp : Path.IsPart suffix) (hs : 2 < suffix.length)
    (h : d.find follow (path ++ suffix) = .ok r) :
    IsName (Path.lastPart path ++ suffix) ∧ ∃ k, d.Beside path k := by
  have ha := accepted_of_find h
  obtain ⟨k, hb⟩ := beside_of_find h
  have hne : Path.lastPart path ++ suffix ≠ "" := by
    intro hempty
    have hlen := congrArg String.length hempty
    simp only [String.length_append, String.length_empty] at hlen
    omega
  refine ⟨isName_append hs ?_, k, (beside_append hp k).1 hb⟩
  cases hl : isTooLong (Path.lastPart path ++ suffix) with
  | false => rfl
  | true =>
    obtain ⟨fewer, -, hw⟩ := walk_append hb
    rw [find_eq_walk ha, hw follow _ (.inl (by simp)), lastStep, Path.lastPart_append path hp,
      if_neg hne, walk_tooLong hl] at h
    cases h

theorem find_append_eq_foundAt {k : Key} (hp : Path.IsPart suffix) (ha : Accepted (path ++ suffix))
    (hb : d.Beside path k) (hn : IsName (Path.lastPart path ++ suffix)) (hs : suffix ≠ "")
    (hf : follow = false ∨
      ∀ target, d.get? (k ++ [Path.lastPart path ++ suffix]) ≠ some (.link target)) :
    d.find follow (path ++ suffix) = .ok (d.foundAt (k ++ [Path.lastPart path ++ suffix])) := by
  have hlast := Path.lastPart_append path hp
  rw [← hlast] at hn hf ⊢
  exact find_eq_foundAt ha ((beside_append hp k).2 hb) hn (by simp [hlast, hs]) hf

end Suffix

end HashedLiterals.Disk
