import HashedLiterals.Proofs.Directories
import HashedLiterals.Proofs.Lexical

set_option autoImplicit false

namespace HashedLiterals.Path

variable {key other : Key}

theorem ofKey_inj (hk : ∀ part ∈ key, IsPlain part) (ho : ∀ part ∈ other, IsPlain part)
    (h : ofKey key = ofKey other) : key = other := by
  rw [← Disk.follow_parts_ofKey hk, h, Disk.follow_parts_ofKey ho]

theorem plain_collapse {ps : List String} (h : ∀ p ∈ ps, IsPart p) :
    ∀ part ∈ collapse true ps, IsPlain part := by
  have hnil : ∀ part ∈ ([] : Key), IsPlain part := by simp
  exact plain_follow hnil h

theorem plain_toKey (hk : ∀ part ∈ key, IsPlain part) (path : String) :
    ∀ part ∈ toKey key path, IsPlain part := by
  refine plain_collapse fun p hp => ?_
  split at hp
  · exact isPart_of_mem_parts hp
  · rcases List.mem_append.1 hp with hp | hp
    · exact (hk p hp).isPart
    · exact isPart_of_mem_parts hp

end HashedLiterals.Path

namespace HashedLiterals.Disk

variable {d e : Disk} {key k : Key} {path : String} {parts : List String} {links : Nat}
  {follow : Bool}

theorem mem_steps {part : String} (h : part ∈ steps path) : Path.IsPart part ∧ part ≠ "" := by
  rw [steps] at h
  split at h
  · rcases List.mem_append.1 h with h | h
    · obtain ⟨hm, hne⟩ := List.mem_filter.1 h
      exact ⟨Path.isPart_of_mem_parts hm, by simpa using hne⟩
    · rw [List.mem_singleton.1 h]
      decide
  · obtain ⟨hm, hne⟩ := List.mem_filter.1 h
    exact ⟨Path.isPart_of_mem_parts hm, by simpa using hne⟩

theorem IsName.plain {part : String} (h : IsName part) (hp : Path.IsPart part) (hne : part ≠ "") :
    Path.IsPlain part := ⟨hp, hne, h.ne_dot, h.ne_dotDot⟩

theorem plain_snoc {part : String} (hk : ∀ p ∈ key, Path.IsPlain p) (hp : Path.IsPlain part) :
    ∀ p ∈ key ++ [part], Path.IsPlain p := by
  intro p hm
  rcases List.mem_append.1 hm with hm | hm
  · exact hk p hm
  · exact List.mem_singleton.1 hm ▸ hp

/-- The place of what was found. -/
def Found.place : Found → Key
  | .entry key _ => key
  | .free key => key

theorem Walks.found {r : Found} (h : Walks d follow links key parts r) (hk : d.Way key)
    (hp : ∀ p ∈ parts, Path.IsPart p ∧ p ≠ "") :
    (∀ part ∈ r.place, Path.IsPlain part) ∧ r = d.foundAt r.place := by
  induction h with
  | done links key => exact ⟨hk.plain, (foundAt_of_some hk.get?_eq).symm⟩
  | dot _ ih => exact ih hk fun p hm => hp p (by simp [hm])
  | dotDot _ ih => exact ih hk.dropLast fun p hm => hp p (by simp [hm])
  | @enter links key part rest r hn hg _ ih =>
    obtain ⟨hpart, hne⟩ := hp part (by simp)
    exact ih (hk.snoc (hn.plain hpart hne) hg) fun p hm => hp p (by simp [hm])
  | @free links key part hn hg =>
    obtain ⟨hpart, hne⟩ := hp part (by simp)
    exact ⟨plain_snoc hk.plain (hn.plain hpart hne), by rw [Found.place, foundAt, hg]⟩
  | @file links key part data mode hn hg =>
    obtain ⟨hpart, hne⟩ := hp part (by simp)
    exact ⟨plain_snoc hk.plain (hn.plain hpart hne), (foundAt_of_some hg).symm⟩
  | @link links key part target hn hg hf =>
    obtain ⟨hpart, hne⟩ := hp part (by simp)
    exact ⟨plain_snoc hk.plain (hn.plain hpart hne), (foundAt_of_some hg).symm⟩
  | @jump links key part target rest r hn hg hf _ ih =>
    have hbase : d.Way (linkBase key target) := by
      rw [linkBase]
      split
      · exact way_nil d
      · exact hk
    refine ih hbase fun p hm => ?_
    rcases List.mem_append.1 hm with hm | hm
    · exact mem_steps hm
    · exact hp p (by simp [hm])

theorem found_of_find {r : Found} (hg : d.Way d.cwd) (h : d.find follow path = .ok r) :
    (∀ part ∈ r.place, Path.IsPlain part) ∧ r = d.foundAt r.place := by
  have ha := accepted_of_find h
  rw [find_eq_walk ha, ← steps_eq ha.ne_empty] at h
  exact (walks_of_walk h).found (hg.start path) fun p hm => mem_steps hm

theorem plain_of_find {r : Found} (hg : d.Way d.cwd) (h : d.find follow path = .ok r) :
    ∀ part ∈ r.place, Path.IsPlain part := (found_of_find hg h).1

theorem get?_of_stat {node : Node} (hg : d.Way d.cwd) (h : d.stat path = .ok (k, node)) :
    d.get? k = some node :=
  (foundAt_eq_entry (found_of_find hg (stat_eq_ok_iff.1 h)).2.symm).2

structure Keeps (d e : Disk) : Prop where
  cwd_eq : e.cwd = d.cwd
  get?_of_not_file : ∀ key node, d.get? key = some node → (∀ data mode, node ≠ .file data mode) →
    e.get? key = some node
  file : ∀ key data mode, d.get? key = some (.file data mode) →
    ∃ data' mode', e.get? key = some (.file data' mode')

theorem Scratch.keeps {keys : List Key} (h : Scratch d keys e) : Keeps d e := by
  have hget : ∀ key node, d.get? key = some node → e.get? key = some node := by
    intro key node hg
    rw [h.get?_eq, hg]
    intro hk
    rw [h.get?_free hk] at hg
    cases hg
  exact ⟨h.cwd_eq, fun key node hg _ => hget key node hg, fun key data mode hg => ⟨_, _, hget _ _ hg⟩⟩

namespace Keeps

theorem walk_of_not_file {node : Node} (h : Keeps d e) (hf : ∀ data mode, node ≠ .file data mode)
    (hw : d.walk follow links key parts = .ok (.entry k node)) :
    e.walk follow links key parts = .ok (.entry k node) := by
  refine walk_entry_congr (fun key other hg hor => h.get?_of_not_file key other hg ?_) hw
  rcases hor with ⟨-, rfl⟩ | hother
  · exact hf
  · exact hother

theorem walk_of_file {data data' : Bytes} {mode mode' : Nat} (h : Keeps d e)
    (hg : e.get? k = some (.file data' mode'))
    (hw : d.walk follow links key parts = .ok (.entry k (.file data mode))) :
    e.walk follow links key parts = .ok (.entry k (.file data' mode')) := by
  have hwalks := walks_of_walk hw
  clear hw
  generalize hr : Found.entry k (.file data mode) = r at hwalks
  induction hwalks with
  | done links key => cases hr
  | dot _ ih => rw [walk_dot, ih hr]
  | dotDot _ ih => rw [walk_dotDot, ih hr]
  | enter hn hd _ ih => rw [walk_directory hn (h.get?_of_not_file _ _ hd (by simp)), ih hr]
  | free hn hg' => cases hr
  | file hn hd =>
    obtain ⟨rfl, -⟩ := Found.entry.inj hr
    simp [walk_file hn hg]
  | link hn hd hf => cases hr
  | jump hn hd hf _ ih => rw [walk_jump hn (h.get?_of_not_file _ _ hd (by simp)) hf, ih hr]

theorem stat_of_not_file {node : Node} (h : Keeps d e) (hf : ∀ data mode, node ≠ .file data mode)
    (hs : d.stat path = .ok (k, node)) : e.stat path = .ok (k, node) := by
  rw [stat_eq_ok_iff] at hs ⊢
  have ha := accepted_of_find hs
  rw [find_eq_walk ha] at hs ⊢
  rw [start, h.cwd_eq]
  exact h.walk_of_not_file hf hs

theorem stat_of_file {data data' : Bytes} {mode mode' : Nat} (h : Keeps d e)
    (hg : e.get? k = some (.file data' mode')) (hs : d.stat path = .ok (k, .file data mode)) :
    e.stat path = .ok (k, .file data' mode') := by
  rw [stat_eq_ok_iff] at hs ⊢
  have ha := accepted_of_find hs
  rw [find_eq_walk ha] at hs ⊢
  rw [start, h.cwd_eq]
  exact h.walk_of_file hg hs

end Keeps

theorem get?_of_walk_file {data : Bytes} {mode : Nat}
    (hw : d.walk follow links key parts = .ok (.entry k (.file data mode))) :
    d.get? k = some (.file data mode) := by
  have hwalks := walks_of_walk hw
  clear hw
  generalize hr : Found.entry k (.file data mode) = r at hwalks
  induction hwalks with
  | done links key => cases hr
  | dot _ ih => exact ih hr
  | dotDot _ ih => exact ih hr
  | enter hn hd _ ih => exact ih hr
  | free hn hg' => cases hr
  | file hn hd =>
    obtain ⟨rfl, hnode⟩ := Found.entry.inj hr
    rw [hd, hnode]
  | link hn hd hf => cases hr
  | jump hn hd hf _ ih => exact ih hr

theorem get?_of_stat_file {data : Bytes} {mode : Nat} (hs : d.stat path = .ok (k, .file data mode)) :
    d.get? k = some (.file data mode) := by
  rw [stat_eq_ok_iff] at hs
  rw [find_eq_walk (accepted_of_find hs)] at hs
  exact get?_of_walk_file hs

theorem Keeps.exists_node {node : Node} (h : Keeps d e) (hg : d.get? key = some node)
    (hl : ∀ target, node ≠ .link target) :
    ∃ node', e.get? key = some node' ∧ ∀ target, node' ≠ .link target := by
  cases node with
  | link target => exact absurd rfl (hl target)
  | directory => exact ⟨_, h.get?_of_not_file _ _ hg (by simp), by simp⟩
  | file data mode =>
    obtain ⟨data', mode', hf⟩ := h.file _ _ _ hg
    exact ⟨_, hf, by simp⟩

theorem Keeps.exists_stat {node : Node} (h : Keeps d e) (hs : d.stat path = .ok (k, node)) :
    ∃ node', e.stat path = .ok (k, node') := by
  cases node with
  | file data mode =>
    obtain ⟨data', mode', hg⟩ := h.file k data mode (get?_of_stat_file hs)
    exact ⟨_, h.stat_of_file hg hs⟩
  | directory => exact ⟨_, h.stat_of_not_file (by simp) hs⟩
  | link target => exact ⟨_, h.stat_of_not_file (by simp) hs⟩

/-- The key of an entry that is no link, with no link on the way to it. -/
structure Real (d : Disk) (key : Key) : Prop where
  plain : ∀ part ∈ key, Path.IsPlain part
  directory : ∀ i < key.length, d.get? (key.take i) = some .directory
  exists_node : ∃ node, d.get? key = some node ∧ ∀ target, node ≠ .link target

namespace Real

theorem nil (d : Disk) : d.Real [] := ⟨by simp, by simp, .directory, by simp [get?]⟩

theorem snoc {part : String} {node : Node} (h : d.Real key) (hd : d.get? key = some .directory)
    (hp : Path.IsPlain part) (hg : d.get? (key ++ [part]) = some node)
    (hl : ∀ target, node ≠ .link target) : d.Real (key ++ [part]) := by
  refine ⟨plain_snoc h.plain hp, fun i hi => ?_, node, hg, hl⟩
  rw [List.length_append, List.length_singleton] at hi
  rw [List.take_append_of_le_length (by omega)]
  rcases Nat.lt_or_ge i key.length with hlt | hge
  · exact h.directory i hlt
  · rw [List.take_of_length_le hge]
    exact hd

theorem not_link {above : Key} (h : d.Real key) (ha : above <+: key) (target : String) :
    d.get? above ≠ some (.link target) := by
  rw [List.prefix_iff_eq_take.1 ha]
  rcases Nat.lt_or_ge above.length key.length with hlt | hge
  · simp [h.directory _ hlt]
  · rw [List.take_of_length_le hge]
    obtain ⟨node, hg, hl⟩ := h.exists_node
    rw [hg]
    exact fun hn => hl target (Option.some.inj hn)

theorem find_eq {r : Found} (h : d.Real key) (hg : d.Way d.cwd)
    (hf : d.find follow (Path.ofKey key) = .ok r) : r = d.foundAt key := by
  have hr := find_eq_foundAt_toKey hg (linkFree_ofKey h.plain fun _ ha => h.not_link ha) hf
  rwa [toKey_ofKey hg h.plain] at hr

end Real

section Resolve

variable {jump jump' : String → List String → Except DiskError Key} {part : String}
  {rest : List String} {target : String} {node : Node}

theorem resolveParts_link (hd : d.get? key = some .directory)
    (hl : d.get? (key ++ [part]) = some (.link target)) :
    d.resolveParts jump key (part :: rest) =
      match d.stat (Path.ofKey (key ++ [part])) with
      | .error err => .error (.on "stat" (Path.ofKey (key ++ [part])) err)
      | .ok _ => jump (Path.ofKey (key ++ [part]))
          (Path.collapse true (Path.toKey key target ++ rest)) := by
  cases hs : d.stat (Path.ofKey (key ++ [part])) with
  | error err => simp only [resolveParts, hd, hl, hs]
  | ok found => simp only [resolveParts, hd, hl, hs]

theorem resolveParts_node (hd : d.get? key = some .directory) (hn : d.get? (key ++ [part]) = some node)
    (hl : ∀ target, node ≠ .link target) :
    d.resolveParts jump key (part :: rest) = d.resolveParts jump (key ++ [part]) rest := by
  cases node with
  | link target => exact absurd rfl (hl target)
  | directory => simp only [resolveParts, hd, hn]
  | file data mode => simp only [resolveParts, hd, hn]

theorem resolveParts_none (hd : d.get? key = some .directory) (hn : d.get? (key ++ [part]) = none) :
    d.resolveParts jump key (part :: rest) = .error (.on "lstat" (Path.ofKey (key ++ [part]))
      (if isTooLong part then .nameTooLong else .noEntry)) := by
  simp only [resolveParts, hd, hn]

theorem resolveParts_not_directory (hd : d.get? key ≠ some .directory) :
    d.resolveParts jump key (part :: rest) =
      .error (.on "lstat" (Path.ofKey (key ++ [part])) .notDirectory) := by
  rw [resolveParts]
  split
  · next hd' _ => exact absurd hd' hd
  · next hd' _ => exact absurd hd' hd
  · next hd' _ => exact absurd hd' hd
  · rfl

theorem next_cases (d : Disk) (key : Key) (part : String) :
    d.get? key ≠ some .directory ∨ d.get? key = some .directory ∧
      (d.get? (key ++ [part]) = none ∨ (∃ target, d.get? (key ++ [part]) = some (.link target)) ∨
        ∃ node, d.get? (key ++ [part]) = some node ∧ ∀ target, node ≠ .link target) := by
  by_cases hd : d.get? key = some .directory
  · refine .inr ⟨hd, ?_⟩
    cases hn : d.get? (key ++ [part]) with
    | none => exact .inl rfl
    | some node =>
      cases node with
      | link target => exact .inr (.inl ⟨target, rfl⟩)
      | directory => exact .inr (.inr ⟨_, rfl, by simp⟩)
      | file data mode => exact .inr (.inr ⟨_, rfl, by simp⟩)
  · exact .inl hd

theorem jump_parts (hk : ∀ p ∈ key, Path.IsPlain p) (hp : ∀ p ∈ rest, Path.IsPlain p)
    (target : String) :
    ∀ p ∈ Path.collapse true (Path.toKey key target ++ rest), Path.IsPlain p := by
  refine Path.plain_collapse fun p hm => ?_
  rcases List.mem_append.1 hm with hm | hm
  · exact (Path.plain_toKey hk target p hm).isPart
  · exact (hp p hm).isPart

theorem real_of_resolveParts (hk : d.Real key) (hp : ∀ p ∈ parts, Path.IsPlain p)
    (hj : ∀ path parts, (∀ p ∈ parts, Path.IsPlain p) → jump path parts = .ok k → d.Real k)
    (h : d.resolveParts jump key parts = .ok k) : d.Real k := by
  induction parts generalizing key with
  | nil =>
    rw [resolveParts] at h
    exact Except.ok.inj h ▸ hk
  | cons part rest ih =>
    have hrest : ∀ p ∈ rest, Path.IsPlain p := fun p hm => hp p (by simp [hm])
    rcases next_cases d key part with hd | ⟨hd, hn | ⟨target, hl⟩ | ⟨node, hn, hl⟩⟩
    · rw [resolveParts_not_directory hd] at h
      cases h
    · rw [resolveParts_none hd hn] at h
      cases h
    · rw [resolveParts_link hd hl] at h
      split at h
      · cases h
      · exact hj _ _ (jump_parts hk.plain hrest target) h
    · rw [resolveParts_node hd hn hl] at h
      exact ih (hk.snoc hd (hp part (by simp)) hn hl) hrest h

theorem real_of_resolve (hk : d.Real key) (hp : ∀ p ∈ parts, Path.IsPlain p)
    (h : d.resolve links key parts = .ok k) : d.Real k := by
  induction links generalizing key parts with
  | zero =>
    refine real_of_resolveParts hk hp (fun _ _ _ hj => ?_) h
    cases hj
  | succ links ih => exact real_of_resolveParts hk hp (fun _ _ hp' hj => ih (Real.nil d) hp' hj) h

theorem Keeps.resolveParts (h : Keeps d e)
    (hj : ∀ path parts, jump path parts = .ok k → jump' path parts = .ok k)
    (hr : d.resolveParts jump key parts = .ok k) : e.resolveParts jump' key parts = .ok k := by
  induction parts generalizing key with
  | nil => exact hr
  | cons part rest ih =>
    rcases next_cases d key part with hd | ⟨hd, hn | ⟨target, hl⟩ | ⟨node, hn, hl⟩⟩
    · rw [resolveParts_not_directory hd] at hr
      cases hr
    · rw [resolveParts_none hd hn] at hr
      cases hr
    · have hd' := h.get?_of_not_file _ _ hd (by simp)
      rw [resolveParts_link hd hl] at hr
      rw [resolveParts_link hd' (h.get?_of_not_file _ _ hl (by simp))]
      split at hr
      · cases hr
      · next found hs =>
        obtain ⟨node, hs'⟩ := h.exists_stat hs
        rw [hs']
        exact hj _ _ hr
    · have hd' := h.get?_of_not_file _ _ hd (by simp)
      obtain ⟨node', hn', hl'⟩ := h.exists_node hn hl
      rw [resolveParts_node hd hn hl] at hr
      rw [resolveParts_node hd' hn' hl']
      exact ih hr

theorem Keeps.resolve (h : Keeps d e) (hr : d.resolve links key parts = .ok k) :
    e.resolve links key parts = .ok k := by
  induction links generalizing key parts with
  | zero => exact h.resolveParts (fun _ _ hj => by cases hj) hr
  | succ links ih => exact h.resolveParts (fun _ _ hj => ih hj) hr

def missing (key : Key) : DiskError := .on "lstat" (Path.ofKey key) .noEntry

theorem eq_of_missing {errno : Errno} (hk : ∀ part ∈ k, Path.IsPlain part)
    (hp : ∀ part ∈ key, Path.IsPlain part)
    (h : DiskError.on "lstat" (Path.ofKey key) errno = missing k) : key = k := by
  have herrno : errno = .noEntry := by
    cases errno <;> first | rfl | cases congrArg DiskError.errno h
  rw [herrno, missing, DiskError.on, DiskError.on] at h
  simp only [reduceCtorEq, if_false, DiskError.mk.injEq, true_and, String.append_left_inj,
    String.append_right_inj] at h
  exact Path.ofKey_inj hp hk h

theorem stat_ne_missing (path : String) (errno : Errno) :
    DiskError.on "stat" path errno ≠ missing k := by
  intro h
  have herrno : errno = .noEntry := by
    cases errno <;> first | rfl | cases congrArg DiskError.errno h
  have haction := congrArg (fun e : DiskError => e.action.toList.head?) h
  simp [herrno, missing, DiskError.on] at haction

structure FreeName (d : Disk) (key : Key) : Prop where
  plain : ∀ part ∈ key, Path.IsPlain part
  above : d.Real key.dropLast
  free : d.get? key = none

theorem FreeName.find_eq {r : Found} (h : d.FreeName key) (hg : d.Way d.cwd)
    (hf : d.find follow (Path.ofKey key) = .ok r) : r = d.foundAt key := by
  have hlinks : ∀ above, above <+: key → ∀ target, d.get? above ≠ some (.link target) := by
    intro above ha target
    by_cases hne : above = key
    · simp [hne, h.free]
    · refine h.above.not_link ?_ target
      have hkey : key ≠ [] := by
        rintro rfl
        have hfree := h.free
        simp [get?] at hfree
      rw [← List.dropLast_concat_getLast hkey, List.prefix_concat_iff,
        List.dropLast_concat_getLast hkey] at ha
      exact ha.resolve_left hne
  have hr := find_eq_foundAt_toKey hg (linkFree_ofKey h.plain hlinks) hf
  rwa [toKey_ofKey hg h.plain] at hr

/-- The answer where nothing was found at the key, once a file may have been put there. -/
def Retried (k : Key) (answer : Except DiskError Key) : Prop :=
  answer = .error (missing k) ∨ answer = .ok k ∨ ∃ err, answer = .error err ∧ err.errno ≠ .noEntry

theorem Keeps.resolveParts_missing (h : Keeps d e)
    (hfile : e.get? k = none ∨ ∃ data mode, e.get? k = some (.file data mode))
    (hk : d.Real key) (hp : ∀ p ∈ parts, Path.IsPlain p) (hplain : ∀ part ∈ k, Path.IsPlain part)
    (hj : ∀ path parts, (∀ p ∈ parts, Path.IsPlain p) → jump path parts = .error (missing k) →
      d.FreeName k ∧ Retried k (jump' path parts))
    (hr : d.resolveParts jump key parts = .error (missing k)) :
    d.FreeName k ∧ Retried k (e.resolveParts jump' key parts) := by
  induction parts generalizing key with
  | nil => cases hr
  | cons part rest ih =>
    have hrest : ∀ p ∈ rest, Path.IsPlain p := fun p hm => hp p (by simp [hm])
    have hpart := plain_snoc hk.plain (hp part (by simp))
    rcases next_cases d key part with hd | ⟨hd, hn | ⟨target, hl⟩ | ⟨node, hn, hl⟩⟩
    · rw [resolveParts_not_directory hd] at hr
      cases congrArg DiskError.errno (Except.error.inj hr)
    · have hd' := h.get?_of_not_file _ _ hd (by simp)
      rw [resolveParts_none hd hn] at hr
      obtain rfl := eq_of_missing hplain hpart (Except.error.inj hr)
      refine ⟨⟨hpart, by simpa using hk, hn⟩, ?_⟩
      rcases hfile with hnone | ⟨data, mode, hf⟩
      · exact .inl ((resolveParts_none hd' hnone).trans hr)
      · rw [resolveParts_node hd' hf (by simp)]
        cases rest with
        | nil => exact .inr (.inl rfl)
        | cons next rest =>
          rw [resolveParts_not_directory (by simp [hf])]
          exact .inr (.inr ⟨_, rfl, by simp [DiskError.on]⟩)
    · have hd' := h.get?_of_not_file _ _ hd (by simp)
      rw [resolveParts_link hd hl] at hr
      rw [resolveParts_link hd' (h.get?_of_not_file _ _ hl (by simp))]
      split at hr
      · exact absurd (Except.error.inj hr) (stat_ne_missing _ _)
      · next found hs =>
        obtain ⟨node, hs'⟩ := h.exists_stat hs
        rw [hs']
        exact hj _ _ (jump_parts hk.plain hrest target) hr
    · have hd' := h.get?_of_not_file _ _ hd (by simp)
      obtain ⟨node', hn', hl'⟩ := h.exists_node hn hl
      rw [resolveParts_node hd hn hl] at hr
      rw [resolveParts_node hd' hn' hl']
      exact ih (hk.snoc hd (hp part (by simp)) hn hl) hrest hr

theorem Keeps.resolve_missing (h : Keeps d e)
    (hfile : e.get? k = none ∨ ∃ data mode, e.get? k = some (.file data mode))
    (hk : d.Real key) (hp : ∀ p ∈ parts, Path.IsPlain p) (hplain : ∀ part ∈ k, Path.IsPlain part)
    (hr : d.resolve links key parts = .error (missing k)) :
    d.FreeName k ∧ Retried k (e.resolve links key parts) := by
  induction links generalizing key parts with
  | zero =>
    refine h.resolveParts_missing hfile hk hp hplain (fun path _ _ hj => ?_) hr
    exact absurd (Except.error.inj hj) (stat_ne_missing path _)
  | succ links ih =>
    exact h.resolveParts_missing hfile hk hp hplain (fun _ _ hp' hj => ih (Real.nil d) hp' hj) hr

end Resolve

section RealPath

variable {real : String}

theorem realPath_eq (h : hasZero path = false) :
    d.realPath path = (d.resolve (linkLimit * ((Path.toKey d.cwd path).length + 1)) []
      (Path.toKey d.cwd path)).map Path.ofKey := by
  simp only [realPath, h, Bool.false_eq_true, if_false]

theorem realPath_cases (d : Disk) (path : String) :
    (hasZero path = true ∧ d.realPath path = .error (.on "lstat" path .zeroByte)) ∨
      hasZero path = false := by
  cases hz : hasZero path with
  | true => exact .inl ⟨rfl, by simp [realPath, hz]⟩
  | false => exact .inr rfl

theorem real_of_realPath (hg : d.Way d.cwd) (h : d.realPath path = .ok real) :
    ∃ key, real = Path.ofKey key ∧ d.Real key := by
  rcases realPath_cases d path with ⟨-, he⟩ | hz
  · cases he.symm.trans h
  · rw [realPath_eq hz] at h
    cases hr : d.resolve (linkLimit * ((Path.toKey d.cwd path).length + 1)) []
        (Path.toKey d.cwd path) with
    | error err =>
      rw [hr] at h
      cases h
    | ok key =>
      rw [hr] at h
      exact ⟨key, (Except.ok.inj h).symm, real_of_resolve (Real.nil d) (plain_toKey hg path) hr⟩

theorem Keeps.realPath (h : Keeps d e) (hr : d.realPath path = .ok real) :
    e.realPath path = .ok real := by
  rcases realPath_cases d path with ⟨-, he⟩ | hz
  · cases he.symm.trans hr
  · rw [realPath_eq hz] at hr ⊢
    rw [h.cwd_eq]
    cases hkey : d.resolve (linkLimit * ((Path.toKey d.cwd path).length + 1)) []
        (Path.toKey d.cwd path) with
    | error err =>
      rw [hkey] at hr
      cases hr
    | ok key =>
      rw [hkey] at hr
      rw [h.resolve hkey]
      exact hr

theorem Keeps.realPath_missing (h : Keeps d e) (hg : d.Way d.cwd)
    (hfile : e.get? k = none ∨ ∃ data mode, e.get? k = some (.file data mode))
    (hplain : ∀ part ∈ k, Path.IsPlain part) (hr : d.realPath path = .error (missing k)) :
    d.FreeName k ∧ (e.realPath path = .error (missing k) ∨ e.realPath path = .ok (Path.ofKey k) ∨
      ∃ err, e.realPath path = .error err ∧ err.errno ≠ .noEntry) := by
  rcases realPath_cases d path with ⟨-, he⟩ | hz
  · cases congrArg DiskError.errno (Except.error.inj (he.symm.trans hr))
  · rw [realPath_eq hz] at hr ⊢
    rw [h.cwd_eq]
    cases hkey : d.resolve (linkLimit * ((Path.toKey d.cwd path).length + 1)) []
        (Path.toKey d.cwd path) with
    | ok key =>
      rw [hkey] at hr
      cases hr
    | error err =>
      rw [hkey] at hr
      obtain rfl := Except.error.inj hr
      obtain ⟨hfree, hretried⟩ :=
        h.resolve_missing hfile (Real.nil d) (plain_toKey hg path) hplain hkey
      refine ⟨hfree, ?_⟩
      rcases hretried with hx | hx | ⟨err, hx, hne⟩
      · exact .inl (by rw [hx]; rfl)
      · exact .inr (.inl (by rw [hx]; rfl))
      · exact .inr (.inr ⟨err, by rw [hx]; rfl, hne⟩)

/-- The path leads to the key on the disk, and is resolved to it as a text. -/
inductive Resolves (d : Disk) (path : String) (key : Key) : Prop
  | entry {node : Node} (found : d.stat path = .ok (key, node))
    (resolved : d.realPath path = .ok (Path.ofKey key))
  | free (found : d.find false path = .ok (.free key))
    (resolved : d.realPath path = .error (missing key))

/-- If the path leads anywhere, on the disk or as a text, it leads to one place in both ways. So it is
no link that leads nowhere. -/
def Settled (d : Disk) (path : String) : Prop :=
  ((∃ real, d.realPath path = .ok real) ∨ ∃ r, d.find false path = .ok r) → ∃ key, d.Resolves path key

theorem Resolves.settled (h : d.Resolves path key) : d.Settled path := fun _ => ⟨key, h⟩

theorem Resolves.unique {other : Key} (h : d.Resolves path key) (h' : d.Resolves path other) :
    key = other := by
  cases h with
  | entry hf hr =>
    cases h' with
    | entry hf' _ => exact congrArg Prod.fst (Except.ok.inj (hf.symm.trans hf'))
    | free _ hr' => cases hr.symm.trans hr'
  | free hf hr =>
    cases h' with
    | entry _ hr' => cases hr.symm.trans hr'
    | free hf' _ => exact Found.free.inj (Except.ok.inj (hf.symm.trans hf'))

/-- A path that leads to an entry resolves to the place of that entry. -/
theorem Resolves.of_stat {node : Node} (h : d.Resolves path key) (hs : d.stat path = .ok (k, node)) :
    k = key ∧ d.realPath path = .ok (Path.ofKey key) := by
  cases h with
  | entry hs' hr =>
    obtain ⟨rfl, -⟩ := Prod.mk.inj (Except.ok.inj (hs.symm.trans hs'))
    exact ⟨rfl, hr⟩
  | free hf hr =>
    obtain ⟨_, hb, hn, he, rfl, hnone⟩ := of_find_eq_free hf
    rw [stat_eq_ok_iff, find_eq_foundAt (accepted_of_find hf) hb hn he (.inr (by simp [hnone])),
      foundAt, hnone] at hs
    cases hs

theorem real_of_stat {node : Node} (hg : d.Way d.cwd) (hs : d.stat path = .ok (key, node))
    (hr : d.realPath path = .ok (Path.ofKey key)) : d.Real key := by
  obtain ⟨other, he, hreal⟩ := real_of_realPath hg hr
  have hplain : ∀ part ∈ key, Path.IsPlain part := plain_of_find hg (stat_eq_ok_iff.1 hs)
  rwa [Path.ofKey_inj hplain hreal.plain he]

theorem Resolves.not_link (hg : d.Way d.cwd) (h : d.Resolves path key) (target : String) :
    d.get? key ≠ some (.link target) := by
  cases h with
  | entry hs hr => exact (real_of_stat hg hs hr).not_link (List.prefix_refl _) target
  | free hf _ =>
    obtain ⟨_, -, -, -, -, hn⟩ := of_find_eq_free hf
    simp [hn]

theorem leads_of_realPath (hg : d.Way d.cwd) (h : d.realPath path = .ok (Path.ofKey key))
    (hreal : d.Real key) : d.Leads path key := by
  intro keys e target r hsc hto hf
  rw [targetOf, hsc.keeps.realPath h] at hto
  obtain rfl := Except.ok.inj hto
  exact hreal.find_eq hg hf

theorem leads_of_resolves (hg : d.Way d.cwd) (h : d.Resolves path key) : d.Leads path key := by
  cases h with
  | entry hs hr => exact leads_of_realPath hg hr (real_of_stat hg hs hr)
  | free hfree hr =>
    intro keys e target r hsc hto hf
    obtain ⟨-, -, -, -, -, hnone⟩ := of_find_eq_free hfree
    have hplain : ∀ part ∈ key, Path.IsPlain part := plain_of_find hg hfree
    have hfile : e.get? key = none ∨ ∃ data mode, e.get? key = some (.file data mode) := by
      by_cases hk : key ∈ keys
      · exact hsc.get?_mem key hk
      · exact .inl ((hsc.get?_eq hk).trans hnone)
    obtain ⟨hname, hcases⟩ := hsc.keeps.realPath_missing hg hfile hplain hr
    rw [targetOf] at hto
    rcases hcases with he | he | ⟨err, he, hne⟩
    · rw [he] at hto
      obtain rfl := Except.ok.inj hto
      rw [hfree] at hf
      rw [← Except.ok.inj hf, foundAt, hnone]
    · -- a temporary file stands there by now
      rw [he] at hto
      obtain rfl := Except.ok.inj hto
      exact hname.find_eq hg hf
    · rw [he] at hto
      simp [hne] at hto

end RealPath

end HashedLiterals.Disk
