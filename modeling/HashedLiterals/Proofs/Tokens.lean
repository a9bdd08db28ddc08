import HashedLiterals.Scan

set_option autoImplicit false

namespace HashedLiterals

namespace Bytes

/-- Nothing, or a byte outside words, stands before the offset. -/
def WordStart (text : Bytes) (i : Nat) : Prop := i = 0 ∨ ∃ b ∈ text[i - 1]?, isAlnum b = false

instance (text : Bytes) (i : Nat) : Decidable (text.WordStart i) :=
  inferInstanceAs (Decidable (i = 0 ∨ ∃ b ∈ text[i - 1]?, isAlnum b = false))

def Parted (text : Bytes) : Prop := text.WordStart text.length

instance (text : Bytes) : Decidable text.Parted := inferInstanceAs (Decidable (text.WordStart _))

/-- No word runs from the first text into the second. -/
def Cut (x y : Bytes) : Prop := x.Parted ∨ ∀ b ∈ y.head?, isAlnum b = false

/-- No token runs from the first text into the second. -/
def Apart (x y : Bytes) : Prop := x.Parted ∨ ∀ b ∈ y.head?, isAlnum b = false ∧ b ≠ openParen

theorem isAlnum_of_isSpace {b : UInt8} (h : isSpace b = true) : isAlnum b = false := by
  simp only [isSpace, isAlnum, Bool.or_eq_true, Bool.and_eq_true, decide_eq_true_eq, beq_iff_eq,
    Bool.or_eq_false_iff, Bool.and_eq_false_iff, decide_eq_false_iff_not, UInt8.le_iff_toNat_le,
    ← UInt8.toNat_inj, UInt8.reduceToNat] at h ⊢
  omega

@[simp] theorem wordStart_zero (text : Bytes) : text.WordStart 0 := .inl rfl

theorem wordStart_succ (text : Bytes) (i : Nat) :
    text.WordStart (i + 1) ↔ ∃ b ∈ text[i]?, isAlnum b = false := by simp [WordStart]

theorem wordStart_append_left {x y : Bytes} {i : Nat} (h : i ≤ x.length) :
    (x ++ y).WordStart i ↔ x.WordStart i := by
  cases i with
  | zero => simp
  | succ i => rw [wordStart_succ, wordStart_succ, List.getElem?_append_left h]

theorem wordStart_append_length (x y : Bytes) : (x ++ y).WordStart x.length ↔ x.Parted :=
  wordStart_append_left (Nat.le_refl _)

theorem wordStart_append_succ (x y : Bytes) (i : Nat) :
    (x ++ y).WordStart (x.length + (i + 1)) ↔ y.WordStart (i + 1) := by
  have h : (x ++ y)[x.length + i]? = y[i]? := by
    rw [List.getElem?_append_right (Nat.le_add_right _ _), Nat.add_sub_cancel_left]
  rw [← Nat.add_assoc, wordStart_succ, wordStart_succ, h]

theorem wordStart_append_right {x y : Bytes} {i : Nat} (h : x.Parted) :
    (x ++ y).WordStart (x.length + i) ↔ y.WordStart i := by
  cases i with
  | zero => exact iff_of_true ((wordStart_append_length x y).2 h) (wordStart_zero y)
  | succ i => exact wordStart_append_succ x y i

@[simp] theorem parted_nil : Parted [] := wordStart_zero []

@[simp] theorem parted_concat (x : Bytes) (b : UInt8) : Parted (x ++ [b]) ↔ isAlnum b = false := by
  simp [Parted, wordStart_succ]

theorem parted_append {x y : Bytes} (hy : y ≠ []) : Parted (x ++ y) ↔ y.Parted := by
  obtain ⟨y, b, rfl⟩ := List.eq_nil_or_concat y |>.resolve_left hy
  rw [List.concat_eq_append, ← List.append_assoc, parted_concat, parted_concat]

theorem Parted.append {x y : Bytes} (hx : x.Parted) (hy : y.Parted) : Parted (x ++ y) := by
  by_cases h : y = []
  · simpa [h] using hx
  · exact (parted_append h).2 hy

theorem Apart.cut {x y : Bytes} (h : Apart x y) : Cut x y := h.imp_right fun hy b hb => (hy b hb).1

theorem Cut.of_append {x y z : Bytes} (h : Cut x (y ++ z)) : Cut x y := by
  refine h.imp_right fun hy b hb => hy b ?_
  cases y with
  | nil => simp at hb
  | cons c rest => simpa using hb

end Bytes

namespace Marker

/-- The marker's token stands at an offset where a word can start. -/
def TokenAt (m : Marker) (text : Bytes) (i : Nat) : Prop :=
  text.WordStart i ∧ m.token <+: text.drop i

instance (m : Marker) (text : Bytes) (i : Nat) : Decidable (m.TokenAt text i) :=
  inferInstanceAs (Decidable (text.WordStart i ∧ m.token <+: text.drop i))

/-- The text holds no token. -/
def Absent (m : Marker) (text : Bytes) : Prop := ∀ i, ¬ m.TokenAt text i

variable {m : Marker} {x y text : Bytes} {i : Nat}

theorem token_ne_nil (m : Marker) : m.token ≠ [] := by simp [token]

theorem head_token (m : Marker) : ∃ b rest, m.token = b :: rest ∧ Bytes.isAlnum b = true := by
  obtain ⟨name, hne, hall⟩ := m
  cases name with
  | nil => exact absurd rfl hne
  | cons b rest => exact ⟨b, rest ++ [Bytes.openParen], rfl, hall b List.mem_cons_self⟩

theorem isAlnum_of_getElem?_token {j : Nat} {b : UInt8} (h : m.token[j]? = some b)
    (hj : j < m.name.length) : Bytes.isAlnum b = true := by
  rw [token, List.getElem?_append_left hj] at h
  exact m.isAlnum_of_mem b (List.mem_of_getElem? h)

theorem isAlnum_or_of_mem_token {b : UInt8} (h : b ∈ m.token) :
    Bytes.isAlnum b = true ∨ b = Bytes.openParen := by
  rw [token, List.mem_append, List.mem_singleton] at h
  exact h.imp_left (m.isAlnum_of_mem b)

theorem TokenAt.lt_length (h : m.TokenAt text i) : i < text.length := by
  have hl := h.2.length_le
  rw [length_token, List.length_drop] at hl
  omega

theorem TokenAt.openParen_mem (h : m.TokenAt text i) : Bytes.openParen ∈ text :=
  List.mem_of_mem_drop (h.2.subset (by simp [token]))

instance (m : Marker) (text : Bytes) : Decidable (m.Absent text) :=
  decidable_of_iff (∀ i < text.length, ¬ m.TokenAt text i)
    ⟨fun h i hi => h i hi.lt_length hi, fun h i _ => h i⟩

theorem isAlnum_head_of_token_prefix (h : m.token <+: y) :
    ∃ b ∈ y.head?, Bytes.isAlnum b = true := by
  obtain ⟨b, rest, hb, ha⟩ := m.head_token
  obtain ⟨more, rfl⟩ := h
  exact ⟨b, by simp [hb], ha⟩

theorem parted_of_cut (h : Bytes.Cut x y) (hp : m.token <+: y) : x.Parted := by
  refine h.resolve_right fun hy => ?_
  obtain ⟨b, hb, ha⟩ := isAlnum_head_of_token_prefix hp
  simp [hy b hb] at ha

theorem tokenAt_append_right (h : Bytes.Cut x y) :
    m.TokenAt (x ++ y) (x.length + i) ↔ m.TokenAt y i := by
  unfold TokenAt
  rw [List.drop_length_add_append]
  refine and_congr_left fun hp => ?_
  cases i with
  | zero =>
    rw [Nat.add_zero, Bytes.wordStart_append_length]
    exact iff_of_true (parted_of_cut h hp) (Bytes.wordStart_zero y)
  | succ i => exact Bytes.wordStart_append_succ x y i

theorem tokenAt_append_left (h : Bytes.Apart x y) (hi : i < x.length) :
    m.TokenAt (x ++ y) i ↔ m.TokenAt x i := by
  unfold TokenAt
  rw [Bytes.wordStart_append_left (Nat.le_of_lt hi), List.drop_append_of_le_length (Nat.le_of_lt hi)]
  refine and_congr_right fun _ => ⟨fun hp => ?_, fun hp => hp.trans (List.prefix_append _ _)⟩
  by_cases hl : m.token.length ≤ (x.drop i).length
  · exact List.prefix_of_prefix_length_le hp (List.prefix_append _ _) hl
  exfalso
  have hlen : (x.drop i).length = x.length - i := List.length_drop
  obtain hx | hy := h
  · obtain ⟨b, hb, ha⟩ : ∃ b ∈ x[x.length - 1]?, Bytes.isAlnum b = false :=
      hx.resolve_left (by omega)
    have hd : x.drop i <+: m.token :=
      List.prefix_of_prefix_length_le (List.prefix_append _ _) hp (by omega)
    have ht : m.token[x.length - 1 - i]? = some b := by
      obtain ⟨more, hm⟩ := hd
      rw [← hm, List.getElem?_append_left (by omega), List.getElem?_drop]
      rw [show i + (x.length - 1 - i) = x.length - 1 by omega]
      exact hb
    have := isAlnum_of_getElem?_token ht (by rw [length_token] at hl; omega)
    simp [ha] at this
  · obtain ⟨more, hm⟩ := hp
    have hb : m.token[x.length - i]? = y.head? := by
      have := congrArg (·[x.length - i]?) hm
      rw [List.getElem?_append_left (by omega), List.getElem?_append_right (by omega)] at this
      simpa [hlen, List.head?_eq_getElem?] using this
    have hlt : x.length - i < m.token.length := by omega
    rw [List.getElem?_eq_getElem hlt] at hb
    obtain ⟨ha, hp⟩ := hy _ hb.symm
    obtain h | h := isAlnum_or_of_mem_token (List.getElem_mem hlt)
    · simp [ha] at h
    · exact hp h

theorem tokenAt_append_token (m : Marker) (h : x.Parted) (after : Bytes) :
    m.TokenAt (x ++ (m.token ++ after)) x.length :=
  ⟨(Bytes.wordStart_append_length _ _).2 h, by simp⟩

theorem le_of_tokenAt (hp : x.Parted) (ha : m.Absent x) (h : m.TokenAt (x ++ y) i) :
    x.length ≤ i :=
  Nat.le_of_not_lt fun hi => ha i ((tokenAt_append_left (.inl hp) hi).1 h)

theorem eq_of_first_token {x₁ x₂ y₁ y₂ : Bytes}
    (h : x₁ ++ (m.token ++ y₁) = x₂ ++ (m.token ++ y₂)) (hp₁ : x₁.Parted) (ha₁ : m.Absent x₁)
    (hp₂ : x₂.Parted) (ha₂ : m.Absent x₂) : x₁ = x₂ ∧ y₁ = y₂ := by
  have h₁ := m.tokenAt_append_token hp₁ y₁
  have h₂ := m.tokenAt_append_token hp₂ y₂
  rw [h] at h₁
  rw [← h] at h₂
  have hl : x₁.length = x₂.length :=
    Nat.le_antisymm (le_of_tokenAt hp₁ ha₁ h₂) (le_of_tokenAt hp₂ ha₂ h₁)
  obtain ⟨hx, hy⟩ := List.append_inj h hl
  exact ⟨hx, List.append_cancel_left hy⟩

theorem TokenAt.append (h : m.TokenAt x i) (y : Bytes) : m.TokenAt (x ++ y) i := by
  have hi := Nat.le_of_lt h.lt_length
  refine ⟨(Bytes.wordStart_append_left hi).2 h.1, ?_⟩
  rw [List.drop_append_of_le_length hi]
  exact h.2.trans (List.prefix_append _ _)

/-- Where none can run across, the tokens of a text are those of its parts. -/
theorem tokenAt_append (h : Bytes.Apart x y) :
    m.TokenAt (x ++ y) i ↔ m.TokenAt x i ∨ ∃ j, i = x.length + j ∧ m.TokenAt y j := by
  by_cases hi : i < x.length
  · rw [tokenAt_append_left h hi]
    refine ⟨.inl, fun ht => ht.resolve_right ?_⟩
    rintro ⟨j, rfl, -⟩
    omega
  · obtain ⟨j, rfl⟩ := Nat.exists_eq_add_of_le (Nat.le_of_not_lt hi)
    rw [tokenAt_append_right h.cut]
    refine ⟨fun ht => .inr ⟨j, rfl, ht⟩, ?_⟩
    rintro (ht | ⟨k, hk, ht⟩)
    · exact absurd ht.lt_length hi
    · rwa [Nat.add_left_cancel hk]

theorem tokenAt_append_of_absent (h : Bytes.Apart x y) (hx : m.Absent x) :
    m.TokenAt (x ++ y) i ↔ ∃ j, i = x.length + j ∧ m.TokenAt y j := by
  rw [tokenAt_append h, or_iff_right (hx i)]

theorem absent_of_openParen_not_mem (h : Bytes.openParen ∉ text) : m.Absent text :=
  fun _ ht => h ht.openParen_mem

@[simp] theorem absent_nil (m : Marker) : m.Absent [] :=
  fun i h => absurd h.lt_length (Nat.not_lt_zero i)

theorem absent_append (h : Bytes.Cut x y) :
    m.Absent (x ++ y) ↔ (∀ i < x.length, ¬ m.TokenAt (x ++ y) i) ∧ m.Absent y := by
  refine ⟨fun ha => ⟨fun i _ => ha i, fun i hi => ha _ ((tokenAt_append_right h).2 hi)⟩,
    fun ⟨hx, hy⟩ i hi => ?_⟩
  by_cases hl : i < x.length
  · exact hx i hl hi
  · obtain ⟨j, rfl⟩ := Nat.exists_eq_add_of_le (Nat.le_of_not_lt hl)
    exact hy j ((tokenAt_append_right h).1 hi)

end Marker

namespace Scan

variable {m : Marker} {input before after : Bytes}

/-- What is copied at once: bytes outside words, or a whole word that is no token. -/
theorem step_copy_cases {n : Nat} (h : step m input = .copy n) :
    ∃ unit rest, input = unit ++ rest ∧ unit.length = n ∧
      ((∀ b ∈ unit, Bytes.isAlnum b = false) ∨
        (∀ b ∈ unit, Bytes.isAlnum b = true) ∧ (∀ b ∈ rest.head?, Bytes.isAlnum b = false) ∧
          ¬ m.token <+: input) := by
  cases input with
  | nil => simp [step] at h
  | cons b rest =>
    simp only [step] at h
    split at h
    · next hb =>
      refine ⟨b :: rest.takeWhile Bytes.isSpace, rest.dropWhile Bytes.isSpace, by simp, ?_, .inl ?_⟩
      · simpa [Nat.add_comm] using h
      · intro c hc
        obtain rfl | hc := List.mem_cons.1 hc
        · exact Bytes.isAlnum_of_isSpace hb
        · exact Bytes.isAlnum_of_isSpace (List.all_eq_true.1 List.all_takeWhile c hc)
    · split at h
      · next hb => exact ⟨[b], rest, by simp, by simpa using h, .inl (by simpa using hb)⟩
      · split at h
        · simp at h
        · next hb hp =>
          have hb : Bytes.isAlnum b = true := by simpa using hb
          refine ⟨b :: rest.takeWhile Bytes.isAlnum, rest.dropWhile Bytes.isAlnum, by simp, ?_,
            .inr ⟨?_, ?_, by rwa [← List.isPrefixOf_iff_prefix]⟩⟩
          · simpa [Nat.add_comm] using h
          · intro c hc
            obtain rfl | hc := List.mem_cons.1 hc
            · exact hb
            · exact List.all_eq_true.1 List.all_takeWhile c hc
          · intro c hc
            have := List.head?_dropWhile_not Bytes.isAlnum rest
            rw [Option.mem_def.1 hc] at this
            exact this

/-- No word runs across the end of what is copied at once, and no token stands in it. -/
theorem step_copy_spec {n : Nat} (h : step m input = .copy n) :
    ∃ unit rest, input = unit ++ rest ∧ unit.length = n ∧ Bytes.Cut unit rest ∧
      ∀ i < n, ¬ m.TokenAt input i := by
  have hn := (step_eq_copy h).1
  obtain ⟨unit, rest, rfl, rfl, hout | ⟨hin, hrest, hp⟩⟩ := step_copy_cases h
  · refine ⟨unit, rest, rfl, rfl, .inl (.inr ?_), fun i hi ht => ?_⟩
    · have hb : unit[unit.length - 1]? = some (unit[unit.length - 1]) :=
        List.getElem?_eq_getElem (by omega)
      exact ⟨_, hb, hout _ (List.mem_of_getElem? hb)⟩
    · obtain ⟨b, hb, ha⟩ := Marker.isAlnum_head_of_token_prefix ht.2
      have : unit[i]? = some b := by simpa [List.getElem?_append_left hi] using hb
      simp [hout b (List.mem_of_getElem? this)] at ha
  · refine ⟨unit, rest, rfl, rfl, .inr hrest, fun i hi ht => ?_⟩
    cases i with
    | zero => exact hp ht.2
    | succ i =>
      obtain ⟨b, hb, ha⟩ := (Bytes.wordStart_succ _ i).1 ht.1
      rw [List.getElem?_append_left (by omega)] at hb
      simp [hin b (List.mem_of_getElem? hb)] at ha

theorem step_eq_finished (h : step m input = .finished) : input = [] := by
  cases input with
  | nil => rfl
  | cons b rest =>
    simp only [step] at h
    repeat' split at h
    all_goals simp at h

theorem token_prefix_of_step (h : step m input = .token) : m.token <+: input := by
  cases input with
  | nil => simp [step] at h
  | cons b rest =>
    simp only [step] at h
    repeat' split at h
    any_goals simp at h
    exact List.isPrefixOf_iff_prefix.1 ‹_›

theorem gap_eq_none (h : (gap m input).2 = none) : (gap m input).1 = input ∧ m.Absent input := by
  fun_induction gap m input with
  | case1 input hs =>
    rw [step_eq_finished hs]
    exact ⟨rfl, m.absent_nil⟩
  | case2 input hs => simp at h
  | case3 input n hs hp ih =>
    obtain ⟨unit, rest, rfl, rfl, hcut, hno⟩ := step_copy_spec hs
    rw [List.drop_left] at ih h ⊢
    obtain ⟨hg, habs⟩ := ih h
    exact ⟨by rw [hg, List.take_left], (Marker.absent_append hcut).2 ⟨hno, habs⟩⟩

theorem gap_eq_some (h : (gap m input).2 = some after) :
    input = (gap m input).1 ++ (m.token ++ after) ∧ (gap m input).1.Parted ∧
      m.Absent (gap m input).1 := by
  fun_induction gap m input with
  | case1 input hs => simp at h
  | case2 input hs =>
    obtain ⟨rest, rfl⟩ := token_prefix_of_step hs
    simp only [List.drop_left, Option.some.injEq] at h
    exact ⟨by simp [h], Bytes.parted_nil, m.absent_nil⟩
  | case3 input n hs hp ih =>
    obtain ⟨unit, rest, rfl, rfl, hcut, hno⟩ := step_copy_spec hs
    rw [List.drop_left] at ih h ⊢
    rw [List.take_left]
    obtain ⟨hr, hparted, habs⟩ := ih h
    refine ⟨by rw [List.append_assoc, ← hr], ?_, ?_⟩
    · by_cases hb : (gap m rest).1 = []
      · rw [hb, List.nil_append] at hr
        rw [hb, List.append_nil]
        exact Marker.parted_of_cut hcut (hr ▸ List.prefix_append _ _)
      · exact (Bytes.parted_append hb).2 hparted
    · refine (Marker.absent_append (Bytes.Cut.of_append (hr ▸ hcut))).2 ⟨fun i hi ht => ?_, habs⟩
      refine hno i hi ?_
      rw [hr, ← List.append_assoc]
      exact ht.append _

theorem gap_of_absent (h : m.Absent input) : gap m input = (input, none) := by
  cases hg : (gap m input).2 with
  | none => exact Prod.ext (gap_eq_none hg).1 hg
  | some after =>
    obtain ⟨hi, hp, -⟩ := gap_eq_some hg
    have ht := m.tokenAt_append_token hp after
    rw [← hi] at ht
    exact absurd ht (h _)

theorem gap_of_token (hp : before.Parted) (ha : m.Absent before) (after : Bytes) :
    gap m (before ++ (m.token ++ after)) = (before, some after) := by
  have ht := m.tokenAt_append_token hp after
  cases hg : (gap m (before ++ (m.token ++ after))).2 with
  | none => exact absurd ht ((gap_eq_none hg).2 _)
  | some more =>
    obtain ⟨hi, hq, hb⟩ := gap_eq_some hg
    obtain ⟨hx, hy⟩ := Marker.eq_of_first_token hi hp ha hq hb
    exact Prod.ext hx.symm (by rw [hg, hy])

end Scan

end HashedLiterals
