import HashedLiterals.Collect

set_option autoImplicit false

namespace HashedLiterals

namespace Units

/-- A character is one unit that is no surrogate, or a high surrogate and another unit, which tell its
number. -/
theorem ofChar_cases (c : Char) :
    (ofChar c = [c.toNat] ∧ (c.toNat < 0xd800 ∨ 0xdc00 ≤ c.toNat)) ∨
      ∃ high low, ofChar c = [high, low] ∧ 0xd800 ≤ high ∧ high < 0xdc00 ∧ 0xdc00 ≤ low ∧
        c.toNat = 0x10000 + (high - 0xd800) * 0x400 + (low - 0xdc00) := by
  have hvalid : c.toNat < 0xd800 ∨ 0xdfff < c.toNat ∧ c.toNat < 0x110000 := c.valid
  rw [ofChar]
  split
  · exact .inl ⟨rfl, by omega⟩
  · exact .inr ⟨_, _, rfl, by omega, by omega, by omega, by omega⟩

theorem flatMap_ofChar_injective {cs ds : List Char} (h : cs.flatMap ofChar = ds.flatMap ofChar) :
    cs = ds := by
  have hne (c : Char) : ofChar c ≠ [] := by
    rw [ofChar]
    split <;> simp
  induction cs generalizing ds with
  | nil =>
    cases ds with
    | nil => rfl
    | cons d ds => simp [hne d] at h
  | cons c cs ih =>
    cases ds with
    | nil => simp [hne c] at h
    | cons d ds =>
      rw [List.flatMap_cons, List.flatMap_cons] at h
      obtain ⟨hc, hcr⟩ | ⟨high, low, hc, hlo, hhi, hlow, hnum⟩ := ofChar_cases c <;>
        obtain ⟨hd, hdr⟩ | ⟨high', low', hd, hlo', hhi', hlow', hnum'⟩ := ofChar_cases d <;>
        rw [hc, hd] at h
      · obtain ⟨heq, hrest⟩ := List.cons_eq_cons.1 h
        rw [Char.toNat_inj.1 heq, ih hrest]
      · obtain ⟨heq, -⟩ := List.cons_eq_cons.1 h
        omega
      · obtain ⟨heq, -⟩ := List.cons_eq_cons.1 h
        omega
      · obtain ⟨hhigh, htail⟩ := List.cons_eq_cons.1 h
        obtain ⟨hlow'', hrest⟩ := List.cons_eq_cons.1 htail
        have heq : c.toNat = d.toNat := by rw [hnum, hnum', hhigh, hlow'']
        rw [Char.toNat_inj.1 heq, ih hrest]

theorem ofText_injective {s t : String} (h : ofText s = ofText t) : s = t :=
  String.toList_inj.1 (flatMap_ofChar_injective h)

/-- The units of one text stand before those of another in the order of lists. -/
def Before (s t : String) : Prop := List.Lex (· < ·) (ofText s) (ofText t)

theorem le_iff (s t : String) : le s t = true ↔ ¬ Before t s := by
  rw [le, Bool.not_eq_true', ← Bool.not_eq_true, List.lex_eq_true_iff_lex]
  simp only [Nat.blt_eq, Before]

theorem Before.trans {s t u : String} (h : Before s t) (h' : Before t u) : Before s u :=
  List.lex_trans Nat.lt_trans h h'

theorem Before.asymm {s t : String} (h : Before s t) : ¬ Before t s := List.lex_asymm Nat.lt_asymm h

theorem before_of_le_of_ne {s t : String} (h : le s t = true) (hne : s ≠ t) : Before s t := by
  refine Classical.byContradiction fun hn => hne (ofText_injective ?_)
  exact List.lex_trichotomous (fun x y hxy hyx => by omega) ((le_iff s t).1 h) hn

theorem le_trans {s t u : String} (h : le s t = true) (h' : le t u = true) : le s u = true := by
  by_cases hst : s = t
  · rwa [hst]
  · rw [le_iff] at h' ⊢
    exact fun hus => h' (hus.trans (before_of_le_of_ne h hst))

theorem le_total (s t : String) : (le s t || le t s) = true := by
  rw [Bool.or_eq_true, le_iff, le_iff]
  by_cases h : Before t s
  · exact .inr h.asymm
  · exact .inl h

end Units

namespace Collect

theorem mem_sortNames {entries : List (String × Node)} {x : String × Node} :
    x ∈ sortNames entries ↔ x ∈ entries := (List.mergeSort_perm _ _).mem_iff

theorem pairwise_sortNames {entries : List (String × Node)} (h : (entries.map (·.1)).Nodup) :
    (sortNames entries).Pairwise fun x y => Units.Before x.1 y.1 := by
  have hle : (sortNames entries).Pairwise fun x y => Units.le x.1 y.1 = true := by
    refine List.pairwise_mergeSort (fun x y z hxy hyz => ?_) (fun x y => ?_) entries
    · exact Units.le_trans hxy hyz
    · exact Units.le_total x.1 y.1
  have hne : (sortNames entries).Pairwise fun x y => x.1 ≠ y.1 :=
    List.pairwise_map.1 (((List.mergeSort_perm _ _).map _).nodup_iff.2 h)
  exact (hle.and hne).imp fun h => Units.before_of_le_of_ne h.1 h.2

end Collect

end HashedLiterals
