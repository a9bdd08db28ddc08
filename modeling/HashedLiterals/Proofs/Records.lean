import HashedLiterals.Record
import Mathlib.Data.List.Induction
import Mathlib.Data.List.Nodup

set_option autoImplicit false

namespace HashedLiterals.Record

variable {α : Type} {name n : String} {value v : α} {fields : List (String × α)}

theorem listed_eq_self (h : ∀ f ∈ fields, index? f.1 = none) : listed fields = fields := by
  have hnumbered : (fields.filterMap fun f => (index? f.1).map fun n => (n, f)) = [] :=
    List.filterMap_eq_nil_iff.2 fun f hf => by rw [h f hf, Option.map_none]
  have hnamed : (fields.filter fun f => (index? f.1).isNone) = fields :=
    List.filter_eq_self.2 fun f hf => by rw [h f hf, Option.isNone_none]
  rw [listed, hnumbered, hnamed]
  simp

theorem listed_perm (fields : List (String × α)) : (listed fields).Perm fields := by
  have hnumbered : (fields.filterMap fun f => (index? f.1).map fun n => (n, f)).map Prod.snd =
      fields.filter fun f => (index? f.1).isSome := by
    induction fields with
    | nil => rfl
    | cons f fields ih => cases hi : index? f.1 <;> simp [hi, ih]
  have hnamed : (fields.filter fun f => (index? f.1).isNone) =
      fields.filter fun f => !(index? f.1).isSome := by
    simp
  rw [listed, hnamed]
  refine (((List.mergeSort_perm _ _).map Prod.snd).append_right _).trans ?_
  rw [hnumbered]
  exact List.filter_append_perm _ fields

theorem mem_listed {field : String × α} : field ∈ listed fields ↔ field ∈ fields :=
  (listed_perm fields).mem_iff

theorem nodup_listed (h : (fields.map Prod.fst).Nodup) : ((listed fields).map Prod.fst).Nodup :=
  ((listed_perm fields).map Prod.fst).nodup_iff.2 h

theorem setField_of_not_mem (h : name ∉ fields.map Prod.fst) (value : α) :
    setField name value fields = fields ++ [(name, value)] := by
  induction fields with
  | nil => rfl
  | cons f fields ih =>
    rw [List.map_cons, List.mem_cons, not_or] at h
    rw [setField, if_neg (Ne.symm h.1), ih h.2, List.cons_append]

theorem map_fst_setField (h : name ∈ fields.map Prod.fst) (value : α) :
    (setField name value fields).map Prod.fst = fields.map Prod.fst := by
  induction fields with
  | nil => cases h
  | cons f fields ih =>
    rw [setField]
    split
    · rfl
    · next hne =>
      have hrest : name ∈ fields.map Prod.fst := (List.mem_cons.1 h).resolve_left (Ne.symm hne)
      rw [List.map_cons, List.map_cons, ih hrest]

theorem nodup_setField (h : (fields.map Prod.fst).Nodup) (name : String) (value : α) :
    ((setField name value fields).map Prod.fst).Nodup := by
  by_cases hm : name ∈ fields.map Prod.fst
  · rwa [map_fst_setField hm]
  · rw [setField_of_not_mem hm, List.map_append, List.nodup_append]
    refine ⟨h, by simp, fun a ha b hb hab => hm ?_⟩
    rw [hab, List.mem_singleton.1 hb] at ha
    exact ha

theorem mem_setField_iff (h : (fields.map Prod.fst).Nodup) :
    (n, v) ∈ setField name value fields ↔ if n = name then v = value else (n, v) ∈ fields := by
  induction fields with
  | nil => by_cases hn : n = name <;> simp [setField, hn]
  | cons f fields ih =>
    obtain ⟨k, w⟩ := f
    obtain ⟨hfirst, hrest⟩ := List.nodup_cons.1 h
    have hother : ∀ x, (k, x) ∉ fields := fun x hx => hfirst (List.mem_map.2 ⟨(k, x), hx, rfl⟩)
    rw [setField]
    split
    · next hk =>
      subst hk
      by_cases hn : n = k
      · subst hn
        simp [hother]
      · simp [hn]
    · next hk =>
      rw [List.mem_cons, List.mem_cons, ih hrest]
      by_cases hn : n = name
      · subst hn
        simp [Ne.symm hk]
      · simp [hn]

theorem get?_eq_some_iff {r : Record α} (h : (r.fields.map Prod.fst).Nodup) :
    r.get? n = some v ↔ (n, v) ∈ r.fields := by
  obtain ⟨fields⟩ := r
  rw [get?]
  induction fields with
  | nil => simp
  | cons f fields ih =>
    obtain ⟨k, w⟩ := f
    obtain ⟨hfirst, hrest⟩ := List.nodup_cons.1 h
    have hother : ∀ x, (k, x) ∉ fields := fun x hx => hfirst (List.mem_map.2 ⟨(k, x), hx, rfl⟩)
    rw [List.lookup_cons, List.mem_cons, ← ih hrest]
    by_cases hn : n = k
    · subst hn
      simp [ih hrest, hother, eq_comm]
    · simp [hn, beq_false_of_ne hn]

theorem fields_perm {r r' : Record α} (h : (r.fields.map Prod.fst).Nodup) (h' : (r'.fields.map Prod.fst).Nodup)
    (halike : ∀ name, r.get? name = r'.get? name) : r.fields.Perm r'.fields := by
  refine (List.perm_ext_iff_of_nodup (List.Nodup.of_map _ h) (List.Nodup.of_map _ h')).2 fun field => ?_
  rw [← get?_eq_some_iff h, halike, get?_eq_some_iff h']

theorem nodup_ofPairs (pairs : List (String × α)) : ((ofPairs pairs).fields.map Prod.fst).Nodup :=
  List.foldlRecOn (motive := fun r : Record α => (r.fields.map Prod.fst).Nodup) pairs _ List.nodup_nil
    fun _ hr _ _ => nodup_setField hr _ _

theorem ofPairs_concat (pairs : List (String × α)) (name : String) (value : α) :
    ofPairs (pairs ++ [(name, value)]) = (ofPairs pairs).set name value := by
  rw [ofPairs, List.foldl_append]
  rfl

/-- A pair behind which no other one has its name. -/
def Last (pairs : List (String × α)) (n : String) (v : α) : Prop :=
  ∃ before after, pairs = before ++ (n, v) :: after ∧ ∀ p ∈ after, p.1 ≠ n

theorem last_concat {pairs : List (String × α)} :
    Last (pairs ++ [(name, value)]) n v ↔ if n = name then v = value else Last pairs n v := by
  constructor
  · rintro ⟨before, after, hsplit, hafter⟩
    obtain rfl | ⟨after, p, rfl⟩ := List.eq_nil_or_concat after
    · obtain ⟨-, hp⟩ := List.append_inj' hsplit rfl
      obtain ⟨rfl, rfl⟩ := Prod.mk.inj (List.singleton_inj.1 hp)
      rw [if_pos rfl]
    · rw [List.concat_eq_append, ← List.cons_append, ← List.append_assoc] at hsplit
      obtain ⟨rfl, hp⟩ := List.append_inj' hsplit rfl
      have hne : p.1 ≠ n := hafter p (by simp)
      rw [← List.singleton_inj.1 hp] at hne
      rw [if_neg (Ne.symm hne)]
      exact ⟨before, after, rfl, fun p hp => hafter p (by simp [hp])⟩
  · split
    · next hn =>
      rintro rfl
      exact ⟨pairs, [], by rw [hn], by simp⟩
    · next hn =>
      rintro ⟨before, after, rfl, hafter⟩
      refine ⟨before, after ++ [(name, value)], by simp, fun p hp => ?_⟩
      obtain hp | hp := List.mem_append.1 hp
      · exact hafter p hp
      · rw [List.mem_singleton.1 hp]
        exact Ne.symm hn

theorem exists_last_iff {pairs : List (String × α)} : (∃ v, Last pairs n v) ↔ ∃ v, (n, v) ∈ pairs := by
  induction pairs using List.reverseRecOn with
  | nil => simp [Last]
  | append_singleton pairs p ih =>
    obtain ⟨name, value⟩ := p
    by_cases hn : n = name
    · simp [last_concat, hn]
    · simp [last_concat, hn, ih]

/-- What is set last under a name remains. -/
theorem mem_ofPairs_iff {pairs : List (String × α)} : (n, v) ∈ (ofPairs pairs).fields ↔ Last pairs n v := by
  induction pairs using List.reverseRecOn with
  | nil => simp [ofPairs, empty, Last]
  | append_singleton pairs p ih =>
    obtain ⟨name, value⟩ := p
    rw [ofPairs_concat, set, mem_setField_iff (nodup_ofPairs pairs), last_concat, ih]

theorem mem_ofPairs {pairs : List (String × α)} {field : String × α}
    (h : field ∈ (ofPairs pairs).fields) : field ∈ pairs := by
  obtain ⟨before, after, rfl, -⟩ := mem_ofPairs_iff.1 h
  exact List.mem_append_right before List.mem_cons_self

end HashedLiterals.Record
