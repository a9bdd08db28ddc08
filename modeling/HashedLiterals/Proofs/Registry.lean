import HashedLiterals.Registry

set_option autoImplicit false

namespace HashedLiterals

namespace Entry

theorem get?_cons (e : Entry) (entries : List Entry) (hash : Int) :
    get? (e :: entries) hash = if e.hash = hash then some e else get? entries hash := by
  by_cases h : e.hash = hash
  · rw [if_pos h]
    exact List.find?_cons_of_pos (by simpa using h)
  · rw [if_neg h]
    exact List.find?_cons_of_neg (by simpa using h)

theorem get?_eq_some {entries : List Entry} {hash : Int} {e : Entry} (h : get? entries hash = some e) :
    e ∈ entries ∧ e.hash = hash :=
  ⟨List.mem_of_find?_eq_some h, by simpa using List.find?_some h⟩

theorem isSome_get? {entries : List Entry} {e : Entry} (h : e ∈ entries) :
    (get? entries e.hash).isSome := by
  rw [get?, List.find?_isSome]
  exact ⟨e, h, by simp⟩

theorem literal_eq_of_clash? {entries : List Entry} {hash : Int} {literal : String} {e : Entry}
    (h : clash? entries hash literal = none) (he : get? entries hash = some e) :
    e.literal = literal := by
  simpa [clash?, he] using h

end Entry

namespace Registry

theorem get?_staged (base : Registry) (pending : List Entry) (hash : Int) :
    (staged base pending).get? hash = (base.get? hash).or (Entry.get? pending hash) := rfl

@[simp] theorem get?_stage (r : Registry) (hash : Int) : r.stage.get? hash = r.get? hash := by
  simp [stage, get?_staged, Entry.get?]

theorem get?_record (r : Registry) (e : Entry) (hash : Int) :
    (r.record e).get? hash = (r.get? hash).or (if e.hash = hash then some e else none) := by
  cases r with
  | plain entries => exact Entry.get?_add entries e hash
  | staged base pending =>
    rw [record, get?_staged]
    split
    · next h =>
      by_cases he : e.hash = hash
      · subst he
        obtain ⟨a, ha⟩ := Option.isSome_iff_exists.1 h
        simp [get?_staged, ha]
      · simp [he, get?_staged]
    · rw [get?_staged, Entry.get?_add, Option.or_assoc]

theorem recordAll_cons (r : Registry) (e : Entry) (entries : List Entry) :
    r.recordAll (e :: entries) = (r.record e).recordAll entries := rfl

theorem get?_recordAll (r : Registry) (entries : List Entry) (hash : Int) :
    (r.recordAll entries).get? hash = (r.get? hash).or (Entry.get? entries hash) := by
  induction entries generalizing r with
  | nil => simp [recordAll, Entry.get?]
  | cons e entries ih =>
    rw [recordAll_cons, ih, get?_record, Option.or_assoc, Entry.get?_cons]
    split <;> simp

theorem recordAll_append (r : Registry) (es fs : List Entry) :
    r.recordAll (es ++ fs) = (r.recordAll es).recordAll fs := List.foldl_append

theorem record_of_isSome {r : Registry} {e : Entry} (h : (r.get? e.hash).isSome) :
    r.record e = r := by
  cases r with
  | plain entries =>
    rw [get?] at h
    rw [record, Entry.add, if_pos h]
  | staged base pending =>
    rw [record]
    split
    · rfl
    · next hb =>
      rw [get?_staged, Option.isSome_or, Bool.eq_false_iff.2 hb, Bool.false_or] at h
      rw [Entry.add, if_pos h]

theorem record_recordAll_of_isSome {r : Registry} {e : Entry} {entries : List Entry}
    (h : (r.get? e.hash).isSome ∨ (Entry.get? entries e.hash).isSome) :
    (r.recordAll entries).record e = r.recordAll entries := by
  apply record_of_isSome
  rw [get?_recordAll, Option.isSome_or, Bool.or_eq_true]
  exact h

/-- A stage that has been given more entries hands down the same as a base that is given the entries of
the stage and then those. -/
theorem commit_recordAll_staged (base : Registry) (pending entries : List Entry) :
    ((staged base pending).recordAll entries).commit.base =
      (base.recordAll pending).recordAll entries := by
  induction entries generalizing pending with
  | nil => rfl
  | cons e entries ih =>
    rw [recordAll_cons, recordAll_cons, record]
    split
    · next h => rw [ih, record_recordAll_of_isSome (.inl h)]
    · rw [ih, Entry.add]
      split
      · next h => rw [record_recordAll_of_isSome (.inr h)]
      · rw [recordAll_append]
        rfl

theorem commit_recordAll_stage (r : Registry) (entries : List Entry) :
    (r.stage.recordAll entries).commit.base = r.recordAll entries :=
  commit_recordAll_staged r [] entries

theorem literal_eq_of_clash? {r : Registry} {hash : Int} {literal : String} {e : Entry}
    (h : r.clash? hash literal = none) (he : r.get? hash = some e) : e.literal = literal := by
  induction r with
  | plain entries => exact Entry.literal_eq_of_clash? h he
  | staged base pending ih =>
    obtain ⟨hb, hp⟩ := Option.or_eq_none_iff.1 h
    obtain he | ⟨-, he⟩ := Option.or_eq_some_iff.1 he
    · exact ih hb he
    · exact Entry.literal_eq_of_clash? hp he

theorem literal_ne_of_clash? {r : Registry} {hash : Int} {literal : String} {e : Entry}
    (h : r.clash? hash literal = some e) : e.literal ≠ literal := by
  induction r with
  | plain entries => simpa using (Option.filter_eq_some_iff.1 h).2
  | staged base pending ih =>
    obtain h | ⟨-, h⟩ := Option.or_eq_some_iff.1 h
    · exact ih h
    · simpa using (Option.filter_eq_some_iff.1 h).2

/-- No stage holds an entry for a hash that is known below it. -/
def Separate : Registry → Prop
  | .plain _ => True
  | .staged base pending => base.Separate ∧ ∀ e ∈ pending, base.get? e.hash = none

theorem separate_record {r : Registry} (h : r.Separate) (e : Entry) : (r.record e).Separate := by
  cases r with
  | plain entries => trivial
  | staged base pending =>
    rw [record]
    split
    · exact h
    · next hb =>
      refine ⟨h.1, fun f hf => ?_⟩
      rw [Entry.add] at hf
      split at hf
      · exact h.2 f hf
      · obtain hf | hf := List.mem_append.1 hf
        · exact h.2 f hf
        · rw [List.mem_singleton.1 hf]
          simpa using hb

theorem separate_recordAll {r : Registry} (h : r.Separate) (entries : List Entry) :
    (r.recordAll entries).Separate := by
  induction entries generalizing r with
  | nil => exact h
  | cons e entries ih => exact ih (separate_record h e)

/-- Where no stage repeats a hash, a clash is with the entry of the hash. -/
theorem clash?_eq_filter {r : Registry} (h : r.Separate) (hash : Int) (literal : String) :
    r.clash? hash literal = (r.get? hash).filter fun e => e.literal != literal := by
  induction r with
  | plain entries => rfl
  | staged base pending ih =>
    rw [clash?, ih h.1, get?_staged, Entry.clash?]
    cases hp : Entry.get? pending hash with
    | none => simp
    | some e =>
      obtain ⟨hmem, rfl⟩ := Entry.get?_eq_some hp
      simp [h.2 e hmem]

end Registry

end HashedLiterals
