import HashedLiterals.Proofs.Precedence
import HashedLiterals.Proofs.Records
import HashedLiterals.Proofs.Utf8

/-!
Variables and the options that they set. Main statement: an option is set by the last variable with a
value whose name is the prefix and a text that is, in small letters, the option's name with underscores;
all other variables are passed over.
-/
set_option autoImplicit false

namespace HashedLiterals

namespace OptionKey

def snake : OptionKey → String
  | .marker => "marker"
  | .hash => "hash"
  | .extensions => "extensions"
  | .sourceMap => "source_map"
  | .detectCollisions => "detect_collisions"
  | .verbose => "verbose"

end OptionKey

namespace Lowercase

/-- Lowercase forms lie behind the ASCII capitals. -/
theorem target_of_mem_runs {r : Run} (h : r ∈ runs) : 0x5a < r.target := by
  have hall : runs.all fun r => decide (0x5a < r.target) := by decide +kernel
  exact of_decide_eq_true (List.all_eq_true.1 hall r h)

theorem isUpper_iff {c : Char} : c.isUpper = true ↔ 0x41 ≤ c.toNat ∧ c.toNat ≤ 0x5a := by
  have hupper : c.isUpper = decide ('A'.val ≤ c.val ∧ c.val ≤ 'Z'.val) := rfl
  rw [hupper, decide_eq_true_iff, UInt32.le_iff_toNat_le, UInt32.le_iff_toNat_le]
  rfl

theorem isUpper_simple (c : Char) : (simple c).isUpper = false := by
  rw [← Bool.not_eq_true, isUpper_iff, simple]
  cases h : runs.findSome? fun r => r.map? c.toNat with
  | none =>
    have hrun : (⟨0x41, 0x5a, 1, 0x61⟩ : Run) ∈ runs := List.mem_cons_self
    rw [Option.map_none, Option.getD_none]
    rintro ⟨hlow, hhigh⟩
    have hmap : (⟨0x41, 0x5a, 1, 0x61⟩ : Run).map? c.toNat = some (0x61 + (c.toNat - 0x41)) :=
      if_pos (by simp [hlow, hhigh, Nat.mod_one])
    rw [List.findSome?_eq_none_iff.1 h _ hrun] at hmap
    cases hmap
  | some n =>
    obtain ⟨r, hr, hn⟩ := List.exists_of_findSome?_eq_some h
    have htarget := target_of_mem_runs hr
    have hle : r.target ≤ n := by
      rw [Run.map?] at hn
      split at hn
      · rw [← Option.some.inj hn]
        exact Nat.le_add_right _ _
      · cases hn
    rw [Option.map_some, Option.getD_some]
    obtain hc | hc := Utf8.toNat_ofNat_cases n
    · omega
    · rw [hc]
      decide

theorem isUpper_lowerAfter {before text : List Char} {c : Char} (h : c ∈ lowerAfter before text) :
    c.isUpper = false := by
  induction text generalizing before with
  | nil => cases h
  | cons d rest ih =>
    rw [lowerAfter, List.mem_append] at h
    obtain h | h := h
    · split at h
      · split at h
        · rw [List.mem_singleton.1 h]
          decide
        · rw [List.mem_singleton.1 h]
          decide
      · split at h
        · obtain rfl | rfl : c = 'i' ∨ c = '\u0307' := by simpa using h
          · decide
          · decide
        · rw [List.mem_singleton.1 h]
          exact isUpper_simple d
    · exact ih h

end Lowercase

namespace Environment

def snakeChars : List Char → List Char
  | [] => []
  | c :: rest => if c.isUpper then '_' :: c.toLower :: snakeChars rest else c :: snakeChars rest

theorem toUpper_of_isLower {c : Char} (h : c.isLower = true) :
    c.toUpper.isUpper = true ∧ c.toUpper.toLower = c := by
  have hall : ∀ n < 0x80, (Char.ofNat n).isLower = true →
      (Char.ofNat n).toUpper.isUpper = true ∧ (Char.ofNat n).toUpper.toLower = Char.ofNat n := by
    decide
  have hlower : c.isLower = (decide ('a'.val ≤ c.val) && decide (c.val ≤ 'z'.val)) := rfl
  have hz : c.toNat ≤ 'z'.toNat := by
    rw [hlower, Bool.and_eq_true] at h
    exact UInt32.le_iff_toNat_le.1 (of_decide_eq_true h.2)
  have hc := hall c.toNat (Nat.lt_of_le_of_lt hz (by decide))
  rw [Char.ofNat_toNat] at hc
  exact hc h

theorem snakeChars_camel {text : List Char} (h : ∀ c ∈ text, c.isUpper = false) :
    snakeChars (camel text) = text := by
  fun_induction camel text with
  | case1 => rfl
  | case2 => rfl
  | case3 c rest hc ih =>
    obtain ⟨hupper, hlower⟩ := toUpper_of_isLower hc
    rw [snakeChars, if_pos hupper, hlower, ih fun d hd => h d (by simp [hd])]
  | case4 c rest hc ih =>
    rw [snakeChars, if_neg (by decide), ih fun d hd => h d (List.mem_cons_of_mem _ hd)]
  | case5 c rest hnil hcons ih =>
    rw [snakeChars, if_neg (by simp [h c List.mem_cons_self]), ih fun d hd => h d (List.mem_cons_of_mem c hd)]

theorem ofName?_camel_iff {words : List Char} {key : OptionKey} (h : ∀ c ∈ words, c.isUpper = false) :
    OptionKey.ofName? (String.ofList (camel words)) = some key ↔ String.ofList words = key.snake := by
  constructor
  · intro hname
    have hsnake : snakeChars key.name.toList = key.snake.toList := by cases key <;> decide
    rw [OptionKey.name_of_ofName? hname, String.toList_ofList, snakeChars_camel h] at hsnake
    rw [hsnake, String.ofList_toList]
  · intro hwords
    have hcamel : camel key.snake.toList = key.name.toList := by cases key <;> decide
    rw [← hwords, String.toList_ofList] at hcamel
    rw [hcamel, String.ofList_toList, OptionKey.ofName?_name]

/-- The name is the prefix and a text that is the option's in small letters. -/
def Spells (name : String) (key : OptionKey) : Prop :=
  ∃ text, name = "STRID_" ++ text ∧ Lowercase.lower text = key.snake

theorem toList_prefixed (text : String) : ("STRID_" ++ text).toList = namePrefix ++ text.toList :=
  String.toList_append

theorem key?_append (text : String) : key? ("STRID_" ++ text) =
    OptionKey.ofName? (String.ofList (camel (Lowercase.lowerAfter [] text.toList))) := by
  rw [key?, toList_prefixed, if_pos (List.isPrefixOf_iff_prefix.2 (List.prefix_append _ _)), List.drop_left]

theorem exists_append_of_key? {name : String} {key : OptionKey} (h : key? name = some key) :
    ∃ text, name = "STRID_" ++ text := by
  rw [key?] at h
  split at h
  · next hp =>
    obtain ⟨rest, hrest⟩ := List.isPrefixOf_iff_prefix.1 hp
    refine ⟨String.ofList rest, ?_⟩
    rw [String.ext_iff, toList_prefixed, String.toList_ofList, hrest]
  · cases h

theorem key?_eq_some_iff {name : String} {key : OptionKey} : key? name = some key ↔ Spells name key := by
  have hspelled : ∀ text : String, key? ("STRID_" ++ text) = some key ↔ Lowercase.lower text = key.snake := by
    intro text
    rw [key?_append, ofName?_camel_iff fun _ => Lowercase.isUpper_lowerAfter]
    rfl
  constructor
  · intro h
    obtain ⟨text, rfl⟩ := exists_append_of_key? h
    exact ⟨text, rfl, (hspelled text).1 h⟩
  · rintro ⟨text, rfl, htext⟩
    exact (hspelled text).2 htext

instance (name : String) (key : OptionKey) : Decidable (Spells name key) :=
  decidable_of_iff _ key?_eq_some_iff

example : Spells "STRID_MAR\u212aER" .marker ∧ ¬ Spells "STRID_SOURCEMAP" .sourceMap := by decide +kernel

def field? (b : String × Option String) : Option (String × Value) := do
  let key ← key? b.1
  let text ← b.2
  pure (key.name, .text text)

theorem field?_eq_some_iff {b : String × Option String} {n : String} {v : Value} :
    field? b = some (n, v) ↔
      ∃ key text, n = key.name ∧ v = .text text ∧ Spells b.1 key ∧ b.2 = some text := by
  simp only [field?, Option.bind_eq_bind, Option.bind_eq_some_iff, key?_eq_some_iff]
  constructor
  · rintro ⟨key, hs, text, htext, hfield⟩
    obtain ⟨rfl, rfl⟩ := Prod.mk.inj (Option.some.inj hfield)
    exact ⟨key, text, rfl, rfl, hs, htext⟩
  · rintro ⟨key, text, rfl, rfl, hs, htext⟩
    exact ⟨key, hs, text, htext, rfl⟩

theorem field?_of_spells {name : String} {key : OptionKey} (h : Spells name key) (text : String) :
    field? (name, some text) = some (key.name, .text text) :=
  field?_eq_some_iff.2 ⟨key, text, rfl, rfl, h, rfl⟩

/-- The value is that of the last variable that has one and spells the option. -/
def LastSets (e : Environment) (key : OptionKey) (text : String) : Prop :=
  ∃ before name after, e.bindings = before ++ (name, some text) :: after ∧ Spells name key ∧
    ∀ b ∈ after, Spells b.1 key → b.2 = none

theorem last_iff {e : Environment} {key : OptionKey} {v : Value} :
    Record.Last (e.bindings.filterMap field?) key.name v ↔ ∃ text, v = .text text ∧ e.LastSets key text := by
  constructor
  · rintro ⟨given, more, hsplit, hmore⟩
    obtain ⟨before, rest, hbindings, -, hrest⟩ := List.filterMap_eq_append_iff.1 hsplit
    obtain ⟨skipped, b, after, rfl, -, hb, rfl⟩ := List.filterMap_eq_cons_iff.1 hrest
    obtain ⟨other, text, hname, rfl, hs, htext⟩ := field?_eq_some_iff.1 hb
    obtain rfl := Settings.name_inj hname
    refine ⟨text, rfl, before ++ skipped, b.1, after, ?_, hs, ?_⟩
    · rw [hbindings, ← htext, List.append_assoc]
    · rintro ⟨name, value⟩ hc hspells
      cases value with
      | none => rfl
      | some t => exact (hmore _ (List.mem_filterMap.2 ⟨_, hc, field?_of_spells hspells t⟩) rfl).elim
  · rintro ⟨text, rfl, before, name, after, hbindings, hs, hafter⟩
    refine ⟨before.filterMap field?, after.filterMap field?, ?_, fun p hp hname => ?_⟩
    · rw [hbindings, List.filterMap_append, List.filterMap_cons_some (field?_of_spells hs text)]
    · obtain ⟨b, hb, hsome⟩ := List.mem_filterMap.1 hp
      obtain ⟨other, t, hother, -, hspells, ht⟩ := field?_eq_some_iff.1 hsome
      obtain rfl := Settings.name_inj (hname.symm.trans hother)
      rw [hafter b hb hspells] at ht
      cases ht

variable {e : Environment} {key : OptionKey} {n : String} {v : Value}

/-- A variable with a value sets the option that it spells, unless a later one does. -/
theorem exists_lastSets_iff : (∃ text, e.LastSets key text) ↔
    ∃ name text, (name, some text) ∈ e.bindings ∧ Spells name key := by
  constructor
  · rintro ⟨text, before, name, after, hbindings, hs, -⟩
    exact ⟨name, text, by simp [hbindings], hs⟩
  · rintro ⟨name, text, hm, hs⟩
    obtain ⟨v, hv⟩ := Record.exists_last_iff.2 ⟨_, List.mem_filterMap.2 ⟨_, hm, field?_of_spells hs text⟩⟩
    obtain ⟨last, -, hlast⟩ := last_iff.1 hv
    exact ⟨last, hlast⟩

theorem mem_fields_iff : (n, v) ∈ e.fields.fields ↔
    ∃ key text, n = key.name ∧ v = .text text ∧ e.LastSets key text := by
  have hfields : e.fields = Record.ofPairs (e.bindings.filterMap field?) := rfl
  rw [hfields]
  constructor
  · intro hm
    obtain ⟨b, -, hb⟩ := List.mem_filterMap.1 (Record.mem_ofPairs hm)
    obtain ⟨key, -, rfl, -⟩ := field?_eq_some_iff.1 hb
    obtain ⟨text, hv, hlast⟩ := last_iff.1 (Record.mem_ofPairs_iff.1 hm)
    exact ⟨key, text, rfl, hv, hlast⟩
  · rintro ⟨key, text, rfl, hv, hlast⟩
    exact Record.mem_ofPairs_iff.2 (last_iff.2 ⟨text, hv, hlast⟩)

theorem toList_fields (e : Environment) : e.fields.toList = e.fields.fields := by
  refine Record.listed_eq_self fun f hf => ?_
  obtain ⟨key, -, hname, -⟩ := mem_fields_iff.1 hf
  rw [hname, OptionKey.index?_name]

theorem mem_listed_iff {w : Option Value} : (n, w) ∈ e.fields.toList.map (fun (n, v) => (n, some v)) ↔
    ∃ key text, n = OptionKey.name key ∧ w = some (.text text) ∧ e.LastSets key text := by
  rw [toList_fields, List.mem_map]
  constructor
  · rintro ⟨⟨n, v⟩, hm, hfield⟩
    obtain ⟨rfl, rfl⟩ := Prod.mk.inj hfield
    obtain ⟨key, text, rfl, rfl, hlast⟩ := mem_fields_iff.1 hm
    exact ⟨key, text, rfl, rfl, hlast⟩
  · rintro ⟨key, text, rfl, rfl, hlast⟩
    exact ⟨(key.name, .text text), mem_fields_iff.2 ⟨key, text, rfl, rfl, hlast⟩, rfl⟩

theorem given_iff : (Layer.ofEnvironment e).given key = some v ↔
    ∃ text, v = .text text ∧ e.LastSets key text := by
  have hnodup : ((e.fields.toList.map fun (n, v) => (n, some v)).map Prod.fst).Nodup := by
    rw [toList_fields, List.map_map]
    exact Record.nodup_ofPairs _
  rw [Layer.given, Layer.ofEnvironment, Option.bind_some, Settings.given_eq_some_iff hnodup, mem_listed_iff]
  constructor
  · rintro ⟨other, text, hname, hv, hlast⟩
    obtain rfl := Settings.name_inj hname
    exact ⟨text, Option.some.inj hv, hlast⟩
  · rintro ⟨text, rfl, hlast⟩
    exact ⟨key, text, rfl, rfl, hlast⟩

theorem valid_iff : (Layer.ofEnvironment e).Valid ↔
    ∀ key text, e.LastSets key text → key.Accepts (.text text) := by
  constructor
  · rintro ⟨fields, hfields, hacc⟩ key text hlast
    obtain rfl := Option.some.inj hfields
    obtain ⟨other, hname, hok⟩ := hacc _ (mem_listed_iff.2 ⟨key, text, rfl, rfl, hlast⟩) _ rfl
    obtain rfl := Settings.name_inj hname
    exact hok
  · intro h
    refine ⟨_, rfl, fun field hm v hv => ?_⟩
    obtain ⟨key, text, hname, hw, hlast⟩ := mem_listed_iff.1 hm
    obtain rfl := Option.some.inj (hw.symm.trans hv)
    exact ⟨key, hname.symm, h key text hlast⟩

theorem accepted_of_settings {s : Settings} (h : e.settings = .ok s) : (Layer.ofEnvironment e).Accepted s :=
  (h ▸ Layer.reads_ofEnvironment e).accepted

theorem get_of_lastSets {s : Settings} {text : String} (h : e.settings = .ok s) (hlast : e.LastSets key text) :
    ∃ x, key.Means (.text text) x ∧ s.get key = some x :=
  (accepted_of_settings h).get_of_given (given_iff.2 ⟨text, rfl, hlast⟩)

theorem isSome_get_iff {s : Settings} (h : e.settings = .ok s) :
    (s.get key).isSome ↔ ∃ text, e.LastSets key text := by
  rw [Option.isSome_iff_exists]
  constructor
  · rintro ⟨x, hx⟩
    obtain ⟨v, hv, -⟩ := (accepted_of_settings h).given_of_get hx
    obtain ⟨text, -, hlast⟩ := given_iff.1 hv
    exact ⟨text, hlast⟩
  · rintro ⟨text, hlast⟩
    obtain ⟨x, -, hget⟩ := get_of_lastSets h hlast
    exact ⟨x, hget⟩

theorem exists_settings_iff : (∃ s, e.settings = .ok s) ↔ (Layer.ofEnvironment e).Valid := by
  constructor
  · rintro ⟨s, hs⟩
    exact (accepted_of_settings hs).valid
  · intro hvalid
    obtain ⟨err, -, hrej⟩ | ⟨s, hs, -⟩ := Layer.reads_ofEnvironment e
    · exact absurd hvalid hrej.invalid
    · exact ⟨s, hs⟩

theorem settings_error {err : ConfigError} (h : e.settings = .error err) : err.origin = "environment" ∧
    ∃ key text, e.LastSets key text ∧ key.read (.text text) = .error err.fault := by
  rw [settings, Settings.ofFields] at h
  cases hput : Settings.putAll {} (e.fields.toList.map fun (n, v) => (n, some v)) with
  | ok s =>
    rw [hput] at h
    cases h
  | error fault =>
    rw [hput] at h
    obtain rfl := Except.error.inj h
    obtain ⟨key, v, hm, hread⟩ := Settings.putAll_error_read hput fun f hf => by
      obtain ⟨key, -, hname, -⟩ := mem_listed_iff.1 hf
      exact ⟨key, hname⟩
    obtain ⟨other, text, hname, hv, hlast⟩ := mem_listed_iff.1 hm
    obtain rfl := Settings.name_inj hname
    obtain rfl := Option.some.inj hv
    exact ⟨rfl, key, text, hlast, hread⟩

theorem settings_congr {before changed changed' after : List (String × Option String)}
    (h : ∀ b ∈ changed ++ changed', ∀ key, ¬ Spells b.1 key) :
    settings ⟨before ++ changed ++ after⟩ = settings ⟨before ++ changed' ++ after⟩ := by
  have hnone : ∀ l : List (String × Option String), (∀ b ∈ l, ∀ key, ¬ Spells b.1 key) →
      l.filterMap field? = [] := by
    refine fun l hl => List.filterMap_eq_nil_iff.2 fun b hb => Option.eq_none_iff_forall_ne_some.2 ?_
    rintro ⟨n, v⟩ hsome
    obtain ⟨key, -, -, -, hs, -⟩ := field?_eq_some_iff.1 hsome
    exact hl b hb key hs
  have hfields : fields ⟨before ++ changed ++ after⟩ = fields ⟨before ++ changed' ++ after⟩ := by
    show Record.ofPairs ((before ++ changed ++ after).filterMap field?) =
      Record.ofPairs ((before ++ changed' ++ after).filterMap field?)
    simp only [List.filterMap_append]
    rw [hnone changed fun b hb => h b (List.mem_append_left _ hb),
      hnone changed' fun b hb => h b (List.mem_append_right _ hb)]
  rw [settings, hfields, settings]

/-- An option is set exactly if some variable with a value spells it, to what the last such variable's
value means for it. A value that means nothing for its option is refused, and only such a one. Variables
that spell no option do not matter. -/
theorem settings_lastSets (e : Environment) :
    (∀ n v, (n, v) ∈ e.fields.fields ↔
      ∃ key text, n = OptionKey.name key ∧ v = .text text ∧ e.LastSets key text) ∧
    (∀ s, e.settings = .ok s → ∀ key : OptionKey,
      ((s.get key).isSome ↔ ∃ name text, (name, some text) ∈ e.bindings ∧ Spells name key) ∧
      ∀ text, e.LastSets key text → ∃ x, key.Means (.text text) x ∧ s.get key = some x) ∧
    ((∃ s, e.settings = .ok s) ↔ ∀ key text, e.LastSets key text → key.Accepts (.text text)) ∧
    (∀ err, e.settings = .error err → err.origin = "environment" ∧
      ∃ key text, e.LastSets key text ∧ key.read (.text text) = .error err.fault) ∧
    ∀ before changed changed' after, e.bindings = before ++ changed ++ after →
      (∀ b ∈ changed ++ changed', ∀ key, ¬ Spells b.1 key) →
      settings ⟨before ++ changed' ++ after⟩ = e.settings := by
  refine ⟨fun n v => mem_fields_iff, fun s hs key => ⟨?_, fun text hlast => get_of_lastSets hs hlast⟩,
    exists_settings_iff.trans valid_iff, fun err he => settings_error he, ?_⟩
  · rw [isSome_get_iff hs, exists_lastSets_iff]
  · intro before changed changed' after hbindings h
    obtain ⟨bindings⟩ := e
    obtain rfl : bindings = before ++ changed ++ after := hbindings
    exact (settings_congr h).symm

end Environment

end HashedLiterals
