import HashedLiterals.Proofs.Acceptance

set_option autoImplicit false

namespace HashedLiterals

structure Layer where
  origin : String
  /-- The fields, if what is given has fields at all. -/
  fields : Option (List (String × Option Value))

namespace Layer

variable {l : Layer} {key : OptionKey}

def ofValue (v : Value) (origin : String) : Layer where
  origin := origin
  fields :=
    match v with
    | .object fields => some (fields.map fun (n, v) => (n, some v))
    | .instant _ => some []
    | _ => none

def ofEnvironment (e : Environment) : Layer :=
  ⟨"environment", some (e.fields.toList.map fun (n, v) => (n, some v))⟩

def ofOverrides (overrides : List (String × Option Value)) : Layer := ⟨"options", some overrides⟩

def Valid (l : Layer) : Prop := ∃ fields, l.fields = some fields ∧ Settings.Acceptable fields

def given (l : Layer) (key : OptionKey) : Option Value := l.fields.bind (Settings.given · key)

/-- A value that is no text is given for the hash. -/
def Mistyped (l : Layer) (v : Value) : Prop :=
  ∃ fields, l.fields = some fields ∧ (OptionKey.hash.name, some v) ∈ fields ∧ ¬ v.IsText

structure Rejected (l : Layer) (e : ConfigError) : Prop where
  invalid : ¬ l.Valid
  origin : e.origin = l.origin
  mistyped : ∀ v, e.fault = .hashNotAText v → l.Mistyped v

/-- Settings that say what a valid layer says. -/
structure Accepted (l : Layer) (s : Settings) : Prop where
  valid : l.Valid
  get : ∀ key : OptionKey, (∃ v x, l.given key = some v ∧ key.Means v x ∧ s.get key = some x) ∨
    l.given key = none ∧ s.get key = none

theorem Accepted.get_of_given {s : Settings} {v : Value} (h : l.Accepted s) (hv : l.given key = some v) :
    ∃ x, key.Means v x ∧ s.get key = some x := by
  obtain ⟨w, x, hw, hx, hget⟩ | ⟨hnone, -⟩ := h.get key
  · obtain rfl := Option.some.inj (hv.symm.trans hw)
    exact ⟨x, hx, hget⟩
  · rw [hv] at hnone
    cases hnone

theorem Accepted.given_of_get {s : Settings} {x : key.Domain} (h : l.Accepted s) (hx : s.get key = some x) :
    ∃ v, l.given key = some v ∧ key.Means v x := by
  obtain ⟨v, y, hv, hy, hget⟩ | ⟨-, hnone⟩ := h.get key
  · obtain rfl := Option.some.inj (hx.symm.trans hget)
    exact ⟨v, hv, hy⟩
  · rw [hx] at hnone
    cases hnone

def Reads (l : Layer) (r : Except ConfigError Settings) : Prop :=
  (∃ e, r = .error e ∧ l.Rejected e) ∨ ∃ s, r = .ok s ∧ l.Accepted s

theorem get_empty (key : OptionKey) : ({} : Settings).get key = none := by
  cases key <;> rfl

theorem reads_ofFields (fields : List (String × Option Value)) (origin : String) :
    (Layer.mk origin (some fields)).Reads (Settings.ofFields fields origin) := by
  rw [Settings.ofFields]
  cases h : Settings.putAll {} fields with
  | error fault =>
    refine .inl ⟨⟨fault, origin⟩, rfl, ⟨?_, rfl, fun v hf => ?_⟩⟩
    · rintro ⟨_, hsome, hacc⟩
      obtain rfl := Option.some.inj hsome
      exact Settings.not_acceptable_of_error h hacc
    · obtain ⟨before, after, rfl, -, hv⟩ := Settings.putAll_notAText_iff.1 (h.trans (congrArg _ hf))
      exact ⟨_, rfl, by simp, hv⟩
  | ok s =>
    obtain ⟨hacc, hget⟩ := Settings.putAll_ok h
    refine .inr ⟨s, rfl, ⟨fields, rfl, hacc⟩, fun key => ?_⟩
    rw [← get_empty key]
    exact hget key

theorem reads_listed {fields : List (String × Option Value)} {origin : String}
    {r : Except ConfigError Settings}
    (h : (Layer.mk origin (some (Record.listed fields))).Reads r) :
    (Layer.mk origin (some fields)).Reads r := by
  have hvalid : (Layer.mk origin (some (Record.listed fields))).Valid ↔
      (Layer.mk origin (some fields)).Valid := by
    simp only [Valid, Option.some.injEq, exists_eq_left', Settings.acceptable_listed]
  obtain ⟨e, rfl, hno, ho, htext⟩ | ⟨s, rfl, hv, hget⟩ := h
  · refine .inl ⟨e, rfl, fun h => hno (hvalid.2 h), ho, fun v hf => ?_⟩
    obtain ⟨_, hsome, hm, hv⟩ := htext v hf
    obtain rfl := Option.some.inj hsome
    exact ⟨fields, rfl, Record.mem_listed.1 hm, hv⟩
  · refine .inr ⟨s, rfl, hvalid.1 hv, fun key => ?_⟩
    have hg : given ⟨origin, some (Record.listed fields)⟩ key = given ⟨origin, some fields⟩ key :=
      Settings.given_listed fields key
    rw [← hg]
    exact hget key

theorem reads_ofValue (v : Value) (origin : String) :
    (ofValue v origin).Reads (Settings.ofValue v origin) := by
  cases v with
  | object fields => exact reads_listed (reads_ofFields _ origin)
  | instant i =>
    exact .inr ⟨{}, rfl, ⟨[], rfl, by simp [Settings.Acceptable]⟩,
      fun key => .inr ⟨rfl, get_empty key⟩⟩
  | null | bool | number | nan | text | list =>
    refine .inl ⟨_, rfl, ?_, rfl, by simp⟩
    rintro ⟨_, h, -⟩
    cases h

theorem reads_ofEnvironment (e : Environment) : (ofEnvironment e).Reads e.settings :=
  reads_ofFields _ _

theorem reads_ofOverrides (overrides : List (String × Option Value)) :
    (ofOverrides overrides).Reads (Settings.ofFields overrides "options") :=
  reads_ofFields _ _

theorem Reads.accepted {s : Settings} (h : l.Reads (.ok s)) : l.Accepted s := by
  obtain ⟨err, he, -⟩ | ⟨t, ht, hacc⟩ := h
  · cases he
  · exact Except.ok.inj ht ▸ hacc

/-- The value of the highest layer that gives one; the layers stand in order from low to high. -/
def topmost (layers : List Layer) (key : OptionKey) : Option Value :=
  layers.reverse.findSome? (·.given key)

theorem topmost_snoc (layers : List Layer) (l : Layer) (key : OptionKey) :
    topmost (layers ++ [l]) key = (l.given key).or (topmost layers key) := by
  rw [topmost, List.reverse_append, List.reverse_singleton, List.findSome?_append,
    List.findSome?_singleton, topmost]

/-- The error is about the lowest layer that is not valid. -/
def FirstRejected (layers : List Layer) (e : ConfigError) : Prop :=
  ∃ before l after, layers = before ++ l :: after ∧ (∀ x ∈ before, x.Valid) ∧ l.Rejected e

end Layer

namespace Config

open Layer (topmost)

variable {c : Config} {s : Settings} {key : OptionKey} {l : Layer} {layers : List Layer}

def get (c : Config) : (key : OptionKey) → key.Domain
  | .marker => c.marker
  | .hash => c.hash
  | .extensions => c.extensions
  | .sourceMap => c.sourceMap
  | .detectCollisions => c.detectCollisions
  | .verbose => c.verbose

theorem get_overlay (c : Config) (s : Settings) (key : OptionKey) :
    (c.overlay s).get key = (s.get key).getD (c.get key) := by
  cases key <;> rfl

/-- Every option has what the highest layer that sets it says, and else its default. -/
def Follows (c : Config) (layers : List Layer) : Prop :=
  ∀ key : OptionKey, (∃ v, topmost layers key = some v ∧ key.Means v (c.get key)) ∨
    topmost layers key = none ∧ c.get key = default.get key

theorem follows_default : default.Follows [] := fun _ => .inr ⟨rfl, rfl⟩

theorem Follows.overlay (hc : c.Follows layers) (hs : l.Accepted s) :
    (c.overlay s).Follows (layers ++ [l]) := by
  intro key
  rw [Layer.topmost_snoc, get_overlay]
  obtain ⟨v, x, hv, hx, hg⟩ | ⟨hnone, hg⟩ := hs.get key
  · refine .inl ⟨v, by rw [hv, Option.some_or], ?_⟩
    rw [hg]
    exact hx
  · rw [hnone, Option.none_or, hg]
    exact hc key

theorem resolve_cases {e : Environment} {overrides : List (String × Option Value)}
    (hlow : ∀ x ∈ layers, x.Valid) (hs : (default.overlay s).Follows layers) :
    (∃ err, resolve s e overrides = .error err ∧
      Layer.FirstRejected (layers ++ [.ofEnvironment e, .ofOverrides overrides]) err) ∨
    ∃ c, resolve s e overrides = .ok c ∧
      (∀ x ∈ layers ++ [.ofEnvironment e, .ofOverrides overrides], x.Valid) ∧
      c.Follows (layers ++ [.ofEnvironment e, .ofOverrides overrides]) := by
  obtain ⟨err, he, hrej⟩ | ⟨ambient, ha, hacc⟩ := Layer.reads_ofEnvironment e
  · refine .inl ⟨err, ?_, layers, _, _, rfl, hlow, hrej⟩
    rw [resolve, he]
    rfl
  · have hmid : ∀ x ∈ layers ++ [.ofEnvironment e], x.Valid := by
      rintro x hx
      obtain hx | hx := List.mem_append.1 hx
      · exact hlow x hx
      · obtain rfl := List.mem_singleton.1 hx
        exact hacc.valid
    have hsplit : layers ++ [.ofEnvironment e, .ofOverrides overrides] =
        (layers ++ [.ofEnvironment e]) ++ [.ofOverrides overrides] := by simp
    obtain ⟨err, he, hrej⟩ | ⟨chosen, hch, hacc'⟩ := Layer.reads_ofOverrides overrides
    · refine .inl ⟨err, ?_, _, _, [], hsplit, hmid, hrej⟩
      rw [resolve, ha, he]
      rfl
    · refine .inr ⟨((default.overlay s).overlay ambient).overlay chosen, ?_, ?_, ?_⟩
      · rw [resolve, ha, hch]
        rfl
      · rw [hsplit]
        intro x hx
        obtain hx | hx := List.mem_append.1 hx
        · exact hmid x hx
        · obtain rfl := List.mem_singleton.1 hx
          exact hacc'.valid
      · rw [hsplit]
        exact (hs.overlay hacc).overlay hacc'

/-- Extensions as directories are searched for them: with a dot in front and no blanks around. -/
def IsExtension (text : String) : Prop := text.toList.head? = some '.' ∧ Blank.trim text = text

/-- A configuration that callers can use without further checks. -/
structure Sound (c : Config) : Prop where
  marker : Marker.ofText? c.marker.text = some c.marker
  hash : Hash.Algorithm.ofName? c.hash.name = some c.hash
  extensions : ∀ text ∈ c.extensions, IsExtension text

instance (text : String) : Decidable (IsExtension text) := inferInstanceAs (Decidable (_ ∧ _))

theorem isExtension_dotted {text : String} (h : Blank.trim text = text) (hne : text ≠ "") :
    IsExtension (OptionKey.dotted text) := by
  rw [OptionKey.dotted]
  split
  · next hdot => exact ⟨hdot, h⟩
  · have hlist : ("." ++ text).toList = '.' :: text.toList := by simp
    refine ⟨by rw [hlist, List.head?_cons], ?_⟩
    rw [Blank.trim_eq_self_iff, hlist]
    refine Blank.trimChars_eq_self (by simp; decide) fun c hc => ?_
    rw [List.getLast?_cons_of_ne_nil (by simpa using hne), ← Blank.trim_eq_self_iff.1 h] at hc
    exact Blank.getLast?_trimChars hc

theorem isExtension_of_isExtensions {v : Value} {found : List String}
    (h : OptionKey.IsExtensions v found) : ∀ text ∈ found, IsExtension text := by
  obtain ⟨texts, -, rfl⟩ := h
  intro text ht
  obtain ⟨trimmed, hm, rfl⟩ := List.mem_map.1 ht
  obtain ⟨hm, hne⟩ := List.mem_filter.1 hm
  obtain ⟨t, -, rfl⟩ := List.mem_map.1 hm
  exact isExtension_dotted (Blank.trim_trim t) (by simpa using hne)

theorem Follows.sound (h : c.Follows layers) : c.Sound := by
  refine ⟨Marker.ofText?_text c.marker, Hash.Algorithm.ofName?_name c.hash, ?_⟩
  obtain ⟨v, -, hv⟩ | ⟨-, hd⟩ := h .extensions
  · exact isExtension_of_isExtensions hv
  · have he : c.extensions = default.extensions := hd
    rw [he]
    decide

end Config

end HashedLiterals
