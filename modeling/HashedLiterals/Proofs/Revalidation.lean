import HashedLiterals.Command.Args
import HashedLiterals.Config.File
import HashedLiterals.Proofs.Precedence
import HashedLiterals.Proofs.Variables

/-!
Settings that are read again. What has been read means for each option what was read, in whatever order
the options are listed. Main statement: reading settings again gives the same settings, so that what a
command line sets passes the check behind it unchanged; and a text with extensions sets the same ones as
an option of the command line, as a variable and in a file.
-/
set_option autoImplicit false

namespace HashedLiterals

namespace Config.IsExtension

variable {text : String}

theorem ne_empty (h : IsExtension text) : text ≠ "" := by
  rintro rfl
  cases h.1

theorem dotted_eq (h : IsExtension text) : OptionKey.dotted text = text := if_pos h.1

end Config.IsExtension

namespace OptionKey

variable {key : OptionKey} {v : Value} {x y : key.Domain} {found : List String}

theorem isExtensions_list (h : ∀ text ∈ found, Config.IsExtension text) :
    IsExtensions (.list (found.map Value.text)) found := by
  refine ⟨found, .inl rfl, ?_⟩
  have htrim : found.map Blank.trim = found :=
    (List.map_congr_left fun text ht => (h text ht).2).trans (List.map_id found)
  have hfilter : found.filter (· ≠ "") = found :=
    List.filter_eq_self.2 fun text ht => by simpa using (h text ht).ne_empty
  have hdotted : found.map dotted = found :=
    (List.map_congr_left fun text ht => (h text ht).dotted_eq).trans (List.map_id found)
  rw [htrim, hfilter, hdotted]

def asValue : (key : OptionKey) → key.Domain → Value
  | .marker, m => .text (Marker.text m)
  | .hash, a => .text (Hash.Algorithm.name a)
  | .extensions, found => .list (List.map Value.text found)
  | .sourceMap, b | .detectCollisions, b | .verbose, b => .bool b

theorem Means.unique (hx : key.Means v x) (hy : key.Means v y) : x = y :=
  Except.ok.inj ((Settings.read_ok_iff.2 hx).symm.trans (Settings.read_ok_iff.2 hy))

theorem Means.asValue (h : key.Means v x) : key.Means (key.asValue x) x := by
  cases key with
  | marker | hash => rfl
  | extensions => exact isExtensions_list (Config.isExtension_of_isExtensions h)
  | sourceMap | detectCollisions | verbose => cases x <;> exact .inl rfl

end OptionKey

namespace Settings

variable {s t : Settings} {fields other : List (String × Option Value)}

theorem toFields_eq (s : Settings) :
    s.toFields = OptionKey.all.map fun key => (key.name, (s.get key).map key.asValue) := rfl

theorem mem_toFields_iff {n : String} {v : Value} : (n, some v) ∈ s.toFields ↔
    ∃ (key : OptionKey) (x : key.Domain), n = key.name ∧ v = key.asValue x ∧ s.get key = some x := by
  have hall : ∀ key, key ∈ OptionKey.all := fun key => by cases key <;> decide
  rw [toFields_eq, List.mem_map]
  constructor
  · rintro ⟨key, -, hfield⟩
    obtain ⟨rfl, hv⟩ := Prod.mk.inj hfield
    obtain ⟨x, hx, rfl⟩ := Option.map_eq_some_iff.1 hv
    exact ⟨key, x, rfl, rfl, hx⟩
  · rintro ⟨key, x, rfl, rfl, hx⟩
    exact ⟨key, hall key, by rw [hx, Option.map_some]⟩

/-- Fields that list settings in some order. What is not set has no value or is left out. -/
structure Lists (s : Settings) (fields : List (String × Option Value)) : Prop where
  nodup : (fields.map Prod.fst).Nodup
  mem_iff : ∀ n v, (n, some v) ∈ fields ↔ (n, some v) ∈ s.toFields

theorem lists_toFields (s : Settings) : s.Lists s.toFields where
  nodup := by
    rw [toFields_eq, List.map_map]
    exact (by decide : (OptionKey.all.map OptionKey.name).Nodup)
  mem_iff _ _ := Iff.rfl

theorem Lists.perm (h : s.Lists fields) (hp : other.Perm fields) : s.Lists other where
  nodup := (hp.map Prod.fst).nodup_iff.2 h.nodup
  mem_iff n v := hp.mem_iff.trans (h.mem_iff n v)

def toObject (s : Settings) : List (String × Value) := s.toFields.filterMap fun (n, v) => v.map (n, ·)

theorem map_toObject (s : Settings) :
    (s.toObject.map fun (n, v) => (n, some v)) = s.toFields.filter fun f => f.2.isSome := by
  rw [toObject]
  induction s.toFields with
  | nil => rfl
  | cons f fields ih =>
    obtain ⟨n, v⟩ := f
    cases v <;> simp [ih]

theorem lists_toObject (s : Settings) : s.Lists (s.toObject.map fun (n, v) => (n, some v)) := by
  rw [map_toObject]
  refine ⟨(List.filter_sublist.map Prod.fst).nodup s.lists_toFields.nodup, fun n v => ?_⟩
  rw [List.mem_filter, Option.isSome_some, and_iff_left rfl]

theorem Lists.given_iff (h : s.Lists fields) {key : OptionKey} {v : Value} :
    given fields key = some v ↔ ∃ x, v = key.asValue x ∧ s.get key = some x := by
  rw [given_eq_some_iff h.nodup, h.mem_iff, mem_toFields_iff]
  constructor
  · rintro ⟨other, x, hname, hv, hx⟩
    obtain rfl := name_inj hname
    exact ⟨x, hv, hx⟩
  · rintro ⟨x, hv, hx⟩
    exact ⟨key, x, rfl, hv, hx⟩

theorem ext_get (h : ∀ key, s.get key = t.get key) : s = t := by
  have hmarker := h .marker
  have hhash := h .hash
  have hextensions := h .extensions
  have hsourceMap := h .sourceMap
  have hdetectCollisions := h .detectCollisions
  have hverbose := h .verbose
  cases s
  cases t
  simp_all [get]

def Meant (s : Settings) : Prop := ∀ (key : OptionKey) (x : key.Domain), s.get key = some x → ∃ v, key.Means v x

theorem meant_of_accepted {l : Layer} (h : l.Accepted s) : s.Meant := by
  intro key x hx
  obtain ⟨v, -, hv⟩ := h.given_of_get hx
  exact ⟨v, hv⟩

theorem accepted_of_ofFields {origin : String} (h : ofFields fields origin = .ok s) :
    Layer.Accepted ⟨origin, some fields⟩ s := (h ▸ Layer.reads_ofFields fields origin).accepted

theorem accepted_of_ofValue {raw : Value} {origin : String} (h : ofValue raw origin = .ok s) :
    (Layer.ofValue raw origin).Accepted s := (h ▸ Layer.reads_ofValue raw origin).accepted

theorem ofFields_of_lists (hs : s.Meant) (h : s.Lists fields) (origin : String) :
    ofFields fields origin = .ok s := by
  rw [ofFields]
  cases hput : putAll {} fields with
  | error fault =>
    refine absurd (fun field hm v hv => ?_) (not_acceptable_of_error hput)
    obtain ⟨n, w⟩ := field
    obtain rfl : w = some v := hv
    obtain ⟨key, x, hname, rfl, hx⟩ := mem_toFields_iff.1 ((h.mem_iff n v).1 hm)
    obtain ⟨_, hmeans⟩ := hs key x hx
    exact ⟨key, hname.symm, x, hmeans.asValue⟩
  | ok t =>
    refine congrArg Except.ok (ext_get fun key => ?_)
    obtain ⟨v, y, hv, hy, hget⟩ | ⟨hnone, hget⟩ := (putAll_ok hput).2 key
    · obtain ⟨x, rfl, hx⟩ := h.given_iff.1 hv
      obtain ⟨_, hmeans⟩ := hs key x hx
      rw [hget, hx, hy.unique hmeans.asValue]
    · rw [hget, Layer.get_empty]
      cases hx : s.get key with
      | none => rfl
      | some x =>
        rw [h.given_iff.2 ⟨x, rfl, hx⟩] at hnone
        cases hnone

theorem ofValue_of_lists {fields : List (String × Value)} (hs : s.Meant)
    (h : s.Lists (fields.map fun (n, v) => (n, some v))) (origin : String) :
    ofValue (.object fields) origin = .ok s :=
  ofFields_of_lists hs (h.perm (Record.listed_perm _)) origin

end Settings

namespace Args

variable {args : List String} {r r' : Reading} {p : Args}

def extensionTexts : List String → List String
  | [] => []
  | arg :: rest =>
    if isPath arg then extensionTexts rest
    else
      match switch? arg with
      | some .onlyPaths => []
      | some _ => extensionTexts rest
      | none =>
        match rest with
        | [] => []
        | value :: rest =>
          if valued? arg = some .extensions then value :: extensionTexts rest else extensionTexts rest

theorem extensionTexts_cons (arg : String) (rest : List String) : extensionTexts (arg :: rest) =
    if isPath arg then extensionTexts rest
    else
      match switch? arg with
      | some .onlyPaths => []
      | some _ => extensionTexts rest
      | none =>
        match rest with
        | [] => []
        | value :: rest =>
          if valued? arg = some .extensions then value :: extensionTexts rest else extensionTexts rest :=
  extensionTexts.eq_def (arg :: rest)

theorem extensions_read (h : read r args = .ok r') :
    r'.extensions = r.extensions ++ (extensionTexts args).flatMap Settings.splitCommas := by
  fun_induction read r args with
  | case1 r =>
    obtain rfl := Except.ok.inj h
    simp [extensionTexts]
  | case2 r arg rest hpath ih => rw [ih h, extensionTexts_cons, if_pos hpath]
  | case3 r arg rest hpath hswitch =>
    obtain rfl := Except.ok.inj h
    simp [extensionTexts_cons, hpath, hswitch]
  | case4 r arg rest hpath s hs hswitch ih =>
    cases s with
    | onlyPaths => exact (hs rfl).elim
    | set | diff | help =>
      rw [ih h, extensionTexts_cons, if_neg hpath, hswitch]
      rfl
  | case5 | case6 => cases h
  | case7 r arg hpath hswitch v hv value rest ih =>
    rw [ih h, extensionTexts_cons, if_neg hpath, hswitch]
    cases v with
    | extensions => simp [Reading.valued, hv]
    | set | outDir => simp [Reading.valued, hv]

theorem nodup_given_read (hr : (r.given.fields.map Prod.fst).Nodup) (h : read r args = .ok r') :
    (r'.given.fields.map Prod.fst).Nodup := by
  fun_induction read r args with
  | case1 r => exact Except.ok.inj h ▸ hr
  | case2 r arg rest hpath ih => exact ih hr h
  | case3 r arg rest hpath hswitch => exact Except.ok.inj h ▸ hr
  | case4 r arg rest hpath s hs hswitch ih =>
    refine ih ?_ h
    cases s with
    | set key => exact Record.nodup_setField hr _ _
    | onlyPaths | diff | help => exact hr
  | case5 | case6 => cases h
  | case7 r arg hpath hswitch v hv value rest ih =>
    refine ih ?_ h
    cases v with
    | set key => exact Record.nodup_setField hr _ _
    | extensions | outDir => exact hr

theorem given_fields (hr : (r.given.fields.map Prod.fst).Nodup) (hne : r.extensions ≠ []) :
    Settings.given r.fields .extensions = some (.list (r.extensions.map Value.text)) := by
  have hfields : r.fields = (Record.listed (Record.setField OptionKey.extensions.name
      (.list (r.extensions.map Value.text)) r.given.fields)).map fun (n, v) => (n, some v) := by
    simp [Reading.fields, hne, Record.set, Record.toList]
  rw [hfields, Settings.given_eq_some_iff]
  · refine List.mem_map.2 ⟨(_, _), Record.mem_listed.2 ((Record.mem_setField_iff hr).2 ?_), rfl⟩
    rw [if_pos rfl]
  · rw [List.map_map]
    exact Record.nodup_listed (Record.nodup_setField hr _ _)

theorem exists_read_of_parse (h : parse args = .ok p) : ∃ r, read {} (splitCommand args).2 = .ok r ∧
    Settings.ofFields r.fields "command line" = .ok p.overrides := by
  rw [parse] at h
  generalize splitCommand args = found at h ⊢
  obtain ⟨command, rest⟩ := found
  cases hr : read {} rest with
  | error e => simp only [hr, reduceCtorEq] at h
  | ok r =>
    simp only [hr, ofReading] at h
    refine ⟨r, rfl, ?_⟩
    cases hs : Settings.ofFields r.fields "command line" with
    | error e =>
      rw [hs] at h
      cases h
    | ok overrides =>
      rw [hs] at h
      obtain rfl := Except.ok.inj h
      rfl

end Args

namespace Settings

def extensionsOf (text : String) : List String :=
  (((splitCommas text).map Blank.trim).filter (· ≠ "")).map OptionKey.dotted

theorem extensions_of_accepted {l : Layer} {s : Settings} {v : Value} {found : List String}
    (h : l.Accepted s) (hv : l.given .extensions = some v) (hm : OptionKey.IsExtensions v found) :
    s.extensions = some found := by
  obtain ⟨x, hx, hget⟩ := h.get_of_given hv
  exact hget.trans (congrArg some (OptionKey.Means.unique hx hm))

theorem ofFields_extensions {v : Value} {found : List String} (h : OptionKey.IsExtensions v found)
    (origin : String) :
    ofFields [(OptionKey.extensions.name, some v)] origin = .ok { extensions := some found } := by
  have hread : OptionKey.extensions.read v = .ok found := readExtensions_ok_iff.2 h
  rw [ofFields, putAll, putNamed, OptionKey.ofName?_name]
  simp only [put_eq, hread]
  rfl

theorem isExtensions_text (text : String) : OptionKey.IsExtensions (.text text) (extensionsOf text) :=
  ⟨_, .inr ⟨text, rfl, rfl⟩, rfl⟩

theorem isExtensions_splitCommas (text : String) :
    OptionKey.IsExtensions (.list ((splitCommas text).map Value.text)) (extensionsOf text) :=
  ⟨_, .inl rfl, rfl⟩

theorem splitCommas_ne_nil (text : String) : splitCommas text ≠ [] := by
  rw [splitCommas, ne_eq, List.map_eq_nil_iff]
  exact List.splitOn_ne_nil _ _

theorem extensions_of_parse {args : List String} {p : Args} {text : String} (h : Args.parse args = .ok p)
    (ht : Args.extensionTexts (Args.splitCommand args).2 = [text]) :
    p.overrides.extensions = some (extensionsOf text) := by
  obtain ⟨r, hr, hs⟩ := Args.exists_read_of_parse h
  have hextensions : r.extensions = splitCommas text := by
    rw [Args.extensions_read hr, ht]
    simp
  have hgiven := Args.given_fields (Args.nodup_given_read (r := {}) List.nodup_nil hr)
    (by rw [hextensions]; exact splitCommas_ne_nil text)
  rw [hextensions] at hgiven
  exact extensions_of_accepted (accepted_of_ofFields hs) hgiven (isExtensions_splitCommas text)

theorem listed_singleton {α : Type} (key : OptionKey) (v : α) :
    Record.listed [(key.name, v)] = [(key.name, v)] :=
  Record.listed_eq_self fun f hf => by rw [List.mem_singleton.1 hf, OptionKey.index?_name]

theorem parse_extensions {flag : String} (hflag : flag ∈ ["-e", "--ext"]) (text : String) :
    ∃ p, Args.parse [flag, text] = .ok p ∧ p.overrides = { extensions := some (extensionsOf text) } := by
  have hflags : ∀ flag ∈ ["-e", "--ext"], Command.ofName? flag = none ∧ Args.isPath flag = false ∧
      Args.switch? flag = none ∧ Args.valued? flag = some .extensions := by decide
  obtain ⟨hcommand, hpath, hswitch, hvalued⟩ := hflags flag hflag
  have hread : Args.read {} [flag, text] = .ok { extensions := splitCommas text } := by
    simp [Args.read, hpath, hswitch, hvalued, Args.Reading.valued]
  have hfields : Args.Reading.fields { extensions := splitCommas text } =
      [(OptionKey.extensions.name, some (.list ((splitCommas text).map Value.text)))] := by
    have hlisted := listed_singleton .extensions (Value.list ((splitCommas text).map Value.text))
    simp [Args.Reading.fields, splitCommas_ne_nil, Record.toList, Record.set, Record.empty, Record.setField,
      hlisted]
  have hread' := ofFields_extensions (isExtensions_splitCommas text) "command line"
  rw [← hfields] at hread'
  simp only [Args.parse, Args.splitCommand, hcommand, hread, Args.ofReading, hread']
  exact ⟨_, rfl, rfl⟩

theorem settings_extensions (text : String) :
    Environment.settings ⟨[("STRID_EXTENSIONS", some text)]⟩ = .ok { extensions := some (extensionsOf text) } := by
  have hkey : Environment.key? "STRID_EXTENSIONS" = some .extensions := by decide +kernel
  have hfields : Environment.fields ⟨[("STRID_EXTENSIONS", some text)]⟩ =
      ⟨[(OptionKey.extensions.name, .text text)]⟩ := by
    simp [Environment.fields, hkey, Record.ofPairs, Record.set, Record.empty, Record.setField]
  rw [Environment.settings, hfields, Record.toList, listed_singleton]
  exact ofFields_extensions (isExtensions_text text) "environment"

theorem ofValue_extensions (text origin : String) :
    ofValue (.object [(OptionKey.extensions.name, .text text)]) origin =
      .ok { extensions := some (extensionsOf text) } := by
  rw [ofValue, List.map_singleton, listed_singleton]
  exact ofFields_extensions (isExtensions_text text) origin

end Settings

theorem Config.resolve_overrides {file : Settings} {environment : Environment}
    {overrides : List (String × Option Value)} {s : Settings}
    (h : Settings.ofFields overrides "options" = .ok s) :
    resolve file environment overrides = (resolve file environment []).map (·.overlay s) := by
  have hnone : Settings.ofFields [] "options" = .ok {} := rfl
  rw [resolve, resolve, h, hnone]
  cases environment.settings with
  | error err => rfl
  | ok ambient => rfl

/-- Overrides that can be read are put over what is loaded without them. -/
theorem ConfigFile.load_overrides {host : Host} {d : Disk} {dir : Key} {environment : Environment}
    {overrides : List (String × Option Value)} {s : Settings}
    (h : Settings.ofFields overrides "options" = .ok s) :
    load host d dir environment overrides =
      (load host d dir environment []).map fun (config, path) => (config.overlay s, path) := by
  rw [load, load]
  cases search host d dir with
  | error err => rfl
  | ok found =>
    simp only [bind, Except.bind, Config.resolve_overrides h]
    cases Config.resolve found.1 environment [] with
    | error err => rfl
    | ok config => rfl

namespace Settings

/-- Settings that have been read are read again as they are, from an object that holds them and from any
other list of them. So what a command line sets is only put over what is loaded without it. A text with
extensions sets the same ones on a command line, as a variable and as a field of an object, by itself as
well as with other options. -/
theorem reread_accepted :
    (∀ (s : Settings) (origin : String),
      ((∃ raw, ofValue raw origin = .ok s) ∨ ∃ fields, ofFields fields origin = .ok s) →
      ∀ origin', ofValue (.object s.toObject) origin' = .ok s ∧
        (∀ fields, s.Lists (fields.map fun (n, v) => (n, some v)) → ofValue (.object fields) origin' = .ok s) ∧
        ∀ fields, s.Lists fields → ofFields fields origin' = .ok s) ∧
    (∀ args p, Args.parse args = .ok p → p.overrides.Lists p.overrides.toFields ∧
      ∀ fields, p.overrides.Lists fields → ofFields fields "options" = .ok p.overrides ∧
        ∀ host d dir environment, ConfigFile.load host d dir environment fields =
          (ConfigFile.load host d dir environment []).map fun (config, path) =>
            (config.overlay p.overrides, path)) ∧
    ∀ text,
      (∀ flag ∈ ["-e", "--ext"], ∃ p, Args.parse [flag, text] = .ok p ∧
        p.overrides = { extensions := some (extensionsOf text) }) ∧
      (Environment.settings ⟨[("STRID_EXTENSIONS", some text)]⟩ =
        .ok { extensions := some (extensionsOf text) }) ∧
      (∀ origin, ofValue (.object [("extensions", .text text)]) origin =
        .ok { extensions := some (extensionsOf text) }) ∧
      (∀ args p, Args.parse args = .ok p →
        Args.extensionTexts (Args.splitCommand args).2 = [text] →
        p.overrides.extensions = some (extensionsOf text)) ∧
      (∀ (environment : Environment) s, environment.settings = .ok s →
        environment.LastSets .extensions text → s.extensions = some (extensionsOf text)) ∧
      ∀ fields origin s, ofValue (.object fields) origin = .ok s →
        given (fields.map fun (n, v) => (n, some v)) .extensions = some (.text text) →
        s.extensions = some (extensionsOf text) := by
  refine ⟨?_, ?_, fun text => ⟨?_, ?_, ?_, ?_, ?_, ?_⟩⟩
  · intro s origin h origin'
    have hmeant : s.Meant := by
      obtain ⟨raw, hraw⟩ | ⟨fields, hfields⟩ := h
      · exact meant_of_accepted (accepted_of_ofValue hraw)
      · exact meant_of_accepted (accepted_of_ofFields hfields)
    exact ⟨ofValue_of_lists hmeant s.lists_toObject origin', fun fields hl => ofValue_of_lists hmeant hl origin',
      fun fields hl => ofFields_of_lists hmeant hl origin'⟩
  · intro args p hp
    obtain ⟨r, -, hs⟩ := Args.exists_read_of_parse hp
    refine ⟨p.overrides.lists_toFields, fun fields hl => ?_⟩
    have hread := ofFields_of_lists (meant_of_accepted (accepted_of_ofFields hs)) hl "options"
    exact ⟨hread, fun host d dir environment => ConfigFile.load_overrides hread⟩
  · exact fun flag hflag => parse_extensions hflag text
  · exact settings_extensions text
  · exact ofValue_extensions text
  · exact fun args p hp ht => extensions_of_parse hp ht
  · intro environment s hs hlast
    have hgiven := Environment.given_iff.2 ⟨text, rfl, hlast⟩
    exact extensions_of_accepted (Environment.accepted_of_settings hs) hgiven (isExtensions_text text)
  · intro fields origin s hs hgiven
    exact extensions_of_accepted (accepted_of_ofValue hs) hgiven (isExtensions_text text)

end Settings

end HashedLiterals
