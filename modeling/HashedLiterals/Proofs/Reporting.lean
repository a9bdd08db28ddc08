import HashedLiterals.Command.Run
import HashedLiterals.Proofs.ConfigFiles
import HashedLiterals.Proofs.Explorers
import HashedLiterals.Proofs.Revalidation
import HashedLiterals.Proofs.Texts

/-!
What a command line comes to. Main statement: there is a result with exit code zero or one, unless no
explorer can be constructed or a rejected hash cannot be shown; and a configuration file that does not parse
or holds a rejected value ends in one diagnostic.
-/
set_option autoImplicit false

namespace HashedLiterals

namespace Layer

variable {v : Value}

theorem not_mistyped_ofEnvironment (e : Environment) : ¬ (ofEnvironment e).Mistyped v := by
  rintro ⟨fields, hfields, hm, hv⟩
  obtain rfl := Option.some.inj hfields
  obtain ⟨⟨name, w⟩, hw, he⟩ := List.mem_map.1 hm
  obtain ⟨⟨n, value⟩, -, ho⟩ := List.mem_filterMap.1 (Record.mem_ofPairs (Record.mem_listed.1 hw))
  simp only [Option.bind_eq_bind, Option.bind_eq_some_iff] at ho
  obtain ⟨key, -, text, -, ht⟩ := ho
  obtain ⟨-, rfl⟩ := Prod.mk.inj (Option.some.inj ht)
  obtain ⟨-, hvalue⟩ := Prod.mk.inj he
  exact hv ⟨text, (Option.some.inj hvalue).symm⟩

theorem not_mistyped_ofSettings (s : Settings) : ¬ (ofOverrides s.toFields).Mistyped v := by
  rintro ⟨fields, hfields, hm, hv⟩
  obtain rfl := Option.some.inj hfields
  simp only [Settings.toFields, Settings.boolField, List.mem_cons, Prod.mk.injEq, OptionKey.name] at hm
  have hhash : some v = s.hash.map fun a => Value.text a.name := by simpa using hm
  obtain ⟨a, -, rfl⟩ := Option.map_eq_some_iff.1 hhash.symm
  exact hv ⟨_, rfl⟩

end Layer

namespace Config

theorem not_mistyped_of_resolve {s chosen : Settings} {environment : Environment} {e : ConfigError}
    (h : resolve s environment chosen.toFields = .error e) (v : Value) : e.fault ≠ .hashNotAText v := by
  intro hf
  obtain ⟨err, he, hrej⟩ | ⟨ambient, ha, -⟩ := Layer.reads_ofEnvironment environment
  · rw [resolve, he] at h
    obtain rfl := Except.error.inj h
    exact Layer.not_mistyped_ofEnvironment environment (hrej.mistyped v hf)
  · obtain ⟨err, he, hrej⟩ | ⟨read, hc, -⟩ := Layer.reads_ofOverrides chosen.toFields
    · rw [resolve, ha, he] at h
      obtain rfl := Except.error.inj h
      exact Layer.not_mistyped_ofSettings chosen (hrej.mistyped v hf)
    · rw [resolve, ha, hc] at h
      cases h

end Config

namespace Args

variable {r r' : Reading} {args : List String}

def Reading.TextHash (r : Reading) : Prop :=
  ∀ v, (OptionKey.hash.name, v) ∈ r.given.fields → v.IsText

theorem mem_setField {α : Type} {name : String} {value : α} {fields : List (String × α)}
    {field : String × α} (h : field ∈ Record.setField name value fields) :
    field = (name, value) ∨ field ∈ fields := by
  induction fields with
  | nil => exact .inl (List.mem_singleton.1 h)
  | cons first rest ih =>
    obtain ⟨n, v⟩ := first
    rw [Record.setField] at h
    split at h
    · next hn =>
      obtain rfl | hm := List.mem_cons.1 h
      · exact .inl (by rw [hn])
      · exact .inr (List.mem_cons_of_mem _ hm)
    · obtain rfl | hm := List.mem_cons.1 h
      · exact .inr List.mem_cons_self
      · exact (ih hm).imp_right (List.mem_cons_of_mem _)

theorem switch?_ne_hash (word : String) : switch? word ≠ some (.set .hash) := by
  unfold switch?
  split <;> simp

theorem Reading.TextHash.set (h : r.TextHash) {key : OptionKey} {value : Value}
    (hkey : key = .hash → value.IsText) :
    Reading.TextHash { r with given := r.given.set key.name value } := by
  intro v hm
  obtain he | hm := mem_setField hm
  · obtain ⟨hname, rfl⟩ := Prod.mk.inj he
    exact hkey (Settings.name_inj hname.symm)
  · exact h v hm

theorem textHash_read (hr : r.TextHash) (h : read r args = .ok r') : r'.TextHash := by
  fun_induction read r args with
  | case1 r =>
    obtain rfl := Except.ok.inj h
    exact hr
  | case2 r arg rest hpath ih => exact ih hr h
  | case3 r arg rest hpath hs =>
    obtain rfl := Except.ok.inj h
    exact hr
  | case4 r arg rest hpath s hne hs ih =>
    refine ih ?_ h
    cases s with
    | onlyPaths | diff | help => exact hr
    | set key => exact hr.set fun hkey => absurd (hkey ▸ hs) (switch?_ne_hash arg)
  | case5 => cases h
  | case6 => cases h
  | case7 r arg hpath hs v hv value rest ih =>
    refine ih ?_ h
    cases v with
    | outDir | extensions => exact hr
    | set key => exact hr.set fun _ => ⟨value, rfl⟩

theorem fault_of_parse {e : ConfigError} (h : parse args = .error (.config e)) (v : Value) :
    e.fault ≠ .hashNotAText v := by
  intro hf
  rw [parse] at h
  cases hread : read {} (splitCommand args).2 with
  | error u =>
    simp only [hread] at h
    cases h
  | ok r =>
    simp only [hread, ofReading] at h
    obtain ⟨err, he, hrej⟩ | ⟨s, hs, -⟩ := Layer.reads_ofFields r.fields "command line"
    · rw [he] at h
      obtain rfl := Error.config.inj (Except.error.inj h)
      obtain ⟨fields, hfields, hm, hv⟩ := hrej.mistyped v hf
      obtain rfl := Option.some.inj hfields
      have htext : r.TextHash := textHash_read (fun w hw => by cases hw) hread
      obtain ⟨⟨n, w⟩, hw, hmap⟩ := List.mem_map.1 hm
      obtain ⟨rfl, hwv⟩ := Prod.mk.inj hmap
      obtain rfl := Option.some.inj hwv
      rw [Record.toList, Record.mem_listed] at hw
      split at hw
      · exact hv (htext w hw)
      · obtain he | hw := mem_setField hw
        · exact absurd (Prod.mk.inj he).1 (by decide)
        · exact hv (htext w hw)
    · rw [hs] at h
      cases h

end Args

namespace ConfigFile

variable {host : Host} {d : Disk} {dir : Key} {e : ConfigError}

theorem raise_thrown_iff : (∃ t, Error.raise host e = .thrown t) ↔
    ∃ v t, e.fault = .hashNotAText v ∧ host.text v = .error t := by
  obtain ⟨fault, origin⟩ := e
  cases fault with
  | hashNotAText v =>
    cases ht : host.text v <;>
      simp [Error.raise, ConfigError.message, ConfigFault.detail, ht, Except.map]
  | notAnObject | badMarker | unknownHash | badExtensions | notABoolean | unknownOption | unreadable =>
    simp [Error.raise, ConfigError.message, ConfigFault.detail, Except.map]

theorem ofValue_notAText_iff {v w : Value} (origin : String) :
    (∃ e, Settings.ofValue v origin = .error e ∧ e.fault = .hashNotAText w) ↔
      ∃ fields before after, v = .object fields ∧
        Record.listed (fields.map fun (n, v) => (n, some v)) =
          before ++ (OptionKey.hash.name, some w) :: after ∧
        Settings.Acceptable before ∧ ¬ w.IsText := by
  constructor
  · rintro ⟨e, he, hf⟩
    cases v with
    | object fields =>
      simp only [Settings.ofValue, Settings.ofFields] at he
      cases hput : Settings.putAll {} (Record.listed (fields.map fun (n, v) => (n, some v))) with
      | ok s =>
        rw [hput] at he
        cases he
      | error fault =>
        rw [hput] at he
        obtain rfl := Except.error.inj he
        obtain rfl : fault = .hashNotAText w := hf
        obtain ⟨before, after, hl, hacc, hw⟩ := Settings.putAll_notAText_iff.1 hput
        exact ⟨fields, before, after, rfl, hl, hacc, hw⟩
    | instant => cases he
    | null | bool | number | nan | text | list =>
      obtain rfl := Except.error.inj he
      cases hf
  · rintro ⟨fields, before, after, rfl, hl, hacc, hw⟩
    refine ⟨⟨.hashNotAText w, origin⟩, ?_, rfl⟩
    simp only [Settings.ofValue, Settings.ofFields]
    rw [Settings.putAll_notAText_iff.2 ⟨before, after, hl, hacc, hw⟩]
    rfl

/-- The search throws, or what it comes upon is not valid. -/
def Refused (host : Host) (d : Disk) (dir : Key) : Prop :=
  ∃ look, host.explorer d moduleName searchPlaces = .ok look ∧
    ((∃ t, look dir = .error t) ∨ ∃ found, look dir = .ok found ∧ ∃ l ∈ fileLayers found, ¬ l.Valid)

/-- What is rejected first in the file that the search comes upon is a hash that cannot be shown. -/
def Unshowable (host : Host) (d : Disk) (dir : Key) : Prop :=
  ∃ look f fields before v after t, host.explorer d moduleName searchPlaces = .ok look ∧
    look dir = .ok (some f) ∧ f.isEmpty = false ∧ f.value = .object fields ∧
    Record.listed (fields.map fun (n, v) => (n, some v)) =
      before ++ (OptionKey.hash.name, some v) :: after ∧
    Settings.Acceptable before ∧ ¬ v.IsText ∧ host.text v = .error t

/-- A file that the search comes to does not parse, or holds a value that is rejected. -/
def Faulty (parse : String → Bytes → Except Thrown (Option Value)) (d : Disk) (dir : Key) : Prop :=
  ∃ name data, Reaches parse d dir name data ∧ ((∃ t, parse name data = .error t) ∨
    ∃ v, parse name data = .ok (some v) ∧ ¬ (Layer.ofValue v (placeIn dir name)).Valid)

theorem unshowable_iff {look : Key → Except Thrown (Option Found)}
    (hx : host.explorer d moduleName searchPlaces = .ok look) :
    Unshowable host d dir ↔ ∃ found e v t, look dir = .ok found ∧ Found.settings found = .error e ∧
      e.fault = .hashNotAText v ∧ host.text v = .error t := by
  constructor
  · rintro ⟨_, f, fields, before, v, after, t, hx', hf, hempty, hvalue, hl, hacc, hv, ht⟩
    obtain rfl := Except.ok.inj (hx.symm.trans hx')
    obtain ⟨e, he, hfault⟩ := (ofValue_notAText_iff f.path).2 ⟨fields, before, after, hvalue, hl, hacc, hv⟩
    refine ⟨some f, e, v, t, hf, ?_, hfault, ht⟩
    simp only [Found.settings, Option.filter_some, hempty, Bool.not_false, if_true, he, Except.map]
  · rintro ⟨found, e, v, t, hf, hs, hfault, ht⟩
    rw [Found.settings] at hs
    cases hfilter : found.filter fun f => !f.isEmpty with
    | none =>
      rw [hfilter] at hs
      cases hs
    | some f =>
      rw [hfilter] at hs
      obtain ⟨rfl, hempty⟩ := Option.filter_eq_some_iff.1 hfilter
      cases hread : Settings.ofValue f.value f.path with
      | ok s =>
        simp only [hread] at hs
        cases hs
      | error err =>
        simp only [hread] at hs
        obtain rfl := Except.error.inj hs
        obtain ⟨fields, before, after, hvalue, hl, hacc, hv⟩ :=
          (ofValue_notAText_iff f.path).1 ⟨err, hread, hfault⟩
        exact ⟨look, f, fields, before, v, after, t, hx, hf, by simpa using hempty, hvalue, hl, hacc, hv, ht⟩

theorem Faulty.refused {parse : String → Bytes → Except Thrown (Option Value)}
    {look : Key → Except Thrown (Option Found)} (h : Faulty parse d dir) (hdoc : host.Documented parse d dir)
    (hx : host.explorer d moduleName searchPlaces = .ok look) : Refused host d dir := by
  obtain ⟨name, data, hreach, ⟨t, ht⟩ | ⟨v, hv, hno⟩⟩ := h
  · exact ⟨look, hx, .inl (hdoc.malformed look name data t hx hreach ht)⟩
  · refine ⟨look, hx, .inr ⟨_, hdoc.value look name data v hx hreach hv, _, ?_, hno⟩⟩
    simp [fileLayers]

theorem Refused.load_eq (h : Refused host d dir) (environment : Environment)
    (overrides : List (String × Option Value)) :
    ∃ e, load host d dir environment overrides = .error (.raise host e) := by
  obtain ⟨look, hx, ⟨t, ht⟩ | ⟨found, hf, l, hl, hno⟩⟩ := h
  · exact ⟨⟨.unreadable t.message, "config file"⟩,
      load_of_settings_error (by simp only [search, hx, ht])⟩
  · obtain ⟨_, e, -, he, -⟩ | ⟨s, -, hvalid, -⟩ := settings_cases found
    · refine ⟨e, load_of_settings_error ?_⟩
      rw [search_of_found hx hf, he]
      rfl
    · exact absurd (hvalid l hl) hno

end ConfigFile

namespace Command

open ConfigFile (Refused Unshowable Faulty moduleName searchPlaces packageName placeIn)

variable {host : Host} {d : Disk} {args : List String} {environment : Environment} {cwd : Key}
  {terminal : Bool} {parsed : Args}

/-- A command line that gets as far as loading its configuration. -/
structure Loads (args : List String) (parsed : Args) : Prop where
  parse : Args.parse args = .ok parsed
  ne_nil : args ≠ []
  help : parsed.help = false

structure Rejection (d : Disk) (colors : Bool) (r : Result) : Prop where
  exit : r.exit = 1
  report : ∃ diagnostic : Diagnostic, diagnostic.descriptor.code = 1101 ∧
    r.report = ⟨[], [diagnostic.render colors false, ""]⟩
  disk : r.disk = d

theorem rejection_reject (d : Disk) (colors : Bool) (message : String) :
    Rejection d colors (reject d colors message) :=
  ⟨rfl, ⟨_, rfl, rfl⟩, rfl⟩

theorem rejection_of_answer {colors : Bool} {e : ConfigFile.Error} {r : Result}
    (h : answer d colors e = .ok r) : Rejection d colors r := by
  cases e with
  | thrown t => cases h
  | rejected e message =>
    obtain rfl := Except.ok.inj h
    exact rejection_reject d colors message

theorem answer_error_iff {colors : Bool} {e : ConfigError} :
    (∃ t, answer d colors (.raise host e) = .error t) ↔
      ∃ v t, e.fault = .hashNotAText v ∧ host.text v = .error t := by
  rw [← ConfigFile.raise_thrown_iff]
  cases ConfigFile.Error.raise host e <;> simp [answer]

theorem exit_cases (b : Batch) (p : Plan) : b.exit p = 0 ∨ b.exit p = 1 := by
  rw [Batch.exit]
  split
  · exact .inr rfl
  · exact .inl rfl

theorem exit_perform (d : Disk) (r : Report) (c : Context) (args : Args) :
    (perform d r c args).exit = 0 ∨ (perform d r c args).exit = 1 := by
  have hfiles : ∀ dryRun, (processFiles d r c args dryRun).exit = 0 ∨
      (processFiles d r c args dryRun).exit = 1 := by
    intro dryRun
    simp only [processFiles]
    split
    · exact .inr rfl
    · exact exit_cases _ _
  have hexpand : ∀ path, (expandFile d r c args.diff path).exit = 0 ∨
      (expandFile d r c args.diff path).exit = 1 := by
    intro path
    simp only [expandFile, expandSource]
    split
    · exact .inr rfl
    · split
      · exact .inr rfl
      · exact .inl rfl
  rw [perform]
  split
  · exact .inr rfl
  · exact .inr rfl
  · exact hfiles false
  · exact hfiles true
  · exact hexpand _
  · exact .inr rfl
  · exact .inr rfl
  · exact .inl rfl

theorem execute_of_loads (h : Loads args parsed) : execute host d args environment cwd terminal =
    match ConfigFile.load host d cwd environment parsed.overrides.toFields with
      | .error e => answer d (terminal && environment.colors) e
      | .ok (config, path) =>
        .ok (perform d (match path with
            | some p => ({} : Report).log config.verbose ("Using config: " ++ p)
            | none => {}) ⟨config, cwd, terminal && environment.colors, host.mapper⟩ parsed) := by
  have hgo : ¬ (args.isEmpty || parsed.help) = true := by simp [h.ne_nil, h.help]
  rw [execute, h.parse]
  exact if_neg hgo

theorem execute_of_not_loads (h : ∀ parsed, ¬ Loads args parsed) (host : Host) (d : Disk)
    (environment : Environment) (cwd : Key) (terminal : Bool) :
    ∃ r, execute host d args environment cwd terminal = .ok r ∧ (r.exit = 0 ∨ r.exit = 1) := by
  rw [execute]
  cases hp : Args.parse args with
  | error e =>
    cases e with
    | usage e => exact ⟨_, rfl, .inr rfl⟩
    | config e =>
      cases ha : answer d (terminal && environment.colors) (.raise host e) with
      | ok r => exact ⟨r, ha, .inr (rejection_of_answer ha).exit⟩
      | error t =>
        obtain ⟨v, -, hf, -⟩ := answer_error_iff.1 ⟨t, ha⟩
        exact absurd hf (Args.fault_of_parse hp v)
  | ok parsed =>
    cases hstop : args.isEmpty || parsed.help with
    | true => exact ⟨⟨0, ({} : Report).print helpText, d⟩, by simp only [hstop, if_true], .inl rfl⟩
    | false =>
      rw [Bool.or_eq_false_iff] at hstop
      exact absurd ⟨hp, by simpa using hstop.1, hstop.2⟩ (h parsed)

theorem execute_error_of_loads (h : Loads args parsed) (host : Host) (d : Disk)
    (environment : Environment) (cwd : Key) (terminal : Bool) :
    (∃ t, execute host d args environment cwd terminal = .error t) ↔
      (∃ t, host.explorer d moduleName searchPlaces = .error t) ∨ Unshowable host d cwd := by
  rw [execute_of_loads h]
  cases hx : host.explorer d moduleName searchPlaces with
  | error t =>
    have hload : ConfigFile.load host d cwd environment parsed.overrides.toFields = .error (.thrown t) := by
      simp only [ConfigFile.load, ConfigFile.search, hx]
      rfl
    simp [hload, answer]
  | ok look =>
    rw [ConfigFile.unshowable_iff hx]
    cases hf : look cwd with
    | error t =>
      have hsearch : ConfigFile.search host d cwd =
          .error (.raise host ⟨.unreadable t.message, "config file"⟩) := by
        simp only [ConfigFile.search, hx, hf]
      simp [ConfigFile.load_of_settings_error hsearch, answer_error_iff]
    | ok found =>
      have hsearch := ConfigFile.search_of_found hx hf
      cases hs : ConfigFile.Found.settings found with
      | error e =>
        rw [hs] at hsearch
        simp [ConfigFile.load_of_settings_error hsearch, answer_error_iff, hs]
      | ok file =>
        obtain ⟨s, path⟩ := file
        rw [hs] at hsearch
        have hload := ConfigFile.load_of_settings hsearch environment parsed.overrides.toFields
        cases hr : Config.resolve s environment parsed.overrides.toFields with
        | error e =>
          rw [hr] at hload
          have hfault := Config.not_mistyped_of_resolve hr
          simp [hload, Except.mapError, Except.map, answer_error_iff, hfault, hs]
        | ok c =>
          rw [hr] at hload
          simp [hload, Except.mapError, Except.map, hs]

theorem rejection_of_refused {r : Result} (h : Loads args parsed) (hf : Refused host d cwd)
    (hr : execute host d args environment cwd terminal = .ok r) :
    Rejection d (terminal && environment.colors) r := by
  obtain ⟨e, he⟩ := hf.load_eq environment parsed.overrides.toFields
  rw [execute_of_loads h, he] at hr
  exact rejection_of_answer hr

theorem exit_of_loads {r : Result} (h : Loads args parsed)
    (hr : execute host d args environment cwd terminal = .ok r) : r.exit = 0 ∨ r.exit = 1 := by
  rw [execute_of_loads h] at hr
  split at hr
  · exact .inr (rejection_of_answer hr).exit
  · obtain rfl := Except.ok.inj hr
    exact exit_perform _ _ _ _

def holding (name text : String) : Disk :=
  ⟨[([name], .file (Utf8.encode text) Disk.newMode)], [], "7"⟩

theorem exists_eq_error {ε α : Type} {x : Except ε α} (h : x.toOption.isNone = true) :
    ∃ e, x = .error e := by
  cases x with
  | error e => exact ⟨e, rfl⟩
  | ok a => simp [Except.toOption] at h

theorem loads_hash : ∃ parsed, Loads ["hash", "x"] parsed := by
  have hp : ((Args.parse ["hash", "x"]).toOption.any fun parsed => !parsed.help) = true := by
    decide +kernel
  obtain ⟨parsed, hparse, hhelp⟩ := exists_eq_ok hp
  exact ⟨parsed, hparse, by simp, by simpa using hhelp⟩

end Command

end HashedLiterals
