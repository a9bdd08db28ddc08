import HashedLiterals.Config.Explorer
import HashedLiterals.FileUpdate
import HashedLiterals.Proofs.Precedence

/-!
Loading a configuration. Main statement: whatever value the search comes upon, loading refuses the lowest
layer that is not valid, or gives a configuration that follows all layers and can be used without further
checks.
-/
set_option autoImplicit false

namespace HashedLiterals.ConfigFile

variable {host : Host} {d : Disk} {dir : Key} {found : Option Found} {environment : Environment}
  {overrides : List (String × Option Value)} {look : Key → Except Thrown (Option Found)} {e : ConfigError}

def fileLayers (found : Option Found) : List Layer :=
  (found.filter fun f => !f.isEmpty).toList.map fun f => .ofValue f.value f.path

def layers (found : Option Found) (environment : Environment)
    (overrides : List (String × Option Value)) : List Layer :=
  fileLayers found ++ [.ofEnvironment environment, .ofOverrides overrides]

def pathOf (found : Option Found) : Option String :=
  (found.filter fun f => !f.isEmpty).map Found.path

theorem settings_cases (found : Option Found) :
    (∃ l e, fileLayers found = [l] ∧ Found.settings found = .error e ∧ l.Rejected e) ∨
      ∃ s, Found.settings found = .ok (s, pathOf found) ∧ (∀ l ∈ fileLayers found, l.Valid) ∧
        (Config.default.overlay s).Follows (fileLayers found) := by
  rw [fileLayers, Found.settings, pathOf]
  cases found.filter fun f => !f.isEmpty with
  | none => exact .inr ⟨{}, rfl, by simp, Config.follows_default⟩
  | some f =>
    obtain ⟨e, he, hrej⟩ | ⟨s, hok, hacc⟩ := Layer.reads_ofValue f.value f.path
    · exact .inl ⟨_, e, rfl, by simp only [he, Except.map], hrej⟩
    · refine .inr ⟨s, by simp only [hok, Except.map, Option.map_some], ?_,
        Config.follows_default.overlay hacc⟩
      simpa using hacc.valid

theorem search_of_found (hx : host.explorer d moduleName searchPlaces = .ok look)
    (hf : look dir = .ok found) : search host d dir = (Found.settings found).mapError (.raise host) := by
  simp only [search, hx, hf]

theorem load_of_settings_error (hs : search host d dir = .error (.raise host e)) :
    load host d dir environment overrides = .error (.raise host e) := by
  rw [load, hs]
  rfl

theorem load_of_settings {s : Settings} {path : Option String} (hs : search host d dir = .ok (s, path))
    (environment : Environment) (overrides : List (String × Option Value)) :
    load host d dir environment overrides =
      ((Config.resolve s environment overrides).mapError (.raise host)).map fun c => (c, path) := by
  rw [load, hs]
  rfl

theorem raise_eq_rejected (htext : ∀ v, ¬ OptionKey.hash.Accepts v → ∃ t, host.text v = .ok t) {l : Layer}
    (h : l.Rejected e) : ∃ message, Error.raise host e = .rejected e message := by
  obtain ⟨m, hm⟩ : ∃ m, e.message host.text = .ok m := by
    rw [ConfigError.message]
    cases hfault : e.fault with
    | hashNotAText v =>
      obtain ⟨fields, -, -, hv⟩ := h.mistyped v hfault
      obtain ⟨t, ht⟩ := htext v fun ⟨a, ha⟩ => hv ⟨_, ha⟩
      exact ⟨_, by rw [ConfigFault.detail, ht]; rfl⟩
    | notAnObject | badMarker | unknownHash | badExtensions | notABoolean | unknownOption
    | unreadable => exact ⟨_, rfl⟩
  exact ⟨m, by rw [Error.raise, hm]⟩

theorem exists_rejected {ls : List Layer}
    (htext : ∀ v, ¬ OptionKey.hash.Accepts v → ∃ t, host.text v = .ok t)
    (hl : load host d dir environment overrides = .error (.raise host e))
    (h : Layer.FirstRejected ls e) :
    ∃ e message, load host d dir environment overrides = .error (.rejected e message) ∧
      Layer.FirstRejected ls e := by
  obtain ⟨before, l, after, -, -, hrej⟩ := id h
  obtain ⟨message, hm⟩ := raise_eq_rejected htext hrej
  exact ⟨e, message, by rw [hl, hm], h⟩

/-- With a configuration that is sound, the marker passes every check made of it as a text. -/
theorem runWith_of_sound {c : Config} (h : c.Sound) (d : Disk) (registry : Option Registry)
    (o : FileUpdate.Options) (source destination : String) :
    FileUpdate.runWith d registry o c.marker.text source destination =
      .ok (FileUpdate.run d registry { o with marker := c.marker } source destination) := by
  rw [FileUpdate.runWith, FileUpdate.run, Config.markerOption, h.marker]
  cases d.read source <;> rfl

theorem load_follows_layers (hx : host.explorer d moduleName searchPlaces = .ok look)
    (hf : look dir = .ok found) (htext : ∀ v, ¬ OptionKey.hash.Accepts v → ∃ t, host.text v = .ok t)
    (environment : Environment) (overrides : List (String × Option Value)) :
    (∃ e message, load host d dir environment overrides = .error (.rejected e message) ∧
      Layer.FirstRejected (layers found environment overrides) e) ∨
    ∃ c, load host d dir environment overrides = .ok (c, pathOf found) ∧
      (∀ l ∈ layers found environment overrides, l.Valid) ∧
      c.Follows (layers found environment overrides) ∧ c.Sound ∧
      ∀ (d : Disk) (registry : Option Registry) (o : FileUpdate.Options) (source destination : String),
        FileUpdate.runWith d registry o c.marker.text source destination =
          .ok (FileUpdate.run d registry { o with marker := c.marker } source destination) := by
  have hsearch := search_of_found hx hf
  obtain ⟨l, e, hl, he, hrej⟩ | ⟨s, hs, hvalid, hfollows⟩ := settings_cases found
  · rw [he] at hsearch
    exact .inl (exists_rejected htext (load_of_settings_error hsearch)
      ⟨[], l, _, by rw [layers, hl]; rfl, by simp, hrej⟩)
  · rw [hs] at hsearch
    have hload := load_of_settings hsearch environment overrides
    obtain ⟨e, he, hfirst⟩ | ⟨c, hc, hall, hfollow⟩ := Config.resolve_cases hvalid hfollows
    · rw [he] at hload
      exact .inl (exists_rejected htext hload hfirst)
    · rw [hc] at hload
      exact .inr ⟨c, hload, hall, hfollow, hfollow.sound, runWith_of_sound hfollow.sound⟩

def project : Disk :=
  ⟨[(["p"], .directory), (["p", ".stridrc.json"],
    .file (Utf8.encode "\x7b\"hash\": \"fnv1a\", \"verbose\": true\x7d") Disk.newMode)], [], "7"⟩

def textual : Host := ⟨Explorer.construct, fun v => .ok (v.describe.getD ""), .standard⟩

theorem load_follows_layers_project :
    let environment : Environment := ⟨[("STRID_VERBOSE", some "0"), ("STRID_MARKER", some "HASH")]⟩
    let overrides := [("extensions", some (Value.list [])), ("marker", none)]
    ∃ look found c, textual.explorer project moduleName searchPlaces = .ok look ∧
      look ["p"] = .ok (some found) ∧ found.path = "/p/.stridrc.json" ∧
      load textual project ["p"] environment overrides = .ok (c, some "/p/.stridrc.json") ∧
      c.Follows (layers (some found) environment overrides) ∧ c.Sound ∧
      c.hash = .fnv1a ∧ c.verbose = false ∧ c.extensions = [] := by
  intro environment overrides
  let look := Explorer.searchIn project moduleName searchPlaces
  have hlook : textual.explorer project moduleName searchPlaces = .ok look := rfl
  have hsome : ((look ["p"]).toOption.any fun found => found.any fun f =>
      !f.isEmpty && f.path = "/p/.stridrc.json") = true := by decide +kernel
  obtain ⟨found, hfound, hany⟩ := Command.exists_eq_ok hsome
  obtain ⟨f, rfl, hf⟩ := (Option.any_eq_true _ _).1 hany
  simp only [Bool.and_eq_true, decide_eq_true_eq] at hf
  have hpath : pathOf (some f) = some "/p/.stridrc.json" := by
    rw [pathOf, Option.filter_some, if_pos hf.1, Option.map_some, hf.2]
  have hload : ((load textual project ["p"] environment overrides).toOption.any fun (c, _) =>
      c.hash = .fnv1a && c.verbose = false && c.extensions = []) = true := by decide +kernel
  obtain ⟨e, message, he, -⟩ | ⟨c, hc, -, hfollows, hsound, -⟩ :=
    load_follows_layers hlook hfound (fun v _ => ⟨_, rfl⟩) environment overrides
  · rw [he] at hload
    cases hload
  · rw [hc] at hload
    have hvalues : (c.hash = .fnv1a ∧ c.verbose = false) ∧ c.extensions = [] := by
      simpa [Except.toOption] using hload
    rw [hpath] at hc
    exact ⟨look, f, c, hlook, hfound, hf.2, hc, hfollows, hsound, hvalues.1.1, hvalues.1.2, hvalues.2⟩

end HashedLiterals.ConfigFile
