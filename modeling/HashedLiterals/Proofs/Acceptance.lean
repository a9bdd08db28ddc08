import HashedLiterals.Config.Resolve
import HashedLiterals.Proofs.Records
import HashedLiterals.Proofs.TextSources

set_option autoImplicit false

namespace HashedLiterals

theorem Utf8.wellFormed_of_ascii {b : Bytes} (h : ∀ x ∈ b, x < 0x80) : WellFormed b := by
  have hone : WellFormed (b.flatMap fun x => [x]) := by
    refine wellFormed_flatMap fun x hx => ⟨String.singleton (Char.ofUInt8 x), ?_⟩
    have hc : (Char.ofUInt8 x).toNat = x.toNat := UInt8.toNat_toUInt32 x
    have hlt : x.toNat < 0x80 := by simpa [UInt8.lt_iff_toNat_lt] using h x hx
    simpa [encode, hc] using utf8EncodeChar_of_lt (c := Char.ofUInt8 x) (by omega)
  simpa using hone

namespace Marker

variable {s : String} {m : Marker}

theorem encode_text (m : Marker) : Utf8.encode m.text = m.name :=
  (Utf8.wellFormed_of_ascii fun b hb => Bytes.lt_of_isAlnum (m.isAlnum_of_mem b hb)).encode_decode

@[simp] theorem ofText?_text (m : Marker) : ofText? m.text = some m := by
  have hall : m.name.all Bytes.isAlnum = true := List.all_eq_true.2 m.isAlnum_of_mem
  simp only [ofText?, encode_text]
  rw [dif_pos ⟨m.name_ne_nil, hall⟩]

theorem text_of_ofText? (h : ofText? s = some m) : m.text = s := by
  rw [text, name_of_ofText? h, Utf8.decode_encode]

end Marker

theorem Hash.Algorithm.name_of_ofName? {name : String} {a : Algorithm} (h : ofName? name = some a) :
    a.name = name := by
  simpa using List.find?_some h

namespace Blank

theorem head?_trimChars {text : List Char} {c : Char} (h : c ∈ (trimChars text).head?) :
    isBlank c = false := by
  obtain ⟨rest, hrest⟩ := List.head?_eq_some_iff.1 (Option.mem_def.1 h)
  have hprefix : trimChars text <+: text.dropWhile isBlank := by
    have hsuffix := List.reverse_prefix.2 (List.dropWhile_suffix (p := isBlank) (l := (text.dropWhile isBlank).reverse))
    rwa [List.reverse_reverse] at hsuffix
  obtain ⟨more, hmore⟩ := hprefix
  have hhead := List.head?_dropWhile_not isBlank text
  rw [← hmore, hrest] at hhead
  simpa using hhead

theorem getLast?_trimChars {text : List Char} {c : Char} (h : c ∈ (trimChars text).getLast?) :
    isBlank c = false := by
  have hhead := List.head?_dropWhile_not isBlank (text.dropWhile isBlank).reverse
  rw [trimChars, List.getLast?_reverse] at h
  rw [Option.mem_def.1 h] at hhead
  exact hhead

theorem trimChars_eq_self {text : List Char} (hh : ∀ c ∈ text.head?, isBlank c = false)
    (hl : ∀ c ∈ text.getLast?, isBlank c = false) : trimChars text = text := by
  have hdrop : ∀ {l : List Char}, (∀ c ∈ l.head?, isBlank c = false) → l.dropWhile isBlank = l := by
    intro l hl
    cases l with
    | nil => rfl
    | cons c l => rw [List.dropWhile_cons_of_neg (by simp [hl c rfl])]
  rw [trimChars, hdrop hh, hdrop (by simpa using hl), List.reverse_reverse]

theorem trim_eq_self_iff {text : String} : trim text = text ↔ trimChars text.toList = text.toList := by
  rw [trim, String.ext_iff, String.toList_ofList]

theorem trim_trim (text : String) : trim (trim text) = trim text := by
  rw [trim_eq_self_iff, trim, String.toList_ofList]
  exact trimChars_eq_self (fun _ => head?_trimChars) fun _ => getLast?_trimChars

end Blank

def Value.IsText (v : Value) : Prop := ∃ s, v = .text s

namespace OptionKey

variable {name : String} {key : OptionKey} {v : Value}

def Domain : OptionKey → Type
  | .marker => Marker
  | .hash => Hash.Algorithm
  | .extensions => List String
  | .sourceMap | .detectCollisions | .verbose => Bool

def IsFlag (v : Value) : Bool → Prop
  | true => v = .bool true ∨ v = .text "1" ∨ v = .text "true"
  | false => v = .bool false ∨ v = .text "0" ∨ v = .text "false" ∨ v = .text ""

def dotted (text : String) : String := if text.toList.head? = some '.' then text else "." ++ text

/-- A list of texts or a text with commas: blanks around them and empty ones do not count. -/
def IsExtensions (v : Value) (found : List String) : Prop :=
  ∃ texts : List String,
    (v = .list (texts.map Value.text) ∨ ∃ s, v = .text s ∧ texts = Settings.splitCommas s) ∧
      found = ((texts.map Blank.trim).filter (· ≠ "")).map dotted

/-- What a value means for an option. -/
def Means : (key : OptionKey) → Value → key.Domain → Prop
  | .marker, v, m => v = .text m.text
  | .hash, v, a => v = .text (Hash.Algorithm.name a)
  | .extensions, v, found => IsExtensions v found
  | .sourceMap, v, b | .detectCollisions, v, b | .verbose, v, b => IsFlag v b

def Accepts (key : OptionKey) (v : Value) : Prop := ∃ x, key.Means v x

theorem ofName?_name (key : OptionKey) : ofName? key.name = some key := by
  cases key <;> decide

theorem name_of_ofName? (h : ofName? name = some key) : key.name = name := by
  simpa using List.find?_some h

theorem index?_name (key : OptionKey) : Record.index? key.name = none := by
  cases key <;> decide

def read : (key : OptionKey) → Value → Except ConfigFault key.Domain
  | .marker => Settings.readMarker
  | .hash => Settings.readHash
  | .extensions => Settings.readExtensions
  | .sourceMap => Settings.readBool .sourceMap
  | .detectCollisions => Settings.readBool .detectCollisions
  | .verbose => Settings.readBool .verbose

end OptionKey

namespace Settings

variable {s t : Settings} {key : OptionKey} {v : Value} {fault : ConfigFault} {origin : String}
  {fields : List (String × Option Value)}

theorem readMarker_ok_iff {m : Marker} : readMarker v = .ok m ↔ v = .text m.text := by
  constructor
  · intro h
    unfold readMarker at h
    split at h
    · split at h
      · next found hfound =>
        obtain rfl := Except.ok.inj h
        rw [Marker.text_of_ofText? hfound]
      · cases h
    · cases h
  · rintro rfl
    simp [readMarker]

theorem readHash_ok_iff {a : Hash.Algorithm} : readHash v = .ok a ↔ v = .text a.name := by
  constructor
  · intro h
    unfold readHash at h
    split at h
    · split at h
      · next found hfound =>
        obtain rfl := Except.ok.inj h
        rw [Hash.Algorithm.name_of_ofName? hfound]
      · cases h
    · cases h
  · rintro rfl
    simp [readHash]

theorem readHash_notAText_iff {w : Value} :
    readHash v = .error (.hashNotAText w) ↔ v = w ∧ ¬ v.IsText := by
  unfold readHash
  split
  · next s => split <;> simp [Value.IsText]
  · next hno => simpa [Value.IsText] using fun _ => hno

theorem readBool_ok_iff {b : Bool} : readBool key v = .ok b ↔ OptionKey.IsFlag v b := by
  cases v with
  | bool c => cases b <;> cases c <;> simp [readBool, OptionKey.IsFlag]
  | text s =>
    have hfalse : ¬ (s = "1" ∨ s = "true") ∨ ¬ (s = "0" ∨ s = "false" ∨ s = "") := by grind
    cases b <;> simp only [readBool, OptionKey.IsFlag, Value.text.injEq, reduceCtorEq, false_or] <;>
      grind
  | null | number | nan | instant | list | object => cases b <;> simp [readBool, OptionKey.IsFlag]

theorem extension?_eq (text : String) :
    extension? text = if Blank.trim text = "" then none else some (OptionKey.dotted (Blank.trim text)) := by
  have hlist : (Blank.trim text).toList = Blank.trimChars text.toList := by simp [Blank.trim]
  have hempty : Blank.trim text = "" ↔ Blank.trimChars text.toList = [] := by
    rw [← hlist, String.toList_eq_nil_iff]
  unfold extension?
  split
  · next h => rw [if_pos (hempty.2 h)]
  · next rest h =>
    rw [if_neg (by simp [hempty, h]), OptionKey.dotted, hlist, h, if_pos List.head?_cons, ← h, Blank.trim]
  · next hne hdot =>
    have hhead : (Blank.trimChars text.toList).head? ≠ some '.' := by
      intro he
      obtain ⟨rest, hrest⟩ := List.head?_eq_some_iff.1 he
      exact hdot rest hrest
    rw [if_neg (by simpa [hempty] using hne), OptionKey.dotted, hlist, if_neg hhead]
    simp [Blank.trim]

theorem filterMap_extension? (texts : List String) :
    texts.filterMap extension? = ((texts.map Blank.trim).filter (· ≠ "")).map OptionKey.dotted := by
  induction texts with
  | nil => rfl
  | cons text texts ih =>
    have htext := extension?_eq text
    by_cases h : Blank.trim text = ""
    · rw [if_pos h] at htext
      rw [List.filterMap_cons_none htext, List.map_cons, List.filter_cons_of_neg (by simp [h]), ih]
    · rw [if_neg h] at htext
      rw [List.filterMap_cons_some htext, List.map_cons, List.filter_cons_of_pos (by simp [h]),
        List.map_cons, ih]

theorem mapM_readExtension_texts (texts : List String) :
    (texts.map Value.text).mapM readExtension = .ok (texts.map extension?) := by
  induction texts with
  | nil => rfl
  | cons text texts ih => simp [readExtension, ih, bind, Except.bind, pure, Except.pure]

theorem mapM_readExtension_cases (items : List Value) :
    (∃ texts : List String, items = texts.map Value.text) ∨
      items.mapM readExtension = .error .badExtensions := by
  induction items with
  | nil => exact .inl ⟨[], rfl⟩
  | cons v items ih =>
    cases v with
    | text s =>
      obtain ⟨texts, rfl⟩ | he := ih
      · exact .inl ⟨s :: texts, rfl⟩
      · exact .inr (by simp [readExtension, he, bind, Except.bind])
    | null | bool | number | nan | instant | list | object => exact .inr rfl

theorem readExtensions_ok_iff {found : List String} :
    readExtensions v = .ok found ↔ OptionKey.IsExtensions v found := by
  constructor
  · intro h
    cases v with
    | text s =>
      obtain rfl := Except.ok.inj h
      exact ⟨splitCommas s, .inr ⟨s, rfl, rfl⟩, filterMap_extension? _⟩
    | list items =>
      obtain ⟨texts, rfl⟩ | he := mapM_readExtension_cases items
      · simp only [readExtensions, mapM_readExtension_texts, Except.map, Except.ok.injEq] at h
        refine ⟨texts, .inl rfl, ?_⟩
        rw [← h, ← filterMap_extension?, List.filterMap_map]
        rfl
      · simp [readExtensions, he, Except.map] at h
    | null | bool | number | nan | instant | object => cases h
  · rintro ⟨texts, rfl | ⟨s, rfl, rfl⟩, rfl⟩
    · rw [← filterMap_extension?, readExtensions, mapM_readExtension_texts, Except.map,
        List.filterMap_map]
      rfl
    · rw [← filterMap_extension?, readExtensions]

theorem read_ok_iff {x : key.Domain} : key.read v = .ok x ↔ key.Means v x := by
  cases key with
  | marker => exact readMarker_ok_iff
  | hash => exact readHash_ok_iff
  | extensions => exact readExtensions_ok_iff
  | sourceMap | detectCollisions | verbose => exact readBool_ok_iff

theorem read_notAText {w : Value} (h : key.read v = .error (.hashNotAText w)) :
    key = .hash ∧ v = w ∧ ¬ v.IsText := by
  cases key with
  | hash => exact ⟨rfl, readHash_notAText_iff.1 h⟩
  | marker =>
    simp only [OptionKey.read, readMarker] at h
    split at h
    · split at h <;> cases h
    · cases h
  | extensions =>
    cases v with
    | list items =>
      obtain ⟨texts, rfl⟩ | he := mapM_readExtension_cases items
      · rw [OptionKey.read, readExtensions, mapM_readExtension_texts] at h
        cases h
      · rw [OptionKey.read, readExtensions, he] at h
        cases h
    | text | null | bool | number | nan | instant | object => cases h
  | sourceMap | detectCollisions | verbose =>
    simp only [OptionKey.read, readBool] at h
    split at h
    · cases h
    · split at h
      · cases h
      · split at h <;> cases h
    · cases h

def get (s : Settings) : (key : OptionKey) → Option key.Domain
  | .marker => s.marker
  | .hash => s.hash
  | .extensions => s.extensions
  | .sourceMap => s.sourceMap
  | .detectCollisions => s.detectCollisions
  | .verbose => s.verbose

def change (s : Settings) : (key : OptionKey) → key.Domain → Settings
  | .marker, m => { s with marker := some m }
  | .hash, a => { s with hash := some a }
  | .extensions, found => { s with extensions := some found }
  | .sourceMap, b => { s with sourceMap := some b }
  | .detectCollisions, b => { s with detectCollisions := some b }
  | .verbose, b => { s with verbose := some b }

theorem get_change (s : Settings) (key : OptionKey) (x : key.Domain) :
    (s.change key x).get key = some x := by
  cases key <;> rfl

theorem get_change_of_ne {other : OptionKey} (x : key.Domain) (h : other ≠ key) :
    (s.change key x).get other = s.get other := by
  cases key <;> cases other <;> first | rfl | exact absurd rfl h

theorem put_eq (s : Settings) (key : OptionKey) (v : Value) :
    s.put key v = (key.read v).map (s.change key) := by
  cases key <;> rfl

def given (fields : List (String × Option Value)) (key : OptionKey) : Option Value :=
  fields.reverse.findSome? fun (name, v) => if name = key.name then v else none

/-- Each value belongs to an option and means something for it. -/
def Acceptable (fields : List (String × Option Value)) : Prop :=
  ∀ field ∈ fields, ∀ v ∈ field.2, ∃ key : OptionKey, key.name = field.1 ∧ key.Accepts v

theorem given_cons (name : String) (v : Option Value) (fields : List (String × Option Value))
    (key : OptionKey) :
    given ((name, v) :: fields) key =
      (given fields key).or (if name = key.name then v else none) := by
  rw [given, List.reverse_cons, List.findSome?_append, List.findSome?_singleton, given]

theorem name_inj {key other : OptionKey} (h : key.name = other.name) : key = other := by
  have hk := OptionKey.ofName?_name key
  rw [h, OptionKey.ofName?_name] at hk
  exact (Option.some.inj hk).symm

theorem putNamed_ok {name : String} (h : s.putNamed name v = .ok t) :
    ∃ key x, key.name = name ∧ key.Means v x ∧ t = s.change key x := by
  unfold putNamed at h
  split at h
  · next key hkey =>
    rw [put_eq] at h
    cases hr : key.read v with
    | error fault =>
      rw [hr] at h
      cases h
    | ok x =>
      rw [hr] at h
      exact ⟨key, x, OptionKey.name_of_ofName? hkey, read_ok_iff.1 hr, (Except.ok.inj h).symm⟩
  · cases h

theorem putNamed_error {name : String} (h : s.putNamed name v = .error fault) :
    (¬ ∃ key : OptionKey, key.name = name ∧ key.Accepts v) ∧
      ∀ w, fault = .hashNotAText w → name = OptionKey.hash.name ∧ v = w ∧ ¬ v.IsText := by
  unfold putNamed at h
  split at h
  · next key hkey =>
    obtain rfl := OptionKey.name_of_ofName? hkey
    rw [put_eq] at h
    cases hr : key.read v with
    | ok x =>
      rw [hr] at h
      cases h
    | error reason =>
      rw [hr] at h
      obtain rfl := Except.error.inj h
      constructor
      · rintro ⟨other, hname, x, hx⟩
        obtain rfl := name_inj hname
        rw [read_ok_iff.2 hx] at hr
        cases hr
      · rintro w rfl
        obtain ⟨rfl, hv⟩ := read_notAText hr
        exact ⟨rfl, hv⟩
  · next hkey =>
    obtain rfl := Except.error.inj h
    refine ⟨?_, by simp⟩
    rintro ⟨key, rfl, -⟩
    rw [OptionKey.ofName?_name] at hkey
    cases hkey

theorem putAll_ok (h : s.putAll fields = .ok t) :
    Acceptable fields ∧ ∀ key : OptionKey,
      (∃ v x, given fields key = some v ∧ key.Means v x ∧ t.get key = some x) ∨
        given fields key = none ∧ t.get key = s.get key := by
  fun_induction putAll s fields with
  | case1 s =>
    obtain rfl := Except.ok.inj h
    exact ⟨by simp [Acceptable], fun key => .inr ⟨rfl, rfl⟩⟩
  | case2 s name rest ih =>
    obtain ⟨hall, hget⟩ := ih h
    refine ⟨List.forall_mem_cons.2 ⟨by simp, hall⟩, fun key => ?_⟩
    rw [given_cons, ite_self, Option.or_none]
    exact hget key
  | case3 s name v rest ih =>
    cases hput : s.putNamed name v with
    | error fault =>
      rw [hput] at h
      cases h
    | ok next =>
      rw [hput] at h
      obtain ⟨hall, hget⟩ := ih next h
      obtain ⟨set, x, rfl, hx, rfl⟩ := putNamed_ok hput
      refine ⟨List.forall_mem_cons.2 ⟨by simpa using ⟨set, rfl, x, hx⟩, hall⟩, fun key => ?_⟩
      rw [given_cons]
      obtain ⟨w, y, hw, hy, ht⟩ | ⟨hnone, ht⟩ := hget key
      · exact .inl ⟨w, y, by rw [hw, Option.some_or], hy, ht⟩
      · rw [hnone, Option.none_or]
        by_cases hk : key = set
        · subst hk
          exact .inl ⟨v, x, if_pos rfl, hx, ht.trans (get_change s key x)⟩
        · rw [if_neg fun he => hk (name_inj he).symm]
          exact .inr ⟨rfl, ht.trans (get_change_of_ne x hk)⟩

theorem putAll_error (h : s.putAll fields = .error fault) :
    ∃ before name v after, fields = before ++ (name, some v) :: after ∧ Acceptable before ∧
      (¬ ∃ key : OptionKey, key.name = name ∧ key.Accepts v) ∧
      ∀ w, fault = .hashNotAText w → name = OptionKey.hash.name ∧ v = w ∧ ¬ v.IsText := by
  fun_induction putAll s fields with
  | case1 s => cases h
  | case2 s name rest ih =>
    obtain ⟨before, other, v, after, rfl, hacc, hno⟩ := ih h
    exact ⟨(name, none) :: before, other, v, after, rfl,
      List.forall_mem_cons.2 ⟨by simp, hacc⟩, hno⟩
  | case3 s name v rest ih =>
    cases hput : s.putNamed name v with
    | error reason =>
      rw [hput] at h
      obtain rfl := Except.error.inj h
      exact ⟨[], name, v, rest, rfl, by simp [Acceptable], putNamed_error hput⟩
    | ok next =>
      rw [hput] at h
      obtain ⟨before, other, w, after, rfl, hacc, hno⟩ := ih next h
      obtain ⟨key, x, rfl, hx, -⟩ := putNamed_ok hput
      exact ⟨(key.name, some v) :: before, other, w, after, rfl,
        List.forall_mem_cons.2 ⟨by simpa using ⟨key, rfl, x, hx⟩, hacc⟩, hno⟩

theorem putAll_error_read (h : s.putAll fields = .error fault)
    (hnames : ∀ f ∈ fields, ∃ key : OptionKey, f.1 = key.name) :
    ∃ (key : OptionKey) (v : Value), (key.name, some v) ∈ fields ∧ key.read v = .error fault := by
  fun_induction putAll s fields with
  | case1 s => cases h
  | case2 s name rest ih =>
    obtain ⟨key, v, hm, hr⟩ := ih h fun f hf => hnames f (List.mem_cons_of_mem _ hf)
    exact ⟨key, v, List.mem_cons_of_mem _ hm, hr⟩
  | case3 s name v rest ih =>
    obtain ⟨key, hkey⟩ := hnames (name, some v) List.mem_cons_self
    obtain rfl : name = key.name := hkey
    rw [putNamed, OptionKey.ofName?_name] at h
    simp only [put_eq] at h
    cases hr : key.read v with
    | error reason =>
      rw [hr] at h
      obtain rfl := Except.error.inj h
      exact ⟨key, v, List.mem_cons_self, hr⟩
    | ok x =>
      rw [hr] at h
      obtain ⟨other, w, hm, hw⟩ := ih (s.change key x) h fun f hf => hnames f (List.mem_cons_of_mem _ hf)
      exact ⟨other, w, List.mem_cons_of_mem _ hm, hw⟩

theorem not_acceptable_of_error (h : s.putAll fields = .error fault) : ¬ Acceptable fields := by
  obtain ⟨before, name, v, after, rfl, -, hno, -⟩ := putAll_error h
  exact fun hacc => hno (hacc (name, some v) (by simp) v rfl)

theorem putAll_append (s : Settings) (fields more : List (String × Option Value)) :
    s.putAll (fields ++ more) = (s.putAll fields).bind fun t => t.putAll more := by
  fun_induction putAll s fields with
  | case1 s => rfl
  | case2 s name rest ih => exact ih
  | case3 s name v rest ih =>
    rw [List.cons_append, putAll]
    cases s.putNamed name v with
    | error reason => rfl
    | ok next => exact ih next

/-- Reading stops at a hash that is no text, if nothing is wrong before it. -/
theorem putAll_notAText_iff : s.putAll fields = .error (.hashNotAText v) ↔
    ∃ before after, fields = before ++ (OptionKey.hash.name, some v) :: after ∧
      Acceptable before ∧ ¬ v.IsText := by
  constructor
  · intro h
    obtain ⟨before, name, v, after, hfields, hacc, -, htext⟩ := putAll_error h
    obtain ⟨rfl, rfl, hv⟩ := htext _ rfl
    exact ⟨before, after, hfields, hacc, hv⟩
  · rintro ⟨before, after, rfl, hacc, hv⟩
    rw [putAll_append]
    cases hput : s.putAll before with
    | error reason => exact absurd hacc (not_acceptable_of_error hput)
    | ok next =>
      have hnamed : next.putNamed OptionKey.hash.name v = .error (.hashNotAText v) := by
        have hread : OptionKey.hash.read v = .error (.hashNotAText v) :=
          readHash_notAText_iff.2 ⟨rfl, hv⟩
        rw [putNamed, OptionKey.ofName?_name]
        simp only [put_eq, hread, Except.map]
      simp only [Except.bind, putAll, hnamed]

theorem given_append (fields more : List (String × Option Value)) (key : OptionKey) :
    given (fields ++ more) key = (given more key).or (given fields key) := by
  rw [given, List.reverse_append, List.findSome?_append, given, given]

theorem given_eq_none (h : ∀ field ∈ fields, field.1 ≠ key.name) : given fields key = none := by
  rw [given, List.findSome?_eq_none_iff]
  intro field hm
  exact if_neg (h field (List.mem_reverse.1 hm))

theorem given_eq_some_iff (h : (fields.map Prod.fst).Nodup) :
    given fields key = some v ↔ (key.name, some v) ∈ fields := by
  induction fields with
  | nil => simp [given]
  | cons field rest ih =>
    obtain ⟨name, w⟩ := field
    obtain ⟨hfirst, hrest⟩ := List.nodup_cons.1 h
    rw [given_cons, List.mem_cons]
    by_cases hname : name = key.name
    · subst hname
      have hno : ∀ x, (key.name, x) ∉ rest := fun x hx => hfirst (List.mem_map.2 ⟨_, hx, rfl⟩)
      rw [given_eq_none fun f hf hn => hno f.2 (hn ▸ hf), if_pos rfl, Option.none_or]
      simp [hno, eq_comm]
    · rw [if_neg hname, Option.or_none, ih hrest]
      simp [Ne.symm hname]

/-- The order in which fields are listed does not matter: no option's name is a number. -/
theorem given_listed (fields : List (String × Option Value)) (key : OptionKey) :
    given (Record.listed fields) key = given fields key := by
  have hnumbered : ∀ {l : List (Nat × String × Option Value)},
      (∀ x ∈ l, x ∈ fields.filterMap fun f => (Record.index? f.1).map fun n => (n, f)) →
        given (l.map Prod.snd) key = none := by
    intro l hl
    refine given_eq_none fun field hm hname => ?_
    obtain ⟨x, hx, rfl⟩ := List.mem_map.1 hm
    obtain ⟨other, -, ho⟩ := List.mem_filterMap.1 (hl x hx)
    obtain ⟨n, hn, rfl⟩ := Option.map_eq_some_iff.1 ho
    rw [hname, OptionKey.index?_name] at hn
    cases hn
  rw [Record.listed, given_append, hnumbered fun x hx => (List.mergeSort_perm _ _).mem_iff.1 hx,
    Option.or_none]
  clear hnumbered
  induction fields with
  | nil => rfl
  | cons field rest ih =>
    obtain ⟨name, v⟩ := field
    rw [given_cons, ← ih]
    cases hi : Record.index? name with
    | none => rw [List.filter_cons_of_pos (by simp [hi]), given_cons]
    | some n =>
      have hne : name ≠ key.name := by
        rintro rfl
        rw [OptionKey.index?_name] at hi
        cases hi
      rw [List.filter_cons_of_neg (by simp [hi]), if_neg hne, Option.or_none]

theorem acceptable_listed : Acceptable (Record.listed fields) ↔ Acceptable fields := by
  simp only [Acceptable, Record.mem_listed]

end Settings

end HashedLiterals
