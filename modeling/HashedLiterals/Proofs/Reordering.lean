import HashedLiterals.Proofs.Revalidation

/-!
Command lines in another order. Every option and every path changes a part of what is read, and no other
part. Main statement: a command line can be reordered as long as what changes the same part keeps its
order, switches apart, and no command word moves to the front or away from it; and what stands behind two
dashes is added to the paths as it is.
-/
set_option autoImplicit false

namespace HashedLiterals

namespace Layer

variable {fields other : List (String × Option Value)} {origin : String} {s t : Settings} {l : Layer}

theorem Accepted.unique (hs : l.Accepted s) (ht : l.Accepted t) : s = t := by
  refine Settings.ext_get fun key => ?_
  obtain ⟨v, x, hv, hx, hget⟩ | ⟨hnone, hget⟩ := hs.get key
  · obtain ⟨y, hy, hget'⟩ := ht.get_of_given hv
    rw [hget, hget', hx.unique hy]
  · obtain ⟨w, y, hw, -⟩ | ⟨-, hget'⟩ := ht.get key
    · rw [hnone] at hw
      cases hw
    · rw [hget, hget']

theorem Accepted.perm (h : Accepted ⟨origin, some fields⟩ s) (hn : (fields.map Prod.fst).Nodup)
    (hp : other.Perm fields) : Accepted ⟨origin, some other⟩ s := by
  have hn' : (other.map Prod.fst).Nodup := (hp.map Prod.fst).nodup_iff.2 hn
  have hgiven : ∀ key, Settings.given other key = Settings.given fields key := by
    intro key
    refine Option.ext fun v => ?_
    rw [Settings.given_eq_some_iff hn', Settings.given_eq_some_iff hn, hp.mem_iff]
  obtain ⟨⟨_, hsome, hall⟩, hget⟩ := h
  obtain rfl := Option.some.inj hsome
  refine ⟨⟨other, rfl, fun f hf => hall f (hp.mem_iff.1 hf)⟩, fun key => ?_⟩
  have hsame : Layer.given ⟨origin, some other⟩ key = Layer.given ⟨origin, some fields⟩ key := hgiven key
  rw [hsame]
  exact hget key

theorem Reads.eq_ok {r : Except ConfigError Settings} (hr : l.Reads r) (h : l.Accepted s) : r = .ok s := by
  obtain ⟨err, -, hrejected⟩ | ⟨t, rfl, ht⟩ := hr
  · exact absurd h.valid hrejected.invalid
  · rw [h.unique ht]

end Layer

theorem Settings.ofFields_perm {fields other : List (String × Option Value)} {origin : String}
    {s : Settings} (h : ofFields fields origin = .ok s) (hn : (fields.map Prod.fst).Nodup) (hp : other.Perm fields) :
    ofFields other origin = .ok s :=
  (Layer.reads_ofFields other origin).eq_ok ((accepted_of_ofFields h).perm hn hp)

namespace Args

/-- What an option or a path changes. -/
inductive Part where
  | paths
  | extensions
  | outDir
  | diff
  | help
  | given (name : String)
  deriving DecidableEq, Repr

def Switch.part : Switch → Part
  | .onlyPaths => .paths
  | .set key => .given key.name
  | .diff => .diff
  | .help => .help

def Valued.part : Valued → Part
  | .set key => .given key.name
  | .outDir => .outDir
  | .extensions => .extensions

def switchWords : List (String × Switch) :=
  [("--", .onlyPaths), ("--source-map", .set .sourceMap), ("--detect-collisions", .set .detectCollisions),
    ("-v", .set .verbose), ("--verbose", .set .verbose), ("--diff", .diff), ("-h", .help), ("--help", .help)]

def valuedWords : List (String × Valued) :=
  [("-m", .set .marker), ("--marker", .set .marker), ("-a", .set .hash), ("--hash", .set .hash),
    ("-o", .outDir), ("--out-dir", .outDir), ("-e", .extensions), ("--ext", .extensions)]

theorem mem_switchWords {word : String} {s : Switch} (h : switch? word = some s) :
    (word, s) ∈ switchWords := by
  unfold switch? at h
  split at h <;> simp_all [switchWords]

theorem mem_valuedWords {word : String} {v : Valued} (h : valued? word = some v) :
    (word, v) ∈ valuedWords := by
  unfold valued? at h
  split at h <;> simp_all [valuedWords]

theorem switchWords_apart : ∀ p ∈ switchWords, isPath p.1 = false ∧ Command.ofName? p.1 = none := by
  decide

theorem valuedWords_apart : ∀ p ∈ valuedWords,
    isPath p.1 = false ∧ Command.ofName? p.1 = none ∧ switch? p.1 = none := by
  decide

theorem part_valuedWords : ∀ q ∈ valuedWords,
    q.2.part ≠ .paths ∧ ∀ p ∈ switchWords, p.2.part ≠ q.2.part := by
  decide

theorem Switch.part_inj {s t : Switch} (h : s.part = t.part) : s = t := by
  cases s <;> cases t <;> first | rfl | cases h | skip
  next key other => rw [Settings.name_inj (Part.given.inj h)]

inductive Item where
  | path (text : String) (h : isPath text = true)
  | switch (word : String) (s : Switch) (h : switch? word = some s) (hs : s ≠ .onlyPaths)
  | valued (word : String) (v : Valued) (h : valued? word = some v) (value : String)
  deriving DecidableEq

namespace Item

variable {i j : Item}

def words : Item → List String
  | .path text _ => [text]
  | .switch word _ _ _ => [word]
  | .valued word _ _ value => [word, value]

def part : Item → Part
  | .path _ _ => .paths
  | .switch _ s _ _ => s.part
  | .valued _ v _ _ => v.part

def isSwitch : Item → Bool
  | .switch _ _ _ _ => true
  | .path _ _ | .valued _ _ _ _ => false

theorem part_ne_of_isSwitch (hi : i.isSwitch = true) (hj : j.isSwitch = false) : i.part ≠ j.part := by
  cases i with
  | path | valued => cases hi
  | switch word s h hs =>
    cases j with
    | switch => cases hj
    | path text ht => exact fun hpart => hs (Switch.part_inj hpart)
    | valued word' v h' value => exact (part_valuedWords _ (mem_valuedWords h')).2 _ (mem_switchWords h)

end Item

namespace Reading

variable {r r' r'' : Reading} {part : Part} {i j : Item} {items items' : List Item}

def take (r : Reading) : Item → Reading
  | .path text _ => { r with paths := r.paths ++ [text] }
  | .switch _ s _ _ => r.switch s
  | .valued _ v _ value => r.valued value v

theorem read_item (r : Reading) (i : Item) (rest : List String) :
    read r (i.words ++ rest) = read (r.take i) rest := by
  cases i with
  | path text h =>
    show read r (text :: rest) = _
    rw [read, if_pos h]
    rfl
  | switch word s h hs =>
    have hpath := (switchWords_apart _ (mem_switchWords h)).1
    show read r (word :: rest) = _
    rw [read, hpath, h]
    cases s with
    | onlyPaths => exact absurd rfl hs
    | set | diff | help => rfl
  | valued word v h value =>
    obtain ⟨hpath, -, hswitch⟩ := valuedWords_apart _ (mem_valuedWords h)
    show read r (word :: value :: rest) = _
    rw [read, hpath, hswitch, h]
    rfl

theorem read_items (r : Reading) (items : List Item) (rest : List String) :
    read r (items.flatMap Item.words ++ rest) = read (items.foldl take r) rest := by
  induction items generalizing r with
  | nil => rfl
  | cons i items ih => rw [List.flatMap_cons, List.append_assoc, read_item, ih, List.foldl_cons]

def Agree (r r' : Reading) : Part → Prop
  | .paths => r.paths = r'.paths
  | .extensions => r.extensions = r'.extensions
  | .outDir => r.outDir = r'.outDir
  | .diff => r.diff = r'.diff
  | .help => r.help = r'.help
  | .given name => r.given.get? name = r'.given.get? name

theorem Agree.refl (r : Reading) (part : Part) : r.Agree r part := by
  cases part <;> rfl

theorem Agree.symm (h : r.Agree r' part) : r'.Agree r part := by
  cases part <;> exact Eq.symm h

theorem Agree.trans (h : r.Agree r' part) (h' : r'.Agree r'' part) : r.Agree r'' part := by
  cases part <;> exact Eq.trans h h'

theorem agree_set_of_ne (r : Reading) {name : String} (value : Value) (h : Part.given name ≠ part) :
    Agree { r with given := r.given.set name value } r part := by
  cases part with
  | given other =>
    have hne : other ≠ name := fun heq => h (congrArg Part.given heq.symm)
    exact (Record.get?_set r.given name other value).trans (if_neg hne)
  | paths | extensions | outDir | diff | help => rfl

theorem Agree.set (h : r.Agree r' part) (name : String) (value : Value) :
    Agree { r with given := r.given.set name value } { r' with given := r'.given.set name value } part := by
  cases part with
  | given other =>
    have hget : r.given.get? other = r'.given.get? other := h
    simp only [Agree, Record.get?_set, hget]
  | paths | extensions | outDir | diff | help => exact h

theorem agree_take_of_ne (r : Reading) (h : i.part ≠ part) : (r.take i).Agree r part := by
  cases i with
  | path text ht => cases part <;> first | rfl | exact absurd rfl h
  | switch word s hw hs =>
    cases s with
    | set key => exact agree_set_of_ne r (.bool true) h
    | onlyPaths => exact absurd rfl hs
    | diff | help => cases part <;> first | rfl | exact absurd rfl h
  | valued word v hw value =>
    cases v with
    | set key => exact agree_set_of_ne r (.text value) h
    | outDir | extensions => cases part <;> first | rfl | exact absurd rfl h

theorem Agree.take (h : r.Agree r' part) (i : Item) : (r.take i).Agree (r'.take i) part := by
  cases i with
  | path text ht =>
    cases part with
    | paths => exact congrArg (· ++ [text]) h
    | extensions | outDir | diff | help | given => exact h
  | switch word s hw hs =>
    cases s with
    | set key => exact h.set key.name (.bool true)
    | onlyPaths => exact absurd rfl hs
    | diff | help => cases part <;> first | exact h | rfl
  | valued word v hw value =>
    cases v with
    | set key => exact h.set key.name (.text value)
    | outDir => cases part <;> first | exact h | rfl
    | extensions =>
      cases part with
      | extensions => exact congrArg (· ++ Settings.splitCommas value) h
      | paths | outDir | diff | help | given => exact h

/-- The items that change a part decide what it becomes. -/
theorem agree_foldl_filter (h : r.Agree r' part) (items : List Item) :
    (items.foldl Reading.take r).Agree ((items.filter (·.part = part)).foldl Reading.take r') part := by
  induction items generalizing r r' with
  | nil => exact h
  | cons i items ih =>
    rw [List.foldl_cons]
    by_cases hi : i.part = part
    · rw [List.filter_cons_of_pos (by simpa using hi), List.foldl_cons]
      exact ih (h.take i)
    · rw [List.filter_cons_of_neg (by simpa using hi)]
      exact ih ((agree_take_of_ne r hi).trans h)

theorem take_eq_of_isSwitch (r : Reading) (hi : i.isSwitch = true) (hj : j.isSwitch = true)
    (h : i.part = j.part) : r.take i = r.take j := by
  cases i with
  | path | valued => cases hi
  | switch word s =>
    cases j with
    | path | valued => cases hj
    | switch word' s' => exact congrArg r.switch (Switch.part_inj h)

/-- Switches that change the same part are all the same. -/
theorem foldl_take_switches (hl : items.length = items'.length)
    (h : ∀ i ∈ items, i.isSwitch = true ∧ i.part = part)
    (h' : ∀ i ∈ items', i.isSwitch = true ∧ i.part = part) (r : Reading) : items.foldl Reading.take r = items'.foldl Reading.take r := by
  induction items generalizing items' r with
  | nil => rw [List.length_eq_zero_iff.1 hl.symm]
  | cons i items ih =>
    cases items' with
    | nil => cases hl
    | cons j items' =>
      obtain ⟨⟨hi, hpart⟩, hrest⟩ := List.forall_mem_cons.1 h
      obtain ⟨⟨hj, hpart'⟩, hrest'⟩ := List.forall_mem_cons.1 h'
      rw [List.foldl_cons, List.foldl_cons, take_eq_of_isSwitch r hi hj (hpart.trans hpart'.symm)]
      exact ih (Nat.succ.inj hl) hrest hrest' _

end Reading

/-- The same items in an order in which those that change the same part keep theirs, switches apart. -/
structure Reordered (items items' : List Item) : Prop where
  perm : items.Perm items'
  order : ∀ part, (items.filter fun i => !i.isSwitch && i.part = part) =
    items'.filter fun i => !i.isSwitch && i.part = part

namespace Reordered

variable {items items' : List Item}

theorem symm (h : Reordered items items') : Reordered items' items :=
  ⟨h.perm.symm, fun part => (h.order part).symm⟩

theorem iff_forall_mem : Reordered items items' ↔ items.Perm items' ∧ ∀ j ∈ items,
    (items.filter fun i => !i.isSwitch && i.part = j.part) =
      items'.filter fun i => !i.isSwitch && i.part = j.part := by
  constructor
  · intro h
    exact ⟨h.perm, fun j _ => h.order j.part⟩
  · intro h
    obtain ⟨hperm, horder⟩ := h
    refine ⟨hperm, fun part => ?_⟩
    by_cases hpart : ∃ j ∈ items, j.part = part
    · obtain ⟨j, hj, rfl⟩ := hpart
      exact horder j hj
    · have hnone : ∀ i ∈ items, ¬ (!i.isSwitch && decide (i.part = part)) = true := by
        intro i hi hand
        rw [Bool.and_eq_true, decide_eq_true_iff] at hand
        exact hpart ⟨i, hi, hand.2⟩
      rw [List.filter_eq_nil_iff.2 hnone,
        List.filter_eq_nil_iff.2 fun i hi => hnone i (hperm.mem_iff.2 hi)]

instance (items items' : List Item) : Decidable (Reordered items items') :=
  decidable_of_iff _ iff_forall_mem.symm

theorem foldl_filter (h : Reordered items items') (part : Part) (r : Reading) :
    (items.filter (·.part = part)).foldl Reading.take r =
      (items'.filter (·.part = part)).foldl Reading.take r := by
  have hperm := h.perm.filter (·.part = part)
  by_cases hswitch : ∃ i ∈ items, i.isSwitch = true ∧ i.part = part
  · obtain ⟨i, hi, hs, hpart⟩ := hswitch
    have hall : ∀ j ∈ items.filter (·.part = part), j.isSwitch = true ∧ j.part = part := by
      intro j hj
      obtain ⟨-, hj⟩ := List.mem_filter.1 hj
      have hpart' : j.part = part := of_decide_eq_true hj
      cases hjs : j.isSwitch with
      | true => exact ⟨rfl, hpart'⟩
      | false => exact absurd (hpart.trans hpart'.symm) (Item.part_ne_of_isSwitch hs hjs)
    exact Reading.foldl_take_switches hperm.length_eq hall (fun j hj => hall j (hperm.mem_iff.2 hj)) r
  · have hnone : ∀ i ∈ items, (decide (i.part = part)) = (!i.isSwitch && decide (i.part = part)) := by
      intro i hi
      cases hs : i.isSwitch with
      | false => rfl
      | true => simpa using fun hpart => hswitch ⟨i, hi, hs, hpart⟩
    rw [List.filter_congr hnone, List.filter_congr fun i hi => hnone i (h.perm.mem_iff.2 hi), h.order]

theorem head_eq {text text' : String} {ht : isPath text = true} {ht' : isPath text' = true}
    (h : Reordered (.path text ht :: items) (.path text' ht' :: items')) : text = text' := by
  have horder := h.order .paths
  rw [List.filter_cons_of_pos rfl, List.filter_cons_of_pos rfl] at horder
  exact Item.path.inj (List.cons.inj horder).1

theorem of_cons {i : Item} (h : Reordered (i :: items) (i :: items')) : Reordered items items' := by
  refine ⟨List.Perm.cons_inv h.perm, fun part => ?_⟩
  have horder := h.order part
  rw [List.filter_cons, List.filter_cons] at horder
  split at horder
  · exact (List.cons.inj horder).2
  · exact horder

theorem agree (h : Reordered items items') (r : Reading) (part : Part) :
    (items.foldl Reading.take r).Agree (items'.foldl Reading.take r) part := by
  have hitems := Reading.agree_foldl_filter (Reading.Agree.refl r part) items
  have hitems' := Reading.agree_foldl_filter (Reading.Agree.refl r part) items'
  rw [h.foldl_filter part r] at hitems
  exact hitems.trans hitems'.symm

end Reordered

namespace Reading

variable {r r' : Reading}

def record (r : Reading) : Record Value :=
  if r.extensions.isEmpty then r.given
  else r.given.set OptionKey.extensions.name (.list (r.extensions.map Value.text))

theorem fields_eq (r : Reading) : r.fields = r.record.toList.map fun (n, v) => (n, some v) := rfl

theorem nodup_record (h : (r.given.fields.map Prod.fst).Nodup) : (r.record.fields.map Prod.fst).Nodup := by
  rw [record]
  split
  · exact h
  · exact Record.nodup_setField h _ _

theorem nodup_fields (h : (r.given.fields.map Prod.fst).Nodup) : (r.fields.map Prod.fst).Nodup := by
  rw [fields_eq, List.map_map]
  exact Record.nodup_listed (nodup_record h)

theorem fields_perm (hn : (r.given.fields.map Prod.fst).Nodup) (hn' : (r'.given.fields.map Prod.fst).Nodup)
    (h : ∀ part, r.Agree r' part) : r.fields.Perm r'.fields := by
  have hextensions : r.extensions = r'.extensions := h .extensions
  have hget : ∀ name, r.record.get? name = r'.record.get? name := by
    intro name
    have hgiven : r.given.get? name = r'.given.get? name := h (.given name)
    rw [record, record, hextensions]
    split
    · exact hgiven
    · rw [Record.get?_set, Record.get?_set, hgiven]
  have hrecord := Record.fields_perm (nodup_record hn) (nodup_record hn') hget
  rw [fields_eq, fields_eq]
  exact (((Record.listed_perm _).trans hrecord).trans (Record.listed_perm _).symm).map _

def close (r : Reading) (rest : List String) : Reading := { r with paths := r.paths ++ rest }

theorem close_nil (r : Reading) : r.close [] = r := by
  rw [close, List.append_nil]

theorem Agree.close {part : Part} (h : r.Agree r' part) (rest : List String) :
    (r.close rest).Agree (r'.close rest) part := by
  cases part with
  | paths => exact congrArg (· ++ rest) h
  | extensions | outDir | diff | help | given => exact h

theorem nodup_foldl_take (items : List Item) :
    (((items.foldl take {}).given.fields).map Prod.fst).Nodup := by
  have hread : read {} (items.flatMap Item.words ++ []) = .ok (items.foldl take {}) := by
    rw [read_items]
    rfl
  exact nodup_given_read (r := {}) List.nodup_nil hread

end Reading

theorem ofReading_of_agree {command : Command} {r r' : Reading} {p : Args}
    (hn : (r.given.fields.map Prod.fst).Nodup) (hn' : (r'.given.fields.map Prod.fst).Nodup)
    (h : ∀ part, r.Agree r' part) (hp : ofReading command r = .ok p) : ofReading command r' = .ok p := by
  have hpaths : r.paths = r'.paths := h .paths
  have houtDir : r.outDir = r'.outDir := h .outDir
  have hdiff : r.diff = r'.diff := h .diff
  have hhelp : r.help = r'.help := h .help
  rw [ofReading] at hp ⊢
  cases hs : Settings.ofFields r.fields "command line" with
  | error e =>
    rw [hs] at hp
    cases hp
  | ok overrides =>
    have hperm := Reading.fields_perm hn' hn fun part => (h part).symm
    rw [Settings.ofFields_perm hs (Reading.nodup_fields hn) hperm]
    rw [hs] at hp
    rw [← hpaths, ← houtDir, ← hdiff, ← hhelp]
    exact hp

theorem ofReading_close (command : Command) (r : Reading) (rest : List String) :
    ofReading command (r.close rest) =
      (ofReading command r).map fun p => { p with paths := p.paths ++ rest } := by
  have hfields : (r.close rest).fields = r.fields := rfl
  rw [ofReading, hfields, ofReading]
  cases Settings.ofFields r.fields "command line" <;> rfl

structure Line where
  command : Option Command
  items : List Item
  rest : Option (List String)

namespace Line

variable {l l' : Line}

def closing (l : Line) : List String := l.rest.elim [] fun rest => "--" :: rest

def words (l : Line) : List String :=
  (l.command.map Command.name).toList ++ (l.items.flatMap Item.words ++ l.closing)

def front? (l : Line) : Option Command := l.words.head?.bind Command.ofName?

def split (l : Line) : Command × List Item :=
  match l.command, l.front? with
  | some c, _ => (c, l.items)
  | none, some c => (c, l.items.tail)
  | none, none => (.run, l.items)

theorem ofName?_name (c : Command) : Command.ofName? c.name = some c := by
  cases c <;> decide

theorem read_closing (l : Line) (r : Reading) : read r l.closing = .ok (r.close (l.rest.getD [])) := by
  obtain ⟨command, items, rest⟩ := l
  cases rest with
  | none => simp [closing, read, Reading.close]
  | some rest =>
    have hpath : isPath "--" = false := by decide
    show read r ("--" :: rest) = _
    rw [read, hpath]
    rfl

theorem exists_path_of_front? {c : Command} (hc : l.command = none) (h : l.front? = some c) :
    ∃ text ht items, l.items = .path text ht :: items ∧ Command.ofName? text = some c := by
  obtain ⟨command, items, rest⟩ := l
  obtain rfl : command = none := hc
  cases items with
  | nil =>
    cases rest with
    | none => cases h
    | some rest =>
      have hdashes : Command.ofName? "--" = none := by decide
      exact absurd (hdashes.symm.trans h) (by simp)
  | cons i items =>
    cases i with
    | path text ht => exact ⟨text, ht, items, rfl, h⟩
    | switch word s hw hs =>
      exact absurd ((switchWords_apart _ (mem_switchWords hw)).2.symm.trans h) (by simp)
    | valued word v hw value =>
      exact absurd ((valuedWords_apart _ (mem_valuedWords hw)).2.1.symm.trans h) (by simp)

theorem splitCommand_words (l : Line) :
    splitCommand l.words = (l.split.1, l.split.2.flatMap Item.words ++ l.closing) := by
  cases hc : l.command with
  | some c =>
    have hwords : l.words = c.name :: (l.items.flatMap Item.words ++ l.closing) := by
      rw [words, hc]
      rfl
    have hsplit : l.split = (c, l.items) := by
      rw [split, hc]
    rw [hwords, splitCommand, ofName?_name, hsplit]
  | none =>
    have hwords : l.words = l.items.flatMap Item.words ++ l.closing := by
      rw [words, hc]
      rfl
    cases hf : l.front? with
    | some c =>
      obtain ⟨text, ht, items, hitems, htext⟩ := exists_path_of_front? hc hf
      have hsplit : l.split = (c, items) := by
        rw [split, hc, hf, hitems]
        rfl
      rw [hsplit, hwords, hitems]
      show splitCommand (text :: (items.flatMap Item.words ++ l.closing)) = _
      rw [splitCommand, htext]
    | none =>
      have hsplit : l.split = (.run, l.items) := by
        rw [split, hc, hf]
      rw [hsplit, ← hwords]
      rw [front?] at hf
      cases hw : l.words with
      | nil => rfl
      | cons first rest =>
        have hfirst : Command.ofName? first = none := by
          rw [hw] at hf
          exact hf
        rw [splitCommand, hfirst]

theorem parse_words (l : Line) : parse l.words =
    ofReading l.split.1 ((l.split.2.foldl Reading.take {}).close (l.rest.getD [])) := by
  rw [parse, splitCommand_words]
  simp only [Reading.read_items, read_closing]

/-- The same line with its items in another order. No command word is brought to the front or away from
it. -/
structure Reordered (l l' : Line) : Prop where
  command : l.command = l'.command
  items : Args.Reordered l.items l'.items
  rest : l.rest = l'.rest
  front : l.front?.isSome = l'.front?.isSome

theorem Reordered.symm (h : Reordered l l') : Reordered l' l :=
  ⟨h.command.symm, h.items.symm, h.rest.symm, h.front.symm⟩

theorem Reordered.split (h : Reordered l l') :
    l.split.1 = l'.split.1 ∧ Args.Reordered l.split.2 l'.split.2 := by
  have hcommand := h.command
  have hfront := h.front
  have hitems := h.items
  rw [Line.split, Line.split, ← hcommand]
  cases hc : l.command with
  | some c => exact ⟨rfl, hitems⟩
  | none =>
    cases hf : l.front? with
    | none =>
      rw [hf, Option.isSome_none, eq_comm, Option.isSome_eq_false_iff, Option.isNone_iff_eq_none] at hfront
      rw [hfront]
      exact ⟨rfl, hitems⟩
    | some c =>
      rw [hf, Option.isSome_some, eq_comm, Option.isSome_iff_exists] at hfront
      obtain ⟨c', hf'⟩ := hfront
      obtain ⟨text, ht, items, hl, htext⟩ := exists_path_of_front? hc hf
      obtain ⟨text', ht', items', hl', htext'⟩ := exists_path_of_front? (hcommand.symm.trans hc) hf'
      rw [hl, hl'] at hitems
      obtain rfl := hitems.head_eq
      rw [htext] at htext'
      rw [hf', hl, hl']
      exact ⟨Option.some.inj htext', hitems.of_cons⟩

theorem Reordered.parse_eq {p : Args} (h : Reordered l l') (hp : parse l.words = .ok p) :
    parse l'.words = .ok p := by
  obtain ⟨hcommand, hitems⟩ := h.split
  rw [parse_words] at hp ⊢
  rw [← hcommand, ← h.rest]
  refine ofReading_of_agree ?_ ?_ (fun part => (hitems.agree {} part).close (l.rest.getD [])) hp
  · exact Reading.nodup_foldl_take l.split.2
  · exact Reading.nodup_foldl_take l'.split.2

theorem split_rest (l : Line) (rest : Option (List String)) :
    { l with rest := rest }.split = { l with rest := none }.split := by
  obtain ⟨command, items, -⟩ := l
  cases command with
  | some c => rfl
  | none =>
    cases items with
    | nil =>
      cases rest with
      | none => rfl
      | some rest =>
        have hdashes : front? ⟨none, [], some rest⟩ = none := by
          show Command.ofName? "--" = none
          decide
        rw [split, hdashes]
        rfl
    | cons i items => cases i <;> rfl

end Line

/-- A command line can be reordered: what changes the same part keeps its order, switches apart, and no
command word is brought to the front or away from it. What stands behind two dashes is added to the paths as
it is. -/
theorem parse_reordered :
    (∀ l l' : Line, Line.Reordered l l' → ∀ p, parse l.words = .ok p ↔ parse l'.words = .ok p) ∧
    ∀ (l : Line) (rest : List String), parse { l with rest := some rest }.words =
      (parse { l with rest := none }.words).map fun p => { p with paths := p.paths ++ rest } := by
  refine ⟨fun l l' h p => ⟨h.parse_eq, h.symm.parse_eq⟩, fun l rest => ?_⟩
  rw [Line.parse_words, Line.parse_words, Line.split_rest, Option.getD_some, Option.getD_none,
    Reading.close_nil, ofReading_close]

def mixed : Line where
  command := none
  items := [.path "src" (by decide), .valued "-e" .extensions (by decide) "c",
    .switch "-v" (.set .verbose) (by decide) nofun, .valued "-m" (.set .marker) (by decide) "-a",
    .path "-" (by decide), .valued "--marker" (.set .marker) (by decide) "HASH",
    .valued "-o" .outDir (by decide) "--"]
  rest := some ["run", "-x"]

def sorted : Line where
  command := none
  items := [.valued "-o" .outDir (by decide) "--", .valued "-m" (.set .marker) (by decide) "-a",
    .valued "--marker" (.set .marker) (by decide) "HASH", .switch "-v" (.set .verbose) (by decide) nofun,
    .path "src" (by decide), .path "-" (by decide), .valued "-e" .extensions (by decide) "c"]
  rest := some ["run", "-x"]

theorem parse_reordered_mixed : Line.Reordered mixed sorted ∧
    ∃ p, parse mixed.words = .ok p ∧ parse sorted.words = .ok p ∧
      p.paths = ["src", "-", "run", "-x"] ∧ p.outDir = some "--" := by
  have h : Line.Reordered mixed sorted :=
    ⟨rfl, by decide +kernel, rfl, by decide +kernel⟩
  have hparse : ((parse mixed.words).toOption.any fun p =>
      p.paths = ["src", "-", "run", "-x"] && p.outDir = some "--") = true := by
    decide +kernel
  obtain ⟨p, hp, hread⟩ := Command.exists_eq_ok hparse
  rw [Bool.and_eq_true, decide_eq_true_iff, decide_eq_true_iff] at hread
  exact ⟨h, p, hp, (parse_reordered.1 mixed sorted h p).1 hp, hread⟩

end Args

end HashedLiterals
