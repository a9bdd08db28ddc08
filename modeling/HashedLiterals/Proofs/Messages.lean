import HashedLiterals.Proofs.Decoding
import HashedLiterals.Proofs.Records
import HashedLiterals.Proofs.Refusals
import HashedLiterals.Proofs.Templates

/-!
Messages and what they quote. Main statement: the message of every failure of a file is the template of
its diagnostic with all holes filled at once, except for a collision whose literal contains the hole of
the literal it collides with; this hole is filled inside the literal.
-/
set_option autoImplicit false

namespace HashedLiterals

namespace Record

variable {α : Type} {name : String}

theorem fields_foldl_set (given : List (String × α)) (r : Record α)
    (h : ((r.fields ++ given).map Prod.fst).Nodup) :
    (given.foldl (fun r (name, value) => r.set name value) r).fields = r.fields ++ given := by
  induction given generalizing r with
  | nil => simp
  | cons f given ih =>
    have hnew : f.1 ∉ r.fields.map Prod.fst := by
      rw [List.map_append, List.map_cons, List.nodup_append] at h
      exact fun hm => h.2.2 _ hm _ List.mem_cons_self rfl
    have hset : (r.set f.1 f.2).fields = r.fields ++ [f] := setField_of_not_mem hnew f.2
    rw [List.foldl_cons, ih, hset, List.append_assoc, List.singleton_append]
    rwa [hset, List.append_assoc, List.singleton_append]

theorem index?_of_isName (h : Template.IsName name) : index? name = none := by
  unfold index?
  split
  · rfl
  · next c rest hc =>
    have halpha : (decide ('A'.val ≤ c.val ∧ c.val ≤ 'Z'.val) ||
        (decide ('a'.val ≤ c.val) && decide (c.val ≤ 'z'.val))) = true := h c (by simp [hc])
    have hdigit : c.isDigit = false := by
      grind [Char.isDigit]
    simp [hdigit]

theorem toList_of_isName {r : Record α} (h : ∀ f ∈ r.fields, Template.IsName f.1) :
    r.toList = r.fields := listed_eq_self fun f hf => index?_of_isName (h f hf)

end Record

namespace Descriptor

/-- The template is spaced and has a hole for each of these names. -/
def Takes (d : Descriptor) (names : List String) : Prop :=
  Template.Spaced (Template.pieces d.template.toList) ∧ names.Nodup ∧
    ∀ name ∈ names, .hole name ∈ Template.pieces d.template.toList

instance (d : Descriptor) (names : List String) : Decidable (d.Takes names) :=
  inferInstanceAs (Decidable (_ ∧ _ ∧ ∀ name ∈ names, _))

variable {d : Descriptor} {names : List String} {arguments : List (String × String)} {name value : String}

theorem Takes.isName (h : d.Takes names) (hn : name ∈ names) : Template.IsName name :=
  h.1.isName (h.2.2 name hn)

theorem Takes.fill_eq (h : d.Takes (arguments.map Prod.fst)) :
    Template.fill d.template arguments = Template.fillAtOnce d.template (Template.settle arguments) :=
  Template.fill_eq_fillAtOnce h.1 fun _ ha => h.isName (List.mem_map_of_mem ha)

theorem lookup_of_nodup (hn : (arguments.map Prod.fst).Nodup) (h : (name, value) ∈ arguments) :
    arguments.lookup name = some value := by
  induction arguments with
  | nil => simp at h
  | cons a arguments ih =>
    obtain ⟨hfirst, hrest⟩ := List.nodup_cons.1 hn
    obtain he | h := List.mem_cons.1 h
    · rw [← he, List.lookup_cons_self]
    · have hne : (name == a.1) = false :=
        beq_false_of_ne fun he => hfirst (he ▸ List.mem_map_of_mem h)
      rw [List.lookup_cons, hne, ih hrest h]

/-- An argument that the template takes is shown. -/
theorem Takes.infix_fillAtOnce (h : d.Takes (arguments.map Prod.fst)) (ha : (name, value) ∈ arguments) :
    value.toList <:+: (Template.fillAtOnce d.template arguments).toList := by
  have hi := Template.infix_instantiate
    (fun name => ((arguments.lookup name).map String.toList).getD (Template.hole name))
    (h.2.2 name (List.mem_map_of_mem ha))
  rw [lookup_of_nodup h.2.1 ha] at hi
  rw [Template.fillAtOnce, String.toList_ofList]
  exact hi

end Descriptor

namespace Diagnostic

/-- The message is the template of the descriptor with the holes for the arguments filled at once, and
shows every argument as it is. -/
structure Quotes (d : Diagnostic) (descriptor : Descriptor) (arguments : List (String × String)) :
    Prop where
  descriptor_eq : d.descriptor = descriptor
  message : d.message = Template.fillAtOnce descriptor.template arguments
  shown : ∀ a ∈ arguments, a.2.toList <:+: d.message.toList

variable {d : Diagnostic} {descriptor : Descriptor} {arguments : List (String × String)}

theorem quotes_iff (hd : d.descriptor = descriptor) (h : descriptor.Takes (arguments.map Prod.fst)) :
    d.Quotes descriptor arguments ↔ d.message = Template.fillAtOnce descriptor.template arguments :=
  ⟨Quotes.message, fun hm => ⟨hd, hm, fun _ ha => hm ▸ h.infix_fillAtOnce ha⟩⟩

theorem Draft.toList_withArguments (arguments : List (String × String))
    (h : descriptor.Takes (arguments.map Prod.fst)) :
    ((ofDescriptor descriptor).withArguments
      (arguments.map fun a => (a.1, some a.2))).arguments.toList = arguments := by
  have hn : ∀ a ∈ arguments, Template.IsName a.1 := fun a ha => h.isName (List.mem_map_of_mem ha)
  have hfree : ∀ a ∈ arguments, (a.1 != reservedName) = true := by
    intro a ha
    rw [bne_iff_ne]
    exact fun he => absurd (he ▸ hn a ha) (by decide)
  have hfields : ((ofDescriptor descriptor).withArguments
      (arguments.map fun a => (a.1, some a.2))).arguments.fields = arguments := by
    simp only [withArguments, ofDescriptor, List.filter_map, Function.comp_def,
      List.filter_eq_self.2 hfree, List.filterMap_map, Option.map_some]
    rw [List.filterMap_some, Record.fields_foldl_set _ _ h.2.1]
    rfl
  rw [Record.toList_of_isName (by rw [hfields]; exact hn), hfields]

structure Draft.Has (draft : Draft) (descriptor : Descriptor) (arguments : List (String × String)) :
    Prop where
  descriptor_eq : draft.diagnostic.descriptor = descriptor
  arguments_eq : draft.arguments = ((ofDescriptor descriptor).withArguments
    (arguments.map fun a => (a.1, some a.2))).arguments

theorem Draft.message_build {draft : Draft} (hd : draft.Has descriptor arguments)
    (h : descriptor.Takes (arguments.map Prod.fst)) :
    draft.build.message = Template.fillAtOnce descriptor.template (Template.settle arguments) := by
  obtain ⟨rfl, ha⟩ := hd
  rw [build, ha, toList_withArguments arguments h]
  exact h.fill_eq

/-- Where no value holds a hole for a later argument, filling one after another quotes them all. -/
theorem Draft.quotes_build {draft : Draft} (hd : draft.Has descriptor arguments)
    (h : descriptor.Takes (arguments.map Prod.fst)) (hsettle : Template.settle arguments = arguments) :
    draft.build.Quotes descriptor arguments := by
  have hdescriptor : draft.build.descriptor = descriptor := hd.descriptor_eq
  rw [quotes_iff hdescriptor h, message_build hd h, hsettle]

end Diagnostic

namespace Failure

open Diagnostic (Draft)
open Template (hole fill fillAtOnce settle fill_nil)

variable {s : Site} {d : Descriptor}

theorem quotes_ofFile (h : d.Takes ["path"]) (path : String) (cause : Cause) :
    (ofFile d path cause).Quotes d [("path", path)] :=
  Draft.quotes_build ⟨rfl, rfl⟩ h (by rw [settle, settle, fill_nil])

theorem not_mem_marker (m : Marker) : '\x7b' ∉ m.text.toList := by
  rw [m.toList_text]
  intro h
  obtain ⟨b, hb, he⟩ := List.mem_map.1 h
  have hno : ∀ n < 256, Char.ofNat n = '\x7b' → n = 0x7b := by decide +kernel
  have hbrace : b = 0x7b := UInt8.toNat_inj.1 (hno b.toNat b.toNat_lt he)
  exact absurd (m.isAlnum_of_mem b hb) (by rw [hbrace]; decide)

theorem not_mem_constant (w : UInt32) : '\x7b' ∉ (String.ofList (Hash.constant w)).toList := by
  rw [String.toList_ofList, Hash.constant, List.mem_append]
  rintro (h | h)
  · exact absurd h (by decide)
  · obtain ⟨d, hd, he⟩ := Literal.mem_hexDigits h
    have hno : ∀ d < 16, '\x7b' ≠ Nat.digitChar d := by decide
    exact hno d hd he

theorem quotes_notALiteral (s : Site) (found : Int) :
    (notALiteral s found).diagnostic.Quotes .notALiteral [("marker", s.marker.text)] := by
  have h : Descriptor.notALiteral.Takes ["marker"] := by decide +kernel
  exact Draft.quotes_build ⟨rfl, rfl⟩ h (by rw [settle, settle, fill_nil])

theorem quotes_unterminatedLiteral (s : Site) (quote : Int) :
    (unterminatedLiteral s quote).diagnostic.Quotes .unterminatedLiteral [("marker", s.marker.text)] := by
  have h : Descriptor.unterminatedLiteral.Takes ["marker"] := by decide +kernel
  exact Draft.quotes_build ⟨rfl, rfl⟩ h (by rw [settle, settle, fill_nil])

theorem quotes_unclosedInvocation (s : Site) (span : Bytes) (found : Int) :
    (unclosedInvocation s span found).diagnostic.Quotes .unclosedInvocation
      [("marker", s.marker.text), ("literal", Utf8.decode span)] := by
  have h : Descriptor.unclosedInvocation.Takes ["marker", "literal"] := by decide +kernel
  refine Draft.quotes_build ⟨rfl, rfl⟩ h ?_
  rw [settle, settle, settle, fill_nil, Template.fill_of_not_mem (not_mem_marker _)]

def collisionArguments (hash : UInt32) (literal existing : String) : List (String × String) :=
  [("hash", String.ofList (Hash.constant hash)), ("literal", literal), ("existing", existing)]

theorem takes_hashCollision (hash : UInt32) (literal existing : String) :
    Descriptor.hashCollision.Takes ((collisionArguments hash literal existing).map Prod.fst) :=
  (by decide +kernel : Descriptor.hashCollision.Takes ["hash", "literal", "existing"])

theorem message_hashCollision (s : Site) (length : Nat) (literal : String) (hash : UInt32) (e : Entry) :
    (hashCollision s length literal hash e).diagnostic.message =
      fillAtOnce Descriptor.hashCollision.template
        (collisionArguments hash (fill literal [("existing", e.literal)]) e.literal) := by
  have h := takes_hashCollision hash literal e.literal
  have hsettle : settle (collisionArguments hash literal e.literal) =
      collisionArguments hash (fill literal [("existing", e.literal)]) e.literal := by
    rw [collisionArguments, settle, settle, settle, settle, fill_nil,
      Template.fill_of_not_mem (not_mem_constant hash), collisionArguments]
  rw [← hsettle]
  exact Draft.message_build ⟨rfl, rfl⟩ h

theorem toList_fillAtOnce_hashCollision (hash : UInt32) (literal existing : String) :
    (fillAtOnce Descriptor.hashCollision.template (collisionArguments hash literal existing)).toList =
      "Hash ".toList ++ (Hash.constant hash ++ (" of \"".toList ++ (literal.toList ++
        ("\" collides with \"".toList ++ (existing.toList ++ "\"".toList))))) := by
  have hpieces : Template.pieces Descriptor.hashCollision.template.toList =
      [.text "Hash ".toList, .hole "hash", .text " of \"".toList, .hole "literal",
        .text "\" collides with \"".toList, .hole "existing", .text "\"".toList] := by decide
  have hhash : (String.ofList (Hash.constant hash)).toList = Hash.constant hash := String.toList_ofList
  rw [fillAtOnce, hpieces, String.toList_ofList]
  simp only [Template.instantiate_text, Template.instantiate_hole, Template.instantiate_nil,
    List.append_nil]
  rw [← hhash]
  rfl

/-- A collision's message quotes its arguments exactly if filling leaves the literal as it is. -/
theorem quotes_hashCollision_iff (s : Site) (length : Nat) (literal : String) (hash : UInt32) (e : Entry) :
    (hashCollision s length literal hash e).diagnostic.Quotes .hashCollision
        (collisionArguments hash literal e.literal) ↔
      ¬ hole "existing" <:+: literal.toList ∨ e.literal.toList = hole "existing" := by
  have hd : (hashCollision s length literal hash e).diagnostic.descriptor = .hashCollision := rfl
  rw [Diagnostic.quotes_iff hd (takes_hashCollision hash literal e.literal),
    message_hashCollision, ← String.toList_inj, toList_fillAtOnce_hashCollision,
    toList_fillAtOnce_hashCollision]
  simp only [List.append_cancel_left_eq, List.append_cancel_right_eq]
  rw [fill, String.toList_ofList]
  exact Template.replaceAll_eq_self_iff (Template.hole_ne_nil _)

end Failure

namespace Preprocess

open Failure (collisionArguments)
open Template (hole fill fillAtOnce)

/-- The message of every failure quotes the path, the marker and the literal that it is about, whatever
holes they contain. The message about a collision fills the hole of the other literal inside the
literal, so it quotes both exactly if the literal does not contain this hole or it changes nothing. -/
theorem message_quotes_arguments (o : Options) (registry : Option Registry) (input : Bytes)
    (path : String) (cause : Cause) :
    (Failure.sourceUnreadable path cause).diagnostic.Quotes .unreadableSource [("path", path)] ∧
    (Failure.destinationUnwritable path cause).diagnostic.Quotes .unwritableDestination
      [("path", path)] ∧
    ∀ f, (run o registry input).1 = .error f →
      f.diagnostic.Quotes .notALiteral [("marker", o.marker.text)] ∨
      f.diagnostic.Quotes .unterminatedLiteral [("marker", o.marker.text)] ∨
      (∃ before blank span rest : Bytes, input = before ++ (o.marker.token ++
          (blank ++ Bytes.quote :: (span ++ Bytes.quote :: rest))) ∧
        f.offset = some (before.length : Int) ∧ (∀ b ∈ blank, Bytes.isSpace b = true) ∧
        Literal.IsSpan span ∧
        f.diagnostic.Quotes .unclosedInvocation
          [("marker", o.marker.text), ("literal", Utf8.decode span)]) ∨
      ∃ r i existing before source after, registry = some r ∧
        firstCollision? r o.fileName []
          (Invocation.ofPieces o.hash 0 (Scan.scan o.marker input).pieces) = some (i, existing) ∧
        input = before ++ (source ++ after) ∧ Scan.IsInvocation o.marker source i.span ∧
        f.offset = some (before.length : Int) ∧ f.diagnostic.descriptor = .hashCollision ∧
        f.diagnostic.message = fillAtOnce Descriptor.hashCollision.template
          (collisionArguments i.hash (fill i.literal [("existing", existing.literal)])
            existing.literal) ∧
        (f.diagnostic.Quotes .hashCollision (collisionArguments i.hash i.literal existing.literal) ↔
          ¬ hole "existing" <:+: i.literal.toList ∨ existing.literal.toList = hole "existing") := by
  refine ⟨Failure.quotes_ofFile (by decide +kernel) path cause,
    Failure.quotes_ofFile (by decide +kernel) path cause, fun f h => ?_⟩
  obtain ⟨r, i, existing, before, source, after, rfl, hc, hi, hinv, rfl⟩ |
    ⟨before, after, fault, hi, hr, rfl⟩ := run_error_cases h
  · exact .inr (.inr (.inr ⟨r, i, existing, before, source, after, rfl, hc, hi, hinv, rfl, rfl,
      Failure.message_hashCollision .., Failure.quotes_hashCollision_iff ..⟩))
  · cases fault with
    | notALiteral found => exact .inl (Failure.quotes_notALiteral ..)
    | unterminated quote => exact .inr (.inl (Failure.quotes_unterminatedLiteral ..))
    | unclosed span found =>
      obtain ⟨hs, blank, rest, hb, rfl⟩ := Scan.literal_of_unclosed hr
      exact .inr (.inr (.inl ⟨before, blank, span, rest, hi, rfl, hb, hs,
        Failure.quotes_unclosedInvocation ..⟩))

def holed (name : String) : Bytes :=
  Utf8.encode ("SID(\"Ab\x7b" ++ name ++ "\x7d\");SID(\"BA\x7b" ++ name ++ "\x7d\");")

theorem message_quotes_arguments_holed :
    ∃ f, (run {} (some .empty) (holed "literal")).1 = .error f ∧
      f.diagnostic.Quotes .hashCollision
        (collisionArguments 0xa02ca3ad "BA\x7bliteral\x7d" "Ab\x7bliteral\x7d") := by
  have hc : firstCollision? .empty "<input>" []
      (Invocation.ofPieces Hash.Algorithm.djb2.function 0
        (Scan.scan .default (holed "literal")).pieces) =
      some (⟨19, 37, Utf8.encode "BA\x7bliteral\x7d", 0xa02ca3ad⟩,
        ⟨0xa02ca3ad, "Ab\x7bliteral\x7d", "<input>", 0⟩) := by decide +kernel
  have hrun := run_of_firstCollision? (o := {}) hc
  refine ⟨_, hrun, ?_⟩
  obtain h | h | ⟨_, _, _, _, -, -, -, -, h⟩ | ⟨r, i, existing, _, _, _, hr, hc', -, -, -, -, -, hiff⟩ :=
    (message_quotes_arguments _ _ _ "" (.other "")).2.2 _ hrun
  · exact absurd h.descriptor_eq (by decide +kernel)
  · exact absurd h.descriptor_eq (by decide +kernel)
  · exact absurd h.descriptor_eq (by decide +kernel)
  · obtain rfl := Option.some.inj hr
    obtain ⟨rfl, rfl⟩ := Prod.mk.inj (Option.some.inj (hc'.symm.trans hc))
    have hliteral : Invocation.literal ⟨19, 37, Utf8.encode "BA\x7bliteral\x7d", 0xa02ca3ad⟩ =
        "BA\x7bliteral\x7d" := Utf8.decode_encode _
    have hquotes := hiff.2 (.inl (by decide +kernel))
    simpa only [hliteral] using hquotes

/-- The message about a collision can show another literal than that of the source. -/
theorem collision_not_quoted :
    ¬ ∀ (o : Options) (r : Registry) (input : Bytes) (f : Failure) (i : Invocation) (existing : Entry),
      (run o (some r) input).1 = .error f →
      firstCollision? r o.fileName []
          (Invocation.ofPieces o.hash 0 (Scan.scan o.marker input).pieces) = some (i, existing) →
      f.diagnostic.Quotes .hashCollision (collisionArguments i.hash i.literal existing.literal) := by
  intro h
  have hc : firstCollision? .empty "<input>" []
      (Invocation.ofPieces Hash.Algorithm.djb2.function 0
        (Scan.scan .default (holed "existing")).pieces) =
      some (⟨20, 39, Utf8.encode "BA\x7bexisting\x7d", 0x2045b22b⟩,
        ⟨0x2045b22b, "Ab\x7bexisting\x7d", "<input>", 0⟩) := by decide +kernel
  have hquotes := h {} .empty _ _ _ _ (run_of_firstCollision? (o := {}) hc) hc
  have hiff := (Failure.quotes_hashCollision_iff _ _ _ _ _).1 hquotes
  revert hiff
  decide +kernel

end Preprocess

end HashedLiterals
