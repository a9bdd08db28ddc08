import HashedLiterals.Proofs.Mappings

set_option autoImplicit false

namespace HashedLiterals

namespace Location

variable {l : Location}

theorem passAll_append (l : Location) (x y : Bytes) : l.passAll (x ++ y) = (l.passAll x).passAll y :=
  List.foldl_append

theorem passAll_cons (l : Location) (b : UInt8) (x : Bytes) : l.passAll (b :: x) = (l.pass b).passAll x :=
  rfl

theorem passAll_line (n column : Nat) (x : Bytes) : Location.passAll ⟨n, column⟩ x =
    ⟨n + (Location.passAll ⟨0, column⟩ x).line, (Location.passAll ⟨0, column⟩ x).column⟩ := by
  induction x generalizing n column with
  | nil => rfl
  | cons b x ih =>
    by_cases hb : b = Bytes.newline
    · simp only [passAll_cons, pass, if_pos hb]
      rw [ih (n + 1), ih (0 + 1)]
      simp only [Nat.zero_add, Nat.add_assoc]
    · simp only [passAll_cons, pass, if_neg hb]
      exact ih n (column + 1)

end Location

namespace Chunk

def source : Chunk → Bytes
  | .copied bytes => bytes
  | .edited bytes _ => bytes

def generated : Chunk → Bytes
  | .copied bytes => bytes
  | .edited _ replacement => replacement

/-- A segment of a chunk: what stands before it in the generated text, and what stands before its place
in the source. -/
def Links : Chunk → Bytes → Bytes → Prop
  | .copied bytes, g, x => g = x ∧ ∃ b rest, bytes = x ++ b :: rest ∧ b ≠ Bytes.newline
  | .edited _ replacement, g, x =>
    x = [] ∧ g <+: replacement ∧ (g = [] ∨ g.getLast? = some Bytes.newline)

def LinksAll : List Chunk → Bytes → Bytes → Prop
  | [], _, _ => False
  | c :: rest, g, x =>
    c.Links g x ∨ ∃ g' x', g = c.generated ++ g' ∧ x = c.source ++ x' ∧ LinksAll rest g' x'

/-- A replacement is not empty, and no newline ends it. -/
def Solid : Chunk → Prop
  | .copied _ => True
  | .edited _ replacement => replacement ≠ [] ∧ replacement.getLast? ≠ some Bytes.newline

end Chunk

namespace Mappings

variable {ls : Lines} {column : Nat} {source p s : Location} {links more : Bytes → Location → Prop}

/-- At a location of the generated text stands a segment that leads to one of the source. -/
def Has (ls : Lines) (p s : Location) : Prop := ∃ line, ls[p.line]? = some line ∧ ⟨p.column, s⟩ ∈ line

theorem has_consSegment :
    Has (consSegment ⟨column, source⟩ ls) p s ↔ (p = ⟨0, column⟩ ∧ s = source) ∨ Has ls p s := by
  obtain ⟨n, k⟩ := p
  cases ls with
  | nil => cases n <;> simp [consSegment, Has]
  | cons line ls => cases n <;> simp [consSegment, Has]

theorem has_break : Has ([] :: ls) p s ↔ ∃ n, p.line = n + 1 ∧ Has ls ⟨n, p.column⟩ s := by
  obtain ⟨n, k⟩ := p
  cases n <;> simp [Has]

/-- The segments of lines that begin in a column: `links` says behind which generated bytes one stands,
and where it leads. -/
def Points (ls : Lines) (column : Nat) (links : Bytes → Location → Prop) : Prop :=
  ∀ p s, Has ls p s ↔ ∃ g, links g s ∧ Location.passAll ⟨0, column⟩ g = p

theorem Points.congr (h : Points ls column links) (hl : ∀ g s, links g s ↔ more g s) :
    Points ls column more := by
  have he : links = more := funext fun g => funext fun s => propext (hl g s)
  exact he ▸ h

theorem points_open : Points [[]] column fun _ _ => False := by
  intro p s
  obtain ⟨n, k⟩ := p
  cases n <;> simp [Has]

theorem Points.segment (h : Points ls column links) :
    Points (consSegment ⟨column, source⟩ ls) column fun g s => (g = [] ∧ s = source) ∨ links g s := by
  intro p s
  rw [has_consSegment, h]
  constructor
  · rintro (⟨rfl, rfl⟩ | ⟨g, hg, hp⟩)
    · exact ⟨[], .inl ⟨rfl, rfl⟩, rfl⟩
    · exact ⟨g, .inr hg, hp⟩
  · rintro ⟨g, ⟨rfl, rfl⟩ | hg, hp⟩
    · exact .inl ⟨hp.symm, rfl⟩
    · exact .inr ⟨g, hg, hp⟩

theorem Points.step {b : UInt8} (hb : b ≠ Bytes.newline) (h : Points ls (column + 1) links) :
    Points ls column fun g s => ∃ rest, g = b :: rest ∧ links rest s := by
  intro p s
  have hpass : ∀ rest, Location.passAll ⟨0, column⟩ (b :: rest) =
      Location.passAll ⟨0, column + 1⟩ rest := fun rest => by
    rw [Location.passAll_cons, Location.pass, if_neg hb]
  rw [h]
  constructor
  · rintro ⟨g, hg, hp⟩
    exact ⟨b :: g, ⟨g, rfl, hg⟩, (hpass g).trans hp⟩
  · rintro ⟨_, ⟨g, rfl, hg⟩, hp⟩
    exact ⟨g, hg, (hpass g).symm.trans hp⟩

theorem Points.newline (h : Points ls 0 links) :
    Points ([] :: ls) column fun g s => ∃ rest, g = Bytes.newline :: rest ∧ links rest s := by
  intro p s
  have hpass : ∀ rest, Location.passAll ⟨0, column⟩ (Bytes.newline :: rest) =
      ⟨(Location.passAll ⟨0, 0⟩ rest).line + 1, (Location.passAll ⟨0, 0⟩ rest).column⟩ := fun rest => by
    rw [Location.passAll_cons, Location.pass, if_pos rfl, Location.passAll_line, Nat.zero_add,
      Nat.add_comm]
  obtain ⟨n, k⟩ := p
  rw [has_break]
  constructor
  · rintro ⟨m, rfl, hm⟩
    obtain ⟨g, hg, hp⟩ := (h _ _).1 hm
    exact ⟨_, ⟨g, rfl, hg⟩, by rw [hpass, hp]⟩
  · rintro ⟨_, ⟨g, rfl, hg⟩, hp⟩
    rw [hpass, Location.mk.injEq] at hp
    exact ⟨_, hp.1.symm, (h _ _).2 ⟨g, hg, by rw [← hp.2]⟩⟩

/-- Bytes taken over lead to themselves. A newline has no segment, and only opens a line. -/
theorem points_copied {next : Nat → Location → Lines} {links : Location → Bytes → Location → Prop}
    (h : ∀ column source, Points (next column source) column (links source)) (column : Nat)
    (source : Location) (bytes : Bytes) :
    Points (copied next column source bytes) column fun g s =>
      (∃ b rest, bytes = g ++ b :: rest ∧ b ≠ Bytes.newline ∧ source.passAll g = s) ∨
        ∃ rest, g = bytes ++ rest ∧ links (source.passAll bytes) rest s := by
  induction bytes generalizing column source with
  | nil =>
    refine (h column source).congr fun g s => ?_
    simp [Location.passAll]
  | cons b bytes ih =>
    by_cases hb : b = Bytes.newline
    · rw [copied, if_pos hb]
      refine (ih 0 (source.pass b)).newline.congr fun g s => ?_
      constructor
      · rintro ⟨g, rfl, ⟨c, rest, rfl, hc, hs⟩ | ⟨rest, rfl, hl⟩⟩
        · exact .inl ⟨c, rest, by rw [hb]; rfl, hc, by rw [← hb]; exact hs⟩
        · exact .inr ⟨rest, by rw [hb]; rfl, hl⟩
      · rintro (⟨c, rest, he, hc, hs⟩ | ⟨rest, rfl, hl⟩)
        · cases g with
          | nil => exact absurd ((List.cons.inj he).1.symm.trans hb) hc
          | cons a g =>
            obtain ⟨rfl, rfl⟩ := List.cons.inj he
            exact ⟨g, by rw [hb], .inl ⟨c, rest, rfl, hc, hs⟩⟩
        · exact ⟨bytes ++ rest, by rw [hb]; rfl, .inr ⟨rest, rfl, hl⟩⟩
    · rw [copied, if_neg hb]
      refine ((ih (column + 1) (source.pass b)).step hb).segment.congr fun g s => ?_
      constructor
      · rintro (⟨rfl, rfl⟩ | ⟨g, rfl, ⟨c, rest, rfl, hc, hs⟩ | ⟨rest, rfl, hl⟩⟩)
        · exact .inl ⟨b, bytes, rfl, hb, rfl⟩
        · exact .inl ⟨c, rest, rfl, hc, hs⟩
        · exact .inr ⟨rest, rfl, hl⟩
      · rintro (⟨c, rest, he, hc, hs⟩ | ⟨rest, rfl, hl⟩)
        · cases g with
          | nil => exact .inl ⟨rfl, hs.symm⟩
          | cons a g =>
            obtain ⟨rfl, rfl⟩ := List.cons.inj he
            exact .inr ⟨g, rfl, .inl ⟨c, rest, rfl, hc, hs⟩⟩
        · exact .inr ⟨bytes ++ rest, rfl, .inr ⟨rest, rfl, hl⟩⟩

/-- A replacement leads to the place of what it stands for, at its start and behind each newline. -/
theorem points_edited {next : Nat → Lines} (h : ∀ column, Points (next column) column links)
    (column : Nat) (source : Location) (replacement : Bytes) :
    Points (edited next source column replacement) column fun g s =>
      (g <+: replacement ∧ g.getLast? = some Bytes.newline ∧ s = source) ∨
        ∃ rest, g = replacement ++ rest ∧ links rest s := by
  induction replacement generalizing column with
  | nil =>
    refine (h column).congr fun g s => ?_
    constructor
    · exact fun hl => .inr ⟨g, rfl, hl⟩
    · rintro (⟨hg, hlast, -⟩ | ⟨rest, rfl, hl⟩)
      · rw [List.prefix_nil.1 hg] at hlast
        cases hlast
      · exact hl
  | cons b bytes ih =>
    by_cases hb : b = Bytes.newline
    · rw [edited, if_pos hb]
      refine (ih 0).segment.newline.congr fun g s => ?_
      constructor
      · rintro ⟨g, rfl, ⟨rfl, rfl⟩ | ⟨hg, hlast, rfl⟩ | ⟨rest, rfl, hl⟩⟩
        · exact .inl ⟨by rw [hb]; exact List.prefix_append [_] _, rfl, rfl⟩
        · refine .inl ⟨by rw [hb]; exact (List.prefix_cons_inj _).2 hg, ?_, rfl⟩
          rw [List.getLast?_cons, hlast, Option.getD_some]
        · exact .inr ⟨rest, by rw [hb]; rfl, hl⟩
      · rintro (⟨hg, hlast, rfl⟩ | ⟨rest, rfl, hl⟩)
        · cases g with
          | nil => cases hlast
          | cons a g =>
            obtain ⟨rfl, htail⟩ := List.cons_prefix_cons.1 hg
            refine ⟨g, by rw [hb], ?_⟩
            by_cases he : g = []
            · exact .inl ⟨he, rfl⟩
            · rw [List.getLast?_cons_of_ne_nil he] at hlast
              exact .inr (.inl ⟨htail, hlast, rfl⟩)
        · exact ⟨bytes ++ rest, by rw [hb]; rfl, .inr (.inr ⟨rest, rfl, hl⟩)⟩
    · rw [edited, if_neg hb]
      refine ((ih (column + 1)).step hb).congr fun g s => ?_
      constructor
      · rintro ⟨g, rfl, ⟨hg, hlast, rfl⟩ | ⟨rest, rfl, hl⟩⟩
        · refine .inl ⟨(List.prefix_cons_inj _).2 hg, ?_, rfl⟩
          rw [List.getLast?_cons, hlast, Option.getD_some]
        · exact .inr ⟨rest, rfl, hl⟩
      · rintro (⟨hg, hlast, rfl⟩ | ⟨rest, rfl, hl⟩)
        · cases g with
          | nil => cases hlast
          | cons a g =>
            obtain ⟨rfl, htail⟩ := List.cons_prefix_cons.1 hg
            have he : g ≠ [] := by
              rintro rfl
              exact hb (Option.some.inj hlast)
            rw [List.getLast?_cons_of_ne_nil he] at hlast
            exact ⟨g, rfl, .inl ⟨htail, hlast, rfl⟩⟩
        · exact ⟨bytes ++ rest, rfl, .inr ⟨rest, rfl, hl⟩⟩

theorem points_trace (column : Nat) (source : Location) (chunks : List Chunk) :
    Points (trace column source chunks) column fun g s =>
      ∃ x, Chunk.LinksAll chunks g x ∧ source.passAll x = s := by
  induction chunks generalizing column source with
  | nil => exact points_open.congr fun g s => by simp [Chunk.LinksAll]
  | cons chunk rest ih =>
    cases chunk with
    | copied bytes =>
      rw [trace]
      refine (points_copied ih column source bytes).congr fun g s => ?_
      constructor
      · rintro (⟨b, more, hb, hne, hs⟩ | ⟨more, rfl, x, hx, hs⟩)
        · exact ⟨g, .inl ⟨rfl, b, more, hb, hne⟩, hs⟩
        · exact ⟨bytes ++ x, .inr ⟨more, x, rfl, rfl, hx⟩, (Location.passAll_append ..).trans hs⟩
      · rintro ⟨x, ⟨rfl, b, more, hb, hne⟩ | ⟨g', x', rfl, rfl, hx⟩, hs⟩
        · exact .inl ⟨b, more, hb, hne, hs⟩
        · exact .inr ⟨g', rfl, x', hx, (Location.passAll_append ..).symm.trans hs⟩
    | edited bytes replacement =>
      rw [trace]
      refine (points_edited (fun column => ih column (source.passAll bytes)) column source
        replacement).segment.congr fun g s => ?_
      constructor
      · rintro (⟨rfl, rfl⟩ | ⟨hg, hlast, rfl⟩ | ⟨more, rfl, x, hx, hs⟩)
        · exact ⟨[], .inl ⟨rfl, List.nil_prefix, .inl rfl⟩, rfl⟩
        · exact ⟨[], .inl ⟨rfl, hg, .inr hlast⟩, rfl⟩
        · exact ⟨bytes ++ x, .inr ⟨more, x, rfl, rfl, hx⟩, (Location.passAll_append ..).trans hs⟩
      · rintro ⟨x, ⟨rfl, hg, rfl | hlast⟩ | ⟨g', x', rfl, rfl, hx⟩, hs⟩
        · exact .inl ⟨rfl, hs.symm⟩
        · exact .inr (.inl ⟨hg, hlast, hs.symm⟩)
        · exact .inr (.inr ⟨g', rfl, x', hx, (Location.passAll_append ..).symm.trans hs⟩)

theorem has_lines {chunks : List Chunk} {p s : Location} : Has (lines chunks) p s ↔
    ∃ g x, Chunk.LinksAll chunks g x ∧ Location.start.passAll g = p ∧ Location.start.passAll x = s := by
  rw [lines, points_trace]
  constructor
  · rintro ⟨g, ⟨x, hx, hs⟩, hp⟩
    exact ⟨g, x, hx, hp, hs⟩
  · rintro ⟨g, x, hx, hp, hs⟩
    exact ⟨g, ⟨x, hx, hs⟩, hp⟩

def Ascending (column : Nat) (ls : Lines) : Prop :=
  ∃ line rest, ls = line :: rest ∧ (∀ s ∈ line, column ≤ s.column) ∧
    ∀ m ∈ line :: rest, m.Pairwise fun s t => s.column < t.column

theorem Ascending.mono {k : Nat} (h : Ascending k ls) (hk : column ≤ k) : Ascending column ls := by
  obtain ⟨line, rest, rfl, hline, hall⟩ := h
  exact ⟨line, rest, rfl, fun s hs => Nat.le_trans hk (hline s hs), hall⟩

theorem Ascending.segment (h : Ascending (column + 1) ls) :
    Ascending column (consSegment ⟨column, source⟩ ls) := by
  obtain ⟨line, rest, rfl, hline, hall⟩ := h
  refine ⟨⟨column, source⟩ :: line, rest, rfl, ?_, ?_⟩
  · exact List.forall_mem_cons.2 ⟨Nat.le_refl _, fun s hs => Nat.le_of_succ_le (hline s hs)⟩
  · obtain ⟨hfirst, hrest⟩ := List.forall_mem_cons.1 hall
    exact List.forall_mem_cons.2 ⟨List.pairwise_cons.2 ⟨fun s hs => hline s hs, hfirst⟩, hrest⟩

theorem Ascending.newline (h : Ascending 0 ls) : Ascending column ([] :: ls) := by
  obtain ⟨line, rest, rfl, -, hall⟩ := h
  exact ⟨[], line :: rest, rfl, by simp, List.forall_mem_cons.2 ⟨.nil, hall⟩⟩

theorem ascending_copied {next : Nat → Location → Lines}
    (h : ∀ column source, Ascending column (next column source)) (column : Nat) (source : Location)
    (bytes : Bytes) : Ascending column (copied next column source bytes) := by
  induction bytes generalizing column source with
  | nil => exact h column source
  | cons b bytes ih =>
    rw [copied]
    split
    · exact (ih 0 (source.pass b)).newline
    · exact (ih (column + 1) (source.pass b)).segment

/-- What follows a replacement's first segment stands further right, since no segment of the
replacement stands at its end. -/
theorem ascending_edited {next : Nat → Lines} (h : ∀ column, Ascending column (next column))
    {replacement : Bytes} (hne : replacement ≠ [])
    (hlast : replacement.getLast? ≠ some Bytes.newline) (column : Nat) :
    Ascending (column + 1) (edited next source column replacement) := by
  induction replacement generalizing column with
  | nil => exact absurd rfl hne
  | cons b rest ih =>
    by_cases hr : rest = []
    · subst hr
      have hb : b ≠ Bytes.newline := fun he => hlast (congrArg some he)
      rw [edited, if_neg hb, edited]
      exact h (column + 1)
    · rw [List.getLast?_cons_of_ne_nil hr] at hlast
      rw [edited]
      split
      · exact (ih hr hlast 0).segment.newline
      · exact (ih hr hlast (column + 1)).mono (Nat.le_succ _)

theorem ascending_trace {chunks : List Chunk} (h : ∀ c ∈ chunks, Chunk.Solid c) (column : Nat)
    (source : Location) : Ascending column (trace column source chunks) := by
  induction chunks generalizing column source with
  | nil => exact ⟨[], [], rfl, by simp, by simp⟩
  | cons c rest ih =>
    obtain ⟨hc, hrest⟩ := List.forall_mem_cons.1 h
    cases c with
    | copied bytes => exact ascending_copied (ih hrest) column source bytes
    | edited bytes replacement =>
      exact (ascending_edited (fun column => ih hrest column _) hc.1 hc.2 column).segment

theorem length_consSegment {n : Nat} (h : ls.length = n + 1) (s : Segment) :
    (consSegment s ls).length = n + 1 := by
  cases ls with
  | nil => cases h
  | cons line ls => exact h

theorem length_copied {next : Nat → Location → Lines} {n : Nat}
    (h : ∀ column source, (next column source).length = n + 1) (column : Nat) (source : Location)
    (bytes : Bytes) :
    (copied next column source bytes).length = bytes.count Bytes.newline + n + 1 := by
  induction bytes generalizing column source with
  | nil => simpa [copied] using h column source
  | cons b bytes ih =>
    rw [copied, List.count_cons]
    split
    · next hb =>
      rw [List.length_cons, ih, hb, beq_self_eq_true, if_pos rfl]
      omega
    · next hb =>
      rw [length_consSegment (ih _ _), beq_false_of_ne hb, if_neg (by simp)]
      omega

theorem length_edited {next : Nat → Lines} {n : Nat} (h : ∀ column, (next column).length = n + 1)
    (column : Nat) (replacement : Bytes) :
    (edited next source column replacement).length = replacement.count Bytes.newline + n + 1 := by
  induction replacement generalizing column with
  | nil => simpa [edited] using h column
  | cons b rest ih =>
    rw [edited, List.count_cons]
    split
    · next hb =>
      rw [List.length_cons, length_consSegment (ih _), hb, beq_self_eq_true, if_pos rfl]
      omega
    · next hb =>
      rw [ih, beq_false_of_ne hb, if_neg (by simp)]
      omega

theorem length_trace (column : Nat) (source : Location) (chunks : List Chunk) :
    (trace column source chunks).length =
      (chunks.flatMap Chunk.generated).count Bytes.newline + 1 := by
  induction chunks generalizing column source with
  | nil => rfl
  | cons c rest ih =>
    rw [List.flatMap_cons, List.count_append]
    cases c with
    | copied bytes => exact length_copied ih column source bytes
    | edited bytes replacement =>
      exact length_consSegment (length_edited (fun column => ih column _) column replacement) _

/-- What the lines of a map are that has a segment for every character taken over, newlines apart, and one
for every line of a replacement. No two segments of a line stand in one column. -/
structure Traces (chunks : List Chunk) (lines : Lines) : Prop where
  length : lines.length = (chunks.flatMap Chunk.generated).count Bytes.newline + 1
  ascending : ∀ line ∈ lines, line.Pairwise fun a b => a.column < b.column
  has_iff : ∀ p s, Has lines p s ↔
    ∃ g x, Chunk.LinksAll chunks g x ∧ Location.start.passAll g = p ∧ Location.start.passAll x = s

theorem traces_lines {chunks : List Chunk} (h : ∀ c ∈ chunks, Chunk.Solid c) :
    Traces chunks (lines chunks) where
  length := length_trace 0 .start chunks
  ascending := by
    obtain ⟨line, rest, hlines, -, hall⟩ := ascending_trace h 0 .start
    rw [lines, hlines]
    exact hall
  has_iff := fun _ _ => has_lines

end Mappings

namespace Edit

def Solid (e : Edit) : Prop := e.text ≠ [] ∧ e.text.getLast? ≠ some Bytes.newline

structure Ordered (text : Bytes) (edits : List Edit) : Prop where
  inside : ∀ e ∈ edits, e.start < e.stop ∧ e.stop ≤ text.length
  pairwise : edits.Pairwise fun e f => e.stop ≤ f.start

theorem solid_chunks {edits : List Edit} (h : ∀ e ∈ edits, e.Solid) (text : Bytes) (offset : Nat) :
    ∀ c ∈ chunks text offset edits, c.Solid := by
  induction edits generalizing text offset with
  | nil => exact List.forall_mem_singleton.2 trivial
  | cons e rest ih =>
    obtain ⟨he, hrest⟩ := List.forall_mem_cons.1 h
    exact List.forall_mem_cons.2 ⟨trivial, List.forall_mem_cons.2 ⟨he, ih hrest _ _⟩⟩

end Edit

namespace SourceMap.Mapper

/-- What is documented of a mapper: edits in order that lie apart are made, and every character has its own
segment. -/
def Hires (mapper : Mapper) : Prop :=
  ∀ text edits fileName, Edit.Ordered text edits → (∀ e ∈ edits, e.Solid) →
    ∃ lines, Mappings.read (mapper text edits fileName).mappings = some lines ∧
      Mappings.Traces (Edit.chunks text 0 edits) lines

theorem hires_standard : Hires standard := by
  intro text edits fileName _ hsolid
  have htraces := Mappings.traces_lines (Edit.solid_chunks hsolid text 0)
  have hne : Mappings.lines (Edit.chunks text 0 edits) ≠ [] := by
    intro h
    have hlength := htraces.length
    rw [h] at hlength
    cases hlength
  exact ⟨_, Mappings.read_write hne, htraces⟩

end SourceMap.Mapper

end HashedLiterals
