import HashedLiterals.Buffer.Writing
import Mathlib.Algebra.GroupWithZero.Nat
import Mathlib.Order.Bounds.Basic

/-!
Buffers that grow under calls. A capacity is doubled as often as the bytes need it, and no more. Main
statement: as long as there is memory, a buffer holds the concatenation of what the calls write, whatever
capacity was asked for; its own capacity is the first one doubled until there is room.
-/
set_option autoImplicit false

namespace HashedLiterals.Buffer

variable {b b' : Buffer} {w : Write} {writes : List Write} {limit capacity count : Nat}

theorem isLeast_grown (required : Nat) (h : 0 < capacity) :
    IsLeast {c | required ≤ c ∧ ∃ k, c = capacity * 2 ^ k} (grown capacity required h) := by
  fun_induction grown capacity required h with
  | case1 capacity h hlt ih =>
    have hdouble : ∀ k, capacity * 2 * 2 ^ k = capacity * 2 ^ (k + 1) := by
      intro k
      rw [Nat.mul_assoc, Nat.pow_succ']
    obtain ⟨⟨hle, k, hk⟩, hleast⟩ := ih
    refine ⟨⟨hle, k + 1, hk.trans (hdouble k)⟩, ?_⟩
    rintro c ⟨hc, k, rfl⟩
    cases k with
    | zero => omega
    | succ k => exact hleast ⟨hc, k, (hdouble k).symm⟩
  | case2 capacity h hge =>
    refine ⟨⟨Nat.not_lt.1 hge, 0, (Nat.mul_one capacity).symm⟩, ?_⟩
    rintro c ⟨-, k, rfl⟩
    exact Nat.le_mul_of_pos_right capacity (Nat.two_pow_pos k)

theorem isLeast_capacity_append (b : Buffer) (bytes : Bytes) :
    IsLeast {c | b.used + bytes.length ≤ c ∧ ∃ k, c = b.capacity * 2 ^ k} (b.append bytes).capacity :=
  isLeast_grown (b.used + bytes.length) b.capacity_pos

theorem capacity_le_append (b : Buffer) (bytes : Bytes) : b.capacity ≤ (b.append bytes).capacity :=
  (le_grown _ _ b.capacity_pos).1

theorem fits_iff (h : b.capacity ≤ limit) (bytes : Bytes) :
    b.Fits limit bytes.length ↔ (b.append bytes).capacity ≤ limit := by
  rw [Fits, capacity_append, or_iff_right_iff_imp]
  intro hroom
  rwa [grown_of_le b.capacity_pos hroom]

/-- The bytes at the indices from `start` up to `stop` of a text whose units are taken modulo 256; zero
where the index lies outside. -/
def window (units : List Nat) (start stop : Int) : Bytes :=
  (List.range (stop - start).toNat).map fun (i : Nat) =>
    (Bytes.at? (units.map Nat.toUInt8) (start + i)).getD 0

theorem unitAt_eq (units : List Nat) (index : Int) :
    unitAt units.toArray index = (Bytes.at? (units.map Nat.toUInt8) index).getD 0 := by
  rw [unitAt, Bytes.at?]
  split
  · rfl
  · rw [List.getElem?_map, Array.getD_eq_getD_getElem?, List.getElem?_toArray]
    cases units[index.toNat]? <;> rfl

theorem window_of_le {units : List Nat} {start stop : Int} (h : stop ≤ start) :
    window units start stop = [] := by
  rw [window, Int.toNat_of_nonpos (by omega)]
  rfl

theorem window_of_lt {units : List Nat} {start stop : Int} (h : start < stop) :
    window units start stop = unitAt units.toArray start :: window units (start + 1) stop := by
  have hlength : (stop - start).toNat = (stop - (start + 1)).toNat + 1 := by omega
  have hshift : ∀ i : Nat, start + (i + 1 : Nat) = start + 1 + i := by omega
  rw [window, hlength, List.range_succ_eq_map, List.map_cons, List.map_map, window, unitAt_eq]
  simp only [Function.comp_def, Nat.succ_eq_add_one, hshift, Int.natCast_zero, Int.add_zero]

theorem length_window (units : List Nat) (start stop : Int) :
    (window units start stop).length = (stop - start).toNat := by
  rw [window, List.length_map, List.length_range]

/-- Between the limits of the doubles that count in ones, every index up to `stop` is met. -/
theorem copyUnits_of_counted {units : List Nat} {stop index : Int} (copied : Array UInt8)
    (hfrom : -(Number.exactLimit : Int) ≤ index) (hto : stop ≤ Number.exactLimit) :
    copyUnits units.toArray stop index copied = .ok (copied ++ (window units index stop).toArray) := by
  fun_induction copyUnits units.toArray stop index copied with
  | case1 index copied hlt hnext ih =>
    have hone : Number.nearest (index + 1) = index + 1 := Number.nearest_of_le (by omega)
    rw [ih (by omega), hone, window_of_lt hlt]
    simp
  | case2 index copied hlt hstuck =>
    have hone : Number.nearest (index + 1) = index + 1 := Number.nearest_of_le (by omega)
    omega
  | case3 index copied hge =>
    rw [window_of_le (Int.not_lt.1 hge)]
    simp

namespace Write

def bytes : Write → Bytes
  | .byte value => [Bytes.low value]
  | .window units start stop => Buffer.window units start stop

/-- The indices of a part of a text, if it has any, lie where doubles count in ones. -/
def Counted : Write → Prop
  | .byte _ => True
  | .window _ start stop => start < stop → -(Number.exactLimit : Int) ≤ start ∧ stop ≤ Number.exactLimit

instance : DecidablePred Counted
  | .byte _ => .isTrue trivial
  | .window _ _ _ => inferInstanceAs (Decidable (_ → _))

end Write

theorem makeRoom_of_fits (h : b.Fits limit count) : b.makeRoom limit count = .ok (b.reserve (b.used + count)) :=
  if_pos h

theorem makeRoom_of_not_fits (h : ¬ b.Fits limit count) :
    b.makeRoom limit count = .error (.refused (b.growthRefusal count)) := if_neg h

theorem accept_window {units : List Nat} {start stop : Int} {copied : Array UInt8} (hlt : start < stop)
    (hfits : b.Fits limit (stop - start).toNat) (hcopied : copyUnits units.toArray stop start #[] = .ok copied) :
    b.accept limit (.window units start stop) =
      .ok ((b.reserve (b.used + (stop - start).toNat)).append copied.toList) := by
  rw [accept, appendWindow, if_pos hlt, makeRoom_of_fits hfits]
  exact congrArg (Except.map fun copied => (b.reserve _).append copied.toList) hcopied

theorem accept_of_fits (hcounted : w.Counted) (h : b.Fits limit w.bytes.length) :
    b.accept limit w = .ok (b.append w.bytes) := by
  cases w with
  | byte value =>
    have hone : b.Fits limit 1 := h
    rw [accept, appendByte, makeRoom_of_fits hone]
    exact congrArg Except.ok (append_reserve b [Bytes.low value])
  | window units start stop =>
    by_cases hlt : start < stop
    · obtain ⟨hfrom, hto⟩ := hcounted hlt
      rw [Write.bytes, length_window] at h
      rw [accept_window hlt h (copyUnits_of_counted #[] hfrom hto), Array.empty_append, ← length_window units]
      exact congrArg Except.ok (append_reserve b (window units start stop))
    · rw [accept, appendWindow, if_neg hlt, Write.bytes, window_of_le (Int.not_lt.1 hlt), append_nil]

theorem accept_of_not_fits (h : ¬ b.Fits limit w.bytes.length) : ∃ r, b.accept limit w = .error (.refused r) := by
  cases w with
  | byte value =>
    have hone : ¬ b.Fits limit 1 := h
    rw [accept, appendByte, makeRoom_of_not_fits hone]
    exact ⟨_, rfl⟩
  | window units start stop =>
    rw [Write.bytes, length_window] at h
    have hlt : start < stop := by
      by_contra hge
      rw [Int.toNat_of_nonpos (by omega)] at h
      exact h (.inl b.used_le)
    rw [accept, appendWindow, if_pos hlt, makeRoom_of_not_fits h]
    exact ⟨_, rfl⟩

theorem accept_eq_ok (h : b.accept limit w = .ok b') :
    b' = b ∨ ∃ count bytes, b' = (b.reserve count).append bytes := by
  cases w with
  | byte value =>
    rw [accept, appendByte] at h
    by_cases hfits : b.Fits limit 1
    · rw [makeRoom_of_fits hfits] at h
      exact .inr ⟨_, _, (Except.ok.inj h).symm⟩
    · rw [makeRoom_of_not_fits hfits] at h
      cases h
  | window units start stop =>
    rw [accept, appendWindow] at h
    split at h
    · by_cases hfits : b.Fits limit (stop - start).toNat
      · rw [makeRoom_of_fits hfits] at h
        cases hcopied : copyUnits units.toArray stop start #[] with
        | error stop =>
          rw [hcopied] at h
          cases h
        | ok copied =>
          rw [hcopied] at h
          exact .inr ⟨_, _, (Except.ok.inj h).symm⟩
      · rw [makeRoom_of_not_fits hfits] at h
        cases h
    · exact .inl (Except.ok.inj h).symm

theorem exists_capacity_of_accept (h : b.accept limit w = .ok b') : ∃ k, b'.capacity = b.capacity * 2 ^ k := by
  obtain rfl | ⟨count, bytes, rfl⟩ := accept_eq_ok h
  · exact ⟨0, (Nat.mul_one _).symm⟩
  · obtain ⟨-, k, hk⟩ := (isLeast_grown count b.capacity_pos).1
    obtain ⟨-, j, hj⟩ := (isLeast_capacity_append (b.reserve count) bytes).1
    have hreserve : (b.reserve count).capacity = b.capacity * 2 ^ k := hk
    exact ⟨k + j, by rw [hj, hreserve, Nat.mul_assoc, Nat.pow_add]⟩

theorem exists_capacity_of_foldlM (h : writes.foldlM (accept limit) b = .ok b') :
    ∃ k, b'.capacity = b.capacity * 2 ^ k := by
  induction writes generalizing b with
  | nil => exact ⟨0, by rw [← Except.ok.inj h, Nat.pow_zero, Nat.mul_one]⟩
  | cons w writes ih =>
    rw [List.foldlM_cons] at h
    cases hw : b.accept limit w with
    | error stop =>
      rw [hw] at h
      cases h
    | ok next =>
      rw [hw] at h
      obtain ⟨k, hk⟩ := exists_capacity_of_accept hw
      obtain ⟨j, hj⟩ := ih h
      exact ⟨k + j, by rw [hj, hk, Nat.mul_assoc, Nat.pow_add]⟩

theorem foldlM_accept_of_le (hmemory : b.capacity ≤ limit) (hcounted : ∀ w ∈ writes, w.Counted)
    (h : (b.append (writes.flatMap Write.bytes)).capacity ≤ limit) :
    writes.foldlM (accept limit) b = .ok (b.append (writes.flatMap Write.bytes)) := by
  induction writes generalizing b with
  | nil =>
    rw [List.flatMap_nil, append_nil]
    rfl
  | cons w writes ih =>
    rw [List.forall_mem_cons] at hcounted
    rw [List.flatMap_cons, ← append_append] at h ⊢
    have hfirst := Nat.le_trans (capacity_le_append _ _) h
    rw [List.foldlM_cons, accept_of_fits hcounted.1 ((fits_iff hmemory w.bytes).2 hfirst)]
    exact ih hfirst hcounted.2 h

theorem foldlM_accept_of_lt (hmemory : b.capacity ≤ limit) (hcounted : ∀ w ∈ writes, w.Counted)
    (h : limit < (b.append (writes.flatMap Write.bytes)).capacity) :
    ∃ r, writes.foldlM (accept limit) b = .error (.refused r) := by
  induction writes generalizing b with
  | nil =>
    rw [List.flatMap_nil, append_nil] at h
    exact absurd hmemory (Nat.not_le.2 h)
  | cons w writes ih =>
    rw [List.forall_mem_cons] at hcounted
    rw [List.foldlM_cons]
    -- Either this call is the one, or it leaves a buffer for which the others have no memory.
    by_cases hfits : b.Fits limit w.bytes.length
    · rw [List.flatMap_cons, ← append_append] at h
      rw [accept_of_fits hcounted.1 hfits]
      exact ih ((fits_iff hmemory w.bytes).1 hfits) hcounted.2 h
    · obtain ⟨r, hr⟩ := accept_of_not_fits hfits
      rw [hr]
      exact ⟨r, rfl⟩

theorem foldlM_accept_eq_ok_iff (hmemory : b.capacity ≤ limit)
    (hcounted : ∀ w ∈ writes, w.Counted) (b' : Buffer) :
    writes.foldlM (accept limit) b = .ok b' ↔
      (b.append (writes.flatMap Write.bytes)).capacity ≤ limit ∧
        b.append (writes.flatMap Write.bytes) = b' := by
  constructor
  · intro hb
    have hle : (b.append (writes.flatMap Write.bytes)).capacity ≤ limit := by
      by_contra hlt
      obtain ⟨r, hr⟩ := foldlM_accept_of_lt hmemory hcounted (Nat.lt_of_not_le hlt)
      cases hr.symm.trans hb
    exact ⟨hle, Except.ok.inj ((foldlM_accept_of_le hmemory hcounted hle).symm.trans hb)⟩
  · rintro ⟨hle, rfl⟩
    exact foldlM_accept_of_le hmemory hcounted hle

theorem foldlM_accept_ne_endless (hmemory : b.capacity ≤ limit)
    (hcounted : ∀ w ∈ writes, w.Counted) : writes.foldlM (accept limit) b ≠ .error .endless := by
  obtain hlt | hle := Nat.lt_or_ge limit (b.append (writes.flatMap Write.bytes)).capacity
  · obtain ⟨r, hr⟩ := foldlM_accept_of_lt hmemory hcounted hlt
    rw [hr]
    exact nofun
  · rw [foldlM_accept_of_le hmemory hcounted hle]
    exact nofun

def Granted (limit : Nat) (hint : Decimal) : Prop :=
  hint.negative = true ∨ hint.toBinary? ≠ none ∧ hint.ceiling ≤ limit

theorem ceiling_nonpos {hint : Decimal} (h : hint.negative = true) : hint.ceiling ≤ 0 := by
  rw [Decimal.ceiling]
  split
  · exact Int.le_refl 0
  · rw [if_pos h]
    exact Int.neg_nonpos_of_nonneg (Int.natCast_nonneg _)

theorem ofCapacity_of_nonpos {hint : Int} (h : hint ≤ 0) : ofCapacity hint = empty := by
  simp only [empty, ofCapacity, mk.injEq, true_and, Int.toNat_of_nonpos h]
  decide

theorem allocate_of_granted {hint : Decimal} (hmost : limit < Number.exactLimit)
    (h : Granted limit hint) : allocate limit hint = .ok (ofCapacity hint.ceiling) := by
  rw [allocate]
  split
  · next hnegative => rw [ofCapacity_of_nonpos (ceiling_nonpos hnegative)]
  · next hnegative =>
    obtain ⟨hfinite, hle⟩ := h.resolve_left hnegative
    rw [if_neg, if_neg (Int.not_lt.2 hle)]
    rintro (hnone | hlarge)
    · exact hfinite (Option.isNone_iff_eq_none.1 hnone)
    · omega

theorem allocate_of_not_granted {hint : Decimal} (h : ¬ Granted limit hint) :
    ∃ r, allocate limit hint = .error r := by
  rw [Granted, not_or, not_and] at h
  rw [allocate, if_neg h.1]
  split
  · exact ⟨_, rfl⟩
  · next hsmall =>
    rw [not_or] at hsmall
    have hfinite : hint.toBinary? ≠ none := fun hnone => hsmall.1 (hnone ▸ rfl)
    rw [if_pos (Int.not_le.1 (h.2 hfinite))]
    exact ⟨_, rfl⟩

theorem granted_of_allocate {hint : Decimal} (hmost : limit < Number.exactLimit)
    (h : allocate limit hint = .ok b) : Granted limit hint ∧ b = ofCapacity hint.ceiling := by
  by_cases hgranted : Granted limit hint
  · exact ⟨hgranted, Except.ok.inj (h.symm.trans (allocate_of_granted hmost hgranted))⟩
  · obtain ⟨r, hr⟩ := allocate_of_not_granted hgranted
    cases h.symm.trans hr

theorem capacity_le_limit {hint : Decimal} (hleast : minimum ≤ limit) (h : Granted limit hint) :
    (ofCapacity hint.ceiling).capacity ≤ limit := by
  have hceiling : hint.ceiling ≤ limit := by
    obtain hnegative | ⟨-, hle⟩ := h
    · have := ceiling_nonpos hnegative
      omega
    · exact hle
  simp only [ofCapacity]
  omega

/-- With memory for capacities up to a limit, one is granted exactly if it lies below zero or within the limit;
the first buffer is empty and has this capacity, or the least one. Whatever calls have returned, the bytes lie
within the capacity, which is the first one doubled some times and never shrinks. Calls with indices that
doubles count in ones do not go on for ever, and all of them are accepted exactly if the first capacity,
doubled until the bytes have room, lies within the limit. Then the buffer holds the concatenation of what they
write, whatever capacity was asked for, and has the least capacity with room. -/
theorem calls_concatenate (hleast : minimum ≤ limit) (hmost : limit < Number.exactLimit) (hint : Decimal)
    (writes : List Write) :
    ((∃ first, allocate limit hint = .ok first) ↔ Granted limit hint) ∧
    ∀ first, allocate limit hint = .ok first →
      first.toBytes = [] ∧ first.capacity = max minimum hint.ceiling.toNat ∧
      (∀ b, writes.foldlM (accept limit) first = .ok b →
        b.used ≤ b.capacity ∧ minimum ≤ b.capacity ∧ (∃ k, b.capacity = first.capacity * 2 ^ k) ∧
        ∀ w b', b.accept limit w = .ok b' → b.capacity ≤ b'.capacity) ∧
      ((∀ w ∈ writes, w.Counted) →
        writes.foldlM (accept limit) first ≠ .error .endless ∧
        ((∃ b, writes.foldlM (accept limit) first = .ok b) ↔
          ∃ k, (writes.flatMap Write.bytes).length ≤ first.capacity * 2 ^ k ∧
            first.capacity * 2 ^ k ≤ limit) ∧
        ∀ b, writes.foldlM (accept limit) first = .ok b →
          b.toBytes = writes.flatMap Write.bytes ∧
          IsLeast {c | (writes.flatMap Write.bytes).length ≤ c ∧ ∃ k, c = first.capacity * 2 ^ k}
            b.capacity) := by
  refine ⟨⟨fun ⟨first, h⟩ => (granted_of_allocate hmost h).1,
    fun h => ⟨_, allocate_of_granted hmost h⟩⟩, ?_⟩
  intro first hfirst
  obtain ⟨hgranted, rfl⟩ := granted_of_allocate hmost hfirst
  have hmemory := capacity_le_limit hleast hgranted
  refine ⟨rfl, rfl, fun b hb => ⟨b.used_le, b.minimum_le, exists_capacity_of_foldlM hb, ?_⟩, ?_⟩
  · intro w b' haccept
    obtain ⟨k, hk⟩ := exists_capacity_of_accept haccept
    exact hk ▸ Nat.le_mul_of_pos_right b.capacity (Nat.two_pow_pos k)
  · intro hcounted
    have hrun := foldlM_accept_eq_ok_iff hmemory hcounted
    have hcapacity := isLeast_capacity_append (ofCapacity hint.ceiling) (writes.flatMap Write.bytes)
    have hempty : (ofCapacity hint.ceiling).used = 0 := rfl
    rw [hempty, Nat.zero_add] at hcapacity
    refine ⟨foldlM_accept_ne_endless hmemory hcounted, ?_, fun b hb => ?_⟩
    · constructor
      · rintro ⟨b, hb⟩
        obtain ⟨⟨hroom, k, hk⟩, -⟩ := hcapacity
        exact ⟨k, hk ▸ hroom, hk ▸ ((hrun b).1 hb).1⟩
      · rintro ⟨k, hroom, hle⟩
        exact ⟨_, (hrun _).2 ⟨Nat.le_trans (hcapacity.2 ⟨hroom, k, rfl⟩) hle, rfl⟩⟩
    · obtain ⟨-, rfl⟩ := (hrun b).1 hb
      exact ⟨toBytes_append _ _, hcapacity⟩

def crossing : List Write :=
  [.window (List.replicate 100 0x78) 0 100, .byte 289, .window [0x161, 0x62] (-1) 3]

theorem calls_concatenate_crossing :
    minimum ≤ 128 ∧ 128 < Number.exactLimit ∧
    ∃ first b, allocate 128 ⟨true, 5, -1⟩ = .ok first ∧ (∀ w ∈ crossing, w.Counted) ∧
      crossing.foldlM (accept 128) first = .ok b ∧
      b.toBytes = List.replicate 100 0x78 ++ [0x21, 0, 0x61, 0x62, 0] ∧ b.capacity = 128 := by
  have hleast : minimum ≤ 128 := by decide
  have hmost : 128 < Number.exactLimit := by decide
  obtain ⟨hgranted, hall⟩ := calls_concatenate hleast hmost ⟨true, 5, -1⟩ crossing
  obtain ⟨first, hfirst⟩ := hgranted.2 (.inl rfl)
  obtain ⟨-, hcapacity, -, hcounted⟩ := hall first hfirst
  have hsixtyFour : first.capacity = 64 := hcapacity.trans (by decide +kernel)
  have hcrossing : ∀ w ∈ crossing, w.Counted := by decide
  have hbytes : crossing.flatMap Write.bytes = List.replicate 100 0x78 ++ [0x21, 0, 0x61, 0x62, 0] := by
    decide +kernel
  obtain ⟨-, hmemory, hrun⟩ := hcounted hcrossing
  rw [hsixtyFour, hbytes] at hmemory hrun
  obtain ⟨b, hb⟩ := hmemory.2 ⟨1, by decide, by decide⟩
  obtain ⟨htoBytes, ⟨hroom, k, hk⟩, hfewest⟩ := hrun b hb
  refine ⟨hleast, hmost, first, b, hfirst, hcrossing, hb, htoBytes,
    Nat.le_antisymm (hfewest ⟨by decide, 1, rfl⟩) ?_⟩
  cases k with
  | zero =>
    rw [hk] at hroom
    exact absurd hroom (by decide)
  | succ k =>
    rw [hk]
    exact Nat.mul_le_mul_left 64 (Nat.pow_le_pow_right Nat.two_pos (Nat.succ_pos k))

/-- However much memory there is, no buffer has a capacity beyond what doubles count in ones, and of two
places that far before a text only one is met. -/
theorem concatenation_fails_uncounted :
    (∀ limit first, allocate limit ⟨false, 9007199254740993, 0⟩ ≠ .ok first) ∧
    ∀ limit, ∃ b,
      [Write.window [] (-9007199254740994) (-9007199254740992)].foldlM (accept limit) empty = .ok b ∧
      b.toBytes = [0] ∧
      [Write.window [] (-9007199254740994) (-9007199254740992)].flatMap Write.bytes = [0, 0] := by
  refine ⟨fun limit first hfirst => ?_, fun limit => ?_⟩
  · have hlong : Number.exactLimit ≤ (⟨false, 9007199254740993, 0⟩ : Decimal).ceiling := by decide +kernel
    rw [allocate, if_neg (by decide), if_pos (.inr hlong)] at hfirst
    cases hfirst
  · have hnext : Number.nearest (-9007199254740994 + 1) = -9007199254740992 := by decide +kernel
    have hcopied : copyUnits [].toArray (-9007199254740992) (-9007199254740994) #[] = .ok #[0] := by
      rw [copyUnits, if_pos (by decide), hnext, if_pos (by decide), copyUnits, if_neg (by decide)]
      rfl
    have hroom : empty.Fits limit 2 := .inl (by decide)
    refine ⟨(empty.reserve 2).append [0], ?_, toBytes_append _ _, by decide⟩
    rw [List.foldlM_cons, accept_window (by decide) hroom hcopied]
    rfl

end HashedLiterals.Buffer
