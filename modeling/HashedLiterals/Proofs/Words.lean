import HashedLiterals.Number.Shortest
import HashedLiterals.Proofs.Collisions
import Mathlib.Algebra.BigOperators.Fin
import Mathlib.Tactic.Ring

/-!
Hashes computed with numbers. Products and what is added without carry are words with a sign, sums are
doubles, and only the last step takes the residue. Main statement: both hashes computed in this way are
what their formulas give modulo 2 ^ 32, so taking the residue again changes nothing.
-/
set_option autoImplicit false

namespace HashedLiterals

namespace Hash

/-- The value of a word whose highest bit counts as a sign. -/
def signed (w : UInt32) : Int := w.toBitVec.toInt

def unsigned (n : Int) : Int := (word n).toNat

def product (m n : Int) : Int := signed (word m * word n)

def carryless (m n : Int) : Int := signed (word m ^^^ word n)

/-- The sum of two numbers as a double. -/
def sum (m n : Int) : Int := Number.nearest (m + n)

namespace Algorithm

def seed : Algorithm → Int
  | .djb2 => 5381
  | .fnv1a => 2166136261

def advance : Algorithm → Int → UInt8 → Int
  | .djb2, h, b => unsigned (sum (product h 33) b.toNat)
  | .fnv1a, h, b => unsigned (product (carryless h b.toNat) 16777619)

def number (a : Algorithm) (bytes : Bytes) : Int := bytes.foldl a.advance a.seed

end Algorithm

variable {m n : Int} {a : Algorithm}

theorem word_eq_iff : word m = word n ↔ m % 4294967296 = n % 4294967296 := by
  rw [← toNat_word, ← toNat_word, Int.natCast_inj, UInt32.toNat_inj]

theorem signed_cases (w : UInt32) : signed w = w.toNat ∧ signed w < 2147483648 ∨
    signed w = w.toNat - 4294967296 ∧ -2147483648 ≤ signed w := by
  have hlt := w.toNat_lt
  have hnat : w.toBitVec.toNat = w.toNat := rfl
  rw [signed, BitVec.toInt_eq_toNat_cond, hnat]
  split
  · omega
  · omega

theorem word_signed (w : UInt32) : word (signed w) = w := by
  have hword : word (signed w) = word w.toNat := by
    rw [word_eq_iff]
    obtain ⟨h, -⟩ | ⟨h, -⟩ := signed_cases w <;> omega
  rw [hword, word_toNat]

theorem word_natCast_byte (b : UInt8) : word b.toNat = b.toUInt32 := word_toNat b.toUInt32

theorem word_add (m n : Int) : word (m + n) = word m + word n := by
  rw [← word_toNat (word m + word n), word_eq_iff, UInt32.toNat_add]
  have hm := toNat_word m
  have hn := toNat_word n
  omega

theorem sum_signed (w : UInt32) (b : UInt8) : sum (signed w) b.toNat = signed w + b.toNat := by
  refine Number.nearest_of_le ?_
  have hw := w.toNat_lt
  have hb := b.toNat_lt
  have hlimit : Number.exactLimit = 9007199254740992 := rfl
  obtain ⟨h, hbound⟩ | ⟨h, hbound⟩ := signed_cases w <;> omega

theorem unsigned_natCast (w : UInt32) : unsigned w.toNat = w.toNat := by
  rw [unsigned, word_toNat]

theorem advance_djb2 (w : UInt32) (b : UInt8) :
    Algorithm.djb2.advance w.toNat b = (w * 33 + b.toUInt32).toNat := by
  have hfactor : word 33 = 33 := rfl
  rw [Algorithm.advance, product, word_toNat, hfactor, sum_signed, unsigned, word_add, word_signed,
    word_natCast_byte]

theorem advance_fnv1a (w : UInt32) (b : UInt8) :
    Algorithm.fnv1a.advance w.toNat b = ((w ^^^ b.toUInt32) * 16777619).toNat := by
  have hprime : word 16777619 = 16777619 := rfl
  rw [Algorithm.advance, product, carryless, word_signed, word_toNat, word_natCast_byte, hprime, unsigned,
    word_signed]

theorem foldl_advance {step : UInt32 → UInt8 → UInt32}
    (h : ∀ w b, a.advance w.toNat b = (step w b).toNat) (w : UInt32) (bytes : Bytes) :
    bytes.foldl a.advance w.toNat = (bytes.foldl step w).toNat := by
  induction bytes generalizing w with
  | nil => rfl
  | cons b bytes ih => rw [List.foldl_cons, h, ih, List.foldl_cons]

/-- Between two bytes the number is the word that the hash keeps. -/
theorem number_eq_function (a : Algorithm) (bytes : Bytes) : a.number bytes = a.function bytes := by
  cases a with
  | djb2 => exact foldl_advance advance_djb2 5381 bytes
  | fnv1a => exact foldl_advance advance_fnv1a 2166136261 bytes

theorem toNat_foldl_djb2 (w : UInt32) (bytes : Bytes) :
    (bytes.foldl (fun h b => h * 33 + b.toUInt32) w).toNat =
      (w.toNat * 33 ^ bytes.length +
        ∑ i : Fin bytes.length, bytes[i].toNat * 33 ^ (bytes.length - 1 - i)) % 2 ^ 32 := by
  induction bytes generalizing w with
  | nil => simp
  | cons b bytes ih =>
    have hstep : (w * 33 + b.toUInt32).toNat = (w.toNat * 33 + b.toNat) % 2 ^ 32 := by
      simp
    have hsum : ∑ i : Fin (b :: bytes).length, (b :: bytes)[i].toNat * 33 ^ ((b :: bytes).length - 1 - i) =
        b.toNat * 33 ^ bytes.length +
          ∑ i : Fin bytes.length, bytes[i].toNat * 33 ^ (bytes.length - 1 - i) := by
      refine (Fin.sum_univ_succ _).trans (congrArg₂ _ rfl (Finset.sum_congr rfl fun i _ => ?_))
      have hexponent : bytes.length - (i + 1) = bytes.length - 1 - i := by omega
      simp [hexponent]
    have hexpand : ∀ s, (w.toNat * 33 + b.toNat) * 33 ^ bytes.length + s =
        w.toNat * 33 ^ (bytes.length + 1) + (b.toNat * 33 ^ bytes.length + s) := by
      intro s
      ring
    rw [List.foldl_cons, ih, hstep, hsum, Nat.add_mod, Nat.mod_mul_mod, ← Nat.add_mod, hexpand,
      List.length_cons]

theorem toNat_foldl_fnv1a (w : UInt32) (bytes : Bytes) :
    (bytes.foldl (fun h b => (h ^^^ b.toUInt32) * 16777619) w).toNat =
      bytes.foldl (fun h b => (h ^^^ b.toNat) * 16777619 % 2 ^ 32) w.toNat := by
  induction bytes generalizing w with
  | nil => rfl
  | cons b bytes ih =>
    have hstep : ((w ^^^ b.toUInt32) * 16777619).toNat = (w.toNat ^^^ b.toNat) * 16777619 % 2 ^ 32 := by
      simp
    rw [List.foldl_cons, ih, hstep, List.foldl_cons]

/-- Computed with words that have a sign, with doubles and with residues, the hashes are exactly what their
formulas give modulo 2 ^ 32: the sum of the bytes times powers of 33, and the fold with the prime. They lie
below 2 ^ 32, so the residue that a replacement takes of them is the hash itself. -/
theorem hashes_modular (bytes : Bytes) :
    Algorithm.djb2.number bytes = ((5381 * 33 ^ bytes.length +
      ∑ i : Fin bytes.length, bytes[i].toNat * 33 ^ (bytes.length - 1 - i)) % 2 ^ 32 : Nat) ∧
    Algorithm.fnv1a.number bytes =
      (bytes.foldl (fun h b => (h ^^^ b.toNat) * 16777619 % 2 ^ 32) 2166136261 : Nat) ∧
    ∀ a : Algorithm, a.function bytes = a.number bytes ∧
      0 ≤ a.number bytes ∧ a.number bytes < 2 ^ 32 ∧ unsigned (a.number bytes) = a.number bytes ∧
      ∀ offset pieces, ∀ i ∈ Invocation.ofPieces a.function offset pieces,
        i.hash.toNat = a.number i.span := by
  refine ⟨?_, ?_, fun a => ⟨(number_eq_function a bytes).symm, ?_, ?_, ?_, ?_⟩⟩
  · rw [number_eq_function]
    exact congrArg Nat.cast (toNat_foldl_djb2 5381 bytes)
  · rw [number_eq_function]
    exact congrArg Nat.cast (toNat_foldl_fnv1a 2166136261 bytes)
  · rw [number_eq_function]
    exact Int.natCast_nonneg _
  · rw [number_eq_function]
    exact Int.ofNat_lt.2 (a.word bytes).toNat_lt
  · rw [number_eq_function]
    exact unsigned_natCast (a.word bytes)
  · intro offset pieces i hi
    obtain ⟨before, p, after, -, rfl⟩ := Invocation.mem_ofPieces hi
    exact (unsigned_natCast (a.word p.span)).trans (number_eq_function a p.span).symm

end Hash

end HashedLiterals
