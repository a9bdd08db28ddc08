import HashedLiterals.Text.Utf8

set_option autoImplicit false

namespace HashedLiterals

abbrev HashFunction := Bytes → Int

namespace Hash

def word (n : Int) : UInt32 := (n % 4294967296).toNat.toUInt32

@[simp] theorem word_toNat (w : UInt32) : word w.toNat = w := by
  have h := w.toNat_lt
  have : ((w.toNat : Int) % 4294967296).toNat = w.toNat := by omega
  simp [word, this]

theorem toNat_word (n : Int) : ((word n).toNat : Int) = n % 4294967296 := by
  have h : (n % 4294967296).toNat < 4294967296 := by omega
  simp only [word, Nat.toUInt32_eq, UInt32.toNat_ofNat']
  omega

def djb2 (bytes : Bytes) : UInt32 := bytes.foldl (fun h b => h * 33 + b.toUInt32) 5381

def fnv1a (bytes : Bytes) : UInt32 :=
  bytes.foldl (fun h b => (h ^^^ b.toUInt32) * 16777619) 2166136261

inductive Algorithm where
  | djb2
  | fnv1a
  deriving DecidableEq, Repr

def Algorithm.all : List Algorithm := [.djb2, .fnv1a]

def Algorithm.name : Algorithm → String
  | .djb2 => "djb2"
  | .fnv1a => "fnv1a"

def Algorithm.ofName? (name : String) : Option Algorithm := all.find? fun a => a.name == name

@[simp] theorem Algorithm.ofName?_name (a : Algorithm) : ofName? a.name = some a := by
  cases a <;> decide

def Algorithm.word : Algorithm → Bytes → UInt32
  | .djb2 => Hash.djb2
  | .fnv1a => Hash.fnv1a

def Algorithm.function (a : Algorithm) : HashFunction := fun bytes => (a.word bytes).toNat

def ofText (hash : HashFunction) (text : String) : Int := hash (Utf8.encode text)

def hexDigits : Nat → Nat → List Char
  | 0, _ => []
  | k + 1, n => Nat.digitChar (n / Nat.pow 16 k % 16) :: hexDigits k n

@[simp] theorem length_hexDigits (k n : Nat) : (hexDigits k n).length = k := by
  induction k with
  | zero => rfl
  | succ k ih => simp [hexDigits, ih]

def constant (w : UInt32) : List Char := ['0', 'x'] ++ hexDigits 8 w.toNat

def format (hash : Int) : String := String.ofList (constant (word hash))

end Hash

end HashedLiterals
