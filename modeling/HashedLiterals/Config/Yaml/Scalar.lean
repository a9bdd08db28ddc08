import HashedLiterals.Config.Yaml.Timestamp

set_option autoImplicit false

namespace HashedLiterals.YamlFormat

def readSingle (p : Place) : Option (List Char × Place) :=
  match hr : p.rest with
  | [] => none
  | c :: after =>
    if c = '\'' then
      if after.head? = some '\'' then
        have := Place.length_drop_lt hr 1
        (readSingle (p.drop 2)).map fun (text, q) => ('\'' :: text, q)
      else some ([], p.drop 1)
    else
      match hf : p.fold? with
      | some (breaks, q) =>
        have := Place.length_fold?_lt hf
        (readSingle q).map fun (text, q) => (folded breaks ++ text, q)
      | none =>
        if p.atSeparator || (c.toNat < 0x20 && c != '\t') then none
        else
          have := Place.length_drop_lt hr 0
          (readSingle (p.drop 1)).map fun (text, q) => (if p.atTrail then text else c :: text, q)
termination_by p.rest.length

def escape? : Char → Option Nat
  | '0' => some 0x00
  | 'a' => some 0x07
  | 'b' => some 0x08
  | 't' | '\t' => some 0x09
  | 'n' => some 0x0a
  | 'v' => some 0x0b
  | 'f' => some 0x0c
  | 'r' => some 0x0d
  | 'e' => some 0x1b
  | ' ' => some 0x20
  | '"' => some 0x22
  | '/' => some 0x2f
  | '\\' => some 0x5c
  | 'N' => some 0x85
  | '_' => some 0xa0
  | 'L' => some 0x2028
  | 'P' => some 0x2029
  | _ => none

def hexLength : Char → Nat
  | 'x' => 2
  | 'u' => 4
  | 'U' => 8
  | _ => 0

/-- The units of a code of 32 bits. One beyond the characters is cut down to 16 bits, or to a pair. -/
def unitsOfCode (code : Nat) : List Nat :=
  if code < 0x10000 ∨ 0x80000000 ≤ code then [code % 0x10000]
  else
    let offset := code - 0x10000
    [(offset / 0x400 + 0xd800) % 0x10000, offset % 0x400 + 0xdc00]

def readEscape (text : List Char) : Option (List Nat × Nat) :=
  match text with
  | [] => none
  | c :: rest =>
    match escape? c with
    | some code => some ([code], 1)
    | none =>
      let digits := rest.take (hexLength c)
      if digits.isEmpty ∨ digits.length < hexLength c then none
      else (JsonFormat.hex? digits).map fun code => (unitsOfCode code, 1 + hexLength c)

/-- The units of the text behind an opening double quote. A backslash before a line break takes it away
with the blanks behind it. -/
def readDouble (p : Place) : Option (List Nat × Place) :=
  match hr : p.rest with
  | [] => none
  | c :: after =>
    if c = '"' then some ([], p.drop 1)
    else if c = '\\' then
      match hf : (p.drop 1).fold? with
      | some (_, q) =>
        have := Place.length_fold?_lt hf
        have := p.length_drop_le 1
        readDouble q
      | none =>
        match readEscape after with
        | none => none
        | some (units, count) =>
          have := Place.length_drop_lt hr count
          (readDouble (p.drop (count + 1))).map fun (text, q) => (units ++ text, q)
    else
      match hf : p.fold? with
      | some (breaks, q) =>
        have := Place.length_fold?_lt hf
        (readDouble q).map fun (text, q) => ((folded breaks).map Char.toNat ++ text, q)
      | none =>
        if p.atSeparator || (c.toNat < 0x20 && c != '\t') then none
        else
          have := Place.length_drop_lt hr 0
          (readDouble (p.drop 1)).map fun (text, q) =>
            (if p.atTrail then text else Units.ofChar c ++ text, q)
termination_by p.rest.length
decreasing_by all_goals omega

def readQuoted (p : Place) : Option (String × Place) :=
  match p.rest with
  | '\'' :: _ => (readSingle (p.drop 1)).map fun (text, q) => (String.ofList text, q)
  | '"' :: _ =>
    (readDouble (p.drop 1)).map fun (units, q) => (String.ofList (JsonFormat.ofUnits units), q)
  | _ => none

def beginsPlain (inFlow : Bool) : List Char → Bool
  | [] => false
  | c :: rest =>
    if c = '-' ∨ c = '?' then
      !(rest.head?.all fun next => isSpace next || (inFlow && isFlowMark next))
    else !(isSpace c || isFlowMark c || "#&*!|>'\"%@`".toList.contains c)

def endsPlain (inFlow : Bool) (previous : Char) (p : Place) : Bool :=
  match p.rest with
  | [] => true
  | ':' :: rest => rest.head?.any fun next => isSpace next || (inFlow && isFlowMark next)
  | '#' :: _ => isSpace previous
  | c :: _ => p.atSeparator || (inFlow && isFlowMark c)

/-- Reads on in a plain text. What has been read is `done`, and `held` are the blanks behind it, which
belong to it only if more follows; both are kept backwards. The text ends at the place `kept`. A line
that is indented less than `outer` does not continue it. -/
def readPlain (outer : Int) (inFlow : Bool) (previous : Char) (done held : List Char) (kept p : Place) :
    List Char × Place :=
  match hr : p.rest with
  | [] => (done.reverse, p)
  | c :: _ =>
    have hd : (p.drop 1).rest.length < p.rest.length := by
      simp [Place.drop, hr]
    if endsPlain inFlow previous p then (done.reverse, p)
    else
      match hf : p.fold? with
      | some (breaks, q) =>
        have := Place.length_fold?_lt hf
        if outer ≤ q.indent then readPlain outer inFlow ' ' done (folded breaks) kept q
        else (done.reverse, { kept with tab := q.tab })
      | none =>
        if isBlank c then readPlain outer inFlow c done (c :: held) kept (p.drop 1)
        else readPlain outer inFlow c (c :: held ++ done) [] (p.drop 1) (p.drop 1)
termination_by p.rest.length

def isPrintable (c : Char) : Bool :=
  let n := c.toNat
  !(n < 0x09 || n == 0x0b || n == 0x0c || (0x0e ≤ n && n < 0x20) || (0x7f ≤ n && n < 0x85) ||
    (0x86 ≤ n && n < 0xa0) || n == 0xfffe || n == 0xffff)

def integer? (text : List Char) : Option Decimal :=
  let (negative, digits) := JsonFormat.readSign text
  let inBase (base : Nat) (digits : List Char) : Option Decimal :=
    if digits.isEmpty then none
    else
      (digits.foldlM (fun n c => ((JsonFormat.hexDigit? c).filter (· < base)).map (n * base + ·))
        0).map fun n => ⟨negative, n, 0⟩
  match digits with
  | '0' :: 'b' :: rest => inBase 2 rest
  | '0' :: 'o' :: rest => inBase 8 rest
  | '0' :: 'x' :: rest => inBase 16 rest
  | _ => inBase 10 digits

/-- A decimal number with a point or an exponent; digits may be missing on one side of the point, but
without digits before it there is no sign. -/
def fraction? (text : List Char) : Option Decimal := do
  let (negative, rest) := JsonFormat.readSign text
  let whole := rest.takeWhile Char.isDigit
  let (fraction, after) := match rest.dropWhile Char.isDigit with
    | '.' :: after => (after.takeWhile Char.isDigit, after.dropWhile Char.isDigit)
    | after => ([], after)
  let (exponent, after) ← JsonFormat.readExponent after
  if !after.isEmpty || (whole.isEmpty && (fraction.isEmpty || rest.length < text.length)) then none
  else some ⟨negative, JsonFormat.digitsValue (whole ++ fraction), exponent - fraction.length⟩

def infinite (negative : Bool) : Decimal := ⟨negative, 1, 400⟩

def number? (text : List Char) : Option Decimal :=
  ((integer? text).or (fraction? text)).filter fun d => d.toBinary?.isSome

def resolve (text : List Char) : Value :=
  let s := String.ofList text
  let (negative, unsigned) := JsonFormat.readSign text
  if ["~", "null", "Null", "NULL"].contains s then .null
  else if ["true", "True", "TRUE"].contains s then .bool true
  else if ["false", "False", "FALSE"].contains s then .bool false
  else if [".nan", ".NaN", ".NAN"].contains s then .nan
  else if [".inf", ".Inf", ".INF"].contains (String.ofList unsigned) then .number (infinite negative)
  else (((number? text).map Value.number).or ((instant? text).map Value.instant)).getD (.text s)

end HashedLiterals.YamlFormat
