import HashedLiterals.Text.Units

set_option autoImplicit false

namespace HashedLiterals.Quoted

/-- The quote around a text: the first of three that does not stand in it. A back quote will not do
if the text holds a dollar sign before a brace. -/
def quoteOf (text : List Char) : Char :=
  if !text.contains '\'' then '\''
  else if !text.contains '"' then '"'
  else if text.contains '`' || (text.zip text.tail).contains ('$', '\x7b') then '\''
  else '`'

def hexCode (code : Nat) : List Char :=
  ['\\', 'x'] ++ ((Nat.toDigits 16 code).map Char.toUpper).leftpad 2 '0'

def escape (quote c : Char) : List Char :=
  match c with
  | '\\' => ['\\', '\\']
  | '\x08' => ['\\', 'b']
  | '\t' => ['\\', 't']
  | '\n' => ['\\', 'n']
  | '\x0c' => ['\\', 'f']
  | '\r' => ['\\', 'r']
  | c =>
    if c.toNat < 0x20 ∨ (0x7f ≤ c.toNat ∧ c.toNat < 0xa0) then hexCode c.toNat
    else if c = quote then ['\\', c]
    else [c]

def enclose (text : List Char) : List Char :=
  let quote := quoteOf text
  quote :: text.flatMap (escape quote) ++ [quote]

def lines : List Char → List (List Char)
  | [] => []
  | c :: rest =>
    match lines rest with
    | [] => [[c]]
    | line :: more => if c = '\n' then [c] :: line :: more else (c :: line) :: more

def fitting : Nat → List Char → List Char
  | _, [] => []
  | room, c :: rest =>
    let size := (Units.ofChar c).length
    if room < size then [] else c :: fitting (room - size) rest

def readLimit : Nat := 10000

def joinedLimit : Nat := 124

def writtenLimit : Nat := 128

def between : List Char := [' ', '+', '\n', ' ', ' ']

def write (text : String) : String :=
  let read := fitting readLimit text.toList
  let quoted := if joinedLimit < Units.count text then between.intercalate ((lines read).map enclose)
    else enclose read
  let kept := fitting writtenLimit quoted
  String.ofList kept ++ (if kept.length < quoted.length then "..." else "")

end HashedLiterals.Quoted
