import HashedLiterals.Config.Json
import HashedLiterals.Config.Yaml.Place

set_option autoImplicit false

namespace HashedLiterals.YamlFormat

def readCount (least most : Nat) (text : List Char) : Option (Int × List Char) :=
  let digits := (text.take most).takeWhile Char.isDigit
  if digits.length < least then none
  else some (JsonFormat.digitsValue digits, text.drop digits.length)

def behind? (mark : Char) : List Char → Option (List Char)
  | c :: rest => if c = mark then some rest else none
  | [] => none

def readBetween : List Char → Option (List Char)
  | 'T' :: rest | 't' :: rest => some rest
  | c :: rest => if isBlank c then some (rest.dropWhile isBlank) else none
  | [] => none

def skipFraction : List Char → List Char
  | '.' :: rest => rest.dropWhile Char.isDigit
  | rest => rest

def readZone (text : List Char) : Option Int :=
  if text.isEmpty then some 0
  else
    let zone (sign : Int) (rest : List Char) : Option Int := do
      let (hours, rest) ← readCount 1 2 rest
      let (minutes, rest) ← if rest.isEmpty then some (0, []) else (behind? ':' rest).bind (readCount 2 2)
      if rest.isEmpty then some (sign * (hours * 60 + minutes)) else none
    match text.dropWhile isBlank with
    | ['Z'] => some 0
    | '+' :: rest => zone 1 rest
    | '-' :: rest => zone (-1) rest
    | _ => none

def fullYear (year : Int) : Int := if year < 100 then 1900 + year else year

/-- The instant that a text names. A date without a time has two digits for month and day. -/
def instant? (text : List Char) : Option Instant := do
  let (year, rest) ← readCount 4 4 text
  let (month, rest) ← (behind? '-' rest).bind (readCount 1 2)
  let (day, rest) ← (behind? '-' rest).bind (readCount 1 2)
  if rest.isEmpty then
    if text.length = 10 then some (.ofFields (fullYear year) month day 0 0 0) else none
  else
    let (hour, rest) ← (readBetween rest).bind (readCount 1 2)
    let (minute, rest) ← (behind? ':' rest).bind (readCount 2 2)
    let (second, rest) ← (behind? ':' rest).bind (readCount 2 2)
    let ahead ← readZone (skipFraction rest)
    return .ofFields (fullYear year) month day hour (minute - ahead) second

end HashedLiterals.YamlFormat
