set_option autoImplicit false

namespace HashedLiterals

structure Instant where
  seconds : Int
  deriving DecidableEq, Repr

namespace Instant

/-- The day on which a year begins, counted from the first day of 1970. Every fourth year has one day
more, but of the full centuries only every fourth. -/
def yearStart (year : Int) : Int :=
  365 * (year - 1970) + (year - 1969) / 4 - (year - 1901) / 100 + (year - 1601) / 400

def months (year : Int) : List Nat :=
  [31, (yearStart (year + 1) - yearStart year - 337).toNat, 31, 30, 31, 30, 31, 31, 30, 31, 30, 31]

/-- The instant of a date and a time. A field beyond its range runs over into the next larger one;
January is month 1. -/
def ofFields (year month day hour minute second : Int) : Instant :=
  let whole := year + (month - 1) / 12
  let days := yearStart whole + ((months whole).take ((month - 1) % 12).toNat).foldl Nat.add 0 + day - 1
  ⟨((days * 24 + hour) * 60 + minute) * 60 + second⟩

/-- The year in which a day lies: the mean length of a year gives it up to one. -/
def yearOf (day : Int) : Int :=
  let guess := 1970 + day * 400 / 146097
  if day < yearStart guess then guess - 1 else if yearStart (guess + 1) ≤ day then guess + 1 else guess

def monthOf (day : Nat) : List Nat → Nat × Nat
  | [] => (0, day)
  | length :: rest =>
    if day < length then (0, day)
    else
      let (month, day) := monthOf (day - length) rest
      (month + 1, day)

def weekdayNames : List String := ["Sun", "Mon", "Tue", "Wed", "Thu", "Fri", "Sat"]

def monthNames : List String :=
  ["Jan", "Feb", "Mar", "Apr", "May", "Jun", "Jul", "Aug", "Sep", "Oct", "Nov", "Dec"]

def padded (width : Nat) (n : Int) : String :=
  String.ofList ((Nat.toDigits 10 n.toNat).leftpad width '0')

def text (i : Instant) : String :=
  let days := i.seconds / 86400
  let time := i.seconds % 86400
  let year := yearOf days
  let (month, day) := monthOf (days - yearStart year).toNat (months year)
  String.intercalate " "
    [weekdayNames.getD ((days + 4) % 7).toNat "", monthNames.getD month "", padded 2 (day + 1),
      padded 4 year,
      String.intercalate ":" [padded 2 (time / 3600), padded 2 (time / 60 % 60), padded 2 (time % 60)],
      "GMT+0000 (Coordinated Universal Time)"]

end Instant

end HashedLiterals
