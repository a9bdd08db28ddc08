import HashedLiterals.Instant
import HashedLiterals.Number.Shortest
import HashedLiterals.Record

set_option autoImplicit false

namespace HashedLiterals

inductive Value where
  | null
  | bool (b : Bool)
  | number (d : Decimal)
  /-- The number that is none. -/
  | nan
  | text (s : String)
  | instant (i : Instant)
  | list (items : List Value)
  | object (fields : List (String × Value))
  deriving Inhabited

namespace Value

def textField : String := "toString"

mutual

/-- The text of a value in a message: a list is its items between commas. An object with a field of
its own for its text has none. -/
def describe : Value → Option String
  | .null => some "null"
  | .bool true => some "true"
  | .bool false => some "false"
  | .number d => some (NumberFormat.standard.write d)
  | .nan => some "NaN"
  | .text s => some s
  | .instant i => some i.text
  | .list items => (describeItems items).map (String.intercalate ",")
  | .object fields => if (fields.lookup textField).isSome then none else some "[object Object]"

def describeItems : List Value → Option (List String)
  | [] => some []
  | .null :: rest => (describeItems rest).map fun texts => "" :: texts
  | v :: rest => v.describe.bind fun text => (describeItems rest).map fun texts => text :: texts

end

end Value

end HashedLiterals
