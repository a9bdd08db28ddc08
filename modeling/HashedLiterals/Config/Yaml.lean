import HashedLiterals.Config.Yaml.Scalar

/-!
Reading YAML texts of one document: block mappings and sequences, flow collections, and plain and
quoted scalars. Anchors, tags, block scalars and directives are refused, and so is what is nested too
deeply.
-/
set_option autoImplicit false

namespace HashedLiterals.YamlFormat

/-- A value as it stands in the text. A plain `<<` merges what it is the key of. -/
structure Node where
  value : Value
  merges : Bool := false

def Node.null : Node := ⟨.null, false⟩

/-- A mapping in the making. Fields that came from a merge may be set once more. -/
structure Mapping where
  fields : Record Value := .empty
  merged : List String := []

namespace Mapping

def keyText (key : Value) : Option String :=
  let flat (v : Value) : Option Value :=
    match v with
    | .list _ => none
    | .object _ => (Value.object []).describe.map Value.text
    | v => some v
  match key with
  | .list items => (items.mapM flat).bind fun items => (Value.list items).describe
  | v => (flat v).bind Value.describe

def fieldsOf : Value → Option (List (String × Value))
  | .object fields => some (Record.listed fields)
  | .list items => some ((List.range items.length).map toString |>.zip items)
  | .instant _ => some []
  | _ => none

def merge (m : Mapping) (source : Value) : Option Mapping :=
  (fieldsOf source).map fun fields =>
    fields.foldl (fun m (name, value) =>
      if (m.fields.get? name).isSome then m else ⟨m.fields.set name value, name :: m.merged⟩) m

def mergeLimit : Nat := 20

def store (m : Mapping) (key : Node) (value : Value) : Option Mapping :=
  if key.merges then
    match value with
    | .list sources => if mergeLimit < sources.length then none else sources.foldlM merge m
    | source => m.merge source
  else
    (keyText key.value).bind fun name =>
      if (m.fields.get? name).isSome && !m.merged.contains name then none
      else some ⟨m.fields.set name value, m.merged.filter (· != name)⟩

def close (m : Mapping) (pending : Option Value) : Option Mapping :=
  match pending with
  | some key => m.store ⟨key, false⟩ .null
  | none => some m

def value (m : Mapping) : Value := .object m.fields.fields

end Mapping

inductive Collection where
  | sequence (items : List Value)
  | mapping (m : Mapping)

namespace Collection

def closer : Collection → Char
  | .sequence _ => ']'
  | .mapping _ => '\x7d'

def value : Collection → Value
  | .sequence items => .list items
  | .mapping m => m.value

def add (pair : Bool) (key : Node) (value : Value) : Collection → Option Collection
  | .mapping m => (m.store key value).map .mapping
  | .sequence items =>
    if pair then (Mapping.store {} key value).map fun m => .sequence (items ++ [m.value])
    else some (.sequence (items ++ [key.value]))

end Collection

inductive Context where
  | inFlow
  | key
  | item
  | value
  deriving DecidableEq

def Context.isBlock : Context → Bool
  | .item | .value => true
  | .inFlow | .key => false

def isRefused (context : Context) (p : Place) : Bool :=
  match p.rest with
  | c :: _ => ['!', '&', '*'].contains c || (context.isBlock && ['|', '>'].contains c)
  | [] => false

def readScalar (outer : Int) (context : Context) (p : Place) : Option (Option Node × Place) :=
  match p.rest.head? with
  | some '\'' | some '"' => (readQuoted p).map fun (text, q) => (some ⟨.text text, false⟩, q)
  | _ =>
    let inFlow := context == .inFlow
    let (text, q) := if beginsPlain inFlow p.rest then readPlain outer inFlow ' ' [] [] p p else ([], p)
    if text.isEmpty then some (none, p)
    else if text.all isPrintable then some (some ⟨resolve text, text == ['<', '<']⟩, q)
    else none

/-- Goes on behind an entry of a block collection that began on the given line. The first component
says whether the collection may have more entries; there is no result if the next text stands where
nothing can stand. -/
def nextEntry? (indent line : Nat) (p : Place) : Option (Bool × Place) :=
  let q := p.space
  if (q.line = line ∨ indent < q.indent) ∧ !q.atEnd then none else some (indent ≤ q.indent, q)

def endMapping (done : Option Mapping) (pending : Option Value) (p : Place) :
    Option (Option Node × Place) :=
  match done with
  | none => some (none, p)
  | some m => (m.close pending).map fun m => (some ⟨m.value, false⟩, p)

/-- How many levels a document may have. Keys, values and items are one level below what they belong
to, and so is a text at the place of a first key. -/
def depthLimit : Nat := 100

mutual

/-- The node that stands here, if there is one. It belongs to something at indentation `parent`. With
`seek` it may begin on a later line; with `compact` a block collection may begin in the middle of a
line. The first argument bounds the steps, the second the levels below. -/
def readNode : Nat → Nat → Int → Context → Bool → Bool → Place → Option (Option Node × Place)
  | 0, _, _, _, _, _, _ => none
  | _, 0, _, _, _, _, _ => none
  | steps + 1, depth + 1, parent, context, seek, compact, start =>
    let (breaks, p) := if seek then start.skipSpace true else (0, start)
    let blocks := context.isBlock && (breaks ≠ 0 || compact) && !p.tab
    let outer := if context.isBlock then parent + 1 else parent
    if breaks = 0 ∨ parent < p.indent then
      if isRefused context p then none
      else if blocks && p.atMark '-' then readSequence steps depth p.column [] p
      else if blocks then do
        let (node, q) ← readMapping steps depth p.column outer none none p
        if node.isSome then some (node, q) else readFlow steps depth outer context p
      else readFlow steps depth outer context p
    else if p.indent = parent ∧ context = .value ∧ blocks ∧ p.atMark '-' then
      readSequence steps depth p.column [] p
    else some (none, p)

def readFlow : Nat → Nat → Int → Context → Place → Option (Option Node × Place)
  | 0, _, _, _, _ => none
  | steps + 1, depth, outer, context, p =>
    match p.rest.head? with
    | some '[' => readEntries steps depth outer true (.sequence []) (p.drop 1)
    | some '\x7b' => readEntries steps depth outer true (.mapping {}) (p.drop 1)
    | _ => readScalar outer context p

def readEntries : Nat → Nat → Int → Bool → Collection → Place → Option (Option Node × Place)
  | 0, _, _, _, _, _ => none
  | steps + 1, depth, outer, ready, done, start => do
    let p := start.space
    if p.rest.head? = some done.closer then return (some ⟨done.value, false⟩, p.drop 1)
    else if p.atEnd || !ready || p.rest.head? = some ',' then none
    else
      let explicit := p.atMark '?'
      let p := if explicit then (p.drop 1).space else p
      let (key, q) ← readNode steps depth outer .inFlow false true p
      let q := q.space
      let pair := explicit || (q.line = p.line && q.rest.head? = some ':')
      let (value, q) ← if q.rest.head? = some ':' && pair then
          readNode steps depth outer .inFlow false true (q.drop 1).space
        else some (none, q)
      let done ← done.add pair (key.getD .null) (value.getD .null).value
      let q := q.space
      if q.rest.head? = some ',' then readEntries steps depth outer true done (q.drop 1)
      else readEntries steps depth outer false done q

def readSequence : Nat → Nat → Nat → List Value → Place → Option (Option Node × Place)
  | 0, _, _, _, _ => none
  | steps + 1, depth, indent, done, p =>
    if p.atEnd || (!p.tab && !p.atMark '-') then some (some ⟨.list done, false⟩, p)
    else if p.tab then none
    else
      let (breaks, q) := (p.drop 1).skipSpace true
      if breaks ≠ 0 ∧ q.indent ≤ indent then readSequence steps depth indent (done ++ [.null]) q
      else do
        let (item, r) ← readNode steps depth indent .item false true q
        let done := done ++ [(item.getD .null).value]
        let (more, r) ← nextEntry? indent q.line r
        if more then readSequence steps depth indent done r else return (some ⟨.list done, false⟩, r)

/-- The entries of a block mapping at a column. As long as none was found, `done` is nothing, and a key
without a colon is itself the node. A key behind a question mark is `pending` until its value comes. -/
def readMapping : Nat → Nat → Nat → Int → Option Mapping → Option Value → Place →
    Option (Option Node × Place)
  | 0, _, _, _, _, _, _ => none
  | steps + 1, depth, indent, outer, done, pending, p =>
    let more (done : Mapping) (pending : Option Value) (q : Place) :
        Option (Option Node × Place) := do
      let (more, q) ← nextEntry? indent p.line q
      if more then readMapping steps depth indent outer (some done) pending q
      else endMapping (some done) pending q
    if p.atEnd then endMapping done pending p
    else if pending.isNone && p.tab then none
    else if p.atMark '?' then do
      let done ← (done.getD {}).close pending
      let (key, q) ← readNode steps depth indent .value true true (p.drop 1)
      more done (some (key.getD .null).value) q
    else if p.atMark ':' then do
      let key ← pending
      let (value, q) ← readNode steps depth indent .value true true (p.drop 1)
      let done ← (done.getD {}).store ⟨key, false⟩ (value.getD .null).value
      more done none q
    else do
      let (key, q) ← readNode steps depth outer .key false true p
      match key with
      | none => endMapping done pending q
      | some key =>
        let q := if q.line = p.line then q.drop (q.rest.takeWhile isBlank).length else q
        if q.line = p.line ∧ q.rest.head? = some ':' then
          if q.atMark ':' then
            let done ← (done.getD {}).close pending
            let (value, q) ← readNode steps depth indent .value true false (q.drop 1)
            let done ← done.store key (value.getD .null).value
            more done none q
          else none
        else if done.isSome then none
        else return (some key, q)

end

def readDocument (steps : Nat) (start : Place) : Option (Value × Place) := do
  let p := start.space
  if p.indent = 0 ∧ p.rest.head? = some '%' then none
  else
    let p := if p.indent = 0 ∧ ['-', '-', '-'].isPrefixOf p.rest then (p.drop 3).space else p
    let (node, q) ← readNode steps depthLimit (p.indent - 1) .value false true p
    let q := q.space
    let value := (node.getD .null).value
    if q.atSeparator then
      return (value, if q.rest.head? = some '.' then (q.drop 3).space else q)
    else if 1 < q.rest.length then none
    else return (value, q)

def prepare (text : List Char) : List Char :=
  let closed := if text.getLast?.all isBreak then text else text ++ ['\n']
  match closed with
  | '\ufeff' :: rest => rest
  | _ => closed

def parse? (text : String) : Option Value :=
  let prepared := prepare text.toList
  if prepared.contains '\x00' then none
  else if prepared.length ≤ 1 then some .null
  else
    (readDocument (8 * (prepared.length + 2)) (Place.ofLine 0 prepared)).bind fun (value, q) =>
      if 1 < q.rest.length then none else some value

end HashedLiterals.YamlFormat
