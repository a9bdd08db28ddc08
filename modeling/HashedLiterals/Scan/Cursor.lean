import HashedLiterals.Buffer
import HashedLiterals.Scan

/-!
A cursor walks a source step by step. It copies what it passes to a buffer and stops behind each
token, where the invocation can be replaced. Driven to the end it does what `Scan.scan` says. A cursor
can be moved back, even to places before the source, which are copied as zero bytes.
-/
set_option autoImplicit false

namespace HashedLiterals.Scan

structure Cursor where
  text : Bytes
  marker : Marker
  /-- Offset of the next byte to read. -/
  read : Int := 0
  out : Buffer := Buffer.empty
  /-- Offset of the token met last. -/
  tokenStart : Option Nat := none

namespace Cursor

inductive Progress where
  | copied
  | invocation
  | finished
  deriving DecidableEq, Repr

inductive Sight where
  | byte (b : UInt8)
  | before
  | behind
  deriving DecidableEq, Repr

def rest (c : Cursor) : Bytes := c.text.drop c.read.toNat

def atEnd (c : Cursor) : Bool := c.text.length ≤ c.read

def remaining (c : Cursor) : Nat := (c.text.length - c.read).toNat

def peek (c : Cursor) (ahead : Int) : Sight :=
  let place := c.read + ahead
  if place < 0 then .before
  else
    match c.text[place.toNat]? with
    | some b => .byte b
    | none => .behind

def advance (c : Cursor) (count : Int) : Cursor :=
  { c with read := min c.text.length (c.read + count) }

def skipSpace (c : Cursor) : Cursor :=
  if c.read < 0 then c else { c with read := c.read + (c.rest.takeWhile Bytes.isSpace).length }

def invocationStart (c : Cursor) : Int := c.tokenStart.elim (-1) Int.ofNat

def copy (c : Cursor) (count : Nat) : Cursor :=
  { c with read := c.read + count, out := c.out.append (c.rest.take count) }

def pass (c : Cursor) : Cursor :=
  { c with read := c.read + c.marker.token.length, tokenStart := some c.read.toNat }

def copyZero (c : Cursor) : Cursor := { c with read := c.read + 1, out := c.out.append [0] }

def step (c : Cursor) : Progress × Cursor :=
  if c.read < 0 then (.copied, c.copyZero)
  else
    match Scan.step c.marker c.rest with
    | .finished => (.finished, c)
    | .copy n => (.copied, c.copy n)
    | .token => (.invocation, c.pass)

theorem remaining_step {c : Cursor} (h : c.step.1 = .copied) :
    c.step.2.remaining < c.remaining := by
  unfold step at h ⊢
  split
  · simp only [copyZero, remaining]
    omega
  · split <;> simp_all
    next n hs =>
      have := step_eq_copy hs
      simp only [rest, List.length_drop] at this
      simp only [copy, remaining]
      omega

def enter (c : Cursor) : Cursor :=
  { c with read := max 0 c.read, out := c.out.append (List.replicate (-c.read).toNat 0) }

def next (c : Cursor) : Progress × Cursor :=
  let c := c.enter
  match gap c.marker c.rest with
  | (before, none) => (.finished, c.copy before.length)
  | (before, some _) => (.invocation, (c.copy before.length).pass)

/-- Reads the rest of an invocation from behind its token and writes the replacement. The cursor
stops where the invocation ends or goes wrong; the replacement is written once the literal is
closed. No literal begins before the source. -/
def replace (c : Cursor) (hash : HashFunction) : Except Fault Body × Cursor :=
  let write (span : Bytes) := c.out.append (Literal.replacement (hash span) span)
  if c.read < 0 then (.error (.notALiteral 0), c)
  else
    match readBody c.rest with
    | .ok body => (.ok body, { c with read := c.read + body.length, out := write body.span })
    | .error (.unclosed span found) =>
      (.error (.unclosed span found), { c with read := c.read + found, out := write span })
    | .error (.notALiteral found) =>
      (.error (.notALiteral found), { c with read := c.read + found })
    | .error (.unterminated quote) =>
      let held := Literal.openLength (c.rest.drop (quote + 1))
      (.error (.unterminated quote), { c with read := c.read + quote + 1 + held })

end Cursor

end HashedLiterals.Scan
