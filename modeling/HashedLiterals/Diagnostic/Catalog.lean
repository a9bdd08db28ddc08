import HashedLiterals.Number.Shortest

set_option autoImplicit false

namespace HashedLiterals

inductive Severity where
  | error
  | warning
  | info
  /-- A severity that only has a name. -/
  | other (name : String)
  deriving DecidableEq, Repr

namespace Severity

def all : List Severity := [.error, .warning, .info]

def name : Severity → String
  | .error => "error"
  | .warning => "warning"
  | .info => "info"
  | .other name => name

def ofName (text : String) : Severity := (all.find? fun s => s.name == text).getD (.other text)

end Severity

inductive Category where
  | input
  | invocation
  | output
  | collision
  | configuration
  /-- A category that only has a name. -/
  | other (name : String)
  deriving DecidableEq, Repr

namespace Category

def all : List Category := [.input, .invocation, .output, .collision, .configuration]

def name : Category → String
  | .input => "input"
  | .invocation => "syntax"
  | .output => "output"
  | .collision => "collision"
  | .configuration => "config"
  | .other name => name

def ofName (text : String) : Category := (all.find? fun c => c.name == text).getD (.other text)

end Category

structure Descriptor where
  code : Int
  severity : Severity
  category : Category
  /-- The message; a name in braces stands for an argument. -/
  template : String
  explanation : String
  deriving DecidableEq, Repr

namespace Descriptor

def unreadableSource : Descriptor where
  code := 1001
  severity := .error
  category := .input
  template := "Could not read input file `\x7bpath\x7d`"
  explanation := "The source file could not be opened or read.

The file is skipped; other files in the same run are still processed.
Check that the path exists and is readable."

def notALiteral : Descriptor where
  code := 1002
  severity := .error
  category := .invocation
  template := "Only string literals can be placed inside `\x7bmarker\x7d(...)`"
  explanation := "The marker must wrap a single double-quoted string literal.

Correct:
  SID(\"player.jump\")

Incorrect:
  SID(42)
  SID(name)

The whole file is left untouched."

def unterminatedLiteral : Descriptor where
  code := 1003
  severity := .error
  category := .invocation
  template := "Unterminated string literal inside `\x7bmarker\x7d(...)`"
  explanation := "The string literal was never closed before the end of the file.

A backslash always escapes the byte that follows it, so a literal ending
in \\\" is still open. The whole file is left untouched."

def unclosedInvocation : Descriptor where
  code := 1004
  severity := .error
  category := .invocation
  template := "Expected `)` after the string \"\x7bliteral\x7d\" in `\x7bmarker\x7d(...)`"
  explanation := "Only whitespace may follow the string literal before the closing
parenthesis.

Incorrect:
  SID(\"a\" \"b\")
  SID(\"a\", 1)

The whole file is left untouched."

def unwritableDestination : Descriptor where
  code := 1005
  severity := .error
  category := .output
  template := "Could not write output file `\x7bpath\x7d`"
  explanation := "The rewritten file could not be written to its destination.

Check that the directory exists and is writable."

def hashCollision : Descriptor where
  code := 1006
  severity := .error
  category := .collision
  template := "Hash \x7bhash\x7d of \"\x7bliteral\x7d\" collides with \"\x7bexisting\x7d\""
  explanation := "Two different strings produced the same hash value.

Collision checks only run when detectCollisions is enabled. Rename one of
the strings, or switch to another hash algorithm."

def badConfiguration : Descriptor where
  code := 1101
  severity := .error
  category := .configuration
  template := "Invalid configuration: \x7bdetail\x7d"
  explanation := "A configuration value from a config file, a STRID_* environment
variable or a command-line flag was rejected."

def catalog : List Descriptor :=
  [unreadableSource, notALiteral, unterminatedLiteral, unclosedInvocation, unwritableDestination,
    hashCollision, badConfiguration]

def ofCode? (code : Int) : Option Descriptor := catalog.find? fun d => d.code == code

def ofCategory (category : Category) : List Descriptor :=
  catalog.filter fun d => d.category == category

def codeName (code : Int) : String := "STRID" ++ Number.text code

end Descriptor

end HashedLiterals
