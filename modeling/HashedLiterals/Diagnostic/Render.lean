import HashedLiterals.Diagnostic.Basic
import HashedLiterals.Position
import HashedLiterals.Text.Units
import HashedLiterals.Text.Utf8

set_option autoImplicit false

namespace HashedLiterals

inductive Style where
  | bold
  | red
  | yellow
  | blue
  | cyan
  | green
  /-- No style of its own. -/
  | unstyled
  deriving DecidableEq, Repr

namespace Style

def escape (parameter : String) : String := "\x1b[" ++ parameter ++ "m"

def reset : String := escape "0"

def sequence : Style → String
  | .bold => escape "1"
  | .red => escape "31"
  | .yellow => escape "33"
  | .blue => escape "34"
  | .cyan => escape "36"
  | .green => escape "32"
  | .unstyled => ""

end Style

structure Styled where
  text : String
  styles : List Style := []

namespace Styled

def paint (colors : Bool) (s : Styled) : String :=
  if colors && !s.styles.isEmpty then String.join (s.styles.map Style.sequence) ++ s.text ++ Style.reset
  else s.text

def paintLine (colors : Bool) (line : List Styled) : String := String.join (line.map (paint colors))

@[simp] theorem paint_plain (s : Styled) : s.paint false = s.text := by simp [paint]

end Styled

def Severity.style : Severity → Style
  | .error => .red
  | .warning => .yellow
  | .info => .cyan
  | .other _ => .unstyled

namespace Diagnostic

def blanks (n : Nat) : String := String.ofList (List.replicate n ' ')

def alignRight (width : Nat) (text : String) : String := blanks (width - text.length) ++ text

/-- The frame around the source line, with carets under the span. -/
def excerpt (d : Diagnostic) (span : Span) : List (List Styled) :=
  let position := Position.ofOffset span.text span.start
  let bounds := Range.lineAt span.text span.start
  let line := Utf8.decode (span.text.slice bounds.start bounds.stop)
  let indent := Units.count (Utf8.decode (span.text.slice bounds.start span.start))
  let stop := min (span.start + span.length) bounds.stop
  let width := Units.count (Utf8.decode (span.text.slice span.start stop))
  let number := toString position.line
  let margin := max 3 number.length
  let bar : Styled := ⟨"|", [.blue]⟩
  let empty : List Styled := [⟨" " ++ blanks margin ++ " ", []⟩, bar]
  let carets := blanks indent ++ String.ofList (List.replicate (max 1 width) '^')
  let label := match d.label with
    | none => ""
    | some text => if text.isEmpty then "" else " " ++ text
  [[⟨"  ", []⟩, ⟨"-->", [.blue]⟩,
      ⟨" " ++ span.fileName ++ ":" ++ number ++ ":" ++ Number.text position.column, []⟩],
    empty,
    [⟨" ", []⟩, ⟨alignRight margin number, [.blue]⟩, ⟨" ", []⟩, bar, ⟨" " ++ line, []⟩],
    [⟨" " ++ blanks margin ++ " ", []⟩, bar, ⟨" ", []⟩,
      ⟨carets ++ label, [d.descriptor.severity.style]⟩],
    empty]

def location (d : Diagnostic) : List (List Styled) :=
  match d.span, d.fileName with
  | some span, _ => d.excerpt span
  | none, some fileName =>
    if fileName.isEmpty then [] else [[⟨"  ", []⟩, ⟨"-->", [.blue]⟩, ⟨" " ++ fileName, []⟩]]
  | none, none => []

def splitLines (text : String) : List String := (text.toList.splitOn '\n').map String.ofList

def explanation (d : Diagnostic) : List (List Styled) :=
  if d.descriptor.explanation.isEmpty then []
  else
    [[], [⟨"Explanation:", [.bold]⟩]] ++
      (splitLines d.descriptor.explanation).map fun line => [⟨"  " ++ line, []⟩]

def header (d : Diagnostic) : List Styled :=
  let style := [.bold, d.descriptor.severity.style]
  [⟨d.descriptor.severity.name, style⟩, ⟨"[" ++ Descriptor.codeName d.descriptor.code ++ "]", style⟩,
    ⟨": ", []⟩, ⟨d.message, [.bold]⟩]

def helpLine (d : Diagnostic) : List (List Styled) :=
  match d.help with
  | none => []
  | some text =>
    if text.isEmpty then [] else [[⟨"   ", []⟩, ⟨"= help:", [.bold, .green]⟩, ⟨" " ++ text, []⟩]]

def lines (explain : Bool) (d : Diagnostic) : List (List Styled) :=
  [d.header] ++ d.location ++
    (d.notes.map fun note => [⟨"   ", []⟩, ⟨"= note:", [.bold]⟩, ⟨" " ++ note, []⟩]) ++
    d.helpLine ++ (if explain then d.explanation else [])

def joinLines (lines : List String) : String := String.intercalate "\n" lines

def render (colors explain : Bool) (d : Diagnostic) : String :=
  joinLines ((d.lines explain).map (Styled.paintLine colors))

def tally (count : Nat) (noun : String) (style : Style) : List (List Styled) :=
  if count = 0 then []
  else
    [[⟨toString count ++ " " ++ noun ++ (if 1 < count then "s" else ""), [.bold, style]⟩]]

def summary (ds : List Diagnostic) : List (List Styled) :=
  let count (s : Severity) := (ds.filter fun d => d.descriptor.severity == s).length
  let parts := tally (count .error) "error" .red ++ tally (count .warning) "warning" .yellow
  if parts.isEmpty then [] else [List.intercalate [⟨", ", []⟩] parts ++ [⟨" generated", []⟩]]

def renderAll (colors explain : Bool) (ds : List Diagnostic) : String :=
  joinLines <|
    (ds.flatMap fun d => [d.render colors explain, ""]) ++
      (summary ds).map (Styled.paintLine colors)

end Diagnostic

end HashedLiterals
