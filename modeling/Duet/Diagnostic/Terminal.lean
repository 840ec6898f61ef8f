import Duet.Diagnostic.Basic
import Duet.Text.Lines

/-!
# Diagnostics for a terminal

The text form of a diagnostic: a heading, the source line of the first primary label with the
label marked below it, and then the other labels, the notes and the suggestion, one to a line.
The marks stay within the quoted line, or are a single one after its end. Colours are optional.
-/

namespace Duet.Terminal

/-- How a piece of text stands out. -/
inductive Style where
  | strong | error | gutter | faint
deriving DecidableEq, Repr

/-- The parameter of the escape sequence that switches a style on. -/
def Style.parameter : Style → String
  | .strong => "1"
  | .error => "1;31"
  | .gutter => "36"
  | .faint => "2"

/-- A text in a style, if colours are wanted. -/
def paint (color : Bool) (style : Style) (s : String) : String :=
  if color then "\x1b[" ++ style.parameter ++ "m" ++ s ++ "\x1b[0m" else s

/-- A character repeated. -/
def repeated (c : Char) (n : Nat) : String :=
  String.ofList (List.replicate n c)

/-- The heading: the code, if there is one, and the message. -/
def heading (color : Bool) (d : Diagnostic) : String :=
  let tag := match d.code with
    | some code => paint color .error "error" ++ "[" ++ paint color .strong code ++ "]"
    | none => paint color .error "error"
  tag ++ ": " ++ paint color .strong d.message

/-- Where the marks of a span start in their line and how many there are: as many as the span
has bytes, but at least one and no more than the line has room for. -/
def underline (span : Span) (column lineSize : Nat) : Nat × Nat :=
  let start := column - 1
  let room := max (lineSize - start) 1
  (start, min (max (span.stop - span.start) 1) room)

/-- The lines that quote the place of a label. -/
def snippet (color : Bool) (source : List Char) (label : Label) : List String :=
  let position := Lines.lookup source label.span.start
  let text := Lines.lineText source position.line
  let number := toString position.line
  let margin := repeated ' ' number.length
  let bar := paint color .gutter "|"
  let (start, width) := underline label.span position.column (byteLength text)
  let marks := repeated ' ' start ++ paint color .error (repeated '^' width)
  let remark := if label.message = "" then "" else " " ++ paint color .error label.message
  [ "  " ++ paint color .gutter "-->" ++ " " ++ position.display,
    margin ++ " " ++ bar,
    paint color .gutter number ++ " " ++ bar ++ " " ++ String.ofList text,
    margin ++ " " ++ bar ++ " " ++ marks ++ remark,
    margin ++ " " ++ bar ]

/-- A line below the quoted source. -/
def trailer (color : Bool) (text : String) : String :=
  "  " ++ paint color .faint "=" ++ " " ++ text

/-- The lines of the labels that do not mark the place of the error. -/
def secondary (d : Diagnostic) : List String :=
  (d.labels.filter fun l => !l.primary && l.message ≠ "").map fun l =>
    match d.source with
    | some source => (Lines.lookup source.toList l.span.start).display ++ ": " ++ l.message
    | none => l.message

/-- The text form of a diagnostic. -/
def render (color : Bool) (d : Diagnostic) : String :=
  let quoted := match d.source, d.primaryLabel? with
    | some source, some label => snippet color source.toList label
    | _, _ => []
  let notes := d.notes.map ("note: " ++ ·)
  let suggestion := d.suggestion.toList.map ("suggestion: " ++ ·)
  Lines.join (heading color d :: quoted
    ++ (secondary d ++ notes ++ suggestion).map (trailer color))

end Duet.Terminal
