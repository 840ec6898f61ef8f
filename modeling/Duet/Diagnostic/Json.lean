import Duet.Diagnostic.Basic
import Duet.Text.Json
import Duet.Text.Lines

/-!
# Diagnostics as JSON

The machine-readable form of a diagnostic: one object on one line, its keys in alphabetical
order. A label tells its line and column if the source is known.
-/

namespace Duet

/-- The JSON form of a label. -/
def Label.toJson (source : Option String) (l : Label) : Json :=
  let rest : List (String × Json) :=
    [("message", .string l.message), ("primary", .bool l.primary), ("start", .number l.span.start)]
  match source with
  | some text =>
    let position := Lines.lookup text.toList l.span.start
    .object ([("col", .number position.column), ("end", .number l.span.stop),
      ("line", .number position.line)] ++ rest)
  | none => .object (("end", .number l.span.stop) :: rest)

namespace Diagnostic

/-- The JSON form of a diagnostic. -/
def toJson (d : Diagnostic) : Json :=
  let optional (key : String) (value : Option String) : List (String × Json) :=
    value.toList.map fun s => (key, .string s)
  .object (optional "code" d.code
    ++ [("labels", .array (d.labels.map (Label.toJson d.source))),
        ("message", .string d.message),
        ("notes", .array (d.notes.map .string)),
        ("severity", .string "error")]
    ++ optional "suggestion" d.suggestion)

/-- The JSON form of a diagnostic as text. -/
def renderJson (d : Diagnostic) : String :=
  d.toJson.compact

end Diagnostic

end Duet
