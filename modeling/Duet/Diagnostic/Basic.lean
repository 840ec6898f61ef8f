import Duet.Text.Span

/-!
# Diagnostics

A diagnostic is what a user is told about an error: a message, perhaps with a code, labels that
point into the source, notes, and a suggestion. The source is attached if there is one to quote.
-/

namespace Duet

/-- A remark on a part of the source. -/
structure Label where
  span : Span
  message : String
  /-- Whether this is the place of the error, and not one that explains it. -/
  primary : Bool
deriving DecidableEq, Repr

/-- What a user is told about an error. -/
structure Diagnostic where
  code : Option String := none
  message : String
  labels : List Label := []
  notes : List String := []
  suggestion : Option String := none
  source : Option String := none
deriving DecidableEq, Repr

namespace Diagnostic

/-- The first label that marks the place of the error. -/
def primaryLabel? (d : Diagnostic) : Option Label :=
  d.labels.find? (·.primary)

/-- The diagnostic with a source to quote. -/
def withSource (d : Diagnostic) (source : String) : Diagnostic :=
  { d with source := some source }

end Diagnostic

end Duet
