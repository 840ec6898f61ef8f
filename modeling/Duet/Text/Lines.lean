import Duet.Text.Span

/-!
# Lines and columns of a text

A position in a text is a line and a column, both counted from one, the column in bytes. The
line of an offset is found from the offsets at which lines start; the text of a line is found
by splitting at newlines. An offset beyond the end of the text belongs to the last line.
-/

namespace Duet

/-- A line and a byte column, both counted from one. -/
structure Position where
  line : Nat
  column : Nat
deriving DecidableEq, Repr, Inhabited

/-- A position as it is written in messages, `line:column`. -/
def Position.display (p : Position) : String :=
  s!"{p.line}:{p.column}"

namespace Lines

/-- The offset after each newline of a text that begins at `offset`. -/
def startsAfter (offset : Nat) : List Char → List Nat
  | [] => []
  | c :: cs =>
    let next := offset + c.utf8Size
    if c = '\n' then next :: startsAfter next cs else startsAfter next cs

/-- The offsets at which the lines of a text start, in increasing order. -/
def starts (text : List Char) : List Nat :=
  0 :: startsAfter 0 text

/-- The position of a byte offset: the last line that starts at or before it, and how far into
that line it lies. -/
def lookup (text : List Char) (offset : Nat) : Position :=
  let passed := (starts text).takeWhile (· ≤ offset)
  { line := passed.length, column := offset - passed.getLastD 0 + 1 }

/-- The lines of a text, without the newlines between them. There is always at least one. -/
def split : List Char → List (List Char)
  | [] => [[]]
  | c :: cs =>
    if c = '\n' then [] :: split cs
    else
      match split cs with
      | [] => [[c]]
      | line :: rest => (c :: line) :: rest

/-- A line without the carriage returns at its end. -/
def trimEnd (line : List Char) : List Char :=
  (line.reverse.dropWhile (· = '\r')).reverse

/-- The text of a line, counted from one, without its terminator; empty if there is no such
line. -/
def lineText (text : List Char) (line : Nat) : List Char :=
  match line with
  | 0 => []
  | i + 1 => trimEnd ((split text)[i]?.getD [])

/-- Lines put together to a text, each of them ended by a newline. -/
def join (lines : List String) : String :=
  String.join (lines.map (· ++ "\n"))

end Lines

end Duet
