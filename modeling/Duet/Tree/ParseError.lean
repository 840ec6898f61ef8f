import Duet.Token.Basic

/-!
# Errors of reading syntax trees

An error says what was wanted at a place and what was found there. Its code and its wording
follow from these two.
-/

namespace Duet

/-- What the reader needed at the place of an error. -/
inductive Wanted where
  | expression
  | name
  | token (token : Token)
deriving DecidableEq, Repr

/-- An error of reading: what was wanted, and what was found at which place. -/
structure ParseError where
  /-- The number of tokens before the error. -/
  position : Nat
  /-- The span of the token found, or the empty span after the last token. -/
  span : Span
  wanted : Wanted
  /-- The token found; nothing at the end of the input. -/
  found : Option Token
deriving DecidableEq, Repr

namespace ParseError

/-- The catalogue code of an error. -/
def code (e : ParseError) : String :=
  match e.found, e.wanted with
  | none, _ => "MAL-P003"
  | some _, .expression => "MAL-P001"
  | some _, .token _ => "MAL-P002"
  | some _, .name => "MAL-P004"

/-- The text of an error. -/
def message (e : ParseError) : String :=
  match e.found, e.wanted with
  | none, .expression => "expected an expression, got end of input"
  | none, .token wanted => "expected " ++ wanted.display ++ ", got end of input"
  | none, .name => "expected identifier, got end of input"
  | some found, .expression => "unexpected " ++ found.display ++ " at start of expression"
  | some found, .token wanted => "expected " ++ wanted.display ++ ", got " ++ found.display
  | some found, .name => "expected identifier, got " ++ found.display

/-- The text of an error with its place. -/
def display (e : ParseError) : String :=
  "Parse error at token " ++ toString e.position ++ ": " ++ e.message

end ParseError

end Duet
