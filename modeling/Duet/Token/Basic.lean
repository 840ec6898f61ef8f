import Duet.Text.Span

/-!
# Tokens

The words of the language: fifteen keywords, twelve symbols, and three open classes: integers,
texts in double quotes, and names. A keyword or a symbol has one spelling; so has a name; an
integer may be spelled with leading zeros.
-/

namespace Duet

/-- The reserved words. -/
inductive Keyword where
  | define | as_ | end_ | puts | if_ | then_ | else_ | lambda
  | not_ | mod | and_ | or_ | true_ | false_ | nil
deriving DecidableEq, Repr

namespace Keyword

/-- The reserved words in a fixed order. -/
def all : List Keyword :=
  [.define, .as_, .end_, .puts, .if_, .then_, .else_, .lambda,
    .not_, .mod, .and_, .or_, .true_, .false_, .nil]

/-- How a reserved word is written. -/
def spelling : Keyword → String
  | .define => "define"
  | .as_ => "as"
  | .end_ => "end"
  | .puts => "puts"
  | .if_ => "if"
  | .then_ => "then"
  | .else_ => "else"
  | .lambda => "lambda"
  | .not_ => "not"
  | .mod => "mod"
  | .and_ => "and"
  | .or_ => "or"
  | .true_ => "true"
  | .false_ => "false"
  | .nil => "nil"

/-- The reserved word with the given spelling. -/
def ofSpelling? (s : String) : Option Keyword :=
  all.find? (·.spelling = s)

end Keyword

/-- The operators and punctuation marks. -/
inductive Symbol where
  | plus | minus | star | slash | equal | notEqual | less | greater | pipe
  | openParen | closeParen | dot
deriving DecidableEq, Repr

/-- How a symbol is written. -/
def Symbol.spelling : Symbol → String
  | .plus => "+"
  | .minus => "-"
  | .star => "*"
  | .slash => "/"
  | .equal => "="
  | .notEqual => "~="
  | .less => "<"
  | .greater => ">"
  | .pipe => "|"
  | .openParen => "("
  | .closeParen => ")"
  | .dot => "."

/-- The symbols of one character. -/
def Symbol.ofChar? : Char → Option Symbol
  | '+' => some .plus
  | '-' => some .minus
  | '*' => some .star
  | '/' => some .slash
  | '=' => some .equal
  | '<' => some .less
  | '>' => some .greater
  | '|' => some .pipe
  | '(' => some .openParen
  | ')' => some .closeParen
  | '.' => some .dot
  | _ => none

/-- A word of the language. -/
inductive Token where
  | keyword (word : Keyword)
  | symbol (sign : Symbol)
  /-- A run of digits. It has no sign: a minus in front of it is a token of its own. -/
  | integer (value : Nat)
  | text (value : String)
  | name (value : String)
deriving DecidableEq, Repr

namespace Token

/-- The shortest way to write a token in a source. -/
def spelling : Token → String
  | .keyword word => word.spelling
  | .symbol sign => sign.spelling
  | .integer value => toString value
  | .text value => "\"" ++ value ++ "\""
  | .name value => value

/-- How messages show a token: reserved words and symbols stand in single quotes, all else as
it is spelled. -/
def display : Token → String
  | .keyword word => "'" ++ word.spelling ++ "'"
  | .symbol sign => "'" ++ sign.spelling ++ "'"
  | token => token.spelling

end Token

/-- A token together with the bytes of the source it was read from. -/
structure Lexeme where
  token : Token
  span : Span
deriving DecidableEq, Repr

end Duet
