import Duet.Text.Comment
import Duet.Token.Basic

/-!
# From text to tokens

`scan` looks at the front of a non-empty text and takes what is longest there: a blank, a
comment, a token, or, when nothing fits, a snippet that cannot be read. `lex` repeats it and
stops at the first snippet.

A `/*` that is never closed is no comment, so its two characters are read as symbols. A quote
that is never closed makes the whole rest of the text unreadable.
-/

namespace Duet

/-- The first place at which a text cannot be read as tokens. -/
structure LexError where
  /-- The byte offset of the snippet. -/
  position : Nat
  /-- The unreadable characters. -/
  snippet : List Char
deriving DecidableEq, Repr

namespace LexError

/-- What the writer of an unreadable snippet may have meant. -/
def suggestion (e : LexError) : String :=
  let shown := String.ofList e.snippet
  match e.snippet with
  | ['~'] => "Inequality is written '~='"
  | ['!'] | ['!', '='] => "Use 'not' for negation and '~=' for inequality"
  | ['&'] | ['&', '&'] => "Use the 'and' keyword"
  | ['|', '|'] => "Use the 'or' keyword; '|' applies a function"
  | ['_'] => "Identifiers start with a letter and may contain letters, digits and '?'"
  | '"' :: _ => "Unterminated string literal; close it with '\"'"
  | '/' :: '*' :: _ => "Unterminated block comment; close it with '*/'"
  | _ => "Unexpected character(s): '" ++ shown ++ "'"

/-- The catalogue code of an unreadable snippet. -/
def code (_ : LexError) : String := "MAL-L001"

/-- The message of an unreadable snippet. -/
def message (e : LexError) : String :=
  "Lex error at position " ++ toString e.position ++ ": '" ++ String.ofList e.snippet ++ "'. "
    ++ e.suggestion

end LexError

namespace Lexer

/-- The characters that separate tokens. -/
def isBlank (c : Char) : Bool :=
  c = ' ' || c = '\t' || c = '\r' || c = '\n' || c = '\x0c'

/-- The characters after the first one of a name. -/
def isNameChar (c : Char) : Bool :=
  c.isAlphanum || c = '?'

/-- The characters between the quotes of a text. -/
def isTextChar (c : Char) : Bool :=
  c ≠ '"'

/-- The number that a list of decimal digits denotes. -/
def decimalValue (digits : List Char) : Nat :=
  digits.foldl (fun n c => 10 * n + (c.toNat - '0'.toNat)) 0

/-- The token that a complete word spells: a reserved word, or else a name. -/
def wordToken (word : List Char) : Token :=
  match Keyword.ofSpelling? (String.ofList word) with
  | some keyword => .keyword keyword
  | none => .name (String.ofList word)

/-- What stands at the front of a text, and what follows it. -/
inductive Scan where
  /-- A blank or a comment. -/
  | skip (passed rest : List Char)
  /-- A token and its spelling. -/
  | token (found : Token) (spelled rest : List Char)
  /-- Characters that start nothing. -/
  | stuck (snippet : List Char)
deriving DecidableEq, Repr

/-- Reads the symbol, if any, that `c` begins. -/
def scanSymbol (c : Char) (cs : List Char) : Scan :=
  match c, cs with
  | '~', '=' :: rest => .token (.symbol .notEqual) ['~', '='] rest
  | c, cs =>
    match Symbol.ofChar? c with
    | some sign => .token (.symbol sign) [c] cs
    | none => .stuck [c]

/-- Reads what the text `c :: cs` begins with. -/
def scan (c : Char) (cs : List Char) : Scan :=
  if isBlank c then
    .skip [c] cs
  else if c.isDigit then
    let digits := c :: cs.takeWhile Char.isDigit
    .token (.integer (decimalValue digits)) digits (cs.dropWhile Char.isDigit)
  else if c.isAlpha then
    let word := c :: cs.takeWhile isNameChar
    .token (wordToken word) word (cs.dropWhile isNameChar)
  else if c = '"' then
    let value := cs.takeWhile isTextChar
    match cs.dropWhile isTextChar with
    | close :: rest => .token (.text (String.ofList value)) (c :: value ++ [close]) rest
    | [] => .stuck (c :: cs)
  else
    match Comment.split? (c :: cs) with
    | some (body, rest) => .skip ('/' :: '*' :: body ++ ['*', '/']) rest
    | none => scanSymbol c cs

/-- What follows a blank or a comment is no longer than what followed its first character. -/
theorem length_le_of_scan_skip {c : Char} {cs passed rest : List Char}
    (h : scan c cs = .skip passed rest) : rest.length ≤ cs.length := by
  unfold scan scanSymbol at h
  repeat' split at h
  all_goals simp_all
  have := Comment.length_lt_of_split? (by assumption)
  simp at this
  omega

/-- What follows a token is no longer than what followed its first character. -/
theorem length_le_of_scan_token {c : Char} {cs spelled rest : List Char} {found : Token}
    (h : scan c cs = .token found spelled rest) : rest.length ≤ cs.length := by
  unfold scan scanSymbol at h
  repeat' split at h
  all_goals simp_all
  · obtain ⟨-, -, rfl⟩ := h
    exact (List.dropWhile_sublist _).length_le
  · obtain ⟨-, -, rfl⟩ := h
    exact (List.dropWhile_sublist _).length_le
  · rename_i close tail hd
    have := (List.dropWhile_sublist (l := cs) isTextChar).length_le
    simp [hd] at this
    omega

/-- The tokens of a text that begins at byte `offset` of a source. -/
def lexFrom (offset : Nat) (text : List Char) : Except LexError (List Lexeme) :=
  match text with
  | [] => .ok []
  | c :: cs =>
    match _h : scan c cs with
    | .skip passed rest => lexFrom (offset + byteLength passed) rest
    | .token found spelled rest =>
      let stop := offset + byteLength spelled
      match lexFrom stop rest with
      | .ok lexemes => .ok (⟨found, ⟨offset, stop⟩⟩ :: lexemes)
      | .error e => .error e
    | .stuck snippet => .error ⟨offset, snippet⟩
termination_by text.length
decreasing_by
  · have := length_le_of_scan_skip _h
    simp
    omega
  · have := length_le_of_scan_token _h
    simp
    omega

end Lexer

/-- The tokens of a source, or the first place at which it cannot be read. -/
def lex (source : String) : Except LexError (List Lexeme) :=
  Lexer.lexFrom 0 source.toList

end Duet
