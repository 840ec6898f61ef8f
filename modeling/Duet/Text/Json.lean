/-!
# JSON texts

A JSON value, and its two written forms: `compact`, on one line without blanks, and `pretty`,
one item to a line, indented by two blanks for each level. They differ in their layout only.
Fields are written in the order in which they are given. In a string, quotes, backslashes and
the characters below U+0020 are escaped, and nothing else is.
-/

namespace Duet

/-- A JSON value. Numbers are natural numbers, the only ones that are ever written here. -/
inductive Json where
  | null
  | bool (value : Bool)
  | number (value : Nat)
  | string (value : String)
  | array (items : List Json)
  | object (fields : List (String × Json))
deriving Repr

namespace Json

/-- A digit of base sixteen, in lower case. -/
def hexDigit (n : Nat) : Char :=
  if n < 10 then Char.ofNat ('0'.toNat + n) else Char.ofNat ('a'.toNat + (n - 10))

/-- A character as it is written inside a string. -/
def escapeChar (c : Char) : List Char :=
  if c = '"' then ['\\', '"']
  else if c = '\\' then ['\\', '\\']
  else if c = '\x08' then ['\\', 'b']
  else if c = '\x0c' then ['\\', 'f']
  else if c = '\n' then ['\\', 'n']
  else if c = '\r' then ['\\', 'r']
  else if c = '\t' then ['\\', 't']
  else if c.toNat < 0x20 then
    ['\\', 'u', '0', '0', hexDigit (c.toNat / 16), hexDigit (c.toNat % 16)]
  else [c]

/-- A string as it is written, in quotes. -/
def quote (s : String) : List Char :=
  '"' :: s.toList.flatMap escapeChar ++ ['"']

/-- A number as it is written. -/
def digits (n : Nat) : List Char :=
  (toString n).toList

/-- How the parts of a value are set: what stands before an item at a given depth and before the
bracket that closes it, and what stands between a key and its value. -/
structure Layout where
  newline : (depth : Nat) → List Char
  colon : List Char

/-- All on one line, without blanks. -/
def Layout.compact : Layout := ⟨fun _ => [], [':']⟩

/-- One item to a line, indented by two blanks for each level. -/
def Layout.pretty : Layout := ⟨fun depth => '\n' :: List.replicate (2 * depth) ' ', [':', ' ']⟩

mutual

/-- The written form of a value at a depth, followed by `rest`. -/
def write (layout : Layout) (depth : Nat) : Json → (rest : List Char) → List Char
  | .null, rest => "null".toList ++ rest
  | .bool true, rest => "true".toList ++ rest
  | .bool false, rest => "false".toList ++ rest
  | .number n, rest => digits n ++ rest
  | .string s, rest => quote s ++ rest
  | .array [], rest => '[' :: ']' :: rest
  | .array (item :: items), rest =>
    '[' :: layout.newline (depth + 1) ++ item.write layout (depth + 1)
      (writeItems layout (depth + 1) items (layout.newline depth ++ ']' :: rest))
  | .object [], rest => '\x7b' :: '\x7d' :: rest
  | .object ((key, value) :: fields), rest =>
    '\x7b' :: layout.newline (depth + 1) ++ quote key ++ layout.colon ++
      value.write layout (depth + 1)
        (writeFields layout (depth + 1) fields (layout.newline depth ++ '\x7d' :: rest))

/-- The items of an array after the first one. -/
def writeItems (layout : Layout) (depth : Nat) : List Json → (rest : List Char) → List Char
  | [], rest => rest
  | item :: items, rest =>
    ',' :: layout.newline depth ++ item.write layout depth (writeItems layout depth items rest)

/-- The fields of an object after the first one. -/
def writeFields (layout : Layout) (depth : Nat) :
    List (String × Json) → (rest : List Char) → List Char
  | [], rest => rest
  | (key, value) :: fields, rest =>
    ',' :: layout.newline depth ++ quote key ++ layout.colon ++
      value.write layout depth (writeFields layout depth fields rest)

end

/-- The value on one line. -/
def compact (v : Json) : String :=
  String.ofList (v.write .compact 0 [])

/-- The value over several lines. -/
def pretty (v : Json) : String :=
  String.ofList (v.write .pretty 0 [])

end Json

end Duet
