import Duet.Text.Lines

/-!
# The catalogue of errors

Every kind of error has a code that does not change. The catalogue gives each code a title and
an explanation, in the order of the stages of a program.
-/

namespace Duet

/-- The entry of an error code. -/
structure CatalogueEntry where
  code : String
  title : String
  /-- The lines of the explanation after its heading. -/
  body : List String
deriving DecidableEq, Repr

/-- The full explanation of an error code, with its heading. -/
def CatalogueEntry.explanation (e : CatalogueEntry) : String :=
  Lines.join (("## " ++ e.code ++ ": " ++ e.title) :: "" :: e.body)

namespace Catalogue

/-- The errors of expanding inclusions. -/
def inclusion : List CatalogueEntry :=
  [ { code := "MAL-I001"
      title := "included file not found"
      body := [
        "An `include \"name\"` directive named a file that could not be read from",
        "the library directory.",
        "",
        "**Example:**",
        "",
        "    include \"lists\"",
        "",
        "The file is looked up as `<std-dir>/lists`. The library directory defaults",
        "to `std` and can be changed with `--std-dir` or `MALLOW_STD_DIR`."] },
    { code := "MAL-I002"
      title := "include cycle"
      body := [
        "A file includes itself, directly or through other files. The message",
        "lists the chain of includes that closes the loop.",
        "",
        "**Fix:** remove one of the `include` directives in the chain."] }]

/-- The errors of reading tokens. -/
def reading : List CatalogueEntry :=
  [ { code := "MAL-L001"
      title := "unexpected character"
      body := [
        "The source contains text that is not part of the mallow language, such",
        "as a stray symbol, an unterminated string or an unterminated comment.",
        "",
        "**Example:**",
        "",
        "    1 != 2",
        "",
        "mallow writes inequality as `~=` and negation as `not`:",
        "",
        "    1 ~= 2"] }]

/-- The errors of reading syntax trees. -/
def parsing : List CatalogueEntry :=
  [ { code := "MAL-P001"
      title := "unexpected token"
      body := [
        "A token appeared where it cannot start or continue an expression.",
        "",
        "**Example:**",
        "",
        "    define x as * 2",
        "",
        "`*` is an infix operator and needs a left operand."] },
    { code := "MAL-P002"
      title := "expected a different token"
      body := [
        "The parser needed a specific keyword or symbol and found something else.",
        "",
        "**Example:**",
        "",
        "    if x > 1 1 else 2",
        "",
        "`if` needs `then` between the condition and the consequence:",
        "",
        "    if x > 1 then 1 else 2"] },
    { code := "MAL-P003"
      title := "unexpected end of input"
      body := [
        "The source ended in the middle of a statement.",
        "",
        "**Example:**",
        "",
        "    define double as lambda n .",
        "",
        "The lambda body is missing."] },
    { code := "MAL-P004"
      title := "expected identifier"
      body := [
        "A name was required after `define` or `lambda`.",
        "",
        "**Example:**",
        "",
        "    define 5 as 6",
        "",
        "Identifiers start with a letter and may contain letters, digits and `?`."] }]

/-- The errors of compiling to bytecode. -/
def compiling : List CatalogueEntry :=
  [ { code := "MAL-C001"
      title := "unresolved identifier"
      body := [
        "An identifier was used before any `define` gave it a value.",
        "",
        "**Example:**",
        "",
        "    puts total + 1",
        "",
        "Define the name first:",
        "",
        "    define total as 41",
        "    puts total + 1"] },
    { code := "MAL-C002"
      title := "operator not supported by the bytecode engine"
      body := [
        "`and` and `or` are evaluated by the tree-walking evaluator only.",
        "",
        "**Fix:** run with `--engine eval`, or rewrite with `if`:",
        "",
        "    if a then b else false"] },
    { code := "MAL-C003"
      title := "expression not supported by the bytecode engine"
      body := [
        "String literals have no bytecode representation.",
        "",
        "**Fix:** run with `--engine eval`."] },
    { code := "MAL-C004"
      title := "function captures a variable"
      body := [
        "Compiled functions can read their own parameter and globals, but not",
        "the parameter of an enclosing lambda.",
        "",
        "**Example:**",
        "",
        "    define adder as lambda a . lambda b . a + b",
        "",
        "**Fix:** run with `--engine eval`, which supports closures."] },
    { code := "MAL-C005"
      title := "too many constants"
      body := [
        "A program may hold at most 256 constants (integer literals and function",
        "bodies), since constant indexes are encoded in one byte."] },
    { code := "MAL-C006"
      title := "too many global definitions"
      body := [
        "A program may make at most 256 `define`s. Every `define`, including a",
        "redefinition of an existing name, takes a new global slot."] },
    { code := "MAL-C007"
      title := "block too large to jump over"
      body := [
        "Jump targets are 16-bit offsets, so a single instruction block cannot",
        "exceed 65535 bytes. Split the program into smaller functions."] }]

/-- The errors of running a program. -/
def running : List CatalogueEntry :=
  [ { code := "MAL-R001"
      title := "stack underflow"
      body := [
        "An instruction needed more operands than the stack held. This only",
        "happens with hand-assembled or corrupted bytecode."] },
    { code := "MAL-R002"
      title := "type mismatch"
      body := [
        "Arithmetic, ordering and negation work on integers only.",
        "",
        "**Example:**",
        "",
        "    1 + true",
        "",
        "Use `=` and `~=` to compare values of any type."] },
    { code := "MAL-R003"
      title := "division by zero"
      body := [
        "The right operand of `/` or `mod` evaluated to zero."] },
    { code := "MAL-R004"
      title := "value is not callable"
      body := [
        "The left side of `|` must be a function.",
        "",
        "**Example:**",
        "",
        "    3 | 4"] },
    { code := "MAL-R005"
      title := "global read before it was set"
      body := [
        "A global slot was read before any value was stored in it. The compiler",
        "rules this out for source programs; it indicates malformed bytecode."] },
    { code := "MAL-R006"
      title := "malformed bytecode"
      body := [
        "The virtual machine met an unknown opcode, a truncated operand, a jump",
        "or constant index out of range, or a function body without RETURN.",
        "Bytecode produced by the compiler never does this; if you see it,",
        "please file a bug report."] },
    { code := "MAL-R007"
      title := "undefined identifier"
      body := [
        "The evaluator looked up a name that no `define` or enclosing lambda",
        "parameter provides.",
        "",
        "**Example:**",
        "",
        "    puts nope"] }]

/-- All entries. -/
def entries : List CatalogueEntry :=
  inclusion ++ reading ++ parsing ++ compiling ++ running

/-- The entry of a code. -/
def find? (code : String) : Option CatalogueEntry :=
  entries.find? (·.code = code)

end Catalogue

end Duet
