import Duet.Bytecode.Compile
import Duet.Diagnostic.Basic
import Duet.Evaluator.Value
import Duet.Files.Inclusion
import Duet.Machine.Basic
import Duet.Token.Lexer
import Duet.Tree.Parser

/-!
# Failures of a program

A program can fail in any of its stages. A failure keeps the error of its stage, and this file
says how each is worded for the user.
-/

namespace Duet

/-- The error of one of the stages. -/
inductive Failure where
  | inclusion (e : IncludeError)
  | lexing (e : LexError)
  | parsing (errors : List ParseError)
  | compiling (e : CompileError)
  | machine (e : Machine.Error)
  | evaluation (e : Evaluator.Error)
deriving DecidableEq, Repr

namespace Failure

/-- The text of a failure on one line. Of several errors of reading the first is told. -/
def message : Failure → String
  | .inclusion e => e.message
  | .lexing e => e.message
  | .parsing errors =>
    toString errors.length ++ " parse error(s); first: " ++ (errors.head?.map (·.message)).getD ""
  | .compiling e => e.message
  | .machine e => e.message
  | .evaluation e => e.display

end Failure

/-- The label at the place of an error. -/
def Label.here (span : Span) : Label := ⟨span, "here", true⟩

/-- What the user is told about an inclusion that failed. -/
def IncludeError.diagnostic (e : IncludeError) : Diagnostic where
  code := some e.code
  message := e.message
  suggestion := match e with
    | .missing .. =>
      some "check the name, or point --std-dir / MALLOW_STD_DIR at the library directory"
    | .cycle _ => none

/-- What the user is told about an unreadable snippet. -/
def LexError.diagnostic (e : LexError) : Diagnostic where
  code := some e.code
  message := "unexpected input '" ++ String.ofList e.snippet ++ "'"
  labels := [.here ⟨e.position, e.position + max (byteLength e.snippet) 1⟩]
  suggestion := some e.suggestion

/-- What the user is told about errors of reading: the first one, with the others as further
labels. -/
def ParseError.diagnostic : List ParseError → Diagnostic
  | [] => { message := "parse failed" }
  | first :: others =>
    { code := some first.code
      message := first.message
      labels := .here first.span :: others.map fun e => ⟨e.span, "also: " ++ e.message, false⟩
      notes :=
        if others.isEmpty then []
        else [toString others.length ++ " more parse error(s) follow"] }

/-- What the user is told about a program that cannot be compiled. What only the evaluator can
run comes with that suggestion. -/
def CompileError.diagnostic (e : CompileError) : Diagnostic where
  code := some e.code
  message := e.message
  labels := [.here e.span]
  notes := match e with
    | .capturedVariable .. => ["compiled functions only see their own parameter and globals"]
    | _ => []
  suggestion := match e with
    | .unsupportedOperator .. | .unsupportedExpression .. | .capturedVariable .. =>
      some "run with --engine eval"
    | _ => none

/-- What the user is told about a machine that stopped. Code has no spans, so there is no
label. -/
def Machine.Error.diagnostic (e : Machine.Error) : Diagnostic where
  code := some e.code
  message := e.message

/-- What the user is told about an evaluation that failed. -/
def Evaluator.Error.diagnostic (e : Evaluator.Error) : Diagnostic where
  code := some e.code
  message := e.message
  labels := [.here e.span]

/-- What the user is told about a failure. -/
def Failure.diagnostic : Failure → Diagnostic
  | .inclusion e => e.diagnostic
  | .lexing e => e.diagnostic
  | .parsing errors => ParseError.diagnostic errors
  | .compiling e => e.diagnostic
  | .machine e => e.diagnostic
  | .evaluation e => e.diagnostic

end Duet
