import Duet.Command.Arguments
import Duet.Diagnostic.Catalogue
import Duet.Diagnostic.Json
import Duet.Diagnostic.Terminal
import Duet.Tree.Json

/-!
# The command line: answers

What the command writes, and with which status it ends, as a function of its arguments and of
all it can read. A status of 0 says that all went well, 1 that an error was reported, and 2 that
the arguments were not understood.
-/

namespace Duet.Command

/-- All that the command can see. -/
structure World where
  /-- The variable that names the library directory. -/
  directory : Option String
  /-- The standard input. -/
  input : ByteArray
  files : Files
  /-- Whether reports may be coloured. -/
  color : Bool

/-- What the command does. -/
structure Answer where
  status : Nat
  output : String
  errors : String
deriving DecidableEq, Repr

/-- The version line. -/
def versionText : String := "mallow 0.3.0\n"

/-- How the command is called. -/
def usageText : String := "Usage: mallow [OPTIONS] [FILE]\n"

/-- The answer to a request for help. -/
def helpText : String :=
  "Run mallow programs on the bytecode VM or the tree-walking evaluator\n\n" ++ usageText ++
  Lines.join [
    "",
    "Arguments:",
    "  [FILE]  Source file to run; `-` reads standard input",
    "",
    "Options:",
    "  -c, --code <CODE>        Run this source text instead of a file",
    "      --engine <ENGINE>    Execution engine [default: vm] [possible values: vm, eval]",
    "      --emit <EMIT>        Print an intermediate form instead of running",
    "                           [possible values: ast, bytecode]",
    "      --std-dir <STD_DIR>  Directory searched by `include \"name\"`",
    "                           [env: MALLOW_STD_DIR] [default: std]",
    "      --json               Report diagnostics as JSON lines on stderr",
    "      --no-color           Disable colored diagnostics",
    "      --explain <CODE>     Print the explanation for an error code and exit",
    "  -h, --help               Print help",
    "  -V, --version            Print version"]

/-- How the options want a diagnostic to be written. -/
def report (o : Options) (color : Bool) (d : Diagnostic) : String :=
  if o.json then d.renderJson ++ "\n" else Terminal.render (color && !o.plain) d

/-- The answer that ends with a diagnostic, after some output. -/
def failWith (o : Options) (w : World) (output : String) (d : Diagnostic) : Answer :=
  ⟨1, output, report o w.color d⟩

/-- The source that the options name. -/
def readInput (o : Options) (w : World) : Except Diagnostic String :=
  match o.code with
  | some code => .ok code
  | none =>
    match o.inputFile? with
    | some path =>
      match w.files.read path with
      | .ok text => .ok text
      | .error e => .error { message := "cannot read " ++ path ++ ": " ++ e.message }
    | none =>
      match decodeText w.input with
      | .ok text => .ok text
      | .error e => .error { message := "cannot read standard input: " ++ e.message }

/-- Explains an error code. -/
def explain (o : Options) (w : World) (code : String) : Answer :=
  match Catalogue.find? code with
  | some entry => ⟨0, entry.explanation, ""⟩
  | none => failWith o w "" { message := "unknown error code '" ++ code ++ "'" }

/-- Shows a form of the program in a source. -/
def display (o : Options) (w : World) (library : Library) (form : Form) (source : String) : Answer :=
  match loadProgram library source with
  | .error f => failWith o w "" f.diagnostic
  | .ok (expanded, program) =>
    match form with
    | .tree => ⟨0, (Program.toJson program).pretty ++ "\n", ""⟩
    | .bytecode =>
      match compile program with
      | .ok bytecode => ⟨0, bytecode.listing, ""⟩
      | .error e =>
        failWith o w "" (QuotedFailure.diagnostic ⟨.compiling e, some expanded⟩)

/-- Runs the program in a source. -/
def execute (o : Options) (w : World) (library : Library) (fuel : Nat) (source : String) : Answer :=
  let run := runSource (o.engine.getD .machine) library fuel source
  let output := Lines.join run.lines
  match run.failure with
  | some f => failWith o w output f.diagnostic
  | none =>
    if run.complete then ⟨0, output, ""⟩
    else failWith o w output { message := "the program did not end" }

/-- Does what the options ask for. An explanation comes before all else. -/
def perform (o : Options) (w : World) (fuel : Nat) : Answer :=
  match o.explain with
  | some code => explain o w code
  | none =>
    match readInput o w with
    | .error d => failWith o w "" d
    | .ok source =>
      let library : Library := ⟨w.files, o.libraryDirectory⟩
      match o.emit with
      | some form => display o w library form source
      | none => execute o w library fuel source

/-- The answer to the arguments. -/
def run (args : List String) (w : World) (fuel : Nat) : Answer :=
  match Request.ofArguments args w.directory with
  | .version => ⟨0, versionText, ""⟩
  | .help => ⟨0, helpText, ""⟩
  | .usageError =>
    ⟨2, "", "error: the arguments are not understood\n\n" ++ usageText
      ++ "\nFor more information, try '--help'.\n"⟩
  | .run o => perform o w fuel

end Duet.Command
