import Duet.Evaluator.Eval
import Duet.Failure
import Duet.Machine.Step

/-!
# Running a source

A source is expanded, read, and run by one of two engines: compiled to bytecode for the stack
machine, or evaluated as a tree. An execution holds the lines it showed, how it ended, and the
expanded source, which diagnostics quote.

The fuel bounds the steps of the machine and the nested calls of the evaluator. An execution
that ran out of it has neither finished nor failed.
-/

namespace Duet

/-- What runs a program. -/
inductive Engine where
  | machine | evaluator
deriving DecidableEq, Repr

/-- How an execution ended. -/
inductive Ending where
  | finished
  | failed (failure : Failure)
  | outOfFuel
deriving DecidableEq, Repr

/-- What came of running a program. -/
structure Execution where
  /-- The shown values, in order. -/
  lines : List String
  ending : Ending
deriving DecidableEq, Repr

/-- Reads a program from a source that needs no expansion. -/
def readProgram (source : String) : Except Failure Program :=
  match lex source with
  | .error e => .error (.lexing e)
  | .ok tokens =>
    match parse tokens with
    | .error errors => .error (.parsing errors)
    | .ok program => .ok program

/-- Runs a program on the stack machine. -/
def runOnMachine (fuel : Nat) (program : Program) : Execution :=
  match compile program with
  | .error e => ⟨[], .failed (.compiling e)⟩
  | .ok bytecode =>
    let run := (Machine.start bytecode).runAtFuel fuel
    let lines := run.state.shown.toList.map (·.display)
    match run with
    | .halted _ => ⟨lines, .finished⟩
    | .failed e _ => ⟨lines, .failed (.machine e)⟩
    | .outOfFuel _ => ⟨lines, .outOfFuel⟩

/-- Runs a program on the evaluator. -/
def runOnEvaluator (fuel : Nat) (program : Program) : Execution :=
  let run := Evaluator.runAtFuel fuel program .start
  let lines := run.shown.map (·.display)
  match run.ending with
  | .finished => ⟨lines, .finished⟩
  | .failed e => ⟨lines, .failed (.evaluation e)⟩
  | .outOfFuel => ⟨lines, .outOfFuel⟩

/-- Runs a program. -/
def Engine.run (engine : Engine) (fuel : Nat) (program : Program) : Execution :=
  match engine with
  | .machine => runOnMachine fuel program
  | .evaluator => runOnEvaluator fuel program

/-- A failure with the expanded source, if the failure came after the expansion. -/
structure QuotedFailure where
  failure : Failure
  source : Option String
deriving DecidableEq, Repr

/-- What the user is told about a failure, with the source to quote. -/
def QuotedFailure.diagnostic (f : QuotedFailure) : Diagnostic :=
  match f.source with
  | some source => f.failure.diagnostic.withSource source
  | none => f.failure.diagnostic

/-- Expands a source and reads the program in it. -/
def loadProgram (library : Library) (source : String) :
    Except QuotedFailure (String × Program) :=
  match library.expand source with
  | .error e => .error ⟨.inclusion e, none⟩
  | .ok expanded =>
    match readProgram expanded with
    | .error failure => .error ⟨failure, some expanded⟩
    | .ok program => .ok (expanded, program)

/-- What came of running a source. -/
structure SourceExecution where
  /-- The shown values, in order. -/
  lines : List String
  /-- The failure, if there was one. -/
  failure : Option QuotedFailure
  /-- Whether the fuel sufficed. -/
  complete : Bool
deriving DecidableEq, Repr

/-- Expands, reads and runs a source. -/
def runSource (engine : Engine) (library : Library) (fuel : Nat) (source : String) :
    SourceExecution :=
  match loadProgram library source with
  | .error f => ⟨[], some f, true⟩
  | .ok (expanded, program) =>
    let run := engine.run fuel program
    match run.ending with
    | .finished => ⟨run.lines, none, true⟩
    | .failed failure => ⟨run.lines, some ⟨failure, some expanded⟩, true⟩
    | .outOfFuel => ⟨run.lines, none, false⟩

end Duet
