import Duet.Execution

/-!
# The command line: arguments

Arguments are taken from left to right. An option is a flag, or has a value, either attached
(`--option=value`, `-cvalue`, `-c=value`) or as the next argument, which then must not begin
with a dash unless it is a dash alone. Every option may be given once, and there is at most one
file. After `--` every argument is the file. A request for the version or for help is answered
as soon as it is met, whatever follows.
-/

namespace Duet.Command

/-- A form of the program that can be shown in place of running it. -/
inductive Form where
  | tree | bytecode
deriving DecidableEq, Repr

/-- What the arguments ask for. -/
structure Options where
  file : Option String := none
  code : Option String := none
  engine : Option Engine := none
  emit : Option Form := none
  directory : Option String := none
  json : Bool := false
  plain : Bool := false
  explain : Option String := none
deriving DecidableEq, Repr

/-- What came of taking the arguments. -/
inductive Request where
  | run (options : Options)
  | version
  | help
  | usageError
deriving DecidableEq, Repr

/-- The options that have a value. -/
inductive Setting where
  | code | engine | emit | directory | explain
deriving DecidableEq, Repr

/-- The long names of the options that have a value. -/
def Setting.ofName? : String → Option Setting
  | "code" => some .code
  | "engine" => some .engine
  | "emit" => some .emit
  | "std-dir" => some .directory
  | "explain" => some .explain
  | _ => none

/-- The engine with the given name. -/
def engineOfName? : String → Option Engine
  | "vm" => some .machine
  | "eval" => some .evaluator
  | _ => none

/-- The form with the given name. -/
def formOfName? : String → Option Form
  | "ast" => some .tree
  | "bytecode" => some .bytecode
  | _ => none

namespace Options

/-- Sets an option that has a value. Fails if it is already set or the value does not fit. -/
def set? (o : Options) (setting : Setting) (value : String) : Option Options :=
  match setting with
  | .code => if o.code.isSome then none else some { o with code := some value }
  | .explain => if o.explain.isSome then none else some { o with explain := some value }
  | .engine =>
    match o.engine, engineOfName? value with
    | none, some engine => some { o with engine := some engine }
    | _, _ => none
  | .emit =>
    match o.emit, formOfName? value with
    | none, some form => some { o with emit := some form }
    | _, _ => none
  | .directory =>
    if o.directory.isSome || value.isEmpty then none else some { o with directory := some value }

/-- Sets a flag. Fails if it is already set or unknown. -/
def flag? (o : Options) (name : String) : Option Options :=
  match name with
  | "json" => if o.json then none else some { o with json := true }
  | "no-color" => if o.plain then none else some { o with plain := true }
  | _ => none

/-- Takes the file. Fails if there is one already or it has no name. -/
def setFile? (o : Options) (path : String) : Option Options :=
  if o.file.isSome || path.isEmpty then none else some { o with file := some path }

end Options

/-- One argument, told apart by its form. -/
inductive Argument where
  /-- Two dashes alone. -/
  | escape
  /-- A name after two dashes, and the value attached to it. -/
  | long (name : String) (value : Option String)
  /-- What follows a single dash. -/
  | short (letters : List Char)
  /-- Anything else. -/
  | plain (value : String)
deriving DecidableEq, Repr

/-- The form of an argument. -/
def Argument.ofString (s : String) : Argument :=
  match s.toList with
  | ['-', '-'] => .escape
  | '-' :: '-' :: cs =>
    let name := String.ofList (cs.takeWhile (· ≠ '='))
    match cs.dropWhile (· ≠ '=') with
    | [] => .long name none
    | _ :: value => .long name (some (String.ofList value))
  | '-' :: c :: cs => .short (c :: cs)
  | _ => .plain s

/-- The value that the next argument gives to an option. -/
def Argument.value? : Argument → Option String
  | .plain value => some value
  | _ => none

/-- The rest of the arguments after `--`. -/
def takeFiles (o : Options) : List String → Request
  | [] => .run o
  | arg :: args =>
    match o.setFile? arg with
    | some o => takeFiles o args
    | none => .usageError

/-- Goes on if an option could be set. -/
def orUsageError (o : Option Options) (next : Options → Request) : Request :=
  match o with
  | some o => next o
  | none => .usageError

/-- Takes arguments from left to right. -/
def takeArguments (o : Options) : List String → Request
  | [] => .run o
  | arg :: args =>
    let withNext (setting : Setting) : Request :=
      match args with
      | [] => .usageError
      | value :: args =>
        match (Argument.ofString value).value? with
        | none => .usageError
        | some value => orUsageError (o.set? setting value) fun o => takeArguments o args
    match Argument.ofString arg with
    | .escape => takeFiles o args
    | .plain value => orUsageError (o.setFile? value) fun o => takeArguments o args
    | .long name value =>
      match Setting.ofName? name, value with
      | some setting, some value => orUsageError (o.set? setting value) fun o => takeArguments o args
      | some setting, none => withNext setting
      | none, some _ => .usageError
      | none, none =>
        if name = "version" then .version
        else if name = "help" then .help
        else orUsageError (o.flag? name) fun o => takeArguments o args
    | .short letters =>
      match letters with
      | 'V' :: _ => .version
      | 'h' :: _ => .help
      | ['c'] => withNext .code
      | 'c' :: '=' :: value =>
        orUsageError (o.set? .code (String.ofList value)) fun o => takeArguments o args
      | 'c' :: value =>
        orUsageError (o.set? .code (String.ofList value)) fun o => takeArguments o args
      | _ => .usageError
termination_by args => args.length

/-- Completes the options by the environment: the library directory may come from a variable,
which must not be empty. A file and a source text exclude each other. -/
def Options.complete (o : Options) (configured : Option String) : Request :=
  if o.file.isSome && o.code.isSome then .usageError
  else
    match o.directory, configured with
    | none, some directory =>
      orUsageError (o.set? .directory directory) .run
    | _, _ => .run o

/-- What the arguments and the environment ask for. -/
def Request.ofArguments (args : List String) (configured : Option String) : Request :=
  match takeArguments {} args with
  | .run o => o.complete configured
  | other => other

/-- The library directory. -/
def Options.libraryDirectory (o : Options) : String :=
  o.directory.getD "std"

/-- The file to read, if the source comes from one. -/
def Options.inputFile? (o : Options) : Option String :=
  match o.code, o.file with
  | none, some path => if path = "-" then none else some path
  | _, _ => none

end Duet.Command
