import Duet.Command.Run

/-!
# The command

Reads what the command can see: the arguments, two variables, the standard input if it is the
source, and the files that the source and its inclusions name. All that follows from these is
computed by `Command.run`.
-/

namespace Duet.Main

/-- A bound on the length of a run that no run reaches in practice. -/
def fuel : Nat := 1_000_000_000_000_000

/-- The cause of a failed reading. -/
def causeOf : IO.Error → ReadError
  | .noFileOrDirectory .. => .notFound
  | .permissionDenied .. => .permissionDenied
  | .inappropriateType _ 20 _ => .notDirectory
  | .inappropriateType _ 21 _ => .isDirectory
  | .invalidArgument _ 36 _ => .nameTooLong
  | e => .other (toString e)

/-- Reads a file as text. -/
def readText (path : String) : IO (Except ReadError String) := do
  if path.contains '\x00' then
    return .error .zeroByte
  try
    return decodeText (← IO.FS.readBinFile path)
  catch e =>
    return .error (causeOf e)

/-- Reads the files of all names that are reachable from the given ones, each once. -/
partial def gather (directory : String) (names : List String)
    (found : List (String × Except ReadError String)) :
    IO (List (String × Except ReadError String)) :=
  match names with
  | [] => return found
  | name :: names => do
    let path := joinPath directory name
    if (found.lookup path).isSome then
      gather directory names found
    else
      let outcome ← readText path
      let more := match outcome with
        | .ok text => includedNames text.toList
        | .error _ => []
      gather directory (more ++ names) ((path, outcome) :: found)

/-- Reads the source that the options name, and every file that it includes. -/
def gatherFor (o : Command.Options) : IO (ByteArray × Files) := do
  let (input, source, entries) ← match o.code, o.inputFile? with
    | some code, _ => pure (ByteArray.empty, .ok code, [])
    | none, some path => do
      let outcome ← readText path
      pure (ByteArray.empty, outcome, [(path, outcome)])
    | none, none => do
      let input ← (← IO.getStdin).readBinToEnd
      pure (input, decodeText input, [])
  let names := match source with
    | .ok text => includedNames text.toList
    | .error _ => []
  return (input, Files.ofList (← gather o.libraryDirectory names entries))

/-- Reads what the arguments need. -/
def world (args : List String) : IO Command.World := do
  let directory ← IO.getEnv "MALLOW_STD_DIR"
  let color := (← IO.getEnv "NO_COLOR").isNone && (← (← IO.getStderr).isTty)
  let (input, files) ← match Command.Request.ofArguments args directory with
    | .run o => if o.explain.isSome then pure (ByteArray.empty, Files.ofList []) else gatherFor o
    | _ => pure (ByteArray.empty, Files.ofList [])
  return { directory, input, files, color }

end Duet.Main

/-- Runs the command and ends with its status. -/
def main (args : List String) : IO UInt32 := do
  let answer := Duet.Command.run args (← Duet.Main.world args) Duet.Main.fuel
  (← IO.getStdout).putStr answer.output
  (← IO.getStderr).putStr answer.errors
  return answer.status.toUInt32
