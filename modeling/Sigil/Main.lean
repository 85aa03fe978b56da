import Sigil.CommandLine.Run

/-!
# The program

Reads the file that the arguments name, performs the command on it, and carries out what the command
asks for: the files to write, the text on the two streams and the exit code.
-/

namespace Sigil.CommandLine

/-- What a path stands for in the file system. -/
def entryAt (path : Path) : IO Entry := do
  try
    return .file (← IO.FS.readFile path.toString)
  catch
    | .noFileOrDirectory .. => return .missing
    | _ => return .directory

/-- What is said about a crash. -/
def Crash.message : Crash → String
  | .isDirectory => "the file cannot be read"
  | .json _ => "the file is no JSON document"
  | .stored _ => "the document is no stored tree"
  | .tree _ => "the tree cannot be run"
  | .fault _ => "an operation has no result"
  | .outOfFuel => "the evaluation nests too deep"

/-- Carries out an outcome and gives its exit code. -/
def Outcome.carryOut (outcome : Outcome) : IO UInt32 := do
  for (path, text) in outcome.written do
    IO.FS.writeFile path.toString text
  IO.print outcome.stdout
  IO.eprint outcome.stderr
  match outcome.ending with
  | .exit code => return code.toUInt32
  | .crash reason =>
    IO.eprintln reason.message
    return 1

end Sigil.CommandLine

open Sigil.CommandLine in
/-- Runs the command with the given arguments. -/
def main (args : List String) : IO UInt32 := do
  match readCommand args with
  | .error usage => usage.outcome.carryOut
  | .ok command => (command.perform (← entryAt command.file)).carryOut
