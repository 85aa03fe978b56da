import Sigil.CommandLine.Arguments
import Sigil.CommandLine.Disk
import Sigil.Json.Printer
import Sigil.Json.Reader
import Sigil.Session
import Sigil.Syntax.Parse
import Sigil.Syntax.Stored

/-!
# The command

The arguments name a `Command`: to run a program file, to emit its tree beside it, or to run a
stored tree. `Command.perform` says what the command does once its file has been looked up: the text
on the two output streams, the files it writes and the way it ends. With `-v` the trace of the run
is left in `debug.txt`. `Disk.invoke` is one call of the command among given files.
-/

namespace Sigil.CommandLine

/-- What the command is asked to do. -/
inductive Command where
  /-- To emit the tree of a program file. -/
  | emit (file : Path)
  /-- To run a stored tree. -/
  | runStored (verbosity : Nat) (file : Path)
  /-- To run a program file. -/
  | run (verbosity : Nat) (file : Path)
  deriving DecidableEq, Repr

/-- The file that a command reads. -/
def Command.file : Command → Path
  | .emit file | .runStored _ file | .run _ file => file

/-- What the options ask for: first to emit, then to run a stored tree. An empty name counts as
none. -/
def Options.command? (o : Options) : Option Command :=
  match given o.emit, given o.stored, given o.file with
  | some file, _, _ => some (.emit (.ofString file))
  | none, some file, _ => some (.runStored o.verbosity (.ofString file))
  | none, none, some file => some (.run o.verbosity (.ofString file))
  | none, none, none => none
where
  /-- The name, if it is not empty. -/
  given (name : Option String) : Option String :=
    name.filter (· != "")

/-- The command that the arguments name. -/
def readCommand (args : List String) : Except Usage Command := do
  match (← parseArgs args).command? with
  | some command => return command
  | none => throw .wrong

/-- What the command cannot cope with. -/
inductive Crash where
  /-- A file name stands for a directory. -/
  | isDirectory
  /-- A stored tree is no JSON document. -/
  | json (error : Json.ReadError)
  /-- A stored tree is no tree. -/
  | stored (error : StoredError)
  /-- The tree has a fault. -/
  | tree (error : TreeError)
  /-- An operation has no result. -/
  | fault (fault : Fault)
  /-- The evaluation nests too deep. -/
  | outOfFuel

/-- How the command ends. -/
inductive Ending where
  /-- With an exit code. -/
  | exit (code : Nat)
  /-- By something it cannot cope with. -/
  | crash (reason : Crash)

/-- One call of the command. -/
structure Outcome where
  /-- How it ends. -/
  ending : Ending
  /-- The text on the output stream. -/
  stdout : String := ""
  /-- The text on the error stream. -/
  stderr : String := ""
  /-- The files that are written, with their texts. -/
  written : List (Path × String) := []

/-- How the command ends when the arguments name none. -/
def Usage.outcome : Usage → Outcome
  | .wrong => { ending := .exit 2 }
  | .help => { ending := .exit 0 }

/-- The name of the trace file. -/
def traceFile : String :=
  "debug.txt"

/-- The ending of the name of a stored tree. -/
def storedEnding : String :=
  ".ast.json"

/-- The text of a file with its line ends made line feeds. -/
def unifyLines : List Char → List Char
  | '\r' :: '\n' :: rest => '\n' :: unifyLines rest
  | '\r' :: rest => '\n' :: unifyLines rest
  | c :: rest => c :: unifyLines rest
  | [] => []

/-- Goes on with the tree of a program text, or ends because it has none. -/
def withProgram (text : String) (next : Node → Outcome) : Outcome :=
  match parseProgram text with
  | .ok tree => next tree
  | .error e =>
    { ending := .exit 1, stderr := "Syntax error: SyntaxError: " ++ e.message ++ "\n" }

/-- Goes on with the tree of a stored document, or ends because it has none. -/
def withStored (text : String) (next : Node → Outcome) : Outcome :=
  match Json.parse text with
  | .error e => { ending := .crash (.json e) }
  | .ok json =>
    match Node.ofJson json with
    | .error e => { ending := .crash (.stored e) }
    | .ok tree => next tree

/-- The lines of the values that have been put out. -/
def printedText (printed : Array Printed) : String :=
  printed.foldl (fun text p => text ++ p.datum.text ++ "\n") ""

/-- How the command ends when its program stops early, and what it says about it. -/
def stopped : Stop → Ending × String
  | .script e => (.exit 1, "Runtime error: " ++ e.category.name ++ ": " ++ e.message ++ "\n")
  | .tree e => (.crash (.tree e), "")
  | .fault f => (.crash (.fault f), "")
  | .outOfFuel => (.crash .outOfFuel, "")

/-- Runs a tree. -/
def execute (verbosity : Nat) (tree : Node) : Outcome :=
  match Session.start verbosity none [] with
  | .error e => { ending := (stopped e).1, stderr := (stopped e).2 }
  | .ok session =>
    let (result, session) := session.perform (runStep tree)
    let world := session.world
    let (ending, message) := match result with
      | .ok _ => (.exit 0, "")
      | .error e => stopped e
    { ending
      stdout := printedText world.printed
      stderr := Log.textOf world.log.errors ++ message
      written := world.log.fileText.toList.map (.ofString traceFile, ·) }

/-- Emits a tree beside its program file. -/
def emitTree (file : Path) (tree : Node) : Outcome :=
  let target := file.extend storedEnding
  { ending := .exit 0
    stdout := target.toString ++ "\n"
    written := [(target, tree.toJson.document)] }

/-- What a command does with the text of its file. -/
def Command.performOn (text : String) : Command → Outcome
  | .emit file => withProgram text (emitTree file)
  | .runStored verbosity _ => withStored text (execute verbosity)
  | .run verbosity _ => withProgram text (execute verbosity)

/-- What a command does, given what its file name stands for. -/
def Command.perform (command : Command) : Entry → Outcome
  | .file text => command.performOn (String.ofList (unifyLines text.toList))
  | .directory => { ending := .crash .isDirectory }
  | .missing =>
    { ending := .exit 1
      stderr := "Error: file " ++ command.file.toString ++ " not found\n" }

/-- Carries out an outcome among the files. Files are opened before anything is said, so a name that
stands for a directory ends the command at once. -/
def Disk.settle (disk : Disk) (outcome : Outcome) : Outcome × Disk :=
  if outcome.written.any fun (path, _) => (disk.find path).isDirectory then
    ({ ending := .crash .isDirectory }, disk)
  else (outcome, outcome.written.foldl (fun disk (path, text) => disk.write path text) disk)

/-- One call of the command in the working directory. -/
def Disk.invoke (disk : Disk) (args : List String) : Outcome × Disk :=
  match readCommand args with
  | .error usage => (usage.outcome, disk)
  | .ok command => disk.settle (command.perform (disk.find command.file))

end Sigil.CommandLine
