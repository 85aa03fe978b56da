import Sigil.Store.View

/-!
# Traces

What a script does can be followed in a trace. Every event has a level: the course of a run and its
output have level one, declarations level two, conditions, iterations and calls level three. A log
takes the events up to its own level. While a run is going the lines go to the trace file, at other
times to the error stream; a run opens the file and closes it. What stood in the file before the
session is discarded when it is opened first, and from then on lines are only added.
-/

namespace Sigil

/-- Something that happens in a script. -/
inductive TraceEvent where
  /-- A program with so many statements starts. -/
  | runStarted (statements : Nat)
  /-- A return outside of all functions ends the program. -/
  | topLevelReturn
  /-- A program ends with a value. -/
  | runFinished (value : Value)
  /-- A value is put out. -/
  | printed (value : Value)
  /-- A function is declared. -/
  | declaredFunction (name : String)
  /-- A namespace is declared. -/
  | declaredSpace (name : String)
  /-- A constant of a namespace gets its value. -/
  | declaredMember (space name : String) (value : Value)
  /-- A variable is declared. -/
  | declaredVariable (isMutable : Bool) (name : String) (value : Value)
  /-- A condition has been decided. -/
  | condition (holds : Bool)
  /-- An iteration of a counted loop starts. -/
  | iteration (current total : Nat)
  /-- A function of the standard library is called. -/
  | calledNative (function : Native)
  /-- A function of the script is called. -/
  | calledClosure (name : Option String) (args : List Value)

namespace TraceEvent

/-- The level of an event. -/
def level : TraceEvent → Nat
  | .runStarted _ | .topLevelReturn | .runFinished _ | .printed _ => 1
  | .declaredFunction _ | .declaredSpace _ | .declaredMember .. | .declaredVariable .. => 2
  | .condition _ | .iteration .. | .calledNative _ | .calledClosure .. => 3

/-- The name that a function goes by in a trace. -/
def callName (name : Option String) : String :=
  match name with
  | none | some "" => "@"
  | some name => name

/-- The text of an event. -/
def text (s : Store) : TraceEvent → String
  | .runStarted n => "run program (" ++ n.repr ++ " statements)"
  | .topLevelReturn => "top-level return"
  | .runFinished v => "finished -> " ++ s.text v
  | .printed v => "out " ++ s.text v
  | .declaredFunction name => "declare function " ++ name
  | .declaredSpace name => "declare namespace " ++ name
  | .declaredMember space name v =>
    "declare " ++ space ++ ":" ++ name ++ " = " ++ s.text v
  | .declaredVariable isMutable name v =>
    "declare " ++ (if isMutable then "mutable " else "immutable ") ++ name ++ " = " ++ s.text v
  | .condition holds => "if condition -> " ++ s.text (.bool holds)
  | .iteration current total => "loop iteration " ++ current.repr ++ "/" ++ total.repr
  | .calledNative function => "call " ++ function.name
  | .calledClosure name args =>
    "call " ++ callName name ++ "(" ++ ", ".intercalate (args.map s.text) ++ ")"

end TraceEvent

/-- A line of a trace, with the level of its event. -/
structure TraceLine where
  /-- The level of the event. -/
  level : Nat
  /-- The text of the event. -/
  text : String
  deriving DecidableEq, Repr

/-- The trace of a session. -/
structure Log where
  /-- Events up to this level are taken. -/
  level : Nat
  /-- What stands in the trace file from before the session, nothing if there is no such file. -/
  earlier : Option String
  /-- The lines that have gone to the trace file, nothing if it has never been opened. -/
  file : Option (Array TraceLine)
  /-- Whether the trace file is open. -/
  isOpen : Bool
  /-- The lines of the error stream. -/
  errors : Array TraceLine

namespace Log

/-- The log of a session that has not started. The text is what stands in the trace file, if there
is one. -/
def fresh (level : Nat) (earlier : Option String) : Log where
  level := level
  earlier := earlier
  file := none
  isOpen := false
  errors := #[]

/-- Takes a line into the open file, or else into the error stream. -/
def add (line : TraceLine) (log : Log) : Log :=
  match log with
  | ⟨level, earlier, file, true, errors⟩ =>
    ⟨level, earlier, some ((file.getD #[]).push line), true, errors⟩
  | ⟨level, earlier, file, false, errors⟩ => ⟨level, earlier, file, false, errors.push line⟩

/-- Opens the trace file if anything is traced: to write it anew the first time, which discards what
was in it, and to add lines to it from then on. -/
def openFile (log : Log) : Log :=
  if 0 < log.level ∧ !log.isOpen then
    match log.file with
    | none => { log with earlier := none, file := some #[], isOpen := true }
    | some _ => { log with isOpen := true }
  else log

/-- Closes the trace file. -/
def closeFile (log : Log) : Log :=
  { log with isOpen := false }

/-- The text of lines, each ended by a line feed. -/
def textOf (lines : Array TraceLine) : String :=
  lines.foldl (fun text line => text ++ line.text ++ "\n") ""

/-- The text of the trace file, nothing if there is none: what is left in it from before the
session, and then the lines. -/
def fileText (log : Log) : Option String :=
  match log.file with
  | none => log.earlier
  | some lines => some (log.earlier.getD "" ++ textOf lines)

end Log

end Sigil
