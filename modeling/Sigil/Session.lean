import Sigil.Eval.Library
import Sigil.Eval.Node
import Sigil.Syntax.Node

/-!
# Sessions

A `Session` is a world with an outermost scope in which programs are run, expressions evaluated and
functions called one after another. A step that fails ends there; what it has done before stays.
-/

namespace Sigil

open Eval

/-- How deep evaluations may nest in a session. It is far beyond what any machine can hold. -/
def maxNesting : Nat :=
  1000000000

/-- Whether a tree has a body that is not a list of statements. -/
def Node.hasBody : Node → Bool
  | .functionDecl .. | .functionExpr .. | .countLoop .. | .eachLoop .. => true
  | _ => false

/-- Runs the statements of a program in a scope and gives its final value. A return outside of all
functions ends the program with its value. -/
def runStatements (fuel : Nat) (statements : List Node) (scope : ScopeRef) : Eval Value := do
  match ← evalBlock (evalWithin fuel) statements scope with
  | .value v =>
    note (.runFinished v)
    return v
  | .signal v =>
    note .topLevelReturn
    note (.runFinished v)
    return v

/-- Runs a program in a scope. The trace file is open while it runs. -/
def runProgram (fuel : Nat) (program : Node) (scope : ScopeRef) : Eval Value := do
  changeLog Log.openFile
  match program with
  | .program body =>
    note (.runStarted body.length)
    closingFile (runStatements fuel body scope)
  | n => malformed (if n.hasBody then .bodyNotAList else .notAProgram)

/-- A world with an outermost scope. -/
structure Session where
  /-- The world. -/
  world : World
  /-- The outermost scope. -/
  globals : ScopeRef

namespace Session

/-- The world before anything is in it, with a log of the given level. The text is what stands in
the trace file, if there is one. -/
def emptyWorld (level : Nat) (earlier : Option String) : World where
  store := .empty
  printed := #[]
  log := .fresh level earlier

/-- Makes an outermost scope with the standard library in it. -/
def newGlobals : Eval ScopeRef := do
  let scope ← add (Store.newScope none)
  defineLibrary scope
  return scope

/-- A new session with host variables, tracing events up to a level. The text is what stands in the
trace file, if there is one. -/
def start (level : Nat) (earlier : Option String) (given : List (String × Json)) :
    Except Stop Session :=
  let setup : Eval ScopeRef := do
    let scope ← newGlobals
    defineVariables scope given
    return scope
  match setup (emptyWorld level earlier) with
  | .ok globals world => .ok ⟨world, globals⟩
  | .error e _ => .error e

/-- Performs a step of a session. -/
def perform {α : Type} (s : Session) (step : ScopeRef → Eval α) : Except Stop α × Session :=
  match step s.globals s.world with
  | .ok a world => (.ok a, { s with world })
  | .error e world => (.error e, { s with world })

end Session

/-- Runs a program in the outermost scope. -/
def runStep (program : Node) (globals : ScopeRef) : Eval Value :=
  runProgram maxNesting program globals

/-- Runs a program in a new scope inside the outermost one. -/
def runInnerStep (program : Node) (globals : ScopeRef) : Eval Value := do
  runProgram maxNesting program (← newScope globals)

/-- Evaluates an expression in the outermost scope. -/
def evalStep (expression : Node) (globals : ScopeRef) : Eval Result :=
  evalWithin maxNesting expression globals

/-- Calls a function value. -/
def callStep (f : Value) (args : List Value) : Eval Value :=
  callWithin maxNesting f args

end Sigil
