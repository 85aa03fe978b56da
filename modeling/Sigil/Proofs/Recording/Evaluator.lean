import Sigil.Proofs.Change
import Sigil.Proofs.Generic.Evaluator

/-!
# Evaluation that is recorded

Evaluation kept on record: the meaning of trees over operations that are recorded
(`Recording.operations`). A `Recorded` computation gives, beside the end that the plain computation
comes to, the list of its `Stage`s: the single operations on the world and the calls of functions of
the standard library, in the order in which they happened, each with the store that it left. So the
record shows every store that an evaluation goes through, and every call that could have changed a
container.

A function of the standard library that takes a function is no single stage: the calls of that
function are recorded one by one. Nothing reads the record, and forgetting it gives the plain
evaluation back (`Sigil.Proofs.Recording.Erasure`).
-/

namespace Sigil

/-- What is done in a stage of an evaluation. -/
inductive Deed where
  /-- An operation on the world. -/
  | operation
  /-- The declaration of a variable that may be mutable or not, as the script or the host says. -/
  | declare (isMutable : Bool)
  /-- A function of the standard library is run, one that takes no function. -/
  | native (f : Native) (args : List Value)

/-- A stage of an evaluation. -/
structure Stage where
  /-- What is done. -/
  deed : Deed
  /-- The store afterwards. -/
  store : Store

/-- A computation on the world together with the record of its stages. -/
def Recorded (α : Type) :=
  World → List Stage × EStateM.Result Stop World α

namespace Recorded

variable {α β : Type}

/-- Goes on with the result of a computation. A computation that stops has no further stages. -/
def bind (x : Recorded α) (f : α → Recorded β) : Recorded β :=
  fun w =>
    match (x w).2 with
    | .ok a w' => ((x w).1 ++ (f a w').1, (f a w').2)
    | .error stop w' => ((x w).1, .error stop w')

instance : Monad Recorded where
  pure a := fun w => ([], .ok a w)
  bind := bind

/-- The record of a sequence consists of the records of its two parts. -/
theorem bind_eq_of_ok {x : Recorded α} {f : α → Recorded β} {w w' : World} {a : α}
    (h : (x w).2 = .ok a w') : (x >>= f) w = ((x w).1 ++ (f a w').1, (f a w').2) := by
  change bind x f w = _
  simp only [bind, h]

/-- The record of a sequence ends where its first part stops. -/
theorem bind_eq_of_error {x : Recorded α} {f : α → Recorded β} {w w' : World} {stop : Stop}
    (h : (x w).2 = .error stop w') : (x >>= f) w = ((x w).1, .error stop w') := by
  change bind x f w = _
  simp only [bind, h]

instance : LawfulMonad Recorded :=
  .mk' Recorded
    (fun x => funext fun w => by
      change bind x pure w = x w
      unfold bind
      split <;> simp_all [pure, Prod.ext_iff])
    (fun _ _ => rfl)
    (fun x f g => funext fun w => by
      change bind (bind x f) g w = bind x (fun a => bind (f a) g) w
      cases hx : (x w).2 with
      | error stop w₁ => simp only [bind, hx]
      | ok a w₁ => cases hf : (f a w₁).2 <;> simp [bind, hx, hf])

/-- Records a plain computation as one stage. -/
def perform (deed : Deed) (x : Eval α) : Recorded α :=
  fun w => ([⟨deed, Eval.storeAfter (x w)⟩], x w)

instance : MonadLift Eval Recorded :=
  ⟨perform .operation⟩

/-- Runs a computation and goes on with how it ended. -/
def attempt (x : Recorded α) : Recorded (Except Stop α) :=
  fun w =>
    match (x w).2 with
    | .ok a w' => ((x w).1, .ok (.ok a) w')
    | .error stop w' => ((x w).1, .ok (.error stop) w')

/-- Runs a computation and closes the trace file afterwards, however the computation ends. -/
def closingFile (x : Recorded α) : Recorded α := do
  let result ← x.attempt
  Eval.changeLog Log.closeFile
  (ofExcept result : Eval α)

end Recorded

namespace Recording

open Eval (define defineSpace newScope newFunction)

/-- **The operations that are recorded.** Each is one stage, except that an iteration of a loop
makes its scope first and then its loop variable. -/
def operations : Operations Recorded where
  lift := .perform .operation
  newScope _ parent := .perform .operation (newScope parent)
  newIteration _ item parent := do
    let inner ← newScope parent
    if let some (name, value) := item then
      define inner name (← Eval.ofPartial value) false
    return inner
  lookup scope name := .perform .operation (Eval.lookup scope name)
  declare scope name value isMutable :=
    .perform (.declare isMutable) (define scope name value isMutable)
  native f args := .perform (.native f args) (f.run (fun _ _ => throw .outOfFuel) args)

/-- Evaluates a tree in a scope on record, nesting evaluations at most so deep. -/
abbrev evalWithin (fuel : Nat) : Node → ScopeRef → Recorded Result :=
  operations.evalWithin fuel

/-- Calls a value with arguments on record, nesting evaluations at most so deep. -/
abbrev callWithin (fuel : Nat) : Value → List Value → Recorded Value :=
  operations.callWithin fuel

/-- Evaluates a block in its scope on record. -/
abbrev evalBlock (eval : Node → ScopeRef → Recorded Result) (statements : List Node)
    (scope : ScopeRef) : Recorded Result :=
  operations.evalBlock eval statements scope

/-! ### Sessions -/

/-- Performs the requests of a host one after another and gives the answers. -/
def serve (fuel : Nat) : Host → Recorded (List (Except Stop Answer))
  | .finished => return []
  | .ask request next => do
    let answer ← (operations.perform Recorded.closingFile fuel request).attempt
    return answer :: (← serve fuel (next answer))

/-- Declares a member of a namespace of the standard library. -/
def defineMember (scope : ScopeRef) (name : String) (member : LibraryMember) : Recorded Unit := do
  let v ← match member with
    | .function native => newFunction (.native native)
    | .constant v => pure v
  define scope name v false

/-- Declares the standard library in a scope. -/
def defineLibrary (scope : ScopeRef) : Recorded Unit := do
  library.forM fun (space, members) => do
    let inner ← newScope scope
    members.forM fun (name, member) => defineMember inner name member
    defineSpace scope space inner
  defineMember scope "print" (.function .print)

/-- Declares host variables. -/
def defineVariables (scope : ScopeRef) : List (String × Json) → Recorded Unit
  | [] => pure ()
  | (name, value) :: rest => do
    define scope name (← plainValue value) false
    defineVariables scope rest

/-- Makes an outermost scope with the standard library in it. -/
def newGlobals : Recorded ScopeRef := do
  let scope ← Eval.add (Store.newScope none)
  defineLibrary scope
  return scope

/-- Makes an outermost scope with the standard library and the host variables in it. -/
def setup (given : List (String × Json)) : Recorded ScopeRef := do
  let scope ← newGlobals
  defineVariables scope given
  return scope

/-- The whole life of a session: it is set up, and then the host has its requests performed. -/
def session (fuel : Nat) (given : List (String × Json)) (host : ScopeRef → Host) :
    Recorded (List (Except Stop Answer)) := do
  let globals ← setup given
  serve fuel (host globals)

end Recording

end Sigil
