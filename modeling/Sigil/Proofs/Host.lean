import Sigil.Proofs.Law

/-!
# Hosts

A `Host` is whoever uses a session: it makes one request after another and chooses each by the
answers that it got before. A request that fails is answered by the reason, what it has done until
then stays done, and the host goes on.
-/

namespace Sigil

open Eval

/-- What a host can ask for. -/
inductive Request where
  /-- To run a program in a scope. -/
  | run (program : Node) (scope : ScopeRef)
  /-- To evaluate a tree in a scope. -/
  | evaluate (n : Node) (scope : ScopeRef)
  /-- To call a value with arguments. -/
  | call (f : Value) (args : List Value)
  /-- The value of plain data. -/
  | plain (data : Json)
  /-- A new scope inside another. -/
  | newScope (parent : ScopeRef)
  /-- The value of a variable. -/
  | lookup (scope : ScopeRef) (name : String)
  /-- The value of a member of a namespace. -/
  | lookupMember (scope : ScopeRef) (space member : String)
  /-- To declare a variable. -/
  | define (scope : ScopeRef) (name : String) (value : Value) (isMutable : Bool)
  /-- To declare a namespace with the scope of its members. -/
  | defineSpace (scope : ScopeRef) (name : String) (space : ScopeRef)
  /-- To assign to a variable. -/
  | assign (scope : ScopeRef) (name : String) (value : Value)

/-- What a host is answered. -/
inductive Answer where
  /-- A value, or the signal of a return outside of all functions. -/
  | result (r : Result)
  /-- A scope. -/
  | scope (r : ScopeRef)
  /-- Nothing but that it is done. -/
  | done

/-- Performs a request, nesting evaluations at most so deep. -/
def Request.perform (fuel : Nat) : Request → Eval Answer
  | .run program scope => return .result (.value (← runProgram fuel program scope))
  | .evaluate n scope => return .result (← evalWithin fuel n scope)
  | .call f args => return .result (.value (← callWithin fuel f args))
  | .plain data => return .result (.value (← plainValue data))
  | .newScope parent => return .scope (← Eval.newScope parent)
  | .lookup scope name => return .result (.value (← Eval.lookup scope name))
  | .lookupMember scope space member =>
    return .result (.value (← Eval.lookupMember scope space member))
  | .define scope name value isMutable => do
    Eval.define scope name value isMutable
    return .done
  | .defineSpace scope name space => do
    Eval.defineSpace scope name space
    return .done
  | .assign scope name value => do
    Eval.assign scope name value
    return .done

/-- How a session with host variables is set up. -/
def Session.setup (given : List (String × Json)) : Eval ScopeRef := do
  let scope ← newGlobals
  defineVariables scope given
  return scope

/-- A session starts if it can be set up. -/
theorem Session.start_eq (level : Nat) (earlier : Option String) (given : List (String × Json)) :
    Session.start level earlier given =
      match setup given (emptyWorld level earlier) with
      | .ok globals world => .ok ⟨world, globals⟩
      | .error stop _ => .error stop := by
  unfold Session.start
  dsimp only
  split
  all_goals
    rename_i hrun
    rw [show setup given (emptyWorld level earlier) = _ from hrun]

/-- A session that starts is one that is set up. -/
theorem Session.setup_of_start {level : Nat} {earlier : Option String}
    {given : List (String × Json)} {start : Session}
    (h : Session.start level earlier given = .ok start) :
    setup given (emptyWorld level earlier) = .ok start.globals start.world := by
  rw [start_eq] at h
  split at h
  · rename_i hrun
    cases h
    exact hrun
  · cases h

/-- The world that a request leaves. -/
def Request.after (fuel : Nat) (request : Request) (w : World) : World :=
  worldAfter (request.perform fuel w)

/-- The world after requests that are performed one after another, whichever of them fail. -/
def World.after (fuel : Nat) (requests : List Request) (w : World) : World :=
  requests.foldl (fun w request => request.after fuel w) w

/-- **A host**: it has finished, or it makes a request and goes on by the answer. -/
inductive Host where
  /-- No more requests. -/
  | finished
  /-- A request, and how the host goes on. -/
  | ask (request : Request) (next : Except Stop Answer → Host)

/-- Performs the requests of a host one after another and gives the answers. -/
def Host.serve (fuel : Nat) : Host → Eval (List (Except Stop Answer))
  | .finished => return []
  | .ask request next => do
    let answer ← attempt (request.perform fuel)
    return answer :: (← (next answer).serve fuel)

/-- Whether a request is to run a program. -/
def Request.isRun : Request → Bool
  | .run .. => true
  | _ => false

/-- A law of evaluation holds of every request but to run a program, if all scopes are opened. -/
theorem Law.obeys_perform {opened : ScopeRef → Prop} (law : Law opened) (hopened : ∀ r, opened r)
    (fuel : Nat) {request : Request} (h : request.isRun = false) :
    law.Obeys (request.perform fuel) := by
  cases request with
  | run program scope => cases h
  | evaluate n scope =>
    exact ((law.obeys_within fuel).1 n scope (.inl (hopened scope))).bind fun _ => law.obeys_pure _
  | call f args => exact ((law.obeys_within fuel).2 f args).bind fun _ => law.obeys_pure _
  | plain data => exact (law.obeys_plainValue data).bind fun _ => law.obeys_pure _
  | newScope parent => exact (law.of_newScope _).bind fun _ => law.obeys_pure _
  | lookup scope name => exact (law.obeys_lookup _ _).bind fun _ => law.obeys_pure _
  | lookupMember scope space member =>
    exact (law.obeys_lookupMember _ _ _).bind fun _ => law.obeys_pure _
  | define scope name value isMutable =>
    exact (law.of_define _ _ _ (hopened scope)).bind fun _ => law.obeys_pure _
  | defineSpace scope name space =>
    exact (law.of_defineSpace _ _ (hopened scope) (hopened space)).bind fun _ => law.obeys_pure _
  | assign scope name value => exact (law.of_assign _ _ _).bind fun _ => law.obeys_pure _

namespace SessionLaw

variable {opened : ScopeRef → Prop} (law : SessionLaw opened)

/-- A law of sessions holds of every request, if all scopes are opened. -/
theorem obeys_request (hopened : ∀ r, opened r) (fuel : Nat) (request : Request) :
    law.Obeys (request.perform fuel) := by
  cases request with
  | run program scope =>
    exact (law.obeys_runProgram fuel program (hopened scope)).bind fun _ => law.obeys_pure _
  | _ => exact law.obeys_perform hopened fuel rfl

/-- **A law of sessions holds of everything that a host does**, if all scopes are opened. -/
theorem obeys_serve (hopened : ∀ r, opened r) (fuel : Nat) (host : Host) :
    law.Obeys (host.serve fuel) := by
  induction host with
  | finished => exact law.obeys_pure []
  | ask request next ih =>
    exact (law.of_attempt (law.obeys_request hopened fuel request)).bind fun answer =>
      (ih answer).bind fun _ => law.obeys_pure _

end SessionLaw

end Sigil
