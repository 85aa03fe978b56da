import Mathlib.Logic.Equiv.Defs
import Sigil.Proofs.Nesting
import Sigil.Proofs.Raising

/-!
# Returns by signals and by raising

The evaluator of `Sigil.Eval.Node` hands signals on by hand, the one of `Sigil.Proofs.Raising`
raises returns and lets nobody look at them. Both come to the same: `Raise.signalled` turns what is
raised into a signal, it sends sequencing in the one to `onValue` in the other, and so each
construct of the first is the image of its counterpart in the second.
-/

namespace Sigil

open Eval

namespace Raise

variable {α β : Type}

/-- The results of raising computations **correspond** to those with signals: a raised return is a
signal, and all else stays as it is. -/
def asFlow : EStateM.Result Abort World α ≃ EStateM.Result Stop World (Flow α) where
  toFun
    | .ok a w => .ok (.value a) w
    | .error (.ret v) w => .ok (.signal v) w
    | .error (.stop e) w => .error e w
  invFun
    | .ok (.value a) w => .ok a w
    | .ok (.signal v) w => .error (.ret v) w
    | .error e w => .error (.stop e) w
  left_inv r := by rcases r with ⟨a, w⟩ | ⟨_ | v, w⟩ <;> rfl
  right_inv r := by rcases r with ⟨_ | v, w⟩ | ⟨e, w⟩ <;> rfl

/-- The computation that gives a signal where `x` raises a return. -/
def signalled (x : Raise α) : Eval (Flow α) :=
  fun w => asFlow (x w)

@[simp]
theorem signalled_pure (a : α) : (pure a : Raise α).signalled = pure (.value a) :=
  rfl

@[simp]
theorem signalled_raise (v : Value) : (raise v : Raise α).signalled = pure (.signal v) :=
  rfl

/-- Sequencing of raising computations is `onValue` of their signals. -/
@[simp]
theorem signalled_bind (x : Raise α) (f : α → Raise β) :
    (x >>= f).signalled = onValue x.signalled fun a => (f a).signalled := by
  funext w
  simp only [signalled, onValue, bind, EStateM.bind]
  rcases x w with ⟨a, w⟩ | ⟨_ | v, w⟩ <;> rfl

/-- What is done with a result is done with a value only. -/
@[simp]
theorem signalled_map (f : α → β) (x : Raise α) :
    (f <$> x).signalled = onValue x.signalled fun a => pure (.value (f a)) := by
  rw [map_eq_pure_bind, signalled_bind]
  rfl

/-- An operation on the world raises nothing. -/
@[simp]
theorem signalled_liftM (x : Eval α) : (liftM x : Raise α).signalled = Flow.value <$> x := by
  funext w
  simp only [signalled, liftM, monadLift, MonadLift.monadLift, lift, Functor.map, EStateM.map]
  rcases x w with ⟨a, w⟩ | ⟨e, w⟩ <;> rfl

/-- Catching a return is looking for its signal. -/
private theorem catching_eq (x : Raise α) (handler : Value → Eval α) :
    x.catching handler = x.signalled >>= fun
      | .value a => pure a
      | .signal v => handler v := by
  funext w
  simp only [catching, signalled, bind, EStateM.bind]
  rcases x w with ⟨a, w⟩ | ⟨_ | v, w⟩ <;> rfl

/-- The value that arrives where a return is caught is the result of its signal. -/
private theorem catching_pure (x : Raise Value) :
    x.catching pure = Flow.result <$> x.signalled := by
  rw [catching_eq, map_eq_pure_bind]
  refine bind_congr fun r => ?_
  cases r <;> rfl

end Raise

namespace Eval

variable {α β γ : Type}

/-- A computation that gives no signal goes on with its result. -/
@[simp]
theorem onValue_map_value (x : Eval α) (k : α → Eval (Flow β)) :
    onValue (Flow.value <$> x) k = x >>= k := by
  simp [onValue]

@[simp]
theorem bind_value (x : Eval Value) : (x >>= fun v => value v) = Flow.value <$> x :=
  (map_eq_pure_bind _ x).symm

@[simp]
theorem map_fail (f : α → β) (e : ScriptError) : f <$> (fail e : Eval α) = fail e :=
  rfl

@[simp]
theorem map_malformed (f : α → β) (e : TreeError) : f <$> (malformed e : Eval α) = malformed e :=
  rfl

end Eval

namespace Raising

/-- The evaluator that gives a signal where `eval` raises a return. -/
abbrev signalling (eval : Evaluator) : Sigil.Evaluator :=
  fun node scope => (eval node scope).signalled

section Constructs

variable (eval : Evaluator) (call : Caller)

/-- A constant takes the value of a signal, too: a return in it ends its evaluation only. -/
private theorem initSpace_signalling (name : String) (inner : ScopeRef) (members : List Node) :
    Sigil.initSpace (signalling eval) name inner members = initSpace eval name inner members := by
  induction members with
  | nil => rfl
  | cons member members ih =>
    cases member with
    | varDecl constant value isMutable =>
      simp [Sigil.initSpace, initSpace, List.forM, Raise.catching_pure, ih]
    | _ => exact ih

private theorem hoist_signalling (statements : List Node) (scope : ScopeRef) :
    Sigil.hoist (signalling eval) statements scope = hoist eval statements scope := by
  simp only [Sigil.hoist, hoist, initSpace_signalling]

/-- A statement that raises a return ends the sequence. -/
private theorem evalStatements_signalling (scope : ScopeRef) (last : Value)
    (statements : List Node) :
    evalStatements (signalling eval) scope last statements =
      (statements.foldlM (fun _ statement => eval statement scope) last).signalled := by
  induction statements generalizing last with
  | nil => rfl
  | cons statement rest ih =>
    simp only [evalStatements, List.foldlM_cons, Raise.signalled_bind, ih]

/-- Declarations raise nothing; statements may. -/
private theorem evalBlock_signalling (statements : List Node) (scope : ScopeRef) :
    Sigil.evalBlock (signalling eval) statements scope =
      (evalBlock eval statements scope).signalled := by
  simp only [Sigil.evalBlock, evalBlock, hoist_signalling, evalStatements_signalling,
    Raise.signalled_bind, Raise.signalled_liftM, onValue_map_value]

/-- An element that raises a return ends the evaluation of the others. -/
private theorem evalAll_signalling (scope : ScopeRef) (nodes : List Node) :
    evalAll (signalling eval) scope nodes = (nodes.mapM (eval · scope)).signalled := by
  induction nodes with
  | nil => rfl
  | cons n ns ih =>
    simp only [evalAll, List.mapM_cons, Raise.signalled_bind, Raise.signalled_pure, ih]

private theorem evalEntries_signalling (scope : ScopeRef) (done : Table Value)
    (entries : List (String × Node)) :
    evalEntries (signalling eval) scope done entries =
      (entries.foldlM (evalEntry eval scope) done).signalled := by
  induction entries generalizing done with
  | nil => rfl
  | cons entry rest ih =>
    obtain ⟨key, n⟩ := entry
    simp [evalEntries, evalEntry, ih]

private theorem evalParts_signalling (scope : ScopeRef) (done : String)
    (parts : List (String ⊕ Node)) :
    evalParts (signalling eval) scope done parts =
      (parts.foldlM (evalPart eval scope) done).signalled := by
  induction parts generalizing done with
  | nil => rfl
  | cons part rest ih =>
    rcases part with s | n
    · simp [evalParts, evalPart, ih]
    · simp [evalParts, evalPart, ih]

private theorem evalOptional_signalling (n : Node) (scope : ScopeRef) :
    Sigil.evalOptional (signalling eval) n scope = (evalOptional eval n scope).signalled := by
  cases n <;> rfl

/-- A condition that raises a return chooses no branch. -/
private theorem evalBranches_signalling (scope : ScopeRef) (otherwise : Node)
    (branches : List (Node × Node)) :
    Sigil.evalBranches (signalling eval) scope otherwise branches =
      (evalBranches eval scope otherwise branches).signalled := by
  induction branches with
  | nil => exact evalOptional_signalling eval otherwise scope
  | cons branch rest ih =>
    obtain ⟨condition, body⟩ := branch
    simp only [Sigil.evalBranches, evalBranches, Raise.signalled_bind, ih]
    congr 1
    funext v
    cases v with
    | bool holds => cases holds <;> simp
    | _ => simp

/-- A pattern that raises a return chooses no arm. -/
private theorem evalArms_signalling (scope : ScopeRef) (subject : Value) (otherwise : Node)
    (arms : List (Node × Node)) :
    Sigil.evalArms (signalling eval) scope subject otherwise arms =
      (evalArms eval scope subject otherwise arms).signalled := by
  induction arms with
  | nil => exact evalOptional_signalling eval otherwise scope
  | cons arm rest ih =>
    obtain ⟨pattern, body⟩ := arm
    simp only [Sigil.evalArms, evalArms, Raise.signalled_bind, ih]
    congr 1
    funext v
    split <;> rfl

/-- A counted loop collects the values of the counter's range. -/
private theorem repeatBody_signalled (body : Nat → Raise Value) (remaining next : Nat)
    (done : Array Value) :
    repeatBody (fun i => (body i).signalled) remaining next done =
      (do
        let results ← (List.range' next remaining).mapM body
        newArray (done ++ results.toArray) : Raise Value).signalled := by
  induction remaining generalizing next done with
  | zero => simp [repeatBody]
  | succ remaining ih =>
    simp [repeatBody, List.range'_succ, ih]

/-- An iteration that raises a return ends the loop. -/
private theorem eachBody_signalled (body : Value → Raise Value) (items : List Value)
    (done : Array Value) :
    eachBody (fun v => (body v).signalled) items done =
      (do
        let results ← items.mapM body
        newArray (done ++ results.toArray) : Raise Value).signalled := by
  induction items generalizing done with
  | nil => simp [eachBody]
  | cons item rest ih =>
    simp [eachBody, ih]

/-- A return in a body ends a counted loop without its array. -/
private theorem evalCountLoop_signalling (counter : Option String) (count body : Node)
    (scope : ScopeRef) :
    Sigil.evalCountLoop (signalling eval) counter count body scope =
      (evalCountLoop eval counter count body scope).signalled := by
  simp only [Sigil.evalCountLoop, evalCountLoop, Raise.signalled_bind, Raise.signalled_liftM,
    onValue_map_value]
  congr 1
  funext v
  refine bind_congr fun total => ?_
  refine (congrArg (repeatBody · total 1 #[]) (funext fun i => ?_)).trans
    ((repeatBody_signalled (countIteration eval counter body scope total) total 1 #[]).trans ?_)
  · cases counter <;> simp [countIteration]
  · simp

private theorem evalEachLoop_signalling (item : String) (collection body : Node)
    (scope : ScopeRef) :
    Sigil.evalEachLoop (signalling eval) item collection body scope =
      (evalEachLoop eval item collection body scope).signalled := by
  simp only [Sigil.evalEachLoop, evalEachLoop, Raise.signalled_bind]
  congr 1
  funext v
  cases v with
  | arr r =>
    have hbody : (fun v => do
        let inner ← newScope scope
        define inner item v false
        signalling eval body inner) =
        fun v => (eachIteration eval item body scope v).signalled := by
      funext v
      simp [eachIteration]
    simp [hbody, eachBody_signalled]
  | _ => simp

private theorem evalBinary_signalling (op : String) (left right : Node) (scope : ScopeRef) :
    Sigil.evalBinary (signalling eval) op left right scope =
      (evalBinary eval op left right scope).signalled := by
  simp only [Sigil.evalBinary, evalLogical, evalBinary, Raise.signalled_bind]
  split
  · congr 1
    funext a
    cases a with
    | bool holds =>
      by_cases h : ((op == "&") != holds) = true
      · simp [h, value]
      · simp only [h, Bool.false_eq_true, if_false, Raise.signalled_bind]
        congr 1
        funext b
        cases b <;> simp [value]
    | _ => simp
  · simp

/-- **A call catches what its body raises.** -/
private theorem callClosure_signalling (params : List String) (body : Node) (scope : ScopeRef)
    (name : Option String) (args : List Value) :
    Sigil.callClosure (signalling eval) params body scope name args =
      callClosure eval params body scope name args := by
  simp only [Sigil.callClosure, callClosure]
  refine bind_congr fun inner => bind_congr fun _ => bind_congr fun _ => ?_
  cases body with
  | block statements => simp [evalBlock_signalling, Raise.catching_pure]
  | _ => rfl

private theorem callValue_signalling (f : Value) (args : List Value) :
    Sigil.callValue (signalling eval) call f args = callValue eval call f args := by
  cases f with
  | fn r =>
    refine bind_congr fun function => ?_
    rcases function with _ | ⟨params, body, scope, name⟩ | native
    · rfl
    · exact callClosure_signalling eval params body scope name args
    · rfl
  | _ => rfl

/-- Each construct gives the signals of its raising counterpart. -/
private theorem evalNode_signalling (node : Node) (scope : ScopeRef) :
    Sigil.evalNode (signalling eval) call node scope =
      (evalNode eval call node scope).signalled := by
  cases node with
  | literal v kind =>
    simp only [Sigil.evalNode, evalNode]
    cases literalValue v kind <;> simp [value]
  | array elements => simp [Sigil.evalNode, evalNode, evalAll_signalling]
  | object entries => simp [Sigil.evalNode, evalNode, evalEntries_signalling]
  | template parts => simp [Sigil.evalNode, evalNode, evalParts_signalling, value]
  | varDecl name n isMutable => simp [Sigil.evalNode, evalNode, value]
  | assign name n => simp [Sigil.evalNode, evalNode, value]
  | output n => simp [Sigil.evalNode, evalNode, value]
  | call callee args => simp [Sigil.evalNode, evalNode, evalAll_signalling]
  | block statements => simp [Sigil.evalNode, evalNode, evalBlock_signalling]
  | functionDecl name params body =>
    simp only [Sigil.evalNode, evalNode, Raise.signalled_bind, Raise.signalled_liftM,
      onValue_map_value]
    refine bind_congr fun known => ?_
    cases known <;> simp [value]
  | spaceDecl name members =>
    simp only [Sigil.evalNode, evalNode, Raise.signalled_bind, Raise.signalled_liftM,
      onValue_map_value]
    refine bind_congr fun known => ?_
    cases known <;> simp [value, initSpace_signalling]
  | conditional branches otherwise => exact evalBranches_signalling eval scope otherwise branches
  | selection subject arms otherwise => simp [Sigil.evalNode, evalNode, evalArms_signalling]
  | countLoop counter count body => exact evalCountLoop_signalling eval counter count body scope
  | eachLoop item collection body => exact evalEachLoop_signalling eval item collection body scope
  | binary op left right => exact evalBinary_signalling eval op left right scope
  | _ => simp [Sigil.evalNode, evalNode]

end Constructs

/-- **Agreement at every depth of nesting**: evaluating gives the signals of what raising evaluation
raises, and calling is the same. -/
theorem within_signalling (fuel : Nat) :
    (∀ node scope, Sigil.evalWithin fuel node scope = (evalWithin fuel node scope).signalled) ∧
      ∀ f args, Sigil.callWithin fuel f args = callWithin fuel f args := by
  induction fuel with
  | zero => exact ⟨fun _ _ => rfl, fun _ _ => rfl⟩
  | succ fuel ih =>
    have heval : Sigil.evalWithin fuel = signalling (evalWithin fuel) :=
      funext fun node => funext fun scope => ih.1 node scope
    have hcall : Sigil.callWithin fuel = callWithin fuel :=
      funext fun f => funext fun args => ih.2 f args
    constructor
    · intro node scope
      rw [Sigil.evalWithin, evalWithin, heval, hcall]
      exact evalNode_signalling _ _ node scope
    · intro f args
      rw [Sigil.callWithin, callWithin, heval, hcall]
      exact callValue_signalling _ _ f args

/-- Evaluation gives a signal where the other meaning raises a return. -/
private theorem evalWithin_signalling (fuel : Nat) :
    Sigil.evalWithin fuel = signalling (evalWithin fuel) :=
  funext fun node => funext fun scope => (within_signalling fuel).1 node scope

/-- A program catches a return outside of all functions. -/
private theorem runStatements_eq (fuel : Nat) (statements : List Node) (scope : ScopeRef) :
    Sigil.runStatements fuel statements scope = runStatements fuel statements scope := by
  simp only [Sigil.runStatements, runStatements, evalWithin_signalling, evalBlock_signalling,
    Raise.catching_eq, bind_assoc]
  refine bind_congr fun r => ?_
  cases r <;> simp

private theorem runProgram_eq (fuel : Nat) (program : Node) (scope : ScopeRef) :
    Sigil.runProgram fuel program scope = runProgram fuel program scope := by
  simp only [Sigil.runProgram, runProgram]
  refine bind_congr fun _ => ?_
  cases program with
  | program body => simp only [runStatements_eq]
  | _ => rfl

end Raising

/-! ### Computations with bounded nesting -/

/-- A result of a raising computation that says that the nesting which was allowed is used up. -/
def Raise.RanOut {α : Type} : EStateM.Result Abort World α → Prop
  | .error (.stop .outOfFuel) _ => True
  | _ => False

/-- A raising computation ends with a result. -/
def Raise.Ends {α : Type} (x : Nat → Raise α) (w : World) (r : EStateM.Result Abort World α) :
    Prop :=
  ¬ RanOut r ∧ ∃ least, ∀ fuel ≥ least, x fuel w = r

/-- A return that is raised is no running out. -/
private theorem Raise.ranOut_asFlow {α : Type} (r : EStateM.Result Abort World α) :
    Eval.RanOut (asFlow r) ↔ RanOut r := by
  rcases r with ⟨a, w⟩ | ⟨e | v, w⟩
  · exact Iff.rfl
  · cases e <;> exact Iff.rfl
  · exact Iff.rfl

/-- A computation that gives the signals of a raising one ends exactly when the raising one does,
with the corresponding result. -/
private theorem Raise.ends_signalled {α : Type} {x : Nat → Raise α} {y : Nat → Eval (Flow α)}
    (h : ∀ fuel, y fuel = (x fuel).signalled) (w : World) (r : EStateM.Result Abort World α) :
    Eval.Ends y w (asFlow r) ↔ Ends x w r := by
  have hstep : ∀ fuel, y fuel w = asFlow r ↔ x fuel w = r := by
    intro fuel
    rw [h fuel]
    exact asFlow.apply_eq_iff_eq
  simp only [Eval.Ends, Ends, ranOut_asFlow, hstep]

/-- **Early return by signals is early return by raising.** Evaluating a tree, evaluating a block,
calling a value and running a program end exactly when their raising counterparts do. They end with
the corresponding result, and results hold the whole world: what was put out, the store with all its
scopes, and the trace. -/
theorem signals_iff_raised (w : World) :
    (∀ node scope r,
      Eval.Ends (evalWithin · node scope) w (Raise.asFlow r) ↔
        Raise.Ends (Raising.evalWithin · node scope) w r) ∧
    (∀ statements scope r,
      Eval.Ends (fun fuel => evalBlock (evalWithin fuel) statements scope) w (Raise.asFlow r) ↔
        Raise.Ends (fun fuel => Raising.evalBlock (Raising.evalWithin fuel) statements scope) w r) ∧
    (∀ f args r,
      Eval.Ends (callWithin · f args) w r ↔ Eval.Ends (Raising.callWithin · f args) w r) ∧
    ∀ program scope r,
      Eval.Ends (runProgram · program scope) w r ↔
        Eval.Ends (Raising.runProgram · program scope) w r := by
  refine ⟨fun node scope r => ?_, fun statements scope r => ?_, fun f args r => ?_,
    fun program scope r => ?_⟩
  · exact Raise.ends_signalled (fun fuel => (Raising.within_signalling fuel).1 node scope) w r
  · refine Raise.ends_signalled (fun fuel => ?_) w r
    rw [Raising.evalWithin_signalling, Raising.evalBlock_signalling]
  · simp only [(Raising.within_signalling _).2]
  · simp only [Raising.runProgram_eq]

end Sigil
