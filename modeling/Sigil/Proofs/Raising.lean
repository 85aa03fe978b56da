import Sigil.Session

/-!
# Evaluation by raising returns

A second meaning of trees beside the one of `Sigil.Eval.Node`. Here a return **raises** its value:
it leaves the evaluation at once, and no construct looks at what its parts came to. A raised return
is caught in three places only, which are all uses of `Raise.catching`: around the body of a
function that is called, around the value of each constant of a namespace, and around a whole
program.

A call catches what its body raises, so `Raising.callWithin` is an ordinary `Caller` and the
functions of the standard library run on it as they are.
-/

namespace Sigil

/-- What ends a raising evaluation early. -/
inductive Abort where
  /-- A reason to stop. -/
  | stop (reason : Stop)
  /-- A return that is raised, with its value. -/
  | ret (v : Value)

/-- A computation on the world that may stop early and may raise a return. -/
abbrev Raise := EStateM Abort World

namespace Raise

variable {α : Type}

/-- Raises a return. -/
def raise (v : Value) : Raise α :=
  throw (.ret v)

/-- A computation that raises no return. -/
def lift (x : Eval α) : Raise α :=
  fun w =>
    match x w with
    | .ok a w => .ok a w
    | .error e w => .error (.stop e) w

instance : MonadLift Eval Raise :=
  ⟨lift⟩

/-- Catches a raised return and goes on with its value. -/
def catching (x : Raise α) (handler : Value → Eval α) : Eval α :=
  fun w =>
    match x w with
    | .ok a w => .ok a w
    | .error (.ret v) w => handler v w
    | .error (.stop e) w => .error e w

end Raise

namespace Raising

open Eval Raise

/-- Evaluates a tree in a scope. -/
abbrev Evaluator := Node → ScopeRef → Raise Value

section Constructs

variable (eval : Evaluator) (call : Caller)

/-- Gives the constants of a namespace their values, in order; a return in one of them is caught. -/
def initSpace (name : String) (inner : ScopeRef) (members : List Node) : Eval Unit :=
  members.forM fun
    | .varDecl constant value isMutable => do
      let v ← (eval value inner).catching pure
      define inner constant v isMutable
      note (.declaredMember name constant v)
    | _ => pure ()

/-- Declares the functions and namespaces among statements. -/
def hoist (statements : List Node) (scope : ScopeRef) : Eval Unit := do
  let spaces ← declareAll scope statements
  spaces.forM fun space => initSpace eval space.name space.scope space.members

/-- Evaluates a block in its scope: the result is that of the last statement. -/
def evalBlock (statements : List Node) (scope : ScopeRef) : Raise Value := do
  hoist eval statements scope
  statements.foldlM (fun _ statement => eval statement scope) .null

/-- Evaluates an entry of an object literal and puts it into a table. -/
def evalEntry (scope : ScopeRef) (done : Table Value) : String × Node → Raise (Table Value)
  | (key, n) => return done.insert key (← eval n scope)

/-- Evaluates a part of a template and appends its text. -/
def evalPart (scope : ScopeRef) (done : String) : String ⊕ Node → Raise String
  | .inl s => return done ++ s
  | .inr n => do
    let v ← eval n scope
    return done ++ (← text v)

/-- Evaluates a tree that may be absent, which gives null. -/
def evalOptional (n : Node) (scope : ScopeRef) : Raise Value :=
  match n with
  | .absent => return .null
  | n => eval n scope

/-- Evaluates the conditions in order up to the first that holds, and then its body. -/
def evalBranches (scope : ScopeRef) (otherwise : Node) : List (Node × Node) → Raise Value
  | [] => evalOptional eval otherwise scope
  | (condition, body) :: rest => do
    match ← eval condition scope with
    | .bool holds =>
      note (.condition holds)
      if holds then eval body scope else evalBranches scope otherwise rest
    | v => fail (.condition v.kind)

/-- Evaluates the patterns in order up to the first that equals the subject, and then its body. -/
def evalArms (scope : ScopeRef) (subject : Value) (otherwise : Node) :
    List (Node × Node) → Raise Value
  | [] => evalOptional eval otherwise scope
  | (pattern, body) :: rest => do
    let v ← eval pattern scope
    if subject.equal v then eval body scope else evalArms scope subject otherwise rest

/-- Evaluates the body of a counted loop in a scope of its own, for the `i`-th time. -/
def countIteration (counter : Option String) (body : Node) (scope : ScopeRef) (total i : Nat) :
    Raise Value := do
  let inner ← newScope scope
  if let some name := counter then
    define inner name (.num (← ofPartial (doubleOf i))) false
  note (.iteration i total)
  eval body inner

/-- Evaluates a counted loop. -/
def evalCountLoop (counter : Option String) (count body : Node) (scope : ScopeRef) :
    Raise Value := do
  let total ← (ofExcept (loopCount (← eval count scope)) : Eval Nat)
  let results ← (List.range' 1 total).mapM (countIteration eval counter body scope total)
  newArray results.toArray

/-- Evaluates the body of a loop over an array in a scope of its own, for an element. -/
def eachIteration (item : String) (body : Node) (scope : ScopeRef) (v : Value) :
    Raise Value := do
  let inner ← newScope scope
  define inner item v false
  eval body inner

/-- Evaluates a loop over the elements that an array has when the loop starts. -/
def evalEachLoop (item : String) (collection body : Node) (scope : ScopeRef) : Raise Value := do
  match ← eval collection scope with
  | .arr r =>
    let results ← (← items r).toList.mapM (eachIteration eval item body scope)
    newArray results.toArray
  | v => fail (.eachCollection v.kind)

/-- Evaluates a binary operator; a logical one looks at its right operand only if the left one does
not decide. -/
def evalBinary (op : String) (left right : Node) (scope : ScopeRef) : Raise Value := do
  let a ← eval left scope
  if isLogicalOp op then
    match a with
    | .bool holds =>
      if (op == "&") != holds then return .bool holds
      else
        match ← eval right scope with
        | .bool b => return .bool b
        | v => fail (.logicalOperand op v.kind)
    | v => fail (.logicalOperand op v.kind)
  else
    let b ← eval right scope
    (ofExcept (applyOperator op a b) : Eval Value)

/-- Calls a function written in a script; a return in its body is caught. -/
def callClosure (params : List String) (body : Node) (scope : ScopeRef) (name : Option String)
    (args : List Value) : Eval Value := do
  let inner ← newScope scope
  bindParams inner params args
  note (.calledClosure name args)
  match body with
  | .block statements => (evalBlock eval statements inner).catching pure
  | _ => malformed .bodyNotABlock

/-- Calls a value with arguments. -/
def callValue (f : Value) (args : List Value) : Eval Value :=
  match f with
  | .fn r => do
    match ← function? r with
    | some (.closure params body scope name) => callClosure eval params body scope name args
    | some (.native native) => callNative call native args
    | none => fail (.notCallable .fn)
  | v => fail (.notCallable v.kind)

/-- The meaning of a tree in a scope, given the meaning of its parts. -/
def evalNode (node : Node) (scope : ScopeRef) : Raise Value :=
  match node with
  | .absent => (malformed .absentTree : Eval Value)
  | .program _ => (malformed .nestedProgram : Eval Value)
  | .literal v kind =>
    match literalValue v kind with
    | .ok v => return v
    | .error e => (malformed e : Eval Value)
  | .ident name => lookup scope name
  | .spaceMember space name => lookupMember scope space name
  | .array elements => do newArray (← elements.mapM (eval · scope)).toArray
  | .object entries => do newObject (← entries.foldlM (evalEntry eval scope) .empty)
  | .template parts => return .str (← parts.foldlM (evalPart eval scope) "")
  | .varDecl name n isMutable => do
    let v ← eval n scope
    define scope name v isMutable
    note (.declaredVariable isMutable name v)
    return .null
  | .assign name n => do
    assign scope name (← eval n scope)
    return .null
  | .output n => do
    emit (← eval n scope)
    return .null
  | .ret n => do raise (← eval n scope)
  | .member target name => do memberValue (← eval target scope) name
  | .index target position => do indexValue (← eval target scope) (← eval position scope)
  | .call callee args => do
    let f ← eval callee scope
    call f (← args.mapM (eval · scope))
  | .block statements => do evalBlock eval statements (← newScope scope)
  | .functionExpr name params body => makeFunction name params body scope
  | .functionDecl name params body => do
    unless ← declares scope name do
      declareFunction name params body scope
    return .null
  | .spaceDecl name members => do
    unless ← declaresSpace scope name do
      initSpace eval name (← declareSpace name members scope) members
    return .null
  | .conditional branches otherwise => evalBranches eval scope otherwise branches
  | .selection subject arms otherwise => do
    evalArms eval scope (← eval subject scope) otherwise arms
  | .countLoop counter count body => evalCountLoop eval counter count body scope
  | .eachLoop item collection body => evalEachLoop eval item collection body scope
  | .binary op left right => evalBinary eval op left right scope

end Constructs

mutual

/-- Evaluates a tree in a scope, nesting evaluations at most so deep. -/
def evalWithin : Nat → Evaluator
  | 0 => fun _ _ => throw (.stop .outOfFuel)
  | fuel + 1 => fun node scope => evalNode (evalWithin fuel) (callWithin fuel) node scope

/-- Calls a value with arguments, nesting evaluations at most so deep. -/
def callWithin : Nat → Caller
  | 0 => fun _ _ => throw .outOfFuel
  | fuel + 1 => fun f args => callValue (evalWithin fuel) (callWithin fuel) f args

end

/-- Runs the statements of a program in a scope and gives its final value; a return outside of all
functions is caught. -/
def runStatements (fuel : Nat) (statements : List Node) (scope : ScopeRef) : Eval Value := do
  let v ← (evalBlock (evalWithin fuel) statements scope).catching fun v => do
    note .topLevelReturn
    return v
  note (.runFinished v)
  return v

/-- Runs a program in a scope. -/
def runProgram (fuel : Nat) (program : Node) (scope : ScopeRef) : Eval Value := do
  changeLog Log.openFile
  match program with
  | .program body =>
    note (.runStarted body.length)
    closingFile (runStatements fuel body scope)
  | n => malformed (if n.hasBody then .bodyNotAList else .notAProgram)

end Raising

end Sigil
