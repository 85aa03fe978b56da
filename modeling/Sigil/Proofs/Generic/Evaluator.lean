import Sigil.Proofs.Host

/-!
# Evaluation over any operations

The evaluator once more, over any monad with the few operations that it needs (`Operations`): to
make the scope of a block, of a call or of an iteration, to read a variable, to declare a variable
as the script says, to run a function of the standard library, and to do anything else with the
world. Who makes a scope is told which names the code it is for declares in it (`Node.names`). What
a host asks for is put together from the same operations (`Operations.perform`).

With the operations on the world itself (`Operations.world`) this is the evaluator
(`Operations.within_world`). Other operations give other meanings of programs, which then differ
from the evaluator in these operations and in nothing else.
-/

namespace Sigil

/-! ### The names that code declares -/

namespace Node

mutual

/-- The names of the variables and functions that evaluating a tree may declare in the very scope it
is evaluated in. -/
@[simp]
def names : Node → List String
  | .varDecl name value _ => name :: value.names
  | .functionDecl name _ _ => [name]
  | .array elements => namesAll elements
  | .object entries => namesEntries entries
  | .template parts => namesParts parts
  | .assign _ value => value.names
  | .ret value => value.names
  | .output value => value.names
  | .member target _ => target.names
  | .index target position => target.names ++ position.names
  | .call callee args => callee.names ++ namesAll args
  | .conditional branches otherwise => namesPairs branches ++ otherwise.names
  | .selection subject arms otherwise => subject.names ++ (namesPairs arms ++ otherwise.names)
  | .countLoop _ count _ => count.names
  | .eachLoop _ collection _ => collection.names
  | .binary _ left right => left.names ++ right.names
  | _ => []

/-- The names that trees declare. -/
@[simp]
def namesAll : List Node → List String
  | [] => []
  | n :: rest => n.names ++ namesAll rest

/-- The names that the entries of an object literal declare. -/
@[simp]
def namesEntries : List (String × Node) → List String
  | [] => []
  | (_, n) :: rest => n.names ++ namesEntries rest

/-- The names that the parts of a template declare. -/
@[simp]
def namesParts : List (String ⊕ Node) → List String
  | [] => []
  | .inl _ :: rest => namesParts rest
  | .inr n :: rest => n.names ++ namesParts rest

/-- The names that pairs of trees declare. -/
@[simp]
def namesPairs : List (Node × Node) → List String
  | [] => []
  | (a, b) :: rest => a.names ++ (b.names ++ namesPairs rest)

end

/-- The names that the body of a function declares in the scope of a call. -/
def bodyNames : Node → List String
  | .block statements => namesAll statements
  | _ => []

end Node

open Node

/-! ### Operations -/

/-- Whether a function of the standard library takes a function and calls it. -/
def Native.takesFunction : Native → Bool
  | .arrMap | .arrFilter | .arrReduce => true
  | _ => false

/-- A loop variable and its value. -/
abbrev LoopItem :=
  String × Except Fault Value

/-- **The operations that evaluation is put together from**, over a monad. -/
structure Operations (m : Type → Type) where
  /-- What is done with the world otherwise. -/
  lift {α : Type} (x : Eval α) : m α
  /-- A new scope inside another, for code that declares these names in it. -/
  newScope (names : List String) (parent : ScopeRef) : m ScopeRef
  /-- A new scope for an iteration of a loop, with the loop variable and its value if there is
  one. -/
  newIteration (body : Node) (item : Option LoopItem) (parent : ScopeRef) : m ScopeRef
  /-- The value of a variable. -/
  lookup (scope : ScopeRef) (name : String) : m Value
  /-- A variable is declared, mutable or not as the script says. -/
  declare (scope : ScopeRef) (name : String) (value : Value) (isMutable : Bool) : m Unit
  /-- A function of the standard library is run, one that takes no function. -/
  native (f : Native) (args : List Value) : m Value

/-- The operations on the world itself. -/
def Operations.world : Operations Eval where
  lift x := x
  newScope _ parent := Eval.newScope parent
  newIteration _ item parent := do
    let inner ← Eval.newScope parent
    if let some (name, value) := item then
      Eval.define inner name (← Eval.ofPartial value) false
    return inner
  lookup := Eval.lookup
  declare := Eval.define
  native f args := f.run (fun _ _ => throw .outOfFuel) args

namespace Operations

variable {m : Type → Type} [Monad m] (ops : Operations m) {α β : Type}

/-- Goes on with what an evaluation came to, unless it is a signal, which is handed on. -/
def onValue (x : m (Flow α)) (k : α → m (Flow β)) : m (Flow β) := do
  match ← x with
  | .value a => k a
  | .signal v => return .signal v

/-- The result that is just a value. -/
def value (v : Value) : m Result :=
  pure (.value v)

/-- Stops. -/
def stop (reason : Stop) : m α :=
  ops.lift (throw reason)

/-- Stops with a mistake of the script. -/
def fail (error : ScriptError) : m α :=
  ops.stop (.script error)

/-- Stops with a fault of the tree. -/
def malformed (error : TreeError) : m α :=
  ops.stop (.tree error)

/-- The result of an operation that has one. -/
def ofExcept (x : Except Stop α) : m α :=
  match x with
  | .ok a => pure a
  | .error reason => ops.stop reason

section Constructs

variable (eval : Node → ScopeRef → m Result) (call : Value → List Value → m Value)

/-! ### Declarations -/

/-- Declares a function. -/
def declareFunction (name : String) (params : List String) (body : Node) (scope : ScopeRef) :
    m Unit := do
  let f ← ops.lift (Eval.newFunction (.closure params body scope (some name)))
  ops.lift (Eval.define scope name f false)
  ops.lift (Eval.note (.declaredFunction name))

/-- Declares the functions among the members of a namespace. -/
def declareMembers (scope : ScopeRef) : List Node → m Unit
  | [] => pure ()
  | .functionDecl name params body :: members => do
    ops.declareFunction name params body scope
    declareMembers scope members
  | _ :: members => declareMembers scope members

/-- Declares a namespace with its functions. -/
def declareSpace (name : String) (members : List Node) (scope : ScopeRef) : m ScopeRef := do
  let inner ← ops.newScope (namesAll members) scope
  ops.declareMembers inner members
  ops.lift (Eval.defineSpace scope name inner)
  ops.lift (Eval.note (.declaredSpace name))
  return inner

/-- Gives the constants of a namespace their values, in order. -/
def initSpace (name : String) (inner : ScopeRef) : List Node → m Unit
  | [] => pure ()
  | .varDecl constant value isMutable :: members => do
    let v := (← eval value inner).result
    ops.declare inner constant v isMutable
    ops.lift (Eval.note (.declaredMember name constant v))
    initSpace name inner members
  | _ :: members => initSpace name inner members

/-- Declares the functions and namespaces among statements, in order. -/
def declareAll (scope : ScopeRef) : List Node → m (List OpenSpace)
  | [] => return []
  | .functionDecl name params body :: rest => do
    ops.declareFunction name params body scope
    declareAll scope rest
  | .spaceDecl name members :: rest => do
    let inner ← ops.declareSpace name members scope
    return ⟨name, members, inner⟩ :: (← declareAll scope rest)
  | _ :: rest => declareAll scope rest

/-- Declares the functions and namespaces among statements before any statement is evaluated. -/
def hoist (statements : List Node) (scope : ScopeRef) : m Unit := do
  let spaces ← ops.declareAll scope statements
  spaces.forM fun space => ops.initSpace eval space.name space.scope space.members

/-! ### Sequences -/

/-- Evaluates statements in order; the result is that of the last one. -/
def evalStatements (scope : ScopeRef) : Value → List Node → m Result
  | last, [] => value last
  | _, statement :: rest => onValue (eval statement scope) fun v => evalStatements scope v rest

/-- Evaluates a block in its scope. -/
def evalBlock (statements : List Node) (scope : ScopeRef) : m Result := do
  ops.hoist eval statements scope
  evalStatements eval scope .null statements

/-- Evaluates trees from left to right. -/
def evalAll (scope : ScopeRef) : List Node → m (Flow (List Value))
  | [] => return .value []
  | n :: ns =>
    onValue (eval n scope) fun v =>
    onValue (evalAll scope ns) fun vs => return .value (v :: vs)

/-- Evaluates the entries of an object literal in order and puts them into a table. -/
def evalEntries (scope : ScopeRef) : Table Value → List (String × Node) → m (Flow (Table Value))
  | done, [] => return .value done
  | done, (key, n) :: rest =>
    onValue (eval n scope) fun v => evalEntries scope (done.insert key v) rest

/-- Evaluates the parts of a template in order and appends their texts. -/
def evalParts (scope : ScopeRef) : String → List (String ⊕ Node) → m (Flow String)
  | done, [] => return .value done
  | done, .inl s :: rest => evalParts scope (done ++ s) rest
  | done, .inr n :: rest =>
    onValue (eval n scope) fun v => do
      evalParts scope (done ++ (← ops.lift (Eval.text v))) rest

/-! ### Choices -/

/-- Evaluates a tree that may be absent, which gives null. -/
def evalOptional (n : Node) (scope : ScopeRef) : m Result :=
  match n with
  | .absent => value .null
  | n => eval n scope

/-- Evaluates the conditions in order up to the first that holds, and then its body. -/
def evalBranches (scope : ScopeRef) (otherwise : Node) : List (Node × Node) → m Result
  | [] => evalOptional eval otherwise scope
  | (condition, body) :: rest =>
    onValue (eval condition scope) fun
      | .bool holds => do
        ops.lift (Eval.note (.condition holds))
        if holds then eval body scope else evalBranches scope otherwise rest
      | v => ops.fail (.condition v.kind)

/-- Evaluates the patterns in order up to the first that equals the subject, and then its body. -/
def evalArms (scope : ScopeRef) (subject : Value) (otherwise : Node) :
    List (Node × Node) → m Result
  | [] => evalOptional eval otherwise scope
  | (pattern, body) :: rest =>
    onValue (eval pattern scope) fun v =>
      if subject.equal v then eval body scope else evalArms scope subject otherwise rest

/-! ### Loops -/

/-- Runs a body for the counter values `next`, `next + 1` and so on, so many times, and collects the
values in a new array. -/
def repeatBody (body : Nat → m Result) : Nat → Nat → Array Value → m Result
  | 0, _, done => do value (← ops.lift (Eval.newArray done))
  | remaining + 1, next, done =>
    onValue (body next) fun v => repeatBody body remaining (next + 1) (done.push v)

/-- Runs a body for each element and collects the values in a new array. -/
def eachBody (body : Value → m Result) : List Value → Array Value → m Result
  | [], done => do value (← ops.lift (Eval.newArray done))
  | item :: rest, done => onValue (body item) fun v => eachBody body rest (done.push v)

/-- One iteration of a counted loop. -/
def countRound (counter : Option String) (body : Node) (scope : ScopeRef) (total i : Nat) :
    m Result := do
  let item := counter.map fun name => (name, (doubleOf i).map Value.num)
  let inner ← ops.newIteration body item scope
  ops.lift (Eval.note (.iteration i total))
  eval body inner

/-- One iteration of a loop over an array. -/
def eachRound (item : String) (body : Node) (scope : ScopeRef) (v : Value) : m Result := do
  eval body (← ops.newIteration body (some (item, .ok v)) scope)

/-- Evaluates a counted loop. -/
def evalCountLoop (counter : Option String) (count body : Node) (scope : ScopeRef) : m Result :=
  onValue (eval count scope) fun v => do
    let total ← ops.ofExcept (loopCount v)
    ops.repeatBody (ops.countRound eval counter body scope total) total 1 #[]

/-- Evaluates a loop over the elements that an array has when the loop starts. -/
def evalEachLoop (item : String) (collection body : Node) (scope : ScopeRef) : m Result :=
  onValue (eval collection scope) fun
    | .arr r => do
      ops.eachBody (ops.eachRound eval item body scope) (← ops.lift (Eval.items r)).toList #[]
    | v => ops.fail (.eachCollection v.kind)

/-! ### Operands -/

/-- Evaluates a logical operator: the right operand only if the left one does not decide. -/
def evalLogical (op : String) (left right : Node) (scope : ScopeRef) : m Result :=
  onValue (eval left scope) fun
    | .bool a =>
      if (op == "&") != a then value (.bool a)
      else
        onValue (eval right scope) fun
          | .bool b => value (.bool b)
          | v => ops.fail (.logicalOperand op v.kind)
    | v => ops.fail (.logicalOperand op v.kind)

/-- Evaluates a binary operator. -/
def evalBinary (op : String) (left right : Node) (scope : ScopeRef) : m Result :=
  if isLogicalOp op then ops.evalLogical eval op left right scope
  else
    onValue (eval left scope) fun a =>
    onValue (eval right scope) fun b => do
      value (← ops.ofExcept (applyOperator op a b))

/-- Makes the function of a function expression. -/
def makeFunction (name : Option String) (params : List String) (body : Node) (scope : ScopeRef) :
    m Value :=
  match name with
  | none => ops.lift (Eval.newFunction (.closure params body scope none))
  | some name => do
    let inner ← ops.newScope [name] scope
    let f ← ops.lift (Eval.newFunction (.closure params body inner (some name)))
    ops.lift (Eval.define inner name f false)
    return f

/-! ### The standard library -/

/-- An argument that has to be an array. -/
def arrayArg (f : Native) (args : List Value) (i : Nat) : m ArrayRef :=
  match Native.arg args i with
  | .arr r => pure r
  | v => ops.fail (.argument f .arr (i + 1) v.kind)

/-- An argument that has to be a function. -/
def functionArg (f : Native) (args : List Value) (i : Nat) : m Value :=
  match Native.arg args i with
  | .fn r => pure (.fn r)
  | v => ops.fail (.argument f .fn (i + 1) v.kind)

/-- Whether an element passes the test of a function. -/
def passes (test item : Value) : m Bool := do
  match ← call test [item] with
  | .bool b => pure b
  | v => ops.fail (.filterResult v.kind)

/-- What a function of the standard library does with its arguments. Those that take no functions
call none. -/
def run (f : Native) (args : List Value) : m Value :=
  match f with
  | .arrMap => do
    let r ← ops.arrayArg f args 0
    let g ← ops.functionArg f args 1
    let results ← (← ops.lift (Eval.items r)).toList.mapM fun item => call g [item]
    ops.lift (Eval.newArray results.toArray)
  | .arrFilter => do
    let r ← ops.arrayArg f args 0
    let g ← ops.functionArg f args 1
    let kept ← (← ops.lift (Eval.items r)).toList.filterM (ops.passes call g)
    ops.lift (Eval.newArray kept.toArray)
  | .arrReduce => do
    let r ← ops.arrayArg f args 0
    let g ← ops.functionArg f args 1
    let snapshot := (← ops.lift (Eval.items r)).toList
    match args[2]?, snapshot with
    | some start, _ => snapshot.foldlM (fun acc item => call g [acc, item]) start
    | none, [] => ops.fail .emptyReduce
    | none, first :: rest => rest.foldlM (fun acc item => call g [acc, item]) first
  | f => ops.native f args

/-! ### Calls -/

/-- Declares the parameters of a function in the scope of a call. -/
def bindParams (scope : ScopeRef) : List String → List Value → m Unit
  | [], _ => pure ()
  | param :: params, args => do
    ops.lift (Eval.define scope param (args.headD .null) false)
    bindParams scope params args.tail

/-- Calls a function written in a script. -/
def callClosure (params : List String) (body : Node) (scope : ScopeRef) (name : Option String)
    (args : List Value) : m Value := do
  let inner ← ops.newScope (params ++ body.bodyNames) scope
  ops.bindParams inner params args
  ops.lift (Eval.note (.calledClosure name args))
  match body with
  | .block statements => return (← ops.evalBlock eval statements inner).result
  | _ => ops.malformed .bodyNotABlock

/-- Calls a function of the standard library. -/
def callNative (f : Native) (args : List Value) : m Value := do
  ops.lift (Eval.note (.calledNative f))
  ops.run call f (f.arity.elim args (adjustArgs · args))

/-- Calls a value with arguments. -/
def callValue (f : Value) (args : List Value) : m Value :=
  match f with
  | .fn r => do
    match ← ops.lift (Eval.function? r) with
    | some (.closure params body scope name) => ops.callClosure eval params body scope name args
    | some (.native native) => ops.callNative call native args
    | none => ops.fail (.notCallable .fn)
  | v => ops.fail (.notCallable v.kind)

/-! ### Trees -/

/-- The meaning of a tree in a scope, given the meaning of its parts. -/
def evalNode (node : Node) (scope : ScopeRef) : m Result :=
  match node with
  | .absent => ops.malformed .absentTree
  | .program _ => ops.malformed .nestedProgram
  | .literal v kind =>
    match literalValue v kind with
    | .ok v => value v
    | .error e => ops.malformed e
  | .ident name => do value (← ops.lookup scope name)
  | .spaceMember space name => do value (← ops.lift (Eval.lookupMember scope space name))
  | .array elements =>
    onValue (evalAll eval scope elements) fun vs => do
      value (← ops.lift (Eval.newArray vs.toArray))
  | .object entries =>
    onValue (evalEntries eval scope .empty entries) fun table => do
      value (← ops.lift (Eval.newObject table))
  | .template parts => onValue (ops.evalParts eval scope "" parts) fun s => value (.str s)
  | .varDecl name n isMutable =>
    onValue (eval n scope) fun v => do
      ops.declare scope name v isMutable
      ops.lift (Eval.note (.declaredVariable isMutable name v))
      value .null
  | .assign name n =>
    onValue (eval n scope) fun v => do
      ops.lift (Eval.assign scope name v)
      value .null
  | .output n =>
    onValue (eval n scope) fun v => do
      ops.lift (Eval.emit v)
      value .null
  | .ret n => onValue (eval n scope) fun v => return .signal v
  | .member target name =>
    onValue (eval target scope) fun v => do value (← ops.lift (memberValue v name))
  | .index target position =>
    onValue (eval target scope) fun v =>
    onValue (eval position scope) fun i => do
      value (← ops.lift (indexValue v i))
  | .call callee args =>
    onValue (eval callee scope) fun f =>
    onValue (evalAll eval scope args) fun vs => do
      value (← call f vs)
  | .block statements => do
    ops.evalBlock eval statements (← ops.newScope (namesAll statements) scope)
  | .functionExpr name params body => do value (← ops.makeFunction name params body scope)
  | .functionDecl name params body => do
    unless ← ops.lift (Eval.declares scope name) do
      ops.declareFunction name params body scope
    value .null
  | .spaceDecl name members => do
    unless ← ops.lift (Eval.declaresSpace scope name) do
      let inner ← ops.declareSpace name members scope
      ops.initSpace eval name inner members
    value .null
  | .conditional branches otherwise => ops.evalBranches eval scope otherwise branches
  | .selection subject arms otherwise =>
    onValue (eval subject scope) fun v => evalArms eval scope v otherwise arms
  | .countLoop counter count body => ops.evalCountLoop eval counter count body scope
  | .eachLoop item collection body => ops.evalEachLoop eval item collection body scope
  | .binary op left right => ops.evalBinary eval op left right scope

end Constructs

mutual

/-- Evaluates a tree in a scope, nesting evaluations at most so deep. -/
def evalWithin : Nat → Node → ScopeRef → m Result
  | 0 => fun _ _ => ops.stop .outOfFuel
  | fuel + 1 => fun node scope => ops.evalNode (evalWithin fuel) (callWithin fuel) node scope

/-- Calls a value with arguments, nesting evaluations at most so deep. -/
def callWithin : Nat → Value → List Value → m Value
  | 0 => fun _ _ => ops.stop .outOfFuel
  | fuel + 1 => fun f args => ops.callValue (evalWithin fuel) (callWithin fuel) f args

end

/-! ### Programs and requests -/

section Programs

variable (closing : m Value → m Value) (fuel : Nat)

/-- Runs the statements of a program in a scope and gives its final value. -/
def runStatements (statements : List Node) (scope : ScopeRef) : m Value := do
  match ← ops.evalBlock (ops.evalWithin fuel) statements scope with
  | .value v =>
    ops.lift (Eval.note (.runFinished v))
    return v
  | .signal v =>
    ops.lift (Eval.note .topLevelReturn)
    ops.lift (Eval.note (.runFinished v))
    return v

/-- Runs a program in a scope, given how a computation is followed by closing the trace file. -/
def runProgram (program : Node) (scope : ScopeRef) : m Value := do
  ops.lift (Eval.changeLog Log.openFile)
  match program with
  | .program body =>
    ops.lift (Eval.note (.runStarted body.length))
    closing (ops.runStatements fuel body scope)
  | n => ops.malformed (if n.hasBody then .bodyNotAList else .notAProgram)

/-- Performs a request of a host, given how a computation is followed by closing the trace file. -/
def perform : Request → m Answer
  | .run tree scope => return .result (.value (← ops.runProgram closing fuel tree scope))
  | .evaluate n scope => return .result (← ops.evalWithin fuel n scope)
  | .call f args => return .result (.value (← ops.callWithin fuel f args))
  | .plain data => return .result (.value (← ops.lift (plainValue data)))
  | .newScope parent => return .scope (← ops.newScope [] parent)
  | .lookup scope name => return .result (.value (← ops.lookup scope name))
  | .lookupMember scope space name =>
    return .result (.value (← ops.lift (Eval.lookupMember scope space name)))
  | .define scope name value isMutable => do
    ops.declare scope name value isMutable
    return .done
  | .defineSpace scope name space => do
    ops.lift (Eval.defineSpace scope name space)
    return .done
  | .assign scope name value => do
    ops.lift (Eval.assign scope name value)
    return .done

end Programs

/-! ### The evaluator itself -/

section World

variable (eval : Evaluator) (call : Caller) (scope : ScopeRef)

private theorem world_declareMembers (members : List Node) :
    world.declareMembers scope members = Sigil.declareMembers scope members := by
  fun_induction Sigil.declareMembers scope members with
  | case1 => rfl
  | case2 name params body members ih => exact congrArg _ (funext fun _ => ih)
  | case3 member members hmember ih =>
    cases member with
    | functionDecl name params body => exact absurd rfl (hmember name params body)
    | _ => exact ih

private theorem world_declareSpace (name : String) (members : List Node) :
    world.declareSpace name members scope = Sigil.declareSpace name members scope := by
  simp only [declareSpace, world_declareMembers]
  rfl

private theorem world_initSpace (name : String) (members : List Node) :
    world.initSpace eval name scope members = Sigil.initSpace eval name scope members := by
  fun_induction Sigil.initSpace eval name scope members with
  | case1 => rfl
  | case2 constant value isMutable members ih =>
    simp only [initSpace, ih]
    rfl
  | case3 member members hmember ih =>
    cases member with
    | varDecl constant value isMutable => exact absurd rfl (hmember constant value isMutable)
    | _ => exact ih

private theorem world_declareAll (statements : List Node) :
    world.declareAll scope statements = Sigil.declareAll scope statements := by
  fun_induction Sigil.declareAll scope statements with
  | case1 => rfl
  | case2 name params body rest ih => exact congrArg _ (funext fun _ => ih)
  | case3 name members rest ih =>
    simp only [declareAll, ih, world_declareSpace]
  | case4 statement rest hfunction hspace ih =>
    cases statement with
    | functionDecl name params body => exact absurd rfl (hfunction name params body)
    | spaceDecl name members => exact absurd rfl (hspace name members)
    | _ => exact ih

private theorem world_hoist (statements : List Node) :
    world.hoist eval statements scope = Sigil.hoist eval statements scope := by
  simp only [hoist, Sigil.hoist, world_declareAll, world_initSpace]

private theorem world_evalStatements (last : Value) (statements : List Node) :
    evalStatements eval scope last statements =
      Sigil.evalStatements eval scope last statements := by
  induction statements generalizing last with
  | nil => rfl
  | cons statement rest ih =>
    simp only [evalStatements, ih]
    rfl

theorem world_evalBlock (statements : List Node) :
    world.evalBlock eval statements scope = Sigil.evalBlock eval statements scope := by
  simp only [evalBlock, Sigil.evalBlock, world_hoist, world_evalStatements]

private theorem world_evalAll (nodes : List Node) :
    evalAll eval scope nodes = Sigil.evalAll eval scope nodes := by
  induction nodes with
  | nil => rfl
  | cons n rest ih =>
    simp only [evalAll, ih]
    rfl

private theorem world_evalEntries (done : Table Value) (entries : List (String × Node)) :
    evalEntries eval scope done entries = Sigil.evalEntries eval scope done entries := by
  induction entries generalizing done with
  | nil => rfl
  | cons entry rest ih =>
    simp only [evalEntries, ih]
    rfl

private theorem world_evalParts (done : String) (parts : List (String ⊕ Node)) :
    world.evalParts eval scope done parts = Sigil.evalParts eval scope done parts := by
  induction parts generalizing done with
  | nil => rfl
  | cons part rest ih =>
    cases part with
    | inl s => exact ih (done ++ s)
    | inr n =>
      simp only [evalParts, ih]
      rfl

private theorem world_evalBranches (otherwise : Node) (branches : List (Node × Node)) :
    world.evalBranches eval scope otherwise branches =
      Sigil.evalBranches eval scope otherwise branches := by
  induction branches with
  | nil => rfl
  | cons branch rest ih =>
    simp only [evalBranches, ih]
    rfl

private theorem world_evalArms (subject : Value) (otherwise : Node) (arms : List (Node × Node)) :
    evalArms eval scope subject otherwise arms =
      Sigil.evalArms eval scope subject otherwise arms := by
  induction arms with
  | nil => rfl
  | cons arm rest ih =>
    simp only [evalArms, ih]
    rfl

private theorem world_repeatBody (body : Nat → Eval Result) (remaining next : Nat)
    (done : Array Value) :
    world.repeatBody body remaining next done = Sigil.repeatBody body remaining next done := by
  induction remaining generalizing next done with
  | zero => rfl
  | succ remaining ih =>
    simp only [repeatBody, ih]
    rfl

private theorem world_eachBody (body : Value → Eval Result) (items : List Value)
    (done : Array Value) :
    world.eachBody body items done = Sigil.eachBody body items done := by
  induction items generalizing done with
  | nil => rfl
  | cons item rest ih =>
    simp only [eachBody, ih]
    rfl

private theorem world_ofExcept {α : Type} (x : Except Stop α) :
    world.ofExcept x = (MonadExcept.ofExcept x : Eval α) := by
  cases x <;> rfl

/-- The iterations of a counted loop. -/
private theorem world_countRound (counter : Option String) (body : Node) (total : Nat) :
    world.countRound eval counter body scope total = fun i => (do
      let inner ← Eval.newScope scope
      if let some name := counter then
        Eval.define inner name (.num (← Eval.ofPartial (doubleOf i))) false
      Eval.note (.iteration i total)
      eval body inner) := by
  funext i
  cases counter with
  | none => rfl
  | some name =>
    simp only [countRound, world, Option.map_some]
    cases doubleOf i <;> rfl

private theorem world_evalCountLoop (counter : Option String) (count body : Node) :
    world.evalCountLoop eval counter count body scope =
      Sigil.evalCountLoop eval counter count body scope := by
  simp only [evalCountLoop, Sigil.evalCountLoop, world_ofExcept, world_repeatBody, world_countRound]
  rfl

private theorem world_evalEachLoop (item : String) (collection body : Node) :
    world.evalEachLoop eval item collection body scope =
      Sigil.evalEachLoop eval item collection body scope := by
  simp only [evalEachLoop, Sigil.evalEachLoop, world_eachBody]
  rfl

private theorem world_evalBinary (op : String) (left right : Node) :
    world.evalBinary eval op left right scope = Sigil.evalBinary eval op left right scope := by
  simp only [evalBinary, Sigil.evalBinary, world_ofExcept]
  rfl

private theorem world_makeFunction (name : Option String) (params : List String) (body : Node) :
    world.makeFunction name params body scope = Sigil.makeFunction name params body scope := by
  cases name <;> rfl

private theorem world_bindParams (params : List String) (args : List Value) :
    world.bindParams scope params args = Sigil.bindParams scope params args := by
  induction params generalizing args with
  | nil => rfl
  | cons param params ih =>
    simp only [bindParams, ih]
    rfl

private theorem world_arrayArg (f : Native) (args : List Value) (i : Nat) :
    world.arrayArg f args i = Native.arrayArg f args i := by
  simp only [arrayArg, Native.arrayArg, Native.wrongArg]
  cases Native.arg args i <;> rfl

private theorem world_functionArg (f : Native) (args : List Value) (i : Nat) :
    world.functionArg f args i = Native.functionArg f args i := by
  simp only [functionArg, Native.functionArg, Native.wrongArg]
  cases Native.arg args i <;> rfl

private theorem world_run (f : Native) (args : List Value) :
    world.run call f args = f.run call args := by
  cases f with
  | arrMap | arrFilter | arrReduce =>
    simp only [run, Native.run, world_arrayArg, world_functionArg]
    rfl
  | _ => rfl

private theorem world_callValue (f : Value) (args : List Value) :
    world.callValue eval call f args = Sigil.callValue eval call f args := by
  cases f with
  | fn r =>
    simp only [callValue, callClosure, callNative, world_bindParams, world_evalBlock, world_run]
    rfl
  | _ => rfl

private theorem world_evalNode (node : Node) :
    world.evalNode eval call node scope = Sigil.evalNode eval call node scope := by
  cases node with
  | array | object | call => simp only [evalNode, world_evalAll, world_evalEntries]; rfl
  | template => simp only [evalNode, world_evalParts]; rfl
  | block => simp only [evalNode, world_evalBlock]; rfl
  | functionExpr => simp only [evalNode, world_makeFunction]; rfl
  | spaceDecl => simp only [evalNode, world_declareSpace, world_initSpace]; rfl
  | conditional => simp only [evalNode, world_evalBranches]; rfl
  | selection => simp only [evalNode, world_evalArms]; rfl
  | countLoop => simp only [evalNode, world_evalCountLoop]; rfl
  | eachLoop => simp only [evalNode, world_evalEachLoop]; rfl
  | binary => simp only [evalNode, world_evalBinary]; rfl
  | _ => rfl

end World

/-- **With the operations on the world this is the evaluator.** -/
theorem within_world (fuel : Nat) :
    world.evalWithin fuel = Sigil.evalWithin fuel ∧
      world.callWithin fuel = Sigil.callWithin fuel := by
  induction fuel with
  | zero => exact ⟨rfl, rfl⟩
  | succ fuel ih =>
    constructor
    · funext node scope
      simp only [evalWithin, ih.1, ih.2, world_evalNode, Sigil.evalWithin]
    · funext f args
      simp only [callWithin, ih.1, ih.2, world_callValue, Sigil.callWithin]

end Operations

end Sigil
