import Sigil.Eval.Native
import Sigil.Eval.Operator

/-!
# The meaning of trees

Evaluating a tree gives a value or a signal. A signal is a value on its way out of the innermost
function: every construct hands a signal of one of its parts straight on, and a call turns it into
its own result. Errors, on the other hand, stop the evaluation.

Each construct has its meaning in terms of `eval` and `call`, which stand for evaluating parts and
calling functions; `evalWithin` and `callWithin` tie the knot. The nesting of evaluations is bounded
by a number, and an evaluation that would nest deeper stops with `Stop.outOfFuel`. Loops do not use
up any of it.
-/

namespace Sigil

/-- What an evaluation comes to: something, or a signal that passes it by. -/
inductive Flow (α : Type) where
  /-- The evaluation came to its end. -/
  | value (a : α)
  /-- A return is on its way to the innermost call with this value. -/
  | signal (v : Value)

/-- What the evaluation of a tree comes to. -/
abbrev Result := Flow Value

namespace Flow

/-- The value that arrives at a call, whether by the end of the body or by a return. -/
def result : Result → Value
  | .value v | .signal v => v

end Flow

/-- Goes on with what an evaluation came to, unless it is a signal, which is handed on. -/
@[inline]
def Eval.onValue {α β : Type} (x : Eval (Flow α)) (k : α → Eval (Flow β)) : Eval (Flow β) := do
  match ← x with
  | .value a => k a
  | .signal v => return .signal v

/-- The result that is just a value. -/
@[inline]
def Eval.value (v : Value) : Eval Result :=
  pure (.value v)

open Eval

/-- Evaluates a tree in a scope. -/
abbrev Evaluator := Node → ScopeRef → Eval Result

section Constructs

variable (eval : Evaluator) (call : Caller)

/-! ### Declarations -/

/-- Declares a function: its scope is the one it is declared in. -/
def declareFunction (name : String) (params : List String) (body : Node) (scope : ScopeRef) :
    Eval Unit := do
  let f ← newFunction (.closure params body scope (some name))
  define scope name f false
  note (.declaredFunction name)

/-- Declares the functions among the members of a namespace. -/
def declareMembers (scope : ScopeRef) : List Node → Eval Unit
  | [] => pure ()
  | .functionDecl name params body :: members => do
    declareFunction name params body scope
    declareMembers scope members
  | _ :: members => declareMembers scope members

/-- Declares a namespace with its functions; the constants have no values yet. -/
def declareSpace (name : String) (members : List Node) (scope : ScopeRef) : Eval ScopeRef := do
  let inner ← newScope scope
  declareMembers inner members
  defineSpace scope name inner
  note (.declaredSpace name)
  return inner

/-- Gives the constants of a namespace their values, in order. A return in one of them ends there
and gives the value. -/
def initSpace (name : String) (inner : ScopeRef) : List Node → Eval Unit
  | [] => pure ()
  | .varDecl constant value isMutable :: members => do
    let v := (← eval value inner).result
    define inner constant v isMutable
    note (.declaredMember name constant v)
    initSpace name inner members
  | _ :: members => initSpace name inner members

/-- A namespace whose constants wait for their values. -/
structure OpenSpace where
  /-- The name of the namespace. -/
  name : String
  /-- The members of the namespace. -/
  members : List Node
  /-- The scope of the namespace. -/
  scope : ScopeRef

/-- Declares the functions and namespaces among statements, in order. -/
def declareAll (scope : ScopeRef) : List Node → Eval (List OpenSpace)
  | [] => return []
  | .functionDecl name params body :: rest => do
    declareFunction name params body scope
    declareAll scope rest
  | .spaceDecl name members :: rest => do
    let inner ← declareSpace name members scope
    return ⟨name, members, inner⟩ :: (← declareAll scope rest)
  | _ :: rest => declareAll scope rest

/-- Declares the functions and namespaces among statements before any statement is evaluated. The
constants of namespaces get their values once all of them are declared. -/
def hoist (statements : List Node) (scope : ScopeRef) : Eval Unit := do
  let spaces ← declareAll scope statements
  spaces.forM fun space => initSpace eval space.name space.scope space.members

/-! ### Sequences -/

/-- Evaluates statements in order; the result is that of the last one. -/
def evalStatements (scope : ScopeRef) : Value → List Node → Eval Result
  | last, [] => value last
  | _, statement :: rest =>
    onValue (eval statement scope) fun v => evalStatements scope v rest

/-- Evaluates a block in its scope. -/
def evalBlock (statements : List Node) (scope : ScopeRef) : Eval Result := do
  hoist eval statements scope
  evalStatements eval scope .null statements

/-- Evaluates trees from left to right. -/
def evalAll (scope : ScopeRef) : List Node → Eval (Flow (List Value))
  | [] => return .value []
  | n :: ns =>
    onValue (eval n scope) fun v =>
    onValue (evalAll scope ns) fun vs => return .value (v :: vs)

/-- Evaluates the entries of an object literal in order and puts them into a table. -/
def evalEntries (scope : ScopeRef) :
    Table Value → List (String × Node) → Eval (Flow (Table Value))
  | done, [] => return .value done
  | done, (key, n) :: rest =>
    onValue (eval n scope) fun v => evalEntries scope (done.insert key v) rest

/-- Evaluates the parts of a template in order and appends their texts. -/
def evalParts (scope : ScopeRef) : String → List (String ⊕ Node) → Eval (Flow String)
  | done, [] => return .value done
  | done, .inl s :: rest => evalParts scope (done ++ s) rest
  | done, .inr n :: rest =>
    onValue (eval n scope) fun v => do
      evalParts scope (done ++ (← text v)) rest

/-! ### Choices -/

/-- Evaluates a tree that may be absent, which gives null. -/
def evalOptional (n : Node) (scope : ScopeRef) : Eval Result :=
  match n with
  | .absent => value .null
  | n => eval n scope

/-- Evaluates the conditions in order up to the first that holds, and then its body. -/
def evalBranches (scope : ScopeRef) (otherwise : Node) : List (Node × Node) → Eval Result
  | [] => evalOptional eval otherwise scope
  | (condition, body) :: rest =>
    onValue (eval condition scope) fun
      | .bool holds => do
        note (.condition holds)
        if holds then eval body scope else evalBranches scope otherwise rest
      | v => fail (.condition v.kind)

/-- Evaluates the patterns in order up to the first that equals the subject, and then its body. -/
def evalArms (scope : ScopeRef) (subject : Value) (otherwise : Node) :
    List (Node × Node) → Eval Result
  | [] => evalOptional eval otherwise scope
  | (pattern, body) :: rest =>
    onValue (eval pattern scope) fun v =>
      if subject.equal v then eval body scope else evalArms scope subject otherwise rest

/-! ### Loops -/

/-- Runs a body for the counter values `next`, `next + 1` and so on, so many times, and collects the
values in a new array. -/
def repeatBody (body : Nat → Eval Result) : Nat → Nat → Array Value → Eval Result
  | 0, _, done => do value (← newArray done)
  | remaining + 1, next, done =>
    onValue (body next) fun v => repeatBody body remaining (next + 1) (done.push v)

/-- Runs a body for each element and collects the values in a new array. -/
def eachBody (body : Value → Eval Result) : List Value → Array Value → Eval Result
  | [], done => do value (← newArray done)
  | item :: rest, done => onValue (body item) fun v => eachBody body rest (done.push v)

/-- The number of iterations that a value asks for. -/
def loopCount : Value → Except Stop Nat
  | .num x =>
    if x < 0 || !isWhole x then .error (.script (.loopRange x))
    else ((wholePart Binary.truncate x).mapError .fault).map Int.toNat
  | v => .error (.script (.loopCount v.kind))

/-- Evaluates a counted loop. Every iteration has a scope of its own. -/
def evalCountLoop (counter : Option String) (count body : Node) (scope : ScopeRef) :
    Eval Result :=
  onValue (eval count scope) fun v => do
    let total ← ofExcept (loopCount v)
    let iteration (i : Nat) : Eval Result := do
      let inner ← newScope scope
      if let some name := counter then
        define inner name (.num (← ofPartial (doubleOf i))) false
      note (.iteration i total)
      eval body inner
    repeatBody iteration total 1 #[]

/-- Evaluates a loop over the elements that an array has when the loop starts. Every iteration has a
scope of its own. -/
def evalEachLoop (item : String) (collection body : Node) (scope : ScopeRef) : Eval Result :=
  onValue (eval collection scope) fun
    | .arr r => do
      let iteration (v : Value) : Eval Result := do
        let inner ← newScope scope
        define inner item v false
        eval body inner
      eachBody iteration (← items r).toList #[]
    | v => fail (.eachCollection v.kind)

/-! ### Operands -/

/-- The element of an array at a position counted from one. -/
def indexValue (target position : Value) : Eval Value :=
  match target, position with
  | .arr r, .num x => do
    let elements ← items r
    if isPosition x elements.size then
      let i ← ofPartial (wholePart Binary.truncate x)
      ofPartial (required .noSuchPlace elements[(i - 1).toNat]?)
    else fail (.indexRange x elements.size)
  | .arr _, v => fail (.indexKind v.kind)
  | v, _ => fail (.notIndexable v.kind)

/-- The property of an object, null if it has none of that name. -/
def memberValue (target : Value) (name : String) : Eval Value :=
  match target with
  | .obj r => return ((← fields r).get? name).getD .null
  | v => fail (.property name v.kind)

/-- Evaluates a logical operator: the right operand only if the left one does not decide. -/
def evalLogical (op : String) (left right : Node) (scope : ScopeRef) : Eval Result :=
  onValue (eval left scope) fun
    | .bool a =>
      if (op == "&") != a then value (.bool a)
      else
        onValue (eval right scope) fun
          | .bool b => value (.bool b)
          | v => fail (.logicalOperand op v.kind)
    | v => fail (.logicalOperand op v.kind)

/-- Evaluates a binary operator. -/
def evalBinary (op : String) (left right : Node) (scope : ScopeRef) : Eval Result :=
  if isLogicalOp op then evalLogical eval op left right scope
  else
    onValue (eval left scope) fun a =>
    onValue (eval right scope) fun b => do
      value (← ofExcept (applyOperator op a b))

/-- Makes the function of a function expression. One with a name has a scope of its own in which the
name stands for the function. -/
def makeFunction (name : Option String) (params : List String) (body : Node) (scope : ScopeRef) :
    Eval Value :=
  match name with
  | none => newFunction (.closure params body scope none)
  | some name => do
    let inner ← newScope scope
    let f ← newFunction (.closure params body inner (some name))
    define inner name f false
    return f

/-! ### Calls -/

/-- Declares the parameters of a function in the scope of a call. A missing argument is null. -/
def bindParams (scope : ScopeRef) : List String → List Value → Eval Unit
  | [], _ => pure ()
  | param :: params, args => do
    define scope param (args.headD .null) false
    bindParams scope params args.tail

/-- Calls a function written in a script: its body is evaluated in a new scope inside the scope that
the function was made in. -/
def callClosure (params : List String) (body : Node) (scope : ScopeRef) (name : Option String)
    (args : List Value) : Eval Value := do
  let inner ← newScope scope
  bindParams inner params args
  note (.calledClosure name args)
  match body with
  | .block statements => return (← evalBlock eval statements inner).result
  | _ => malformed .bodyNotABlock

/-- Calls a function of the standard library. -/
def callNative (f : Native) (args : List Value) : Eval Value := do
  note (.calledNative f)
  f.run call (f.arity.elim args (adjustArgs · args))

/-- Calls a value with arguments. -/
def callValue (f : Value) (args : List Value) : Eval Value :=
  match f with
  | .fn r => do
    match ← function? r with
    | some (.closure params body scope name) => callClosure eval params body scope name args
    | some (.native native) => callNative call native args
    | none => fail (.notCallable .fn)
  | v => fail (.notCallable v.kind)

/-! ### Trees -/

/-- The meaning of a tree in a scope, given the meaning of its parts. -/
def evalNode (node : Node) (scope : ScopeRef) : Eval Result :=
  match node with
  | .absent => malformed .absentTree
  | .program _ => malformed .nestedProgram
  | .literal v kind =>
    match literalValue v kind with
    | .ok v => value v
    | .error e => malformed e
  | .ident name => do value (← lookup scope name)
  | .spaceMember space name => do value (← lookupMember scope space name)
  | .array elements =>
    onValue (evalAll eval scope elements) fun vs => do value (← newArray vs.toArray)
  | .object entries =>
    onValue (evalEntries eval scope .empty entries) fun table => do value (← newObject table)
  | .template parts => onValue (evalParts eval scope "" parts) fun s => value (.str s)
  | .varDecl name n isMutable =>
    onValue (eval n scope) fun v => do
      define scope name v isMutable
      note (.declaredVariable isMutable name v)
      value .null
  | .assign name n =>
    onValue (eval n scope) fun v => do
      assign scope name v
      value .null
  | .output n =>
    onValue (eval n scope) fun v => do
      emit v
      value .null
  | .ret n => onValue (eval n scope) fun v => return .signal v
  | .member target name =>
    onValue (eval target scope) fun v => do value (← memberValue v name)
  | .index target position =>
    onValue (eval target scope) fun v =>
    onValue (eval position scope) fun i => do
      value (← indexValue v i)
  | .call callee args =>
    onValue (eval callee scope) fun f =>
    onValue (evalAll eval scope args) fun vs => do
      value (← call f vs)
  | .block statements => do evalBlock eval statements (← newScope scope)
  | .functionExpr name params body => do value (← makeFunction name params body scope)
  | .functionDecl name params body => do
    unless ← declares scope name do
      declareFunction name params body scope
    value .null
  | .spaceDecl name members => do
    unless ← declaresSpace scope name do
      let inner ← declareSpace name members scope
      initSpace eval name inner members
    value .null
  | .conditional branches otherwise => evalBranches eval scope otherwise branches
  | .selection subject arms otherwise =>
    onValue (eval subject scope) fun v => evalArms eval scope v otherwise arms
  | .countLoop counter count body => evalCountLoop eval counter count body scope
  | .eachLoop item collection body => evalEachLoop eval item collection body scope
  | .binary op left right => evalBinary eval op left right scope

end Constructs

mutual

/-- Evaluates a tree in a scope, nesting evaluations at most so deep. -/
def evalWithin : Nat → Evaluator
  | 0 => fun _ _ => throw .outOfFuel
  | fuel + 1 => fun node scope => evalNode (evalWithin fuel) (callWithin fuel) node scope

/-- Calls a value with arguments, nesting evaluations at most so deep. -/
def callWithin : Nat → Caller
  | 0 => fun _ _ => throw .outOfFuel
  | fuel + 1 => fun f args => callValue (evalWithin fuel) (callWithin fuel) f args

end

end Sigil
