import Sigil.Eval.Error
import Sigil.Eval.Trace

/-!
# The world of an evaluation

An evaluation works on a `World`: the store, the values put out so far and the log. `Eval` is the
type of computations on it that may stop early; what they have done until then stays done. The
operations of this module are the only ways in which evaluation touches the world.
-/

namespace Sigil

/-- A value that has been put out, and what it looked like then. -/
structure Printed where
  /-- The value. -/
  value : Value
  /-- Its contents at the time. -/
  datum : Datum

/-- All that evaluation works on. -/
structure World where
  /-- The store. -/
  store : Store
  /-- What has been put out, in order. -/
  printed : Array Printed
  /-- The trace. -/
  log : Log

/-- A computation on the world that may stop early. -/
abbrev Eval := EStateM Stop World

namespace Eval

variable {α β : Type}

/-- Stops with a mistake of the script. -/
def fail (error : ScriptError) : Eval α :=
  throw (.script error)

/-- Stops with a fault of the tree. -/
def malformed (error : TreeError) : Eval α :=
  throw (.tree error)

/-- The result of a computation on scopes. -/
def ofScope (x : Except ScopeError α) : Eval α :=
  ofExcept (x.mapError fun e => .script (.scope e))

/-- The result of an operation that has one. -/
def ofPartial (x : Except Fault α) : Eval α :=
  ofExcept (x.mapError .fault)

/-- Reads from the store. -/
@[inline]
def read (f : Store → α) : Eval α :=
  fun w => .ok (f w.store) w

/-- Changes the store. -/
@[inline]
def change (f : Store → Store) : Eval Unit :=
  fun ⟨store, printed, log⟩ => .ok () ⟨f store, printed, log⟩

/-- Adds to the store. -/
@[inline]
def add (f : Store → α × Store) : Eval α :=
  fun ⟨store, printed, log⟩ =>
    let (a, store) := f store
    .ok a ⟨store, printed, log⟩

/-! ### Scopes -/

/-- A new scope inside another. -/
def newScope (parent : ScopeRef) : Eval ScopeRef :=
  add (Store.newScope (some parent))

/-- Declares a variable. -/
def define (scope : ScopeRef) (name : String) (value : Value) (isMutable : Bool) : Eval Unit :=
  change (Store.define scope name value isMutable)

/-- The value of a variable. -/
def lookup (scope : ScopeRef) (name : String) : Eval Value := do
  ofScope (← read (·.lookup scope name))

/-- The value of a member of a namespace. -/
def lookupMember (scope : ScopeRef) (space member : String) : Eval Value := do
  ofScope (← read (·.lookupMember scope space member))

/-- Assigns to a variable. -/
def assign (scope : ScopeRef) (name : String) (value : Value) : Eval Unit := do
  let cell ← ofScope (← read (·.target scope name))
  change (Store.writeCell cell value)

/-- Declares a namespace. -/
def defineSpace (scope : ScopeRef) (name : String) (space : ScopeRef) : Eval Unit :=
  change (Store.defineSpace scope name space)

/-- Whether a name is declared in this very scope. -/
def declares (scope : ScopeRef) (name : String) : Eval Bool :=
  read fun s => (s.ownCell? scope name).isSome

/-- Whether a namespace is declared in this very scope. -/
def declaresSpace (scope : ScopeRef) (name : String) : Eval Bool :=
  read fun s => (s.ownSpace? scope name).isSome

/-! ### Arrays, objects and functions -/

/-- A new array. -/
def newArray (items : Array Value) : Eval Value :=
  Value.arr <$> add (Store.newArray items)

/-- A new object. -/
def newObject (fields : Table Value) : Eval Value :=
  Value.obj <$> add (Store.newObject fields)

/-- A new function. -/
def newFunction (function : Function) : Eval Value :=
  Value.fn <$> add (Store.newFunction function)

/-- The elements of an array. -/
def items (r : ArrayRef) : Eval (Array Value) :=
  read (·.items r)

/-- The fields of an object. -/
def fields (r : ObjectRef) : Eval (Table Value) :=
  read (·.fields r)

/-- A function. -/
def function? (r : FunctionRef) : Eval (Option Function) :=
  read (·.function? r)

/-- Appends an element to an array. -/
def push (r : ArrayRef) (value : Value) : Eval Unit :=
  change (Store.push r value)

/-- Takes the last element from an array. -/
def pop (r : ArrayRef) : Eval Unit :=
  change (Store.pop r)

/-- The text of a value. -/
def text (v : Value) : Eval String :=
  read (·.text v)

/-! ### Output and trace -/

/-- Takes an event into the log if it is within the log's level. -/
def note (event : TraceEvent) : Eval Unit :=
  fun ⟨store, printed, log⟩ =>
    if event.level ≤ log.level then
      .ok () ⟨store, printed, log.add ⟨event.level, event.text store⟩⟩
    else .ok () ⟨store, printed, log⟩

/-- Puts out a value. -/
def emit (v : Value) : Eval Unit := do
  note (.printed v)
  fun ⟨store, printed, log⟩ => .ok () ⟨store, printed.push ⟨v, store.view v⟩, log⟩

/-- Changes the log. -/
def changeLog (f : Log → Log) : Eval Unit :=
  fun ⟨store, printed, log⟩ => .ok () ⟨store, printed, f log⟩

/-- Runs a computation and closes the trace file afterwards, however the computation ends. -/
def closingFile (x : Eval α) : Eval α :=
  fun w =>
    match x w with
    | .ok a ⟨store, printed, log⟩ => .ok a ⟨store, printed, log.closeFile⟩
    | .error e ⟨store, printed, log⟩ => .error e ⟨store, printed, log.closeFile⟩

end Eval

end Sigil
