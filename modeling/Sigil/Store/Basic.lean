import Sigil.Syntax.Node
import Sigil.Table
import Sigil.Value.Basic
import Sigil.Value.Native

/-!
# The store

Everything that can be shared or changed while a script runs lives in the store: the cells of
variables, the scopes that names are looked up in, and arrays, objects and functions. Each kind has
a list of its own to which new members are only ever added at the end, so a reference stays valid
for good. A scope refers to the scope around it, which is older than itself.
-/

namespace Sigil

/-- A reference to a cell of the store. -/
@[ext]
structure CellRef where
  /-- The place in the store. -/
  index : Nat
  deriving DecidableEq, Repr

/-- A reference to a scope of the store. -/
@[ext]
structure ScopeRef where
  /-- The place in the store. -/
  index : Nat
  deriving DecidableEq, Repr

/-- The cell of a variable. -/
structure Cell where
  /-- The value that the variable has now. -/
  value : Value
  /-- Whether the variable may be assigned to. -/
  isMutable : Bool
  deriving Repr

/-- A scope: the names and namespaces that are declared in it, and the scope around it. -/
structure Scope where
  /-- The scope around this one. -/
  parent : Option ScopeRef
  /-- The variables of this scope. -/
  names : Table CellRef
  /-- The namespaces of this scope. The members of a namespace are the variables of its own
  scope. -/
  spaces : Table ScopeRef

/-- A function: one written in a script, with the scope it was made in, or one of the standard
library. -/
inductive Function where
  /-- A function written in a script. -/
  | closure (params : List String) (body : Node) (scope : ScopeRef) (name : Option String)
  /-- A function of the standard library. -/
  | native (function : Native)

/-- The text of a function. -/
def Function.text : Function → String
  | .closure params _ _ name => "@" ++ name.getD "" ++ "(" ++ ", ".intercalate params ++ ")"
  | .native f => "@" ++ f.name ++ "(native)"

/-- All that can be shared or changed while a script runs. -/
structure Store where
  /-- The cells of variables. -/
  cells : Array Cell
  /-- The scopes. -/
  scopes : Array Scope
  /-- The arrays. -/
  arrays : Array (Array Value)
  /-- The objects. -/
  objects : Array (Table Value)
  /-- The functions. -/
  functions : Array Function

namespace Store

/-- The store without anything in it. -/
def empty : Store where
  cells := #[]
  scopes := #[]
  arrays := #[]
  objects := #[]
  functions := #[]

/-! ### New members -/

/-- A new cell. -/
def newCell (cell : Cell) (s : Store) : CellRef × Store :=
  (⟨s.cells.size⟩, { s with cells := s.cells.push cell })

/-- A new scope inside another, or at the outside. -/
def newScope (parent : Option ScopeRef) (s : Store) : ScopeRef × Store :=
  (⟨s.scopes.size⟩, { s with scopes := s.scopes.push ⟨parent, .empty, .empty⟩ })

/-- A new array. -/
def newArray (items : Array Value) (s : Store) : ArrayRef × Store :=
  (⟨s.arrays.size⟩, { s with arrays := s.arrays.push items })

/-- A new object. -/
def newObject (fields : Table Value) (s : Store) : ObjectRef × Store :=
  (⟨s.objects.size⟩, { s with objects := s.objects.push fields })

/-- A new function. -/
def newFunction (function : Function) (s : Store) : FunctionRef × Store :=
  (⟨s.functions.size⟩, { s with functions := s.functions.push function })

/-! ### Arrays, objects and functions -/

/-- The elements of an array. -/
def items (s : Store) (r : ArrayRef) : Array Value :=
  s.arrays[r.index]?.getD #[]

/-- The fields of an object. -/
def fields (s : Store) (r : ObjectRef) : Table Value :=
  s.objects[r.index]?.getD .empty

/-- A function. -/
def function? (s : Store) (r : FunctionRef) : Option Function :=
  s.functions[r.index]?

/-- Appends an element to an array. -/
def push (r : ArrayRef) (value : Value) (s : Store) : Store :=
  { s with arrays := s.arrays.modify r.index (·.push value) }

/-- Takes the last element from an array. -/
def pop (r : ArrayRef) (s : Store) : Store :=
  { s with arrays := s.arrays.modify r.index Array.pop }

end Store

end Sigil
