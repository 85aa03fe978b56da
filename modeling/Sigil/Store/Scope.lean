import Sigil.Store.Basic

/-!
# Scopes

Names are looked up from a scope outwards along its chain of surrounding scopes, and the nearest
declaration counts. A declaration always makes a new cell; an assignment writes to the cell that the
name is found in, if it is the cell of a mutable variable.
-/

namespace Sigil

/-- Why a name cannot be read or written. -/
inductive ScopeError where
  /-- There is no variable of this name. -/
  | undefinedVariable (name : String)
  /-- There is no namespace of this name. -/
  | undefinedSpace (name : String)
  /-- The namespace has no member of this name. -/
  | undefinedMember (space member : String)
  /-- The variable may not be assigned to. -/
  | immutableVariable (name : String)
  deriving DecidableEq, Repr

namespace Store

/-- A scope. -/
def scope? (s : Store) (r : ScopeRef) : Option Scope :=
  s.scopes[r.index]?

/-- A cell. -/
def cell? (s : Store) (r : CellRef) : Option Cell :=
  s.cells[r.index]?

/-- The scope around a scope. -/
def parent? (s : Store) (r : ScopeRef) : Option ScopeRef :=
  (s.scope? r).bind Scope.parent

/-- A scope and at most so many of the scopes around it, innermost first. -/
def chainUpTo (s : Store) : Nat → ScopeRef → List ScopeRef
  | 0, r => [r]
  | n + 1, r =>
    match s.parent? r with
    | some parent => r :: s.chainUpTo n parent
    | none => [r]

/-- A scope and all scopes around it, innermost first. The scopes around a scope are older than it,
so there are at most as many as scopes made before it. -/
def chain (s : Store) (r : ScopeRef) : List ScopeRef :=
  s.chainUpTo r.index r

/-- The cell of a name declared in this very scope. -/
def ownCell? (s : Store) (r : ScopeRef) (name : String) : Option CellRef :=
  (s.scope? r).bind fun scope => scope.names.get? name

/-- The scope of a namespace declared in this very scope. -/
def ownSpace? (s : Store) (r : ScopeRef) (name : String) : Option ScopeRef :=
  (s.scope? r).bind fun scope => scope.spaces.get? name

/-- The cell that a name stands for in a scope. -/
def find? (s : Store) (r : ScopeRef) (name : String) : Option CellRef :=
  (s.chain r).findSome? fun scope => s.ownCell? scope name

/-- The scope of the namespace that a name stands for in a scope. -/
def findSpace? (s : Store) (r : ScopeRef) (name : String) : Option ScopeRef :=
  (s.chain r).findSome? fun scope => s.ownSpace? scope name

/-- The value of a variable. -/
def lookup (s : Store) (r : ScopeRef) (name : String) : Except ScopeError Value :=
  match (s.find? r name).bind s.cell? with
  | some cell => .ok cell.value
  | none => .error (.undefinedVariable name)

/-- The value of a member of a namespace. Only the variables of the namespace's own scope are its
members. -/
def lookupMember (s : Store) (r : ScopeRef) (space member : String) : Except ScopeError Value :=
  match s.findSpace? r space with
  | none => .error (.undefinedSpace space)
  | some inner =>
    match (s.ownCell? inner member).bind s.cell? with
    | some cell => .ok cell.value
    | none => .error (.undefinedMember space member)

/-- Declares a variable in a scope: the name stands for a new cell from now on. -/
def define (r : ScopeRef) (name : String) (value : Value) (isMutable : Bool) (s : Store) : Store :=
  let (cell, s) := s.newCell ⟨value, isMutable⟩
  { s with scopes := s.scopes.modify r.index fun scope =>
      { scope with names := scope.names.insert name cell } }

/-- Declares a namespace in a scope; `space` is the scope of its members. -/
def defineSpace (r : ScopeRef) (name : String) (space : ScopeRef) (s : Store) : Store :=
  { s with scopes := s.scopes.modify r.index fun scope =>
      { scope with spaces := scope.spaces.insert name space } }

/-- The cell that an assignment to a name writes to. -/
def target (s : Store) (r : ScopeRef) (name : String) : Except ScopeError CellRef :=
  match s.find? r name with
  | none => .error (.undefinedVariable name)
  | some cell =>
    match s.cell? cell with
    | none => .error (.undefinedVariable name)
    | some old => if old.isMutable then .ok cell else .error (.immutableVariable name)

/-- Gives a cell a new value. -/
def writeCell (cell : CellRef) (value : Value) (s : Store) : Store :=
  { s with cells := s.cells.modify cell.index fun old => { old with value } }

end Store

end Sigil
