/-!
# Values

The values that scripts compute with. Numbers, texts, truth values and null are values in their own
right; a text is a sequence of Unicode scalar values. Arrays, objects and functions are references
into a store: two of them are the same exactly if they are one and the same thing there.
-/

namespace Sigil

/-- A reference to an array of the store. -/
structure ArrayRef where
  /-- The place in the store. -/
  index : Nat
  deriving DecidableEq, Repr

/-- A reference to an object of the store. -/
structure ObjectRef where
  /-- The place in the store. -/
  index : Nat
  deriving DecidableEq, Repr

/-- A reference to a function of the store. -/
structure FunctionRef where
  /-- The place in the store. -/
  index : Nat
  deriving DecidableEq, Repr

/-- A value. -/
inductive Value where
  /-- A number. -/
  | num (x : Float)
  /-- A text. -/
  | str (s : String)
  /-- A truth value. -/
  | bool (b : Bool)
  /-- The null value. -/
  | null
  /-- An array. -/
  | arr (ref : ArrayRef)
  /-- An object. -/
  | obj (ref : ObjectRef)
  /-- A function. -/
  | fn (ref : FunctionRef)
  deriving Repr

instance : Inhabited Value :=
  ⟨.null⟩

/-- The kinds of values. -/
inductive Kind where
  /-- Numbers. -/
  | num
  /-- Texts. -/
  | str
  /-- Truth values. -/
  | bool
  /-- The null value. -/
  | null
  /-- Arrays. -/
  | arr
  /-- Objects. -/
  | obj
  /-- Functions. -/
  | fn
  deriving DecidableEq, Repr

/-- The name of a kind, as scripts and messages have it. -/
def Kind.name : Kind → String
  | .num => "num"
  | .str => "str"
  | .bool => "bool"
  | .null => "null"
  | .arr => "arr"
  | .obj => "obj"
  | .fn => "fn"

namespace Value

/-- The kind of a value. -/
def kind : Value → Kind
  | .num _ => .num
  | .str _ => .str
  | .bool _ => .bool
  | .null => .null
  | .arr _ => .arr
  | .obj _ => .obj
  | .fn _ => .fn

/-- The equality of scripts: by value for numbers, texts, truth values and null, by identity for
arrays, objects and functions. NaN differs from itself, and the two zeros are equal. -/
def equal : Value → Value → Bool
  | .num x, .num y => x == y
  | .str s, .str t => s == t
  | .bool a, .bool b => a == b
  | .null, .null => true
  | .arr r, .arr r' => r == r'
  | .obj r, .obj r' => r == r'
  | .fn r, .fn r' => r == r'
  | _, _ => false

end Value

end Sigil
