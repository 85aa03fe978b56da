import Sigil.Json.Basic

/-!
# Syntax trees

`Node` is the syntax tree of a program and of all its parts. The same type serves trees that come
from program text and trees that come from a stored document, so it is wider than the grammar: a
child may be `absent` anywhere, a literal carries the raw value and kind of its document, and a
whole program may stand inside another tree.

Any document may say that a literal is a text. Only those whose raw value is a string are taken for
texts: a literal of this kind that holds anything else is read and stored like all others, but it
has no value and stops its evaluation as a fault of the tree.
-/

namespace Sigil

/-- A syntax tree. -/
inductive Node where
  /-- The missing tree: no tree at all where one could stand, as for an omitted `else`. -/
  | absent
  /-- A whole program: a list of statements. -/
  | program (body : List Node)
  /-- A literal with its raw value and the name of its kind. A text has a string for its value. -/
  | literal (value kind : Json)
  /-- An array literal. -/
  | array (elements : List Node)
  /-- An object literal: the entries in the order in which they are written. -/
  | object (entries : List (String × Node))
  /-- A template: literal text and embedded expressions. -/
  | template (parts : List (String ⊕ Node))
  /-- A variable. -/
  | ident (name : String)
  /-- A declaration of a constant or of a mutable variable. -/
  | varDecl (name : String) (value : Node) (isMutable : Bool)
  /-- An assignment to a variable. -/
  | assign (name : String) (value : Node)
  /-- A property of an object. -/
  | member (target : Node) (name : String)
  /-- An element of an array. -/
  | index (target position : Node)
  /-- A member of a namespace. -/
  | spaceMember (space member : String)
  /-- A call. -/
  | call (callee : Node) (args : List Node)
  /-- A block of statements. -/
  | block (statements : List Node)
  /-- A function declaration. -/
  | functionDecl (name : String) (params : List String) (body : Node)
  /-- A function expression. One with a name can refer to itself by it. -/
  | functionExpr (name : Option String) (params : List String) (body : Node)
  /-- A namespace declaration. -/
  | spaceDecl (name : String) (members : List Node)
  /-- A conditional: pairs of condition and body tried in order, and what is left otherwise. -/
  | conditional (branches : List (Node × Node)) (otherwise : Node)
  /-- A selection: the arms are pairs of pattern and body, tried in order against the subject. -/
  | selection (subject : Node) (arms : List (Node × Node)) (otherwise : Node)
  /-- A loop that runs a number of times. -/
  | countLoop (counter : Option String) (count body : Node)
  /-- A loop over the elements of an array. -/
  | eachLoop (item : String) (collection body : Node)
  /-- An early return. -/
  | ret (value : Node)
  /-- An output statement. -/
  | output (value : Node)
  /-- A binary operation. -/
  | binary (op : String) (left right : Node)
  deriving Inhabited, Repr

namespace Node

/-- The literal of a number. -/
def number (x : Float) : Node :=
  .literal (.float x) (.str "num")

/-- The literal of a text. -/
def text (s : String) : Node :=
  .literal (.str s) (.str "str")

/-- The literal of a truth value. -/
def truth (b : Bool) : Node :=
  .literal (.bool b) (.str "bool")

/-- The literal of the null value. -/
def nothing : Node :=
  .literal .null (.str "null")

end Node

end Sigil
