/-!
# JSON values

The data of JSON documents. Whole numbers and doubles are kept apart, because a document tells them
apart, and an object is the list of its fields in the order of the document. Strings and the names
of fields consist of Unicode scalar values.
-/

namespace Sigil

/-- A JSON value. -/
inductive Json where
  /-- The value `null`. -/
  | null
  /-- A truth value. -/
  | bool (value : Bool)
  /-- A number written without fraction and exponent. -/
  | int (value : Int)
  /-- A number written with fraction or exponent, or one of the infinities and NaN. -/
  | float (value : Float)
  /-- A string. -/
  | str (value : String)
  /-- An array. -/
  | arr (items : List Json)
  /-- An object, its fields in the order of the document. -/
  | obj (fields : List (String × Json))
  deriving Inhabited, Repr

namespace Json

/-- The value of the first field of the given name. -/
def field? (fields : List (String × Json)) (name : String) : Option Json :=
  fields.lookup name

/-- Whether a value counts as true where a truth value is asked for: everything does except `null`,
`false`, zero, and empty strings, arrays and objects. -/
def truthy : Json → Bool
  | .null => false
  | .bool b => b
  | .int n => n != 0
  | .float x => x != 0
  | .str s => s != ""
  | .arr items => !items.isEmpty
  | .obj fields => !fields.isEmpty

/-- Puts a field into an object: a name that is there keeps its place and takes the new value. -/
def putField (name : String) (value : Json) : List (String × Json) → List (String × Json)
  | [] => [(name, value)]
  | (k, v) :: rest => if k = name then (k, value) :: rest else (k, v) :: putField name value rest

end Json

end Sigil
