import Sigil.Decimal.Format
import Sigil.Json.Basic
import Sigil.Text.Quoted

/-!
# Writing JSON

`Json.print` writes a value on one line and `Json.document` as a document with one item on a line,
indented by two blanks for each level. Fields keep their order.
-/

namespace Sigil

namespace Json

/-- How a document is laid out. -/
structure Layout where
  /-- The blanks that each level of nesting is indented by, none if all stands on one line. -/
  indent : Option Nat

namespace Layout

/-- Everything on one line. -/
def line : Layout :=
  { indent := none }

/-- One item on a line, two blanks for each level. -/
def document : Layout :=
  { indent := some 2 }

/-- The break before an item at a level of nesting. -/
def newline (layout : Layout) (depth : Nat) : List Char :=
  match layout.indent with
  | some n => '\n' :: List.replicate (n * depth) ' '
  | none => []

/-- The separator between two items at a level of nesting. -/
def comma (layout : Layout) (depth : Nat) : List Char :=
  match layout.indent with
  | some _ => ',' :: layout.newline depth
  | none => [',', ' ']

end Layout

/-- The text of a whole number. -/
def intText (n : Int) : List Char :=
  if n < 0 then '-' :: NumberFormat.digits n.natAbs else NumberFormat.digits n.natAbs

mutual

/-- The text of a value at a level of nesting. -/
def write (layout : Layout) (depth : Nat) : Json → List Char
  | .null => ['n', 'u', 'l', 'l']
  | .bool true => ['t', 'r', 'u', 'e']
  | .bool false => ['f', 'a', 'l', 's', 'e']
  | .int n => intText n
  | .float x => (NumberFormat.stored.write x).toList
  | .str s => Quoted.encode s.toList
  | .arr [] => ['[', ']']
  | .arr (item :: items) =>
    '[' :: layout.newline (depth + 1) ++ write layout (depth + 1) item
      ++ writeItems layout (depth + 1) items ++ layout.newline depth ++ [']']
  | .obj [] => ['\x7b', '\x7d']
  | .obj ((name, value) :: fields) =>
    '\x7b' :: layout.newline (depth + 1) ++ Quoted.encode name.toList ++ [':', ' ']
      ++ write layout (depth + 1) value ++ writeFields layout (depth + 1) fields
      ++ layout.newline depth ++ ['\x7d']

/-- The text of the items of an array after the first. -/
def writeItems (layout : Layout) (depth : Nat) : List Json → List Char
  | [] => []
  | item :: items => layout.comma depth ++ write layout depth item ++ writeItems layout depth items

/-- The text of the fields of an object after the first. -/
def writeFields (layout : Layout) (depth : Nat) : List (String × Json) → List Char
  | [] => []
  | (name, value) :: fields =>
    layout.comma depth ++ Quoted.encode name.toList ++ [':', ' '] ++ write layout depth value
      ++ writeFields layout depth fields

end

/-- The value on one line. -/
def print (j : Json) : String :=
  String.ofList (write .line 0 j)

/-- The value as an indented document. -/
def document (j : Json) : String :=
  String.ofList (write .document 0 j)

end Json

end Sigil
