import Sigil.Decimal.Format
import Sigil.Text.Quoted

/-!
# Values as finite trees

A `Datum` is what a value looks like from outside: its contents spelled out, without references. A
container inside itself shows as a reference back to it, so every value of every store has a finite
datum. The text of a value is computed from its datum.
-/

namespace Sigil

/-- A value with its contents spelled out. -/
inductive Datum where
  /-- A number. -/
  | num (x : Float)
  /-- A text. -/
  | str (s : String)
  /-- A truth value. -/
  | bool (b : Bool)
  /-- The null value. -/
  | null
  /-- An array with its elements. -/
  | arr (items : List Datum)
  /-- An object with its fields in order. -/
  | obj (fields : List (String × Datum))
  /-- A function with its text. -/
  | fn (text : String)
  /-- The container around this place that has so many containers around it. -/
  | back (depth : Nat)
  deriving Inhabited, Repr

namespace Datum

mutual

/-- Whether the value contains itself. -/
def isCyclic : Datum → Bool
  | .arr items => anyCyclic items
  | .obj fields => anyFieldCyclic fields
  | .back _ => true
  | _ => false

/-- Whether one of the elements is cyclic. -/
def anyCyclic : List Datum → Bool
  | [] => false
  | d :: ds => isCyclic d || anyCyclic ds

/-- Whether one of the fields is cyclic. -/
def anyFieldCyclic : List (String × Datum) → Bool
  | [] => false
  | (_, d) :: ds => isCyclic d || anyFieldCyclic ds

end

/-- Texts with a comma and a blank between them. -/
def commaSeparated (texts : List String) : String :=
  ", ".intercalate texts

mutual

/-- The text of a value inside an array or an object, where texts are quoted. -/
def nestedText : Datum → String
  | .num x => NumberFormat.plain.write x
  | .str s => String.ofList (Quoted.encode s.toList)
  | .bool true => "yes"
  | .bool false => "no"
  | .null => "_"
  | .arr items => "[" ++ commaSeparated (itemTexts items) ++ "]"
  | .obj fields => "\x7b" ++ commaSeparated (fieldTexts fields) ++ "\x7d"
  | .fn text => text
  | .back _ => "..."

/-- The texts of the elements of an array. -/
def itemTexts : List Datum → List String
  | [] => []
  | d :: ds => nestedText d :: itemTexts ds

/-- The texts of the fields of an object: the keys stand as they are. -/
def fieldTexts : List (String × Datum) → List String
  | [] => []
  | (key, d) :: ds => (key ++ ": " ++ nestedText d) :: fieldTexts ds

end

/-- The text of a value: a text is its own, everything else as inside a container. -/
def text : Datum → String
  | .str s => s
  | d => nestedText d

end Datum

end Sigil
