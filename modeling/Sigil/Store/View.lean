import Sigil.Store.Basic
import Sigil.Value.Datum

/-!
# What values look like

`Store.view` spells out the contents of a value. It keeps the containers on the way from the root,
and a container that is met again on that way is shown as a reference back. No way is longer than
the number of containers, so one level more is enough.
-/

namespace Sigil

/-- An array or an object. -/
inductive Container where
  /-- An array. -/
  | arr (ref : ArrayRef)
  /-- An object. -/
  | obj (ref : ObjectRef)
  deriving DecidableEq, Repr

namespace Store

/-- A value that is no container, or a container that is not gone into. -/
def leaf (s : Store) (depth : Nat) : Value → Datum
  | .num x => .num x
  | .str t => .str t
  | .bool b => .bool b
  | .null => .null
  | .fn r => .fn ((s.function? r).elim "@()" Function.text)
  | .arr _ | .obj _ => .back depth

/-- The container that a value is. -/
def container? : Value → Option Container
  | .arr r => some (.arr r)
  | .obj r => some (.obj r)
  | _ => none

/-- The value with its contents, to a depth of `levels` containers. `path` holds the containers
around it, innermost first. -/
def viewWithin (s : Store) : Nat → List Container → Value → Datum
  | 0, _, v => s.leaf 0 v
  | levels + 1, path, v =>
    match container? v with
    | none => s.leaf 0 v
    | some c =>
      match path.idxOf? c with
      | some i => .back (path.length - 1 - i)
      | none =>
        match c with
        | .arr r => .arr ((s.items r).toList.map (s.viewWithin levels (c :: path)))
        | .obj r =>
          .obj ((s.fields r).entries.map fun (key, v) => (key, s.viewWithin levels (c :: path) v))

/-- The value with its contents spelled out. -/
def view (s : Store) (v : Value) : Datum :=
  s.viewWithin (s.arrays.size + s.objects.size + 1) [] v

/-- The text of a value. -/
def text (s : Store) (v : Value) : String :=
  (s.view v).text

end Store

end Sigil
