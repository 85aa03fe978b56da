import Sigil.Decimal.Reading
import Sigil.Eval.Error

/-!
# Operators and literals

The meaning of the binary operators that take both operands, and of literals. Neither touches the
store. Equality takes any two values, all other operators take numbers.
-/

namespace Sigil

/-- Whether an operator decides by its left operand whether to look at the right one. -/
def isLogicalOp (op : String) : Bool :=
  op == "&" || op == "|"

/-- The result of an operator on two numbers. -/
def applyNumbers (op : String) (x y : Float) : Except Stop Value :=
  match op with
  | "+" => .ok (.num (x + y))
  | "-" => .ok (.num (x - y))
  | "*" => .ok (.num (x * y))
  | "/" =>
    if y == 0 then .error (.script .divisionByZero)
    else ((quotient x y).mapError .fault).map .num
  | "%" =>
    if y == 0 then .error (.script .moduloByZero)
    else if isInfinite x then .ok (.num notANumber)
    else ((remainder x y).mapError .fault).map .num
  | "<" => .ok (.bool (x < y))
  | ">" => .ok (.bool (x > y))
  | "<=" => .ok (.bool (x ≤ y))
  | ">=" => .ok (.bool (x ≥ y))
  | _ => .error (.script (.unknownOperator op))

/-- The result of an operator on two values. -/
def applyOperator (op : String) (a b : Value) : Except Stop Value :=
  match op with
  | "=" => .ok (.bool (a.equal b))
  | "!=" => .ok (.bool (!a.equal b))
  | _ =>
    match a, b with
    | .num x, .num y => applyNumbers op x y
    | _, _ => .error (.script (.operands op a.kind b.kind))

/-- The number that a literal holds. -/
def literalNumber : Json → Except TreeError Float
  | .float x => .ok x
  | .int n => (floatOfInt? n).elim (.error .numberTooLarge) .ok
  | .bool b => .ok (if b then 1 else 0)
  | .str s => (numericText? s).elim (.error .numberText) .ok
  | .null | .arr _ | .obj _ => .error .literalValue

/-- The value of a literal. The text of a value is a string, so a literal of a text that holds none
has no value. -/
def literalValue (value kind : Json) : Except TreeError Value :=
  match kind with
  | .str "num" => (literalNumber value).map .num
  | .str "str" =>
    match value with
    | .str s => .ok (.str s)
    | _ => .error .literalValue
  | .str "bool" => .ok (.bool value.truthy)
  | .str "null" => .ok .null
  | other => .error (.unknownLiteral other)

end Sigil
