import Sigil.Decimal.Format
import Sigil.Decimal.Partial
import Sigil.Json.Basic
import Sigil.Store.Scope

/-!
# Why an evaluation stops

Four things end an evaluation early. A `ScriptError` is a mistake of the script and has a category
and a message. A `TreeError` is a fault of the tree itself and cannot arise from program text, only
from stored trees. A `Fault` is an operation outside of its domain. And an evaluation with bounded
nesting may run out of it.
-/

namespace Sigil

/-- The categories of errors that a script can run into. -/
inductive ErrorCategory where
  /-- A name stands for nothing. -/
  | undefined
  /-- A value has the wrong kind. -/
  | typeMismatch
  /-- A variable may not be assigned to. -/
  | immutable
  /-- A division by zero. -/
  | divisionByZero
  /-- A position outside of an array or a text. -/
  | outOfRange
  /-- A value that is called is no function. -/
  | notCallable
  /-- A number that is no loop count. -/
  | loopRange
  deriving DecidableEq, Repr

/-- The name of a category in messages. -/
def ErrorCategory.name : ErrorCategory → String
  | .undefined => "UndefinedVariable"
  | .typeMismatch | .immutable => "TypeError"
  | .divisionByZero => "DivisionByZero"
  | .outOfRange => "IndexError"
  | .notCallable => "NotCallable"
  | .loopRange => "RangeError"

/-- A mistake of a script. -/
inductive ScriptError where
  /-- A name cannot be read or written. -/
  | scope (error : ScopeError)
  /-- A condition is no truth value. -/
  | condition (got : Kind)
  /-- The count of a loop is no number. -/
  | loopCount (got : Kind)
  /-- The count of a loop is negative, fractional, infinite or NaN. -/
  | loopRange (count : Float)
  /-- The collection of a loop is no array. -/
  | eachCollection (got : Kind)
  /-- A property of something that is no object. -/
  | property (name : String) (got : Kind)
  /-- An element of something that is no array. -/
  | notIndexable (got : Kind)
  /-- A position that is no number. -/
  | indexKind (got : Kind)
  /-- A position outside of an array. -/
  | indexRange (index : Float) (size : Nat)
  /-- An operand of a logical operator is no truth value. -/
  | logicalOperand (op : String) (got : Kind)
  /-- An operator that does not take operands of these kinds. -/
  | operands (op : String) (left right : Kind)
  /-- No operator has this name. -/
  | unknownOperator (op : String)
  /-- A division by zero. -/
  | divisionByZero
  /-- A remainder by zero. -/
  | moduloByZero
  /-- A call of something that is no function. -/
  | notCallable (got : Kind)
  /-- An argument of the wrong kind; the position counts from one. -/
  | argument (function : Native) (expected : Kind) (position : Nat) (got : Kind)
  /-- An element to join is no text. -/
  | joinElement (got : Kind)
  /-- A filter's function answers no truth value. -/
  | filterResult (got : Kind)
  /-- A fold over no elements from nothing. -/
  | emptyReduce
  /-- A position outside of a text. -/
  | pickRange (index : Float) (size : Nat)

namespace ScriptError

/-- The category of an error. -/
def category : ScriptError → ErrorCategory
  | .scope (.immutableVariable _) => .immutable
  | .scope _ => .undefined
  | .loopRange _ => .loopRange
  | .indexRange .. | .pickRange .. => .outOfRange
  | .divisionByZero | .moduloByZero => .divisionByZero
  | .notCallable _ => .notCallable
  | _ => .typeMismatch

/-- The text of a number in a message. -/
def number (x : Float) : String :=
  NumberFormat.plain.write x

/-- The message of an error. -/
def message : ScriptError → String
  | .scope (.undefinedVariable name) => "undefined variable " ++ name
  | .scope (.undefinedSpace name) => "undefined namespace " ++ name
  | .scope (.undefinedMember space member) =>
    "undefined namespace member " ++ space ++ ":" ++ member
  | .scope (.immutableVariable name) => "cannot assign to immutable variable " ++ name
  | .condition got => "condition must be bool, got " ++ got.name
  | .loopCount got => "loop count must be num, got " ++ got.name
  | .loopRange count => "loop count must be a non-negative integer, got " ++ number count
  | .eachCollection got => "~~ expects an array, got " ++ got.name
  | .property name got => "cannot access property " ++ name ++ " of " ++ got.name
  | .notIndexable got => "cannot index type " ++ got.name
  | .indexKind got => "array index must be num, got " ++ got.name
  | .indexRange index size =>
    "array index " ++ number index ++ " out of range 1.." ++ size.repr
  | .logicalOperand op got => op ++ " expects bool operands, got " ++ got.name
  | .operands op left right =>
    "unsupported " ++ op ++ " for " ++ left.name ++ " and " ++ right.name
  | .unknownOperator op => "unknown operator " ++ op
  | .divisionByZero => "division by zero"
  | .moduloByZero => "modulo by zero"
  | .notCallable got => got.name ++ " value is not callable"
  | .argument function expected position got =>
    function.name ++ " expects " ++ expected.name ++ " as argument " ++ position.repr ++ ", got "
      ++ got.name
  | .joinElement got => "Arr:join expects an array of str, found " ++ got.name
  | .filterResult got => "Arr:filter predicate must return bool, got " ++ got.name
  | .emptyReduce => "Arr:reduce of an empty array needs an initial value"
  | .pickRange index size =>
    "Str:pick index " ++ number index ++ " out of range 1.." ++ size.repr

end ScriptError

/-- A fault of a tree. -/
inductive TreeError where
  /-- An absent tree where one is evaluated. -/
  | absentTree
  /-- A whole program inside a tree. -/
  | nestedProgram
  /-- A literal of a kind that does not exist. -/
  | unknownLiteral (kind : Json)
  /-- A number literal holds a text that is no number. -/
  | numberText
  /-- A literal holds a value that its kind cannot have. -/
  | literalValue
  /-- A number lies beyond all doubles. -/
  | numberTooLarge
  /-- The body of a function that is called is no block. -/
  | bodyNotABlock
  /-- The tree that is run is no program and has no body at all. -/
  | notAProgram
  /-- The tree that is run is no program, and its body is no list. -/
  | bodyNotAList
  deriving Repr

/-- Why an evaluation stops. -/
inductive Stop where
  /-- A mistake of the script. -/
  | script (error : ScriptError)
  /-- A fault of the tree. -/
  | tree (error : TreeError)
  /-- An operation outside of its domain. -/
  | fault (fault : Fault)
  /-- The nesting that was allowed is used up. -/
  | outOfFuel

end Sigil
