/-!
# The functions of the standard library

`Native` lists the functions that the standard library provides. Each has a full name, by which it
is shown and by which its errors speak of it, and a number of arguments that its callers are
adjusted to; the functions without such a number look at their arguments themselves.
-/

namespace Sigil

/-- A function of the standard library. -/
inductive Native where
  /-- Prints a value. -/
  | print
  /-- The name of the kind of a value. -/
  | coreType
  /-- Negation. -/
  | coreNot
  /-- Equality. -/
  | coreEq
  /-- Inequality. -/
  | coreNeq
  /-- The text of a value. -/
  | coreToStr
  /-- The length of an array. -/
  | arrLen
  /-- Appends an element to an array. -/
  | arrPush
  /-- Takes the last element from an array. -/
  | arrPop
  /-- Whether an array has an element. -/
  | arrIncl
  /-- A new array in reverse order. -/
  | arrReverse
  /-- A new array of two arrays. -/
  | arrConcat
  /-- The elements of an array of texts in one text. -/
  | arrJoin
  /-- A new array of the results of a function. -/
  | arrMap
  /-- A new array of the elements that pass a test. -/
  | arrFilter
  /-- The elements of an array folded from the left. -/
  | arrReduce
  /-- The keys of an object. -/
  | objKeys
  /-- The values of an object. -/
  | objVals
  /-- The pairs of key and value of an object. -/
  | objKvs
  /-- Whether an object has a key. -/
  | objHas
  /-- The number of characters of a text. -/
  | strLen
  /-- A character of a text. -/
  | strPick
  /-- The characters of a text. -/
  | strSplit
  /-- Whether a text is part of another. -/
  | strIncl
  /-- The greatest whole number not above a number. -/
  | mathFloor
  /-- The least whole number not below a number. -/
  | mathCeil
  /-- The nearest whole number, halves upwards. -/
  | mathRound
  /-- The absolute value of a number. -/
  | mathAbs
  deriving DecidableEq, Repr

namespace Native

/-- The full name of a function. -/
def name : Native → String
  | print => "print"
  | coreType => "Core:type"
  | coreNot => "Core:not"
  | coreEq => "Core:eq"
  | coreNeq => "Core:neq"
  | coreToStr => "Core:to_str"
  | arrLen => "Arr:len"
  | arrPush => "Arr:push"
  | arrPop => "Arr:pop"
  | arrIncl => "Arr:incl"
  | arrReverse => "Arr:reverse"
  | arrConcat => "Arr:concat"
  | arrJoin => "Arr:join"
  | arrMap => "Arr:map"
  | arrFilter => "Arr:filter"
  | arrReduce => "Arr:reduce"
  | objKeys => "Obj:keys"
  | objVals => "Obj:vals"
  | objKvs => "Obj:kvs"
  | objHas => "Obj:has"
  | strLen => "Str:len"
  | strPick => "Str:pick"
  | strSplit => "Str:split"
  | strIncl => "Str:incl"
  | mathFloor => "Math:floor"
  | mathCeil => "Math:ceil"
  | mathRound => "Math:round"
  | mathAbs => "Math:abs"

/-- The number of arguments that a call is adjusted to. -/
def arity : Native → Option Nat
  | arrJoin | arrReduce => none
  | coreEq | coreNeq | arrPush | arrIncl | arrConcat | arrMap | arrFilter | objHas | strPick
  | strIncl => some 2
  | _ => some 1

end Native

end Sigil
