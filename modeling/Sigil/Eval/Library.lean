import Sigil.Eval.World

/-!
# The scope of the standard library

The outermost scope of a session holds the namespaces of the standard library, `print`, and the
variables that the host provides. Host variables are plain data.
-/

namespace Sigil

open Eval

/-- A member of a namespace of the standard library. -/
inductive LibraryMember where
  /-- A function. -/
  | function (native : Native)
  /-- A constant. -/
  | constant (value : Value)

/-- The namespaces of the standard library with their members. -/
def library : List (String × List (String × LibraryMember)) :=
  [("Core",
      [("type", .function .coreType), ("not", .function .coreNot), ("eq", .function .coreEq),
        ("neq", .function .coreNeq), ("to_str", .function .coreToStr)]),
    ("Arr",
      [("len", .function .arrLen), ("push", .function .arrPush), ("pop", .function .arrPop),
        ("incl", .function .arrIncl), ("reverse", .function .arrReverse),
        ("concat", .function .arrConcat), ("join", .function .arrJoin), ("map", .function .arrMap),
        ("filter", .function .arrFilter), ("reduce", .function .arrReduce)]),
    ("Obj",
      [("keys", .function .objKeys), ("vals", .function .objVals), ("kvs", .function .objKvs),
        ("has", .function .objHas)]),
    ("Str",
      [("len", .function .strLen), ("pick", .function .strPick), ("split", .function .strSplit),
        ("incl", .function .strIncl), ("lf", .constant (.str "\n"))]),
    ("Math",
      [("floor", .function .mathFloor), ("ceil", .function .mathCeil),
        ("round", .function .mathRound), ("abs", .function .mathAbs),
        ("pi", .constant (.num 3.141592653589793))])]

/-- Declares a member of a namespace of the standard library. -/
def defineMember (scope : ScopeRef) (name : String) (member : LibraryMember) : Eval Unit := do
  let v ← match member with
    | .function native => newFunction (.native native)
    | .constant v => pure v
  define scope name v false

/-- Declares the standard library in a scope. -/
def defineLibrary (scope : ScopeRef) : Eval Unit := do
  library.forM fun (space, members) => do
    let inner ← newScope scope
    members.forM fun (name, member) => defineMember inner name member
    defineSpace scope space inner
  defineMember scope "print" (.function .print)

mutual

/-- The value of plain data. Arrays and objects are new. -/
def plainValue : Json → Eval Value
  | .null => return .null
  | .bool b => return .bool b
  | .int n =>
    match floatOfInt? n with
    | some x => return .num x
    | none => malformed .numberTooLarge
  | .float x => return .num x
  | .str s => return .str s
  | .arr items => do newArray (← plainItems items).toArray
  | .obj fields => do newObject (.ofList (← plainFields fields))

/-- The values of plain items. -/
def plainItems : List Json → Eval (List Value)
  | [] => return []
  | item :: items => return (← plainValue item) :: (← plainItems items)

/-- The values of plain fields. -/
def plainFields : List (String × Json) → Eval (List (String × Value))
  | [] => return []
  | (name, value) :: fields => return (name, ← plainValue value) :: (← plainFields fields)

end

/-- Declares host variables, which may not be assigned to. -/
def defineVariables (scope : ScopeRef) : List (String × Json) → Eval Unit
  | [] => pure ()
  | (name, value) :: rest => do
    define scope name (← plainValue value) false
    defineVariables scope rest

end Sigil
