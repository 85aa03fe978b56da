import Sigil.Eval.World
import Sigil.Text.Grapheme.Cluster

/-!
# What the standard library does

`Native.run` gives each function of the standard library its meaning. Functions that take functions
are given `call`, the very call that scripts use. They go through the elements that the array has
when they start, whatever the called function does to the array.
-/

namespace Sigil

/-- Calls a function value with arguments. -/
abbrev Caller := Value → List Value → Eval Value

/-- A list of exactly `n` arguments: further ones are dropped and missing ones are null. -/
def adjustArgs (n : Nat) (args : List Value) : List Value :=
  args.take n ++ List.replicate (n - args.length) .null

theorem mem_adjustArgs {n : Nat} {args : List Value} {v : Value} (h : v ∈ adjustArgs n args) :
    v ∈ args ∨ v = .null := by
  rcases List.mem_append.1 h with h | h
  · exact .inl (List.mem_of_mem_take h)
  · exact .inr (List.mem_replicate.1 h).2

/-- Whether `part` occurs in `whole`. -/
def occursIn (part : List Char) : List Char → Bool
  | [] => part.isEmpty
  | c :: rest => part.isPrefixOf (c :: rest) || occursIn part rest

/-- Whether a number is a position, counted from one, in a list of `size`. -/
def isPosition (x : Float) (size : Nat) : Bool :=
  match wholeNumber? x with
  | some i => 1 ≤ i ∧ i ≤ size
  | none => false

namespace Native

open Eval

/-- An argument, null if it is missing. -/
def arg (args : List Value) (i : Nat) : Value :=
  args.getD i .null

/-- Stops because an argument has the wrong kind. -/
def wrongArg {α : Type} (f : Native) (args : List Value) (i : Nat) (expected : Kind) : Eval α :=
  fail (.argument f expected (i + 1) (arg args i).kind)

/-- An argument that has to be an array. -/
def arrayArg (f : Native) (args : List Value) (i : Nat) : Eval ArrayRef :=
  match arg args i with
  | .arr r => pure r
  | _ => wrongArg f args i .arr

/-- An argument that has to be an object. -/
def objectArg (f : Native) (args : List Value) (i : Nat) : Eval ObjectRef :=
  match arg args i with
  | .obj r => pure r
  | _ => wrongArg f args i .obj

/-- An argument that has to be a text. -/
def textArg (f : Native) (args : List Value) (i : Nat) : Eval String :=
  match arg args i with
  | .str s => pure s
  | _ => wrongArg f args i .str

/-- An argument that has to be a number. -/
def numberArg (f : Native) (args : List Value) (i : Nat) : Eval Float :=
  match arg args i with
  | .num x => pure x
  | _ => wrongArg f args i .num

/-- An argument that has to be a truth value. -/
def truthArg (f : Native) (args : List Value) (i : Nat) : Eval Bool :=
  match arg args i with
  | .bool b => pure b
  | _ => wrongArg f args i .bool

/-- An argument that has to be a function. -/
def functionArg (f : Native) (args : List Value) (i : Nat) : Eval Value :=
  match arg args i with
  | .fn r => pure (.fn r)
  | _ => wrongArg f args i .fn

/-- The texts of an array of texts. -/
def joinTexts (items : List Value) : Eval (List String) :=
  items.mapM fun
    | .str s => pure s
    | v => fail (.joinElement v.kind)

/-- Whether an element passes the test of a function. -/
def passes (call : Caller) (test : Value) (item : Value) : Eval Bool := do
  match ← call test [item] with
  | .bool b => pure b
  | v => fail (.filterResult v.kind)

/-- The new array of pairs of key and value. -/
def pairs (entries : List (String × Value)) : Eval Value := do
  let pairs ← entries.mapM fun (key, v) => newArray #[.str key, v]
  newArray pairs.toArray

/-- The greatest whole number not above a number. -/
def floor : Float → Except Fault Int :=
  wholePart Binary.floor

/-- The least whole number not below a number. -/
def ceil : Float → Except Fault Int :=
  wholePart Binary.ceil

/-- The nearest whole number, halves upwards; the half is added before. -/
def roundHalfUp (x : Float) : Except Fault Int :=
  floor (x + 0.5)

/-- What a function of the standard library does with its arguments. -/
def run (call : Caller) (f : Native) (args : List Value) : Eval Value :=
  match f with
  | .print => do
    emit (arg args 0)
    return .null
  | .coreType => return .str (arg args 0).kind.name
  | .coreNot => return .bool (!(← truthArg f args 0))
  | .coreEq => return .bool ((arg args 0).equal (arg args 1))
  | .coreNeq => return .bool (!(arg args 0).equal (arg args 1))
  | .coreToStr => return .str (← text (arg args 0))
  | .arrLen => return .num (Float.ofNat (← items (← arrayArg f args 0)).size)
  | .arrPush => do
    let r ← arrayArg f args 0
    push r (arg args 1)
    return .arr r
  | .arrPop => do
    let r ← arrayArg f args 0
    match (← items r).back? with
    | none => return .null
    | some last =>
      pop r
      return last
  | .arrIncl => do
    let r ← arrayArg f args 0
    return .bool ((← items r).any fun item => item.equal (arg args 1))
  | .arrReverse => do
    let r ← arrayArg f args 0
    newArray (← items r).reverse
  | .arrConcat => do
    let a ← arrayArg f args 0
    let b ← arrayArg f args 1
    newArray ((← items a) ++ (← items b))
  | .arrJoin => do
    let r ← arrayArg f args 0
    let separator ← match arg args 1 with
      | .null => pure ""
      | _ => textArg f args 1
    let parts ← joinTexts (← items r).toList
    return .str (separator.intercalate parts)
  | .arrMap => do
    let r ← arrayArg f args 0
    let g ← functionArg f args 1
    let results ← (← items r).toList.mapM fun item => call g [item]
    newArray results.toArray
  | .arrFilter => do
    let r ← arrayArg f args 0
    let g ← functionArg f args 1
    let kept ← (← items r).toList.filterM (passes call g)
    newArray kept.toArray
  | .arrReduce => do
    let r ← arrayArg f args 0
    let g ← functionArg f args 1
    let snapshot := (← items r).toList
    match args[2]?, snapshot with
    | some start, _ => snapshot.foldlM (fun acc item => call g [acc, item]) start
    | none, [] => fail .emptyReduce
    | none, first :: rest => rest.foldlM (fun acc item => call g [acc, item]) first
  | .objKeys => do
    let r ← objectArg f args 0
    newArray ((← fields r).keys.map Value.str).toArray
  | .objVals => do
    let r ← objectArg f args 0
    newArray (← fields r).values.toArray
  | .objKvs => do
    let r ← objectArg f args 0
    pairs (← fields r).entries
  | .objHas => do
    let r ← objectArg f args 0
    let key ← textArg f args 1
    return .bool ((← fields r).contains key)
  | .strLen => return .num (Float.ofNat (graphemes (← textArg f args 0)).length)
  | .strPick => do
    let s ← textArg f args 0
    let position ← numberArg f args 1
    let characters := graphemes s
    if isPosition position characters.length then
      let i ← ofPartial (wholePart Binary.truncate position)
      return .str (← ofPartial (required .noSuchPlace characters[(i - 1).toNat]?))
    else fail (.pickRange position characters.length)
  | .strSplit => do
    let s ← textArg f args 0
    newArray ((graphemes s).map Value.str).toArray
  | .strIncl => do
    let s ← textArg f args 0
    let part ← textArg f args 1
    return .bool (occursIn part.toList s.toList)
  | .mathFloor => return .num (← ofPartial (integral floor (← numberArg f args 0)))
  | .mathCeil => return .num (← ofPartial (integral ceil (← numberArg f args 0)))
  | .mathRound => return .num (← ofPartial (integral roundHalfUp (← numberArg f args 0)))
  | .mathAbs => return .num (← numberArg f args 0).abs

end Native

end Sigil
