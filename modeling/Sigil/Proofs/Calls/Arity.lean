import Sigil.Proofs.Calls.Snapshots

/-!
# Calls with too many and too few arguments

A function looks at a number of arguments that is fixed (`Function.capacity`): one written in a
script binds its parameters one by one, and one of the standard library has its arguments adjusted
or looks at a few of them itself. Arguments beyond that number are not looked at, and a missing one
counts as null. So a call comes to the same, down to the world it leaves, if further arguments are
added to a full list, or nulls to a short one. Only a fold tells a start value of null from none.
-/

namespace Sigil

open Eval

/-! ### What is looked at -/

/-- The number of arguments that a function of the standard library looks at. -/
def Native.capacity (f : Native) : Nat :=
  f.arity.getD (if f = .arrReduce then 3 else 2)

/-- The number of arguments that a function looks at. -/
def Function.capacity : Function → Nat
  | .closure params .. => params.length
  | .native f => f.capacity

/-- **Lists of arguments that are the same to a function** that looks at so many of them. -/
def SameArgs (n : Nat) (args args' : List Value) : Prop :=
  ∀ i < n, Native.arg args i = Native.arg args' i

namespace SameArgs

variable {n : Nat} {args args' : List Value}

private theorem headD_eq (h : SameArgs (n + 1) args args') :
    args.headD .null = args'.headD .null := by
  have hfirst := h 0 (Nat.succ_pos n)
  cases args <;> cases args' <;> exact hfirst

private theorem tail (h : SameArgs (n + 1) args args') : SameArgs n args.tail args'.tail := by
  intro i hi
  have hnext := h (i + 1) (Nat.succ_lt_succ hi)
  cases args <;> cases args' <;> exact hnext

/-- Further arguments are not looked at. -/
theorem append (h : n ≤ args.length) (extra : List Value) : SameArgs n (args ++ extra) args := by
  intro i hi
  simp only [Native.arg, List.getD_eq_getElem?_getD]
  rw [List.getElem?_append_left (Nat.lt_of_lt_of_le hi h)]

/-- A missing argument is null. -/
private theorem append_nulls (n : Nat) (args : List Value) (k : Nat) :
    SameArgs n (args ++ List.replicate k .null) args := by
  intro i _
  simp only [Native.arg, List.getD_eq_getElem?_getD]
  rcases Nat.lt_or_ge i args.length with hi | hi
  · rw [List.getElem?_append_left hi]
  · rw [List.getElem?_append_right hi, List.getElem?_eq_none hi, List.getElem?_replicate]
    split <;> rfl

end SameArgs

/-! ### Calls -/

/-- What is above the level of the log is not noted. -/
private theorem note_eq_of_lt {event : TraceEvent} {w : World} (h : w.log.level < event.level) :
    note event w = .ok () w :=
  if_neg (Nat.not_le.2 h)

/-- Binding parameters changes nothing but the store. -/
private theorem exists_bindParams_eq (scope : ScopeRef) (params : List String) (args : List Value)
    (w : World) : ∃ s, bindParams scope params args w = .ok () { w with store := s } := by
  induction params generalizing args w with
  | nil => exact ⟨w.store, rfl⟩
  | cons param params ih =>
    exact ih args.tail { w with store := w.store.define scope param (args.headD .null) false }

namespace SameArgs

variable {n : Nat} {args args' : List Value}

private theorem bindParams_eq (scope : ScopeRef) {params : List String}
    (h : SameArgs params.length args args') :
    bindParams scope params args = bindParams scope params args' := by
  induction params generalizing args args' with
  | nil => rfl
  | cons param params ih => rw [bindParams, bindParams, h.headD_eq, ih h.tail]

private theorem adjustArgs_eq (h : SameArgs n args args') :
    adjustArgs n args = adjustArgs n args' := by
  have hsucc (n : Nat) (args : List Value) :
      adjustArgs (n + 1) args = args.headD .null :: adjustArgs n args.tail := by
    cases args <;> simp [adjustArgs, List.replicate_succ]
  induction n generalizing args args' with
  | zero => simp [adjustArgs]
  | succ n ih => rw [hsucc, hsucc, h.headD_eq, ih h.tail]

/-- Joining looks at an array and a separator. -/
private theorem run_arrJoin_eq (call : Caller) (h : SameArgs 2 args args') :
    Native.run call .arrJoin args = Native.run call .arrJoin args' := by
  simp only [Native.run, Native.arrayArg, Native.textArg, Native.wrongArg, h 0 Nat.two_pos,
    h 1 Nat.one_lt_two]

/-- Folding looks for a start value only once it has an array and a function. -/
private theorem run_arrReduce_eq (call : Caller) (h : SameArgs 2 args args')
    (hstart : args[2]? = args'[2]? ∨ (Native.arg args' 1).kind ≠ .fn) :
    Native.run call .arrReduce args = Native.run call .arrReduce args' := by
  simp only [Native.run, Native.arrayArg, Native.functionArg, Native.wrongArg, h 0 Nat.two_pos,
    h 1 Nat.one_lt_two]
  rcases hstart with hstart | hkind
  · rw [hstart]
  · cases hfunction : Native.arg args' 1 with
    | fn r =>
      rw [hfunction] at hkind
      exact absurd rfl hkind
    | _ => rfl

/-- A function of the standard library is run on the arguments that it looks at. -/
private theorem run_eq (call : Caller) {f : Native} (h : SameArgs f.capacity args args')
    (hstart : f = .arrReduce → args[2]? = args'[2]? ∨ (Native.arg args' 1).kind ≠ .fn) :
    f.run call (f.arity.elim args (adjustArgs · args)) =
      f.run call (f.arity.elim args' (adjustArgs · args')) := by
  cases f with
  | arrJoin => exact run_arrJoin_eq call h
  | arrReduce => exact run_arrReduce_eq call (fun i hi => h i (Nat.lt_succ_of_lt hi)) (hstart rfl)
  | _ => exact congrArg _ h.adjustArgs_eq

/-- **A call depends on the arguments that the function looks at**, and a fold also on whether there
is a start value. -/
theorem callWithin_eq (fuel : Nat) {w : World} (hlevel : w.log.level < 3) {r : FunctionRef}
    {f : Function} (hf : w.store.function? r = some f) (h : SameArgs f.capacity args args')
    (hstart : f = .native .arrReduce → args[2]? = args'[2]? ∨ (Native.arg args' 1).kind ≠ .fn) :
    callWithin fuel (.fn r) args w = callWithin fuel (.fn r) args' w := by
  cases fuel with
  | zero => rfl
  | succ fuel =>
    have hfunction : function? r w = .ok (some f) w := congrArg (EStateM.Result.ok · w) hf
    simp only [callWithin, callValue, bind, EStateM.bind, hfunction]
    cases f with
    | closure params body scope name =>
      obtain ⟨s, hbind⟩ := exists_bindParams_eq ⟨w.store.scopes.size⟩ params args'
        { w with store := (w.store.newScope (some scope)).2 }
      have hscope : newScope scope w =
          .ok ⟨w.store.scopes.size⟩ { w with store := (w.store.newScope (some scope)).2 } := rfl
      simp only [callClosure, bind, EStateM.bind, hscope, bindParams_eq _ h, hbind]
      -- at this level of tracing the arguments of calls do not show
      rw [note_eq_of_lt hlevel, note_eq_of_lt hlevel]
    | native f =>
      change callNative (callWithin fuel) f args w = callNative (callWithin fuel) f args' w
      rw [callNative, callNative, h.run_eq _ fun hfold => hstart (congrArg _ hfold)]

end SameArgs

/-- A fold over an empty array fails without a start value, and with one it comes to that. -/
private theorem callWithin_arrReduce_empty (fuel : Nat) {w : World} (hlevel : w.log.level < 3)
    {r : FunctionRef} (hr : w.store.function? r = some (.native .arrReduce)) {a : ArrayRef}
    (ha : w.store.items a = #[]) (g : FunctionRef) (start : Value) :
    callWithin (fuel + 1) (.fn r) [.arr a, .fn g] w = .error (.script .emptyReduce) w ∧
      callWithin (fuel + 1) (.fn r) [.arr a, .fn g, start] w = .ok start w := by
  have hnote : note (.calledNative .arrReduce) w = .ok () w := note_eq_of_lt hlevel
  have hcall (more : List Value) :=
    (callWithin_native fuel hr hnote (.arr a :: .fn g :: more)).trans
      (run_arrReduce (callWithin fuel) a g more w)
  rw [ha] at hcall
  exact ⟨hcall [], hcall [start]⟩

/-- **Permissive arity.** Take a function of any kind and a world that traces no calls. Arguments
added to a list that has all the function looks at change nothing, and neither do nulls added to a
shorter one: the call has the same end, with the same result or error, and leaves the same world.
The only exception is a fold that is given a start value of null where it had none: over an empty
array it fails without and comes to null with it. -/
theorem callWithin_permissive (fuel : Nat) {w : World} (hlevel : w.log.level < 3) {r : FunctionRef}
    {f : Function} (hf : w.store.function? r = some f) (args : List Value) :
    (f.capacity ≤ args.length → ∀ extra,
      callWithin fuel (.fn r) (args ++ extra) w = callWithin fuel (.fn r) args w) ∧
    (args.length < f.capacity → ¬ (f = .native .arrReduce ∧ args.length = 2) → ∀ k,
      callWithin fuel (.fn r) (args ++ List.replicate k .null) w =
        callWithin fuel (.fn r) args w) ∧
    (f = .native .arrReduce → ∀ a g, w.store.items a = #[] →
      callWithin (fuel + 1) (.fn r) [.arr a, .fn g] w = .error (.script .emptyReduce) w ∧
        callWithin (fuel + 1) (.fn r) [.arr a, .fn g, .null] w = .ok .null w) := by
  refine ⟨fun hlength extra => ?_, fun hlength hfold k => ?_, ?_⟩
  · refine (SameArgs.append hlength extra).callWithin_eq fuel hlevel hf ?_
    rintro rfl
    exact .inl (List.getElem?_append_left (Nat.lt_of_lt_of_le (Nat.lt_succ_self 2) hlength))
  · refine (SameArgs.append_nulls f.capacity args k).callWithin_eq fuel hlevel hf ?_
    rintro rfl
    -- a list of less than two arguments has no function
    have hshort : args.length ≤ 1 := by
      have hlength : args.length < 3 := hlength
      have hfold : args.length ≠ 2 := fun h => hfold ⟨rfl, h⟩
      omega
    have hnull : Native.arg args 1 = .null := by
      rw [Native.arg, List.getD_eq_getElem?_getD, List.getElem?_eq_none hshort]
      rfl
    exact .inr (by rw [hnull]; decide)
  · rintro rfl a g ha
    exact callWithin_arrReduce_empty fuel hlevel hf ha g .null

/-- A function of the script with a repeated parameter, and a fold over an empty array. -/
theorem callWithin_permissive_repeated :
    let f : Function := .closure ["a", "b", "a"] (.block [.output (.ident "a")]) ⟨0⟩ none
    let s := ((Store.empty.newScope none).2.newArray #[]).2
    let w : World := ⟨((s.newFunction f).2.newFunction (.native .arrReduce)).2, #[], .fresh 2 none⟩
    (w.log.level < 3 ∧ w.store.function? ⟨0⟩ = some f ∧
      w.store.function? ⟨1⟩ = some (.native .arrReduce) ∧ w.store.items ⟨0⟩ = #[]) ∧
    callWithin 9 (.fn ⟨0⟩) ([.null, .null, .bool true] ++ [.str "more"]) w =
      callWithin 9 (.fn ⟨0⟩) [.null, .null, .bool true] w ∧
    callWithin 9 (.fn ⟨0⟩) ([.bool true] ++ List.replicate 2 .null) w =
      callWithin 9 (.fn ⟨0⟩) [.bool true] w ∧
    callWithin 9 (.fn ⟨1⟩) [.arr ⟨0⟩, .fn ⟨0⟩, .null] w = .ok .null w := by
  intro f s w
  have hlevel : w.log.level < 3 := by decide
  obtain ⟨hextra, -, -⟩ := callWithin_permissive 9 hlevel (r := ⟨0⟩) (f := f) rfl
    [.null, .null, .bool true]
  obtain ⟨-, hnulls, -⟩ := callWithin_permissive 9 hlevel (r := ⟨0⟩) (f := f) rfl [.bool true]
  obtain ⟨-, -, hfold⟩ := callWithin_permissive 8 hlevel (r := ⟨1⟩) rfl []
  exact ⟨⟨hlevel, rfl, rfl, rfl⟩, hextra (by decide) _, hnulls (by decide) (by simp [f]) 2,
    (hfold rfl ⟨0⟩ ⟨0⟩ rfl).2⟩

end Sigil
