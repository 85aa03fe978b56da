import Mathlib.Data.List.Induction
import Sigil.Proofs.Validity.Redefinition

/-!
# Functions that call functions

Three functions of the standard library take a function and call it: one collects its results, one
keeps the elements that it approves of, and one folds the elements from the left. The function that
is called may do anything to the world, also to the array at hand. All three go through the elements
that the array had at the start, call the function once on each of them in order, each time in the
world that the last call has left (`Calls`), and end with the first call that fails.
-/

namespace Sigil

open Eval

section Calls

variable (call : Caller) (g : Value) (args : List Value → Value → List Value)

/-- **Calls of a function one after the other**, each in the world that the last one has left. They
have gone through some elements and come to a value for each. The arguments of a call are made from
the values so far and from the element that it is for. -/
inductive Calls (w : World) : List Value → List Value → World → Prop
  /-- No calls yet. -/
  | none : Calls w [] [] w
  /-- One more call, which comes to a value. -/
  | next {xs vs : List Value} {x v : Value} {w₁ w' : World} :
    Calls w xs vs w₁ → call g (args vs x) w₁ = .ok v w' → Calls w (xs ++ [x]) (vs ++ [v]) w'

/-- The calls for the first of some elements have come to some values, and the call for the next
element ends as given. -/
def CallAfter (w : World) (xs vs : List Value) (last : EStateM.Result Stop World Value) : Prop :=
  ∃ before x after w₁, xs = before ++ x :: after ∧ Calls call g args w before vs w₁ ∧
    last = call g (args vs x) w₁

/-- The first call that fails ends everything. -/
def FailsInCall (w : World) (xs : List Value) (out : EStateM.Result Stop World Value) : Prop :=
  ∃ vs e w', CallAfter call g args w xs vs (.error e w') ∧ out = .error e w'

end Calls

section Outcomes

variable (call : Caller) (g : Value) (xs : List Value) (w : World)
  (out : EStateM.Result Stop World Value)

/-- A call that takes an element alone. -/
def onElement (_ : List Value) (x : Value) : List Value :=
  [x]

/-- A call that takes the last value, at first the start value, and an element. -/
def onLastAnd (start : Value) (vs : List Value) (x : Value) : List Value :=
  [vs.getLastD start, x]

/-- **An effectful map**: the values of the calls are the elements of a new array. -/
def MapsOver : Prop :=
  (∃ vs w', Calls call g onElement w xs vs w' ∧ vs.length = xs.length ∧
    out = newArray vs.toArray w') ∨
  FailsInCall call g onElement w xs out

/-- **An effectful filter**: each call says whether its element is kept, and those that are make up
a new array. The first answer that is no truth value ends everything. -/
def FiltersOver : Prop :=
  (∃ (bs : List Bool) (kept : List Value) (w' : World),
    Calls call g onElement w xs (bs.map .bool) w' ∧ bs.length = xs.length ∧
    kept = ((xs.zip bs).filter Prod.snd).map Prod.fst ∧ kept.Sublist xs ∧
    out = newArray kept.toArray w') ∨
  (∃ (bs : List Bool) (last : EStateM.Result Stop World Value),
    CallAfter call g onElement w xs (bs.map .bool) last ∧
    ((∃ e w', last = .error e w' ∧ out = .error e w') ∨
      ∃ v w' error, last = .ok v w' ∧ v.kind ≠ .bool ∧ error.category = .typeMismatch ∧
        out = .error (.script error) w'))

/-- **An effectful fold from the left**: the result is the value of the last call, or the start
value if there is none. -/
def FoldsOver (start : Value) : Prop :=
  (∃ vs w', Calls call g (onLastAnd start) w xs vs w' ∧ vs.length = xs.length ∧
    out = .ok (vs.getLastD start) w') ∨
  FailsInCall call g (onLastAnd start) w xs out

end Outcomes

namespace Calls

variable {call : Caller} {g : Value} {args : List Value → Value → List Value} {xs vs : List Value}
  {w w' : World}

private theorem length_eq (h : Calls call g args w xs vs w') : vs.length = xs.length := by
  induction h with
  | none => rfl
  | next _ _ ih => simp [ih]

variable (call g args) in
/-- **Calls go through all elements, or up to the first whose call does not come to a value that is
fine.** -/
theorem exists_or_callAfter (fine : Value → Prop) (xs : List Value) (w : World) :
    (∃ vs w', Calls call g args w xs vs w' ∧ ∀ v ∈ vs, fine v) ∨
      ∃ vs last, CallAfter call g args w xs vs last ∧ (∀ v ∈ vs, fine v) ∧
        ∀ v w', last = .ok v w' → ¬ fine v := by
  induction xs using List.reverseRecOn with
  | nil => exact .inl ⟨[], w, .none, List.forall_mem_nil _⟩
  | append_singleton xs x ih =>
    obtain ⟨vs, w₁, hcalls, hfine⟩ | ⟨vs, last, hafter, hrest⟩ := ih
    · by_cases hnext : ∃ v w', call g (args vs x) w₁ = .ok v w' ∧ fine v
      · obtain ⟨v, w', hcall, hv⟩ := hnext
        refine .inl ⟨_, _, hcalls.next hcall, fun u hu => ?_⟩
        rcases List.mem_append.1 hu with hu | hu
        · exact hfine u hu
        · obtain rfl := List.mem_singleton.1 hu
          exact hv
      · refine .inr ⟨vs, _, ⟨xs, x, [], w₁, rfl, hcalls, rfl⟩, hfine, fun v w' hv hfine' => ?_⟩
        exact hnext ⟨v, w', hv, hfine'⟩
    · obtain ⟨before, y, after, w₁, rfl, hcalls, hlast⟩ := hafter
      exact .inr ⟨vs, last, ⟨before, y, after ++ [x], w₁, by simp, hcalls, hlast⟩, hrest⟩

/-- Calls go through all elements, or up to the first whose call fails. -/
theorem exists_or_fails (args : List Value → Value → List Value) (xs : List Value) (w : World) :
    (∃ vs w', Calls call g args w xs vs w') ∨
      ∃ vs e w', CallAfter call g args w xs vs (.error e w') := by
  obtain ⟨vs, w', hcalls, -⟩ | ⟨vs, last, hlast, -, herror⟩ :=
    exists_or_callAfter call g args (fun _ => True) xs w
  · exact .inl ⟨vs, w', hcalls⟩
  · cases last with
    | ok v w' => exact absurd trivial (herror v w' rfl)
    | error e w' => exact .inr ⟨vs, e, w', hlast⟩

/-! ### Along the calls -/

private theorem mapM_eq (h : Calls call g onElement w xs vs w') :
    xs.mapM (fun x => call g [x]) w = .ok vs w' := by
  induction h with
  | none => rfl
  | next _ hcall ih =>
    rw [List.mapM_append, bind_eq_of_ok ih, List.mapM_cons]
    simp only [List.mapM_nil, bind_assoc, pure_bind]
    exact bind_eq_of_ok hcall

private theorem filterAuxM_append (p : Value → Eval Bool) (xs ys kept : List Value) :
    (xs ++ ys).filterAuxM p kept = (do ys.filterAuxM p (← xs.filterAuxM p kept)) := by
  induction xs generalizing kept with
  | nil => exact (pure_bind _ _).symm
  | cons x xs ih => simp only [List.cons_append, List.filterAuxM, ih, bind_assoc]

/-- The elements that are kept are collected in reverse. -/
private theorem filterAuxM_eq {bs : List Bool} (h : Calls call g onElement w xs (bs.map .bool) w') :
    xs.filterAuxM (Native.passes call g) [] w =
      .ok (((xs.zip bs).filter Prod.snd).map Prod.fst).reverse w' := by
  generalize hvs : bs.map Value.bool = vs at h
  induction h generalizing bs with
  | none =>
    obtain rfl := List.map_eq_nil_iff.1 hvs
    rfl
  | @next xs vs x v w₁ w' hcalls hcall ih =>
    obtain ⟨bs, last, rfl, hbs, hlast⟩ := List.map_eq_append_iff.1 hvs
    obtain ⟨b, rfl, rfl⟩ := List.map_eq_singleton_iff.1 hlast
    have hlength : xs.length = bs.length := by
      rw [← hcalls.length_eq, ← hbs, List.length_map]
    have hpasses : Native.passes call g x w₁ = .ok b w' := bind_eq_of_ok hcall
    rw [filterAuxM_append, bind_eq_of_ok (ih hbs), List.filterAuxM, bind_eq_of_ok hpasses,
      List.zip_append hlength]
    cases b <;> simp [List.filterAuxM] <;> rfl

private theorem foldlM_eq {start : Value} (h : Calls call g (onLastAnd start) w xs vs w') :
    xs.foldlM (fun acc x => call g [acc, x]) start w = .ok (vs.getLastD start) w' := by
  induction h with
  | none => rfl
  | next _ hcall ih =>
    rw [List.foldlM_append, bind_eq_of_ok ih, List.foldlM_cons, List.getLastD_concat]
    exact bind_eq_of_ok hcall

end Calls

namespace CallAfter

variable {call : Caller} {g : Value} {xs vs : List Value} {w w' : World} {e : Stop}

private theorem mapM_eq (h : CallAfter call g onElement w xs vs (.error e w')) :
    xs.mapM (fun x => call g [x]) w = .error e w' := by
  obtain ⟨before, x, after, w₁, rfl, hcalls, hlast⟩ := h
  rw [List.mapM_append, bind_eq_of_ok hcalls.mapM_eq, List.mapM_cons, bind_assoc]
  exact bind_eq_of_error hlast.symm

/-- What ends a test ends the filter. -/
private theorem filterM_eq {bs : List Bool} {last : EStateM.Result Stop World Value}
    (h : CallAfter call g onElement w xs (bs.map .bool) last)
    (hlast : ∀ x w₁, last = call g [x] w₁ → Native.passes call g x w₁ = .error e w') :
    xs.filterM (Native.passes call g) w = .error e w' := by
  obtain ⟨before, x, after, w₁, rfl, hcalls, heq⟩ := h
  have hpasses := hlast x w₁ heq
  refine bind_eq_of_error ?_
  rw [Calls.filterAuxM_append, bind_eq_of_ok hcalls.filterAuxM_eq, List.filterAuxM]
  exact bind_eq_of_error hpasses

private theorem foldlM_eq {start : Value}
    (h : CallAfter call g (onLastAnd start) w xs vs (.error e w')) :
    xs.foldlM (fun acc x => call g [acc, x]) start w = .error e w' := by
  obtain ⟨before, x, after, w₁, rfl, hcalls, hlast⟩ := h
  rw [List.foldlM_append, bind_eq_of_ok hcalls.foldlM_eq, List.foldlM_cons]
  exact bind_eq_of_error hlast.symm

end CallAfter

/-! ### The three functions -/

section Outcomes

variable (call : Caller) (g : Value) (xs : List Value) (w : World)

private theorem mapsOver_mapM :
    MapsOver call g xs w ((do newArray (← xs.mapM fun x => call g [x]).toArray) w) := by
  obtain ⟨vs, w', hcalls⟩ | ⟨vs, e, w', hlast⟩ := Calls.exists_or_fails onElement xs w
  · exact .inl ⟨vs, w', hcalls, hcalls.length_eq, bind_eq_of_ok hcalls.mapM_eq⟩
  · exact .inr ⟨vs, e, w', hlast, bind_eq_of_error hlast.mapM_eq⟩

private theorem foldsOver_foldlM (start : Value) :
    FoldsOver call g xs w (xs.foldlM (fun acc x => call g [acc, x]) start w) start := by
  obtain ⟨vs, w', hcalls⟩ | ⟨vs, e, w', hlast⟩ := Calls.exists_or_fails (onLastAnd start) xs w
  · exact .inl ⟨vs, w', hcalls, hcalls.length_eq, hcalls.foldlM_eq⟩
  · exact .inr ⟨vs, e, w', hlast, hlast.foldlM_eq⟩

/-- Values that are all truth values. -/
theorem exists_eq_map_bool {vs : List Value} (h : ∀ v ∈ vs, v.kind = .bool) :
    ∃ bs : List Bool, vs = bs.map .bool := by
  induction vs with
  | nil => exact ⟨[], rfl⟩
  | cons v vs ih =>
    obtain ⟨hv, hvs⟩ := List.forall_mem_cons.1 h
    obtain ⟨bs, rfl⟩ := ih hvs
    cases v with
    | bool b => exact ⟨b :: bs, rfl⟩
    | _ => cases hv

private theorem filtersOver_filterM :
    FiltersOver call g xs w
      ((do newArray (← xs.filterM (Native.passes call g)).toArray) w) := by
  obtain ⟨vs, w', hcalls, hbool⟩ | ⟨vs, last, hlast, hbool, herror⟩ :=
    Calls.exists_or_callAfter call g onElement (·.kind = .bool) xs w
  · obtain ⟨bs, rfl⟩ := exists_eq_map_bool hbool
    have hlength : bs.length = xs.length := by
      rw [← hcalls.length_eq, List.length_map]
    have hfilter : xs.filterM (Native.passes call g) w =
        .ok (((xs.zip bs).filter Prod.snd).map Prod.fst) w' := by
      refine (bind_eq_of_ok hcalls.filterAuxM_eq).trans ?_
      rw [List.reverse_reverse]
      rfl
    have hsublist := (List.filter_sublist (p := Prod.snd) (l := xs.zip bs)).map Prod.fst
    rw [List.map_fst_zip (Nat.le_of_eq hlength.symm)] at hsublist
    exact .inl ⟨bs, _, w', hcalls, hlength, rfl, hsublist, bind_eq_of_ok hfilter⟩
  · obtain ⟨bs, rfl⟩ := exists_eq_map_bool hbool
    refine .inr ⟨bs, last, hlast, ?_⟩
    cases last with
    | error e w' =>
      refine .inl ⟨e, w', rfl, bind_eq_of_error (hlast.filterM_eq fun x w₁ hcall => ?_)⟩
      exact bind_eq_of_error hcall.symm
    | ok v w' =>
      have hkind := herror v w' rfl
      refine .inr ⟨v, w', .filterResult v.kind, rfl, hkind, rfl,
        bind_eq_of_error (hlast.filterM_eq fun x w₁ hcall => ?_)⟩
      refine (bind_eq_of_ok hcall.symm).trans ?_
      cases v with
      | bool b => exact absurd rfl hkind
      | _ => rfl

end Outcomes

/-- A call of a function of the standard library is noted, and then the function is run. -/
theorem callWithin_native (fuel : Nat) {w w₁ : World} {q : FunctionRef} {f : Native}
    (hq : w.store.function? q = some (.native f)) (hnote : note (.calledNative f) w = .ok () w₁)
    (args : List Value) : callWithin (fuel + 1) (.fn q) args w =
      f.run (callWithin fuel) (f.arity.elim args (adjustArgs · args)) w₁ := by
  have hfunction : function? q w = .ok (some (.native f)) w := congrArg (EStateM.Result.ok · w) hq
  exact (bind_eq_of_ok hfunction).trans (bind_eq_of_ok hnote)

/-- A note leaves all but the log, so a function of the standard library is run on the very store
that it is called in. -/
theorem exists_callWithin_native (fuel : Nat) {w : World} {q : FunctionRef} {f : Native}
    (hq : w.store.function? q = some (.native f)) (args : List Value) :
    ∃ log, callWithin (fuel + 1) (.fn q) args w =
      f.run (callWithin fuel) (f.arity.elim args (adjustArgs · args)) { w with log } := by
  obtain ⟨log, hnote⟩ := exists_note_eq_ok (.calledNative f) w
  exact ⟨log, callWithin_native fuel hq hnote args⟩

namespace Store

/-- Some functions of the standard library stand in the store, at given references. -/
def Offers (s : Store) (library : Native → FunctionRef) (fs : List Native) : Prop :=
  ∀ f ∈ fs, s.function? (library f) = some (.native f)

theorem items_newArray (s : Store) (items : Array Value) :
    (s.newArray items).2.items (s.newArray items).1 = items := by
  simp [newArray, Store.items]

theorem items_newArray_of_lt {s : Store} {r : ArrayRef} (h : r.index < s.arrays.size)
    (items : Array Value) : (s.newArray items).2.items r = s.items r := by
  simp [newArray, Store.items, Array.getElem?_push, Nat.ne_of_lt h]

end Store

theorem newArray_eq (items : Array Value) (w : World) :
    newArray items w =
      .ok (.arr (w.store.newArray items).1) { w with store := (w.store.newArray items).2 } :=
  rfl

/-- A function of the standard library that answers with a new array. -/
theorem exists_callWithin_newArray (fuel : Nat) {w : World} {q : FunctionRef} {f : Native}
    (hq : w.store.function? q = some (.native f)) (args : List Value) (items : Array Value)
    (hrun : ∀ log, f.run (callWithin fuel) (f.arity.elim args (adjustArgs · args)) { w with log } =
      newArray items { w with log }) :
    ∃ a w', callWithin (fuel + 1) (.fn q) args w = .ok (.arr a) w' ∧ w'.store.items a = items ∧
      w'.store.functions = w.store.functions := by
  obtain ⟨log, hcall⟩ := exists_callWithin_native fuel hq args
  exact ⟨_, _, (hcall.trans (hrun log)).trans (newArray_eq _ _), Store.items_newArray _ _, rfl⟩

/-- A fold starts with the third argument, or else with the first element. -/
theorem run_arrReduce (call : Caller) (r : ArrayRef) (g : FunctionRef) (more : List Value)
    (w : World) : Native.run call .arrReduce (.arr r :: .fn g :: more) w =
      (match more, (w.store.items r).toList with
        | start :: _, xs => xs.foldlM (fun acc x => call (.fn g) [acc, x]) start
        | [], [] => fail .emptyReduce
        | [], first :: rest => rest.foldlM (fun acc x => call (.fn g) [acc, x]) first) w := by
  have hitems : items r w = .ok (w.store.items r) w := rfl
  simp only [Native.run, Native.arrayArg, Native.functionArg, Native.arg, List.getD_cons_zero,
    List.getD_cons_succ, pure_bind, bind_eq_of_ok hitems]
  cases more <;> cases (w.store.items r).toList <;> rfl

/-- **Functions that call functions go through the elements that an array had when they were
called**, once each and in order, whatever the calls do to the array and to anything else. The first
of them maps, the second filters and the third folds from the left. The fold starts with the third
argument if there is one, be it null. Otherwise it starts with the first element and goes through
the others, and if there are no elements it fails. -/
theorem callbacks_over_snapshot (fuel : Nat) {w : World} {q : FunctionRef} {f : Native}
    (hq : w.store.function? q = some (.native f)) (r : ArrayRef) (g : FunctionRef)
    (more : List Value) :
    ∃ w₁ : World, note (.calledNative f) w = .ok () w₁ ∧ w₁.store = w.store ∧
      w₁.printed = w.printed ∧
      let xs := (w.store.items r).toList
      let out := callWithin (fuel + 1) (.fn q) (.arr r :: .fn g :: more) w
      (f = .arrMap → MapsOver (callWithin fuel) (.fn g) xs w₁ out) ∧
      (f = .arrFilter → FiltersOver (callWithin fuel) (.fn g) xs w₁ out) ∧
      (f = .arrReduce →
        (∀ start rest, more = start :: rest →
          FoldsOver (callWithin fuel) (.fn g) xs w₁ out start) ∧
        (more = [] →
          (xs = [] ∧ ∃ error : ScriptError, error.category = .typeMismatch ∧
            out = .error (.script error) w₁) ∨
          ∃ first rest, xs = first :: rest ∧
            FoldsOver (callWithin fuel) (.fn g) rest w₁ out first)) := by
  obtain ⟨log, hnote⟩ := exists_note_eq_ok (.calledNative f) w
  refine ⟨_, hnote, rfl, rfl, ?_⟩
  intro xs out
  have hout : out = _ := callWithin_native fuel hq hnote (.arr r :: .fn g :: more)
  refine ⟨?_, ?_, ?_⟩
  · rintro rfl
    rw [hout]
    exact mapsOver_mapM (callWithin fuel) (.fn g) xs _
  · rintro rfl
    rw [hout]
    exact filtersOver_filterM (callWithin fuel) (.fn g) xs _
  · rintro rfl
    rw [hout.trans (run_arrReduce (callWithin fuel) r g more _)]
    refine ⟨?_, ?_⟩
    · rintro start rest rfl
      exact foldsOver_foldlM (callWithin fuel) (.fn g) xs _ start
    · rintro rfl
      have hxs : (({ w with log } : World).store.items r).toList = xs := rfl
      rw [hxs]
      clear_value xs
      cases xs with
      | nil => exact .inl ⟨rfl, .emptyReduce, rfl, rfl⟩
      | cons first rest =>
        exact .inr ⟨first, rest, rfl, foldsOver_foldlM (callWithin fuel) (.fn g) rest _ first⟩

/-- An array that holds itself twice, and calls on its elements that take its last element from it:
there are two calls, although after them the array is empty. -/
theorem callbacks_over_snapshot_pop :
    let s : Store := { Store.empty with
      arrays := #[#[.arr ⟨0⟩, .arr ⟨0⟩]]
      functions := #[.native .arrMap, .native .arrPop] }
    let w : World := ⟨s, #[], .fresh 0 none⟩
    w.store.function? ⟨0⟩ = some (.native .arrMap) ∧
      MapsOver (callWithin 8) (.fn ⟨1⟩) [.arr ⟨0⟩, .arr ⟨0⟩] w
        (callWithin 9 (.fn ⟨0⟩) [.arr ⟨0⟩, .fn ⟨1⟩] w) ∧
      ∃ w', callWithin 9 (.fn ⟨0⟩) [.arr ⟨0⟩, .fn ⟨1⟩] w = .ok (.arr ⟨1⟩) w' ∧
        w'.store.arrays = #[#[], #[.arr ⟨0⟩, .arr ⟨0⟩]] := by
  intro s w
  have hmap : w.store.function? ⟨0⟩ = some (.native .arrMap) := rfl
  obtain ⟨w₁, hnote, -, -, hmaps, -⟩ := callbacks_over_snapshot 8 hmap ⟨0⟩ ⟨1⟩ []
  cases hnote
  exact ⟨hmap, hmaps rfl, _, rfl, rfl⟩

end Sigil
