import Sigil.Proofs.Recording.Erasure

/-!
# Only pushing and popping changes containers

Between any two moments of an evaluation the objects and functions that were there at the first stay
as they are, and each array has what the pushes and pops on it made of its elements, in the order in
which they happened (`Store.UpdatedBy`). Whatever else an evaluation does, it makes new containers.
-/

namespace Sigil

open Eval

/-- What a deed makes of the elements of an array. -/
def Deed.update (r : ArrayRef) (items : Array Value) : Deed → Array Value
  | .native .arrPush args =>
    match Native.arg args 0 with
    | .arr q => if q = r then items.push (Native.arg args 1) else items
    | _ => items
  | .native .arrPop args =>
    match Native.arg args 0 with
    | .arr q => if q = r then items.pop else items
    | _ => items
  | _ => items

private theorem Deed.update_of_isUpdate {deed : Deed} (h : deed.isUpdate = false) (r : ArrayRef)
    (items : Array Value) : deed.update r items = items := by
  unfold Deed.update
  split <;> simp_all [Deed.isUpdate]

namespace Store

/-- **What has become of the containers and functions of a store** after some stages: objects and
functions are as they were, and arrays have gone through the updates of the stages one by one. -/
structure UpdatedBy (stages : List Stage) (s s' : Store) : Prop where
  objects : ∀ (r : ObjectRef) (fields : Table Value),
    s.objects[r.index]? = some fields → s'.objects[r.index]? = some fields
  functions : ∀ (r : FunctionRef) (f : Function), s.function? r = some f → s'.function? r = some f
  arrays : ∀ (r : ArrayRef) (items : Array Value), s.arrays[r.index]? = some items →
    s'.arrays[r.index]? = some (stages.foldl (fun items stage => stage.deed.update r items) items)

namespace UpdatedBy

variable {s s₁ s' : Store} {stages more : List Stage}

theorem refl (s : Store) : UpdatedBy [] s s :=
  ⟨fun _ _ h => h, fun _ _ h => h, fun _ _ h => h⟩

theorem append (h : UpdatedBy stages s s₁) (h' : UpdatedBy more s₁ s') :
    UpdatedBy (stages ++ more) s s' where
  objects r fields hfields := h'.objects r fields (h.objects r fields hfields)
  functions r f hf := h'.functions r f (h.functions r f hf)
  arrays r items hitems := by
    rw [List.foldl_append]
    exact h'.arrays r _ (h.arrays r items hitems)

/-- A stage that neither pushes nor pops. -/
private theorem of_isUpdate {stage : Stage} (hstage : stage.deed.isUpdate = false)
    (h : UpdatedBy [] s s') : UpdatedBy [stage] s s' where
  objects := h.objects
  functions := h.functions
  arrays r items hitems := by
    simp only [List.foldl_cons, List.foldl_nil, Deed.update_of_isUpdate hstage]
    exact h.arrays r items hitems

private theorem of_sparing {strict : Prop} (h : Sparing strict s s') : UpdatedBy [] s s' := by
  cases h with
  | newArray =>
    exact ⟨fun _ _ h => h, fun _ _ h => h, fun _ _ h => getElem?_push_of_eq_some h _⟩
  | newObject =>
    exact ⟨fun _ _ h => getElem?_push_of_eq_some h _, fun _ _ h => h, fun _ _ h => h⟩
  | newFunction =>
    exact ⟨fun _ _ h => h, fun _ _ h => getElem?_push_of_eq_some h _, fun _ _ h => h⟩
  -- all other changes do not touch containers and functions
  | _ => exact ⟨fun _ _ h => h, fun _ _ h => h, fun _ _ h => h⟩

private theorem of_path {strict : Prop} (h : Relation.ReflTransGen (Sparing strict) s s') :
    UpdatedBy [] s s' := by
  induction h with
  | refl => exact refl s
  | tail _ hstep ih => exact ih.append (of_sparing hstep)

end UpdatedBy

/-- An update of one array leaves all other arrays as they are. -/
private theorem getElem?_modify_arrays {s : Store} {r : ArrayRef} {items : Array Value}
    (h : s.arrays[r.index]? = some items) (q : ArrayRef) (f : Array Value → Array Value) :
    (s.arrays.modify q.index f)[r.index]? = some (if q = r then f items else items) := by
  have hindex : q.index = r.index ↔ q = r := by
    cases q
    cases r
    simp
  rw [Array.getElem?_modify, h]
  by_cases hq : q = r <;> simp [hindex, hq]

namespace UpdatedBy

variable {s s' : Store} {stage : Stage} {stages : List Stage} {args : List Value}

private theorem push (hdeed : stage.deed = .native .arrPush args) :
    UpdatedBy [stage] s (s.afterPush args) := by
  unfold afterPush
  cases harg : Native.arg args 0 with
  | arr q =>
    refine ⟨fun _ _ h => h, fun _ _ h => h, fun r items hitems => ?_⟩
    simp only [List.foldl_cons, List.foldl_nil, hdeed, Deed.update, harg]
    exact getElem?_modify_arrays hitems q _
  | _ =>
    refine ⟨fun _ _ h => h, fun _ _ h => h, fun r items hitems => ?_⟩
    simpa only [List.foldl_cons, List.foldl_nil, hdeed, Deed.update, harg] using hitems

private theorem pop (hdeed : stage.deed = .native .arrPop args) :
    UpdatedBy [stage] s (s.afterPop args) := by
  unfold afterPop
  cases harg : Native.arg args 0 with
  | arr q =>
    refine ⟨fun _ _ h => h, fun _ _ h => h, fun r items hitems => ?_⟩
    simp only [List.foldl_cons, List.foldl_nil, hdeed, Deed.update, harg]
    exact getElem?_modify_arrays hitems q _
  | _ =>
    refine ⟨fun _ _ h => h, fun _ _ h => h, fun r items hitems => ?_⟩
    simpa only [List.foldl_cons, List.foldl_nil, hdeed, Deed.update, harg] using hitems

/-- **One stage** updates the array that it pushes to or pops from, and nothing else. -/
theorem of_leads {strict : Prop} (h : stage.deed.Leads strict s s') : UpdatedBy [stage] s s' := by
  obtain ⟨args, hdeed, rfl, -⟩ | ⟨args, hdeed, rfl⟩ | ⟨isMutable, hdeed, r, name, v, rfl, -⟩ |
    ⟨hdeed, hpath⟩ := h.cases
  · exact push hdeed
  · exact pop hdeed
  · refine of_isUpdate (by rw [hdeed]; rfl) ⟨fun _ _ h => h, fun _ _ h => h, fun _ _ h => h⟩
  · exact of_isUpdate hdeed (of_path hpath)

/-- **A course** updates arrays stage by stage. -/
theorem of_course {strict : Prop} (h : Course strict s stages s') : UpdatedBy stages s s' := by
  induction h with
  | nil s => exact refl s
  | cons hstage _ ih => exact (of_leads hstage).append ih

end UpdatedBy

end Store

/-- The containers and functions at every moment of a record: those of an earlier moment have gone
through the pushes and pops in between. -/
def UpdatesOnly (s : Store) (stages : List Stage) : Prop :=
  ∀ first second third, stages = first ++ second ++ third →
    (storeAt s first).UpdatedBy second (storeAt s (first ++ second))

private theorem Agrees.updatesOnly {α : Type} {strict : Prop} {w : World} {p : Store → α → Prop}
    {x : Recorded α} {y : Eval α} (h : Agrees strict w (Same p) x y) :
    (x w).2 = y w ∧ storeAt w.store (x w).1 = storeAfter (y w) ∧
      UpdatesOnly w.store (x w).1 :=
  ⟨h.erases, h.course.storeAt_eq, fun _ _ _ hstages => .of_course (h.course.between hstages)⟩

/-- **Containers change only through pushing and popping.** The record of every evaluation and every
call, in whatever world, ends as the plain evaluation does. Between any two of its moments, and so
from its beginning to its end, objects and functions stay as they are, and every array goes through
the pushes to it and the pops from it, in the order of these calls. -/
theorem containers_updated_by_push_and_pop (fuel : Nat) (w : World) :
    (∀ n scope,
        (Recording.evalWithin fuel n scope w).2 = evalWithin fuel n scope w ∧
          storeAt w.store (Recording.evalWithin fuel n scope w).1 =
            storeAfter (evalWithin fuel n scope w) ∧
          UpdatesOnly w.store (Recording.evalWithin fuel n scope w).1) ∧
      ∀ f args,
        (Recording.callWithin fuel f args w).2 = callWithin fuel f args w ∧
          storeAt w.store (Recording.callWithin fuel f args w).1 =
            storeAfter (callWithin fuel f args w) ∧
          UpdatesOnly w.store (Recording.callWithin fuel f args w).1 := by
  obtain ⟨heval, hcall⟩ := Recording.records_within False fuel
  refine ⟨fun n scope => ?_, fun f args => ?_⟩
  · exact (heval w.store n scope w (.refl _) False.elim).updatesOnly
  · have hrecords := hcall w.store f args False.elim fun _ _ => False.elim
    exact (hrecords w (.refl _) False.elim).updatesOnly

end Sigil
