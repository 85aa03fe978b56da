import Sigil.Proofs.Generic.Correspondence

/-!
# Forgetting the record

`Records strict s₀ post x y` relates a recorded computation `x` to a plain one `y`: started in a
store that is no older than `s₀`, they come to the same end, the record is a course from the one
store to the other, and the results have the property `post` of the store and the two results. The
operations that evaluation is put together from are related one by one
(`Recording.correspondence`). So the relation holds between the recorded and the plain meaning of
every tree and every call (`records_within`), of every program and of all that a host asks for
(`agrees_serve`, `session_eq`).
-/

namespace Sigil

open Eval

variable {α β γ δ : Type} {strict : Prop} {s₀ : Store} {w : World} {post : Store → α → β → Prop}
  {post' : Store → γ → δ → Prop} {x : Recorded α} {y : Eval β}

/-- **Computations that come to the same end**: in the same world there are results with a property,
or both stop for the same reason. -/
inductive SameEnd (post : Store → α → β → Prop) :
    EStateM.Result Stop World α → EStateM.Result Stop World β → Prop
  | ok {a : α} {b : β} {w : World} : post w.store a b → SameEnd post (.ok a w) (.ok b w)
  | error (stop : Stop) (w : World) : SameEnd post (.error stop w) (.error stop w)

theorem SameEnd.weaken {post' : Store → α → β → Prop} {r : EStateM.Result Stop World α}
    {r' : EStateM.Result Stop World β} (h : SameEnd post r r')
    (hpost : ∀ s a b, post s a b → post' s a b) : SameEnd post' r r' := by
  cases h with
  | ok hab => exact .ok (hpost _ _ _ hab)
  | error stop w => exact .error stop w

/-- The same result, with a property. -/
def Same (p : Store → α → Prop) (s : Store) (a b : α) : Prop :=
  a = b ∧ p s a

theorem SameEnd.eq {p : Store → α → Prop} {r r' : EStateM.Result Stop World α}
    (h : SameEnd (Same p) r r') : r = r' := by
  cases h with
  | ok hab => rw [hab.1]
  | error stop w => rfl

/-- A recorded computation and a plain one **agree** in a world: they come to the same end, and the
record is a course to the store that they leave. -/
structure Agrees (strict : Prop) (w : World) (post : Store → α → β → Prop) (x : Recorded α)
    (y : Eval β) : Prop where
  /-- Forgetting the record gives the end of the plain computation. -/
  ends : SameEnd post (x w).2 (y w)
  /-- The record is a course. -/
  course : Course strict w.store (x w).1 (storeAfter (y w))

/-- **A recorded computation keeps the record of a plain one**, in every world that is no older than
a store. -/
def Records (strict : Prop) (s₀ : Store) (post : Store → α → β → Prop) (x : Recorded α)
    (y : Eval β) : Prop :=
  ∀ w : World, s₀.Older w.store → w.store.Sound strict → Agrees strict w post x y

/-! ### Putting computations together -/

theorem Eval.bind_eq_of_ok {x : Eval α} {f : α → Eval β} {w w' : World} {a : α}
    (h : x w = .ok a w') : (x >>= f) w = f a w' := by
  simp [Bind.bind, EStateM.bind, h]

theorem Eval.bind_eq_of_error {x : Eval α} {f : α → Eval β} {w w' : World} {stop : Stop}
    (h : x w = .error stop w') : (x >>= f) w = .error stop w' := by
  simp [Bind.bind, EStateM.bind, h]

namespace Agrees

/-- The store after a result is no older, and it is closed if the one before is. -/
theorem later (h : Agrees strict w post x y) (hw : w.store.Sound strict) {b : β} {w' : World}
    (hrun : y w = .ok b w') : w.store.Older w'.store ∧ w'.store.Sound strict := by
  have hcourse := h.course
  rw [hrun] at hcourse
  exact ⟨hcourse.older, fun hstrict => hcourse.closed hstrict (hw hstrict)⟩

theorem bind {f : α → Recorded γ} {g : β → Eval δ} (hx : Agrees strict w post x y)
    (hf : ∀ a b w', y w = .ok b w' → post w'.store a b → Agrees strict w' post' (f a) (g b)) :
    Agrees strict w post' (x >>= f) (y >>= g) := by
  obtain ⟨hends, hcourse⟩ := hx
  generalize hrecorded : (x w).2 = out, hplain : y w = out' at hends hcourse
  cases hends with
  | ok hpost =>
    have hnext := hf _ _ _ hplain hpost
    constructor
    · rw [Recorded.bind_eq_of_ok hrecorded, Eval.bind_eq_of_ok hplain]
      exact hnext.ends
    · rw [Recorded.bind_eq_of_ok hrecorded, Eval.bind_eq_of_ok hplain]
      exact hcourse.append hnext.course
  | error stop w' =>
    constructor
    · rw [Recorded.bind_eq_of_error hrecorded, Eval.bind_eq_of_error hplain]
      exact .error stop w'
    · rw [Recorded.bind_eq_of_error hrecorded, Eval.bind_eq_of_error hplain]
      exact hcourse

theorem weaken {post' : Store → α → β → Prop} (h : Agrees strict w post x y)
    (hpost : ∀ s a b, post s a b → post' s a b) : Agrees strict w post' x y :=
  ⟨h.ends.weaken hpost, h.course⟩

section Same

variable {p : Store → α → Prop} {y : Eval α} (h : Agrees strict w (Same p) x y)
include h

/-- Forgetting the record gives the plain computation. -/
theorem erases : (x w).2 = y w :=
  h.ends.eq

theorem result {a : α} {w' : World} (hrun : y w = .ok a w') : p w'.store a := by
  have hends := h.ends
  rw [h.erases, hrun] at hends
  cases hends with
  | ok hab => exact hab.2

theorem attempt : Agrees strict w (Same fun _ _ => True) x.attempt (Eval.attempt y) := by
  have herases := h.erases
  have hcourse := h.course
  cases hrun : y w with
  | ok a w' | error stop w' =>
    rw [hrun] at herases hcourse
    constructor
    · simp only [Recorded.attempt, Eval.attempt, herases, hrun]
      exact .ok ⟨rfl, trivial⟩
    · simp only [Recorded.attempt, Eval.attempt, herases, hrun]
      exact hcourse

end Same

/-- A plain computation is one stage, if the deed leads where the computation does. -/
theorem perform {p : Store → α → Prop} {deed : Deed} {y : Eval α}
    (hleads : deed.Leads strict w.store (storeAfter (y w)))
    (hresult : ∀ a w', y w = .ok a w' → p w'.store a) :
    Agrees strict w (Same p) (Recorded.perform deed y) y := by
  refine ⟨?_, .cons hleads (.nil _)⟩
  change SameEnd (Same p) (y w) (y w)
  cases hrun : y w with
  | ok a w' => exact .ok ⟨rfl, hresult a w' hrun⟩
  | error stop w' => exact .error stop w'

end Agrees

namespace Records

theorem bind {f : α → Recorded γ} {g : β → Eval δ} (hx : Records strict s₀ post x y)
    (hf : ∀ s₁ a b, s₀.Older s₁ → post s₁ a b → Records strict s₁ post' (f a) (g b)) :
    Records strict s₀ post' (x >>= f) (y >>= g) := by
  intro w hw hsound
  have hxw := hx w hw hsound
  refine hxw.bind fun a b w' hrun hab => ?_
  obtain ⟨holder, hsound'⟩ := hxw.later hsound hrun
  exact hf w'.store a b (hw.trans holder) hab w' (.refl _) hsound'

theorem weaken {post' : Store → α → β → Prop} (h : Records strict s₀ post x y)
    (hpost : ∀ s a b, post s a b → post' s a b) : Records strict s₀ post' x y :=
  fun w hw hsound => (h w hw hsound).weaken hpost

private theorem attempt {p : Store → α → Prop} {y : Eval α} (h : Records strict s₀ (Same p) x y) :
    Records strict s₀ (Same fun _ _ => True) x.attempt (Eval.attempt y) :=
  fun w hw hsound => (h w hw hsound).attempt

private theorem of_pure {a : α} {b : β} (h : ∀ s, s₀.Older s → post s a b) :
    Records strict s₀ post (pure a : Recorded α) (pure b) :=
  fun w hw _ => ⟨.ok (h w.store hw), .nil _⟩

/-- Stopping is one stage. -/
private theorem of_throw (stop : Stop) :
    Records strict s₀ post (Recorded.perform .operation (throw stop)) (throw stop) :=
  fun w _ _ => ⟨.error stop w, .cons .refl (.nil _)⟩

end Records

section Same

variable {p : Store → α → Prop} {y : Eval α}

/-- A plain computation that spares containers is one stage. -/
private theorem records_perform (h : Spares strict s₀ p y) {deed : Deed}
    (hdeed : ∀ s s', Relation.ReflTransGen (Store.Sparing strict) s s' → deed.Leads strict s s') :
    Records strict s₀ (Same p) (Recorded.perform deed y) y :=
  fun w hw hsound => .perform (hdeed _ _ (h.path w hw hsound)) (h.result w hw hsound)

private theorem records_lift (h : Spares strict s₀ p y) :
    Records strict s₀ (Same p) (Recorded.perform .operation y) y :=
  records_perform h fun _ _ hpath => hpath

/-- A result that is there already. -/
private theorem records_pure {a : α} (h : ∀ s, s₀.Older s → p s a) :
    Records strict s₀ (Same p) (pure a : Recorded α) (pure a) :=
  .of_pure fun s hs => ⟨rfl, h s hs⟩

private theorem records_forM {f : γ → Recorded PUnit} {g : γ → Eval PUnit} {xs : List γ}
    (h : ∀ s₁, s₀.Older s₁ → ∀ x ∈ xs, Records strict s₁ (Same fun _ _ => True) (f x) (g x)) :
    Records strict s₀ (Same fun _ _ => True) (xs.forM f) (xs.forM g) := by
  induction xs generalizing s₀ with
  | nil => exact records_pure fun _ _ => trivial
  | cons x xs ih =>
    refine (h s₀ (.refl _) x List.mem_cons_self).bind fun s₁ _ _ hs₁ _ => ih fun s₂ hs₂ y hy => ?_
    exact h s₂ (hs₁.trans hs₂) y (List.mem_cons_of_mem x hy)

end Same

/-! ### Pushing and popping -/

/-- Popping from an array without elements leaves the store as it is. -/
private theorem Store.pop_eq_self {s : Store} {r : ArrayRef} (h : (s.items r).back? = none) :
    s.pop r = s := by
  have hempty : s.items r = #[] := by simpa using h
  have harrays : s.arrays.modify r.index Array.pop = s.arrays := by
    apply Array.ext_getElem?
    intro i
    rw [Array.getElem?_modify]
    split
    · rename_i hi
      subst hi
      unfold Store.items at hempty
      cases hitems : s.arrays[r.index]? with
      | none => rfl
      | some items => simp_all
    · rfl
  unfold Store.pop
  rw [harrays]

namespace Native

variable {call : Caller} {args : List Value} {r : ArrayRef}

private theorem run_arrPush_of_arr (h : arg args 0 = .arr r) (w : World) :
    run call .arrPush args w =
      .ok (.arr r) { w with store := w.store.push r (arg args 1) } := by
  simp only [run, arrayArg, h]
  rfl

private theorem items_bind (f : Array Value → Eval β) (w : World) :
    (items r >>= f) w = f (w.store.items r) w :=
  rfl

private theorem run_arrPop_of_arr (h : arg args 0 = .arr r) (w : World) :
    run call .arrPop args w =
      .ok ((w.store.items r).back?.getD .null) { w with store := w.store.pop r } := by
  simp only [run, arrayArg, h, pure_bind, items_bind]
  cases hlast : (w.store.items r).back? with
  | none =>
    -- popping from an empty array is no change, on record as in the store
    rw [Store.pop_eq_self hlast]
    rfl
  | some last => rfl

private theorem storeAfter_arrPush (call : Caller) (args : List Value) (w : World) :
    storeAfter (run call .arrPush args w) = w.store.afterPush args := by
  cases h : arg args 0 with
  | arr r =>
    rw [run_arrPush_of_arr h, Store.afterPush, h]
    rfl
  | _ =>
    simp only [run, arrayArg, Store.afterPush, h]
    rfl

private theorem storeAfter_arrPop (call : Caller) (args : List Value) (w : World) :
    storeAfter (run call .arrPop args w) = w.store.afterPop args := by
  cases h : arg args 0 with
  | arr r =>
    rw [run_arrPop_of_arr h, Store.afterPop, h]
    rfl
  | _ =>
    simp only [run, arrayArg, Store.afterPop, h]
    rfl

/-- A push gives back the array. -/
private theorem sound_arrPush {w w' : World} {v : Value}
    (hargs : ∀ v ∈ args, v.Sound strict w.store) (hrun : run call .arrPush args w = .ok v w') :
    v.Sound strict w'.store := by
  have harg := arg_sound hargs 0
  cases h : arg args 0 with
  | arr r =>
    rw [run_arrPush_of_arr h] at hrun
    cases hrun
    rw [h] at harg
    exact harg.of_older (Store.older_push _ _ _)
  | _ =>
    simp only [run, arrayArg, h] at hrun
    cases hrun

/-- A pop gives an element of the array, or null. -/
private theorem sound_arrPop {w w' : World} {v : Value} (hw : w.store.Sound strict)
    (hrun : run call .arrPop args w = .ok v w') : v.Sound strict w'.store := by
  cases h : arg args 0 with
  | arr r =>
    rw [run_arrPop_of_arr h] at hrun
    cases hrun
    cases hlast : (w.store.items r).back? with
    | none => exact fun _ => trivial
    | some last =>
      have hmem := Array.mem_of_back? hlast
      exact (hw.items r last hmem).of_older (Store.older_pop _ _)
  | _ =>
    simp only [run, arrayArg, h] at hrun
    cases hrun

end Native

/-- A result whose value exists, in the strict reading. -/
abbrev Flow.Sound (strict : Prop) (s : Store) (r : Result) : Prop :=
  r.result.Sound strict s

namespace Recording

/-- A push is one stage. -/
private theorem records_arrPush {call : Caller} {args : List Value}
    (hargs : ∀ v ∈ args, v.Sound strict s₀) :
    Records strict s₀ (Same (Value.Sound strict))
      (Recorded.perform (.native .arrPush args) (Native.run call .arrPush args))
      (Native.run call .arrPush args) := by
  intro w hw _
  have hargs' (v : Value) (hv : v ∈ args) := (hargs v hv).of_older hw
  exact .perform ⟨Native.storeAfter_arrPush call args w, hargs'⟩
    fun _ _ hrun => Native.sound_arrPush hargs' hrun

/-- A pop is one stage. -/
private theorem records_arrPop {call : Caller} {args : List Value} :
    Records strict s₀ (Same (Value.Sound strict))
      (Recorded.perform (.native .arrPop args) (Native.run call .arrPop args))
      (Native.run call .arrPop args) :=
  fun w _ hsound => .perform (Native.storeAfter_arrPop call args w)
    fun _ _ hrun => Native.sound_arrPop hsound hrun

/-- The declaration of a variable is one stage. -/
private theorem records_declare (scope : ScopeRef) (name : String) {v : Value}
    (hv : v.Sound strict s₀) (isMutable : Bool) :
    Records strict s₀ (Same fun _ _ => True) (operations.declare scope name v isMutable)
      (define scope name v isMutable) :=
  fun _ hw _ => .perform ⟨scope, name, v, rfl, hv.of_older hw⟩ fun _ _ _ => trivial

/-! ### References that exist -/

/-- What exists stands for itself, in the strict reading; everything does in the other. Nothing is
asked of cells and scopes. -/
def matching (strict : Prop) (s : Store) : Matching where
  cells := .refl _
  scopes := .refl _
  arrays := .only fun r => (Value.arr r).Sound strict s
  objects := .only fun r => (Value.obj r).Sound strict s
  functions := .only fun r => (Value.fn r).Sound strict s

section Matching

variable {s s' : Store} {v v' : Value} {vs vs' : List Value}

private theorem matching_le_refl (strict : Prop) (s : Store) : matching strict s ≤ .refl :=
  ⟨id, id, And.left, And.left, And.left⟩

private theorem matching_le_of_older (h : s.Older s') : matching strict s ≤ matching strict s' :=
  ⟨id, id, fun hr => ⟨hr.1, hr.2.of_older h⟩, fun hr => ⟨hr.1, hr.2.of_older h⟩,
    fun hr => ⟨hr.1, hr.2.of_older h⟩⟩

/-- The values that match are those that exist, each with itself. -/
private theorem matches_iff :
    v.Matches (matching strict s) v' ↔ Same (Value.Sound strict) s v v' := by
  constructor
  · intro h
    refine ⟨h.eq (matching_le_refl strict s), ?_⟩
    cases h with
    | arr hr | obj hr | fn hr => exact hr.2
    | num | str | bool | null => exact fun _ => trivial
  · rintro ⟨rfl, hv⟩
    cases v with
    | arr r => exact .arr ⟨rfl, hv⟩
    | obj r => exact .obj ⟨rfl, hv⟩
    | fn r => exact .fn ⟨rfl, hv⟩
    | num | str | bool | null => constructor

private theorem allMatch_iff :
    Value.AllMatch (matching strict s) vs vs' ↔
      Same (fun s vs => ∀ v ∈ vs, v.Sound strict s) s vs vs' := by
  constructor
  · intro h
    obtain rfl := h.eq (matching_le_refl strict s)
    exact ⟨rfl, fun v hv => (matches_iff.1 (List.forall₂_same.1 h v hv)).2⟩
  · rintro ⟨rfl, hvs⟩
    exact List.forall₂_same.2 fun v hv => matches_iff.2 ⟨rfl, hvs v hv⟩

private theorem function_matches_self (f : Function) : f.Matches (matching strict s) f := by
  cases f with
  | closure params body scope name => exact .closure params body name rfl
  | native f => exact .native f

end Matching

/-! ### Evaluation -/

/-- A plain computation of a value is one stage. -/
private theorem records_value {y : Eval Value} (h : Spares strict s₀ (Value.Sound strict) y) :
    Records strict s₀ (fun s => Value.Matches (matching strict s)) (Recorded.perform .operation y)
      y :=
  (records_lift h).weaken fun _ _ _ => matches_iff.2

/-- A plain computation that gives nothing is one stage. -/
private theorem records_unit {y : Eval Unit} (h : Spares strict s₀ (fun _ _ => True) y) :
    Records strict s₀ (fun _ _ _ => True) (Recorded.perform .operation y) y :=
  (records_lift h).weaken fun _ _ _ _ => trivial

/-- What is read from the store is one stage. -/
private theorem records_read {f : Store → α} {post : Store → α → α → Prop}
    (h : ∀ s, s.Sound strict → post s (f s) (f s)) :
    Records strict s₀ post (Recorded.perform .operation (read f)) (read f) := by
  have hread : Spares strict s₀ (fun s a => post s a a) (read f) := spares_read fun s _ hs => h s hs
  exact (records_lift hread).weaken fun _ _ _ ⟨hab, hpost⟩ => hab ▸ hpost

/-- Making the scope of an iteration and its loop variable. -/
private theorem records_newIteration (body : Node) {item : Option LoopItem}
    (hitem : Option.Rel (LoopItem.Matches (matching strict s₀)) item item) (scope : ScopeRef) :
    Records strict s₀ (fun _ => Eq) (operations.newIteration body item scope)
      (Operations.world.newIteration body item scope) := by
  refine (records_lift (spares_newScope _)).bind fun s₁ inner _ hs₁ ⟨rfl, _⟩ => ?_
  match item, hitem with
  | none, _ => exact .of_pure fun _ _ => rfl
  | some (name, value), .some hvalue =>
    have hpartial : Spares strict s₁ (Value.Sound strict) (ofPartial value) := by
      refine spares_ofPartial fun v hv s hs => ?_
      cases hvalue with
      | ok _ hmatch =>
        cases hv
        exact (matches_iff.1 hmatch).2.of_older (hs₁.trans hs)
      | error _ e => cases hv
    exact (records_lift hpartial).bind fun _ v _ _ ⟨rfl, hv⟩ =>
      (records_lift (spares_define inner name hv)).bind fun _ _ _ _ _ => .of_pure fun _ _ => rfl

/-- A function of the standard library that takes no function is one stage. -/
private theorem records_native (f : Native) (hf : f.takesFunction = false) {args : List Value}
    (hargs : ∀ v ∈ args, v.Sound strict s₀) :
    Records strict s₀ (Same (Value.Sound strict)) (operations.native f args)
      (Operations.world.native f args) := by
  cases f with
  -- these two change a container there is, so they are deeds of their own
  | arrPush => exact records_arrPush hargs
  | arrPop => exact records_arrPop
  | arrMap | arrFilter | arrReduce => cases hf
  | _ => exact records_perform (Native.spares_run rfl) fun _ _ hpath => hpath

/-- **Recorded evaluation is evaluation.** -/
def correspondence (strict : Prop) : Correspondence operations Operations.world where
  Stage := Store
  Later := Store.Older
  matching := matching strict
  -- both sides declare the same names, so none has to be opened for it
  Opened _ _ _ := True
  Holds := Records strict
  later_refl := .refl
  later_trans := .trans
  matching_le := matching_le_of_older
  opened_later _ := id
  of_pure := Records.of_pure
  of_bind := Records.bind
  of_throw := Records.of_throw
  of_newScope {i} names {r r'} hr := by
    obtain rfl := hr
    exact (records_lift (spares_newScope _)).weaken fun _ _ _ hq => ⟨hq.1, fun _ _ => trivial⟩
  of_newIteration {i} body {item item' r r'} hitem hr := by
    obtain rfl := hr
    obtain rfl := LoopItem.Matches.eq_of_rel (matching_le_refl strict i) hitem
    exact (records_newIteration body hitem _).weaken fun _ _ _ hq => ⟨hq, fun _ _ => trivial⟩
  of_lookup name hr := by
    obtain rfl := hr
    exact records_value (spares_lookup _ name)
  of_lookupMember space member hr := by
    obtain rfl := hr
    exact records_value (spares_lookupMember _ space member)
  of_define hr _ hv := by
    obtain rfl := hr
    obtain ⟨rfl, hsound⟩ := matches_iff.1 hv
    exact records_unit (spares_define _ _ hsound)
  of_declare isMutable hr _ hv := by
    obtain rfl := hr
    obtain ⟨rfl, hsound⟩ := matches_iff.1 hv
    exact (records_declare _ _ hsound isMutable).weaken fun _ _ _ _ => trivial
  of_defineSpace name hr hq := by
    obtain rfl := hr
    obtain rfl := hq
    exact records_unit (spares_defineSpace _ name _)
  of_assign {i r r'} name {v v'} hr hv := by
    obtain rfl := hr
    obtain ⟨rfl, hsound⟩ := matches_iff.1 hv
    exact records_unit (spares_assign _ name hsound)
  of_declares name hr := by
    obtain rfl := hr
    exact records_read fun _ _ => rfl
  of_declaresSpace name hr := by
    obtain rfl := hr
    exact records_read fun _ _ => rfl
  of_newArray hitems := by
    obtain ⟨hitems, hsound⟩ := allMatch_iff.1 hitems
    obtain rfl := Array.toList_inj.1 hitems
    exact records_value (spares_newArray fun v hv => hsound v (Array.mem_toList_iff.2 hv))
  of_newObject {i fields fields'} hfields := by
    obtain rfl := hfields.eq fun _ _ hv => hv.eq (matching_le_refl strict i)
    exact records_value (spares_newObject (allMatch_iff.1 hfields.values).2)
  of_newFunction {i f f'} hf := by
    obtain rfl := hf.eq (matching_le_refl strict i)
    exact records_value (spares_newFunction f)
  of_items {i r r'} hr := by
    obtain ⟨rfl, -⟩ := hr
    exact records_read fun s hs =>
      allMatch_iff.2 ⟨rfl, fun v hv => hs.items r v (Array.mem_toList_iff.1 hv)⟩
  of_function? {i r r'} hr := by
    obtain ⟨rfl, -⟩ := hr
    refine records_read fun s _ => ?_
    cases s.function? r with
    | none => exact .none
    | some f => exact .some (function_matches_self f)
  of_text {i v v'} hv := by
    obtain rfl := hv.eq (matching_le_refl strict i)
    exact records_read fun _ _ => rfl
  of_note {i event event'} hevent := by
    obtain rfl := hevent.eq (matching_le_refl strict i)
    exact records_unit (spares_note event)
  of_emit {i v v'} hv := by
    obtain rfl := hv.eq (matching_le_refl strict i)
    exact records_unit (spares_emit v)
  of_memberValue {i v v'} name hv := by
    obtain rfl := hv.eq (matching_le_refl strict i)
    exact records_value (spares_memberValue v name)
  of_indexValue {i v v' u u'} hv hu := by
    obtain rfl := hv.eq (matching_le_refl strict i)
    obtain rfl := hu.eq (matching_le_refl strict i)
    exact records_value (spares_indexValue v u)
  of_native {i} f {args args'} hf hargs := by
    obtain ⟨rfl, hsound⟩ := allMatch_iff.1 hargs
    exact (records_native f hf hsound).weaken fun _ _ _ => matches_iff.2

/-- Results that match are the same, and their value exists. -/
private theorem same_of_matches {s : Store} {r r' : Result}
    (h : Result.Matches (matching strict s) r r') :
    Same (Flow.Sound strict) s r r' :=
  ⟨h.eq (matching_le_refl strict s), (matches_iff.1 h.result).2⟩

/-- **Every evaluation and every call is recorded**, at every depth of nesting. -/
theorem records_within (strict : Prop) (fuel : Nat) :
    (∀ s₀ n scope, Records strict s₀ (Same (Flow.Sound strict)) (evalWithin fuel n scope)
        (Sigil.evalWithin fuel n scope)) ∧
      ∀ s₀ f args, f.Sound strict s₀ → (∀ v ∈ args, v.Sound strict s₀) →
        Records strict s₀ (Same (Value.Sound strict)) (callWithin fuel f args)
          (Sigil.callWithin fuel f args) := by
  obtain ⟨heval, hcall⟩ := Correspondence.within (c := correspondence strict) fuel
  rw [(Operations.within_world fuel).1] at heval
  rw [(Operations.within_world fuel).2] at hcall
  refine ⟨fun s₀ n scope => ?_, fun s₀ f args hf hargs => ?_⟩
  · exact (heval s₀ n scope scope rfl fun _ _ => trivial).weaken fun _ _ _ => same_of_matches
  · exact (hcall s₀ f f args args (matches_iff.2 ⟨rfl, hf⟩) (allMatch_iff.2 ⟨rfl, hargs⟩)).weaken
      fun _ _ _ => matches_iff.1

/-- Every evaluation of a block is recorded. -/
theorem records_evalBlock (fuel : Nat) (statements : List Node) (scope : ScopeRef) :
    Records strict s₀ (Same (Flow.Sound strict)) (evalBlock (evalWithin fuel) statements scope)
      (Sigil.evalBlock (Sigil.evalWithin fuel) statements scope) := by
  have hallows : (correspondence strict).Allows s₀ scope (Node.namesAll statements) :=
    fun _ _ => trivial
  have h := Correspondence.evalBlock (Correspondence.within fuel).1 rfl hallows
  rw [(Operations.within_world fuel).1, Operations.world_evalBlock] at h
  exact h.weaken fun _ _ _ => same_of_matches

/-! ### Programs and sessions -/

private theorem records_runStatements (fuel : Nat) (statements : List Node) (scope : ScopeRef) :
    Records strict s₀ (Same fun _ _ => True) (operations.runStatements fuel statements scope)
      (Sigil.runStatements fuel statements scope) := by
  refine (records_evalBlock fuel statements scope).bind fun s₁ r _ _ ⟨rfl, _⟩ => ?_
  cases r with
  | value v =>
    exact (records_lift (spares_note _)).bind fun _ _ _ _ _ => records_pure fun _ _ => trivial
  | signal v =>
    exact (records_lift (spares_note _)).bind fun _ _ _ _ _ =>
      (records_lift (spares_note _)).bind fun _ _ _ _ _ => records_pure fun _ _ => trivial

private theorem records_closingFile {p : Store → α → Prop} {y : Eval α}
    (h : Records strict s₀ (Same p) x y) :
    Records strict s₀ (Same fun _ _ => True) x.closingFile (Eval.closingFile y) := by
  rw [closingFile_eq]
  exact h.attempt.bind fun _ result _ _ ⟨rfl, _⟩ =>
    (records_lift (spares_changeLog _)).bind fun _ _ _ _ _ =>
      records_lift (spares_ofExcept fun _ _ _ _ => trivial)

private theorem records_runProgram (fuel : Nat) (program : Node) (scope : ScopeRef) :
    Records strict s₀ (Same fun _ _ => True)
      (operations.runProgram Recorded.closingFile fuel program scope)
      (Sigil.runProgram fuel program scope) := by
  refine (records_lift (spares_changeLog _)).bind fun _ _ _ _ _ => ?_
  cases program with
  | program body =>
    exact (records_lift (spares_note _)).bind fun _ _ _ _ _ =>
      records_closingFile (records_runStatements fuel body scope)
  | _ => exact Records.of_throw _

end Recording

/-- The values that a request hands over. -/
def Request.values : Request → List Value
  | .call f args => f :: args
  | .define _ _ value _ | .assign _ _ value => [value]
  | _ => []

/-- **A careful host** hands over values that exist, at each of its requests. -/
def Host.Careful (fuel : Nat) : Host → World → Prop
  | .finished, _ => True
  | .ask request next, w =>
    (∀ v ∈ request.values, v.Known w.store) ∧
      ∀ answer w', attempt (request.perform fuel) w = .ok answer w' →
        (next answer).Careful fuel w'

namespace Recording

private theorem records_request (fuel : Nat) (request : Request)
    (h : ∀ v ∈ request.values, v.Sound strict s₀) :
    Records strict s₀ (Same fun _ _ => True) (operations.perform Recorded.closingFile fuel request)
      (request.perform fuel) := by
  have hanswer {α : Type} {p : Store → α → Prop} {x : Recorded α} {y : Eval α}
      (answer : α → Answer) (hx : Records strict s₀ (Same p) x y) :
      Records strict s₀ (Same fun _ _ => True) (do return answer (← x))
        (do return answer (← y)) :=
    hx.bind fun _ _ _ _ ⟨rfl, _⟩ => records_pure fun _ _ => trivial
  have hvalue {p : Store → Value → Prop} {x : Recorded Value} {y : Eval Value} :=
    hanswer (p := p) (x := x) (y := y) fun v => .result (.value v)
  have hdone {x : Recorded Unit} {y : Eval Unit} :=
    hanswer (p := fun _ _ => True) (x := x) (y := y) fun _ => .done
  cases request with
  | run program scope => exact hvalue (records_runProgram fuel program scope)
  | evaluate n scope => exact hanswer .result ((records_within strict fuel).1 s₀ n scope)
  | call f args =>
    obtain ⟨hf, hargs⟩ := List.forall_mem_cons.1 h
    exact hvalue ((records_within strict fuel).2 s₀ f args hf hargs)
  | plain data => exact hvalue (records_lift (spares_plainValue s₀ data))
  | newScope parent => exact hanswer .scope (records_lift (spares_newScope _))
  | lookup scope name => exact hvalue (records_lift (spares_lookup _ _))
  | lookupMember scope space member => exact hvalue (records_lift (spares_lookupMember _ _ _))
  | define scope name value isMutable =>
    exact hdone (records_declare scope name (List.forall_mem_singleton.1 h) isMutable)
  | defineSpace scope name space => exact hdone (records_lift (spares_defineSpace _ _ _))
  | assign scope name value =>
    exact hdone (records_lift (spares_assign _ _ (List.forall_mem_singleton.1 h)))

/-- **All that a host asks for is recorded.** -/
theorem agrees_serve (fuel : Nat) (host : Host) {w : World} (hw : w.store.Sound strict)
    (hhost : strict → host.Careful fuel w) :
    Agrees strict w (Same fun _ _ => True) (serve fuel host) (host.serve fuel) := by
  induction host generalizing w with
  | finished => exact records_pure (fun _ _ => trivial) w (.refl _) hw
  | ask request next ih =>
    have hrequest := (records_request fuel request fun v hv hstrict => (hhost hstrict).1 v hv)
      w (.refl _) hw
    refine hrequest.attempt.bind fun answer _ w' hrun ⟨rfl, _⟩ => ?_
    obtain ⟨-, hw'⟩ := hrequest.attempt.later hw hrun
    have hnext := ih answer hw' fun hstrict => (hhost hstrict).2 answer w' hrun
    refine hnext.bind fun _ _ w'' hrun' ⟨rfl, _⟩ => ?_
    obtain ⟨-, hw''⟩ := hnext.later hw' hrun'
    exact records_pure (fun _ _ => trivial) w'' (.refl _) hw''

/-- The constants of the standard library refer to nothing. -/
theorem known_of_mem_library {space : String × List (String × LibraryMember)} (h : space ∈ library)
    {member : String × LibraryMember} (hmember : member ∈ space.2) {v : Value}
    (hv : member.2 = .constant v) (s : Store) : v.Known s := by
  obtain ⟨name, rfl⟩ : ∃ name, member = (name, .constant v) := ⟨member.1, Prod.ext rfl hv⟩
  simp only [library, List.mem_cons, List.not_mem_nil, or_false] at h
  rcases h with rfl | rfl | rfl | rfl | rfl <;> simp_all [Value.Known]

private theorem records_defineMember (scope : ScopeRef) (name : String) {member : LibraryMember}
    (h : ∀ v, member = .constant v → ∀ s, v.Known s) :
    Records strict s₀ (Same fun _ _ => True) (defineMember scope name member)
      (Sigil.defineMember scope name member) := by
  cases member with
  | function native =>
    exact (records_lift (spares_newFunction _)).bind fun _ _ _ _ ⟨rfl, hv⟩ =>
      records_lift (spares_define _ _ hv)
  | constant v =>
    have hv : Records strict s₀ (Same (Value.Sound strict)) (pure v : Recorded Value) (pure v) :=
      records_pure fun s _ _ => h v rfl s
    exact hv.bind fun _ _ _ _ ⟨rfl, hv⟩ => records_lift (spares_define _ _ hv)

private theorem records_defineLibrary (scope : ScopeRef) :
    Records strict s₀ (Same fun _ _ => True) (defineLibrary scope) (Sigil.defineLibrary scope) := by
  refine (records_forM fun s₁ _ space hspace => ?_).bind fun _ _ _ _ _ =>
    records_defineMember scope _ fun v hv => by cases hv
  refine (records_lift (spares_newScope _)).bind fun _ inner _ _ ⟨rfl, _⟩ => ?_
  refine (records_forM fun s₂ _ member hmember => records_defineMember inner _ fun v hv => ?_).bind
    fun _ _ _ _ _ => records_lift (spares_defineSpace _ _ _)
  exact known_of_mem_library hspace hmember hv

private theorem records_defineVariables (scope : ScopeRef) (given : List (String × Json)) :
    Records strict s₀ (Same fun _ _ => True) (defineVariables scope given)
      (Sigil.defineVariables scope given) := by
  induction given generalizing s₀ with
  | nil => exact records_pure fun _ _ => trivial
  | cons entry rest ih =>
    exact (records_lift (spares_plainValue s₀ entry.2)).bind fun _ _ _ _ ⟨rfl, hv⟩ =>
      (records_lift (spares_define _ _ hv)).bind fun _ _ _ _ _ => ih

private theorem records_newGlobals :
    Records strict s₀ (Same fun _ _ => True) newGlobals Session.newGlobals :=
  (records_lift (spares_newScope _)).bind fun _ scope _ _ ⟨rfl, _⟩ =>
    (records_defineLibrary scope).bind fun _ _ _ _ _ => records_pure fun _ _ => trivial

/-- Setting up a session is recorded. -/
private theorem records_setup (given : List (String × Json)) :
    Records strict s₀ (Same fun _ _ => True) (setup given) (Session.setup given) :=
  records_newGlobals.bind fun _ scope _ _ ⟨rfl, _⟩ =>
    (records_defineVariables scope given).bind fun _ _ _ _ _ => records_pure fun _ _ => trivial

/-- **The whole life of a session is recorded**: forgetting the record leaves the answers to the
host, and the record is a course from the empty store to the last one. -/
theorem session_eq (strict : Prop) (fuel : Nat) {level : Nat} {earlier : Option String}
    {given : List (String × Json)} {start : Session}
    (hstart : Session.start level earlier given = .ok start) (host : ScopeRef → Host)
    (hhost : strict → (host start.globals).Careful fuel start.world) :
    (session fuel given host (Session.emptyWorld level earlier)).2 =
        (host start.globals).serve fuel start.world ∧
      Course strict .empty (session fuel given host (Session.emptyWorld level earlier)).1
        (storeAfter ((host start.globals).serve fuel start.world)) := by
  have hempty : (Session.emptyWorld level earlier).store.Sound strict := fun _ => Store.closed_empty
  have hsetup : Agrees strict _ _ (setup given) _ :=
    records_setup given (Session.emptyWorld level earlier) (.refl _) hempty
  have hrun := Session.setup_of_start hstart
  have hworld := (hsetup.later hempty hrun).2
  have hserve := agrees_serve fuel (host start.globals) hworld hhost
  have hsession : Agrees strict _ _ (session fuel given host) _ :=
    hsetup.bind (g := fun globals => (host globals).serve fuel) fun globals _ w' hrun' hsame => by
      obtain ⟨rfl, -⟩ := hsame
      rw [hrun] at hrun'
      cases hrun'
      exact hserve
  rw [← Eval.bind_eq_of_ok (f := fun globals => (host globals).serve fuel) hrun]
  exact ⟨hsession.erases, hsession.course⟩

end Recording

end Sigil
