import Sigil.Proofs.Recording.Erasure
import Sigil.Proofs.Validity.References

/-!
# Computations that keep the world valid

`Eval.Keeps s₀ post x` is the logic of this module: started in a valid world whose store is no older
than `s₀`, the computation `x` leaves a valid world in which all that existed still exists, however
it ends, and its results have the property `post` of the store and the result. Every operation on
the world has one lemma, which asks that the values and scopes it is given exist.

Much of the standard library changes arrays and objects only (`ContainerLaw.frame`). There it is
enough to know that the values it makes exist, which `Eval.Spares` says.
-/

namespace Sigil

open Eval

/-- **A valid world**: the store is valid, and what has been put out exists. -/
structure World.Valid (w : World) : Prop where
  store : w.store.Valid
  printed : ∀ p ∈ w.printed, p.value.Known w.store

/-- What is known of a flow: the property if it comes to something, and that a signal exists. -/
def Flow.Known {α : Type} (post : Store → α → Prop) (s : Store) : Flow α → Prop
  | .value a => post s a
  | .signal v => v.Known s

/-- A value and the value of a signal exist alike. -/
theorem Flow.Known.result {s : Store} {r : Result} (h : r.Known Value.Known s) :
    r.result.Known s := by
  cases r with
  | value v | signal v => exact h

private theorem Store.Closed.sound {s : Store} (hs : s.Closed) : s.Sound True :=
  fun _ => hs

namespace Eval

variable {α β : Type} {s₀ : Store} {post : Store → α → Prop} {post' : Store → β → Prop}

/-! ### The logic -/

/-- The end of a computation leaves a valid world, in which all is left of an earlier store, and a
result with a property. -/
def Leaves (post : Store → α → Prop) (s : Store) : EStateM.Result Stop World α → Prop
  | .ok a w => s.Before w.store ∧ w.Valid ∧ post w.store a
  | .error _ w => s.Before w.store ∧ w.Valid

/-- **A computation that keeps the world valid.** -/
structure Keeps (s₀ : Store) (post : Store → α → Prop) (x : Eval α) : Prop where
  /-- How it ends. -/
  leaves : ∀ w : World, s₀.Before w.store → w.Valid → Leaves post w.store (x w)

/-- What a later store comes to, an earlier one comes to as well. -/
private theorem Leaves.of_before {s s₁ : Store} {r : EStateM.Result Stop World α} (h : s.Before s₁)
    (hr : Leaves post s₁ r) : Leaves post s r := by
  cases r with
  | ok a w => exact ⟨h.trans hr.1, hr.2⟩
  | error stop w => exact ⟨h.trans hr.1, hr.2⟩

theorem Leaves.weaken {s : Store} {post' : Store → α → Prop} {r : EStateM.Result Stop World α}
    (hr : Leaves post s r) (h : ∀ s a, post s a → post' s a) : Leaves post' s r := by
  cases r with
  | ok a w => exact ⟨hr.1, hr.2.1, h _ a hr.2.2⟩
  | error stop w => exact hr

/-- A result that is there already changes nothing. -/
theorem keeps_pure {a : α} (h : ∀ s, s₀.Before s → post s a) : Keeps s₀ post (pure a : Eval α) where
  leaves w hw hvalid := ⟨.refl _, hvalid, h w.store hw⟩

/-- Stopping changes nothing. -/
theorem keeps_throw (stop : Stop) : Keeps s₀ post (throw stop : Eval α) where
  leaves _ _ hvalid := ⟨.refl _, hvalid⟩

theorem keeps_ofExcept {x : Except Stop α} (h : ∀ a, x = .ok a → ∀ s, s₀.Before s → post s a) :
    Keeps s₀ post (ofExcept x : Eval α) := by
  cases x with
  | ok a => exact keeps_pure (h a rfl)
  | error stop => exact keeps_throw stop

theorem keeps_ofPartial {x : Except Fault α} (h : ∀ a, x = .ok a → ∀ s, s₀.Before s → post s a) :
    Keeps s₀ post (ofPartial x) := by
  cases x with
  | ok a => exact keeps_pure (h a rfl)
  | error fault => exact keeps_throw _

namespace Keeps

/-- The world that is left, however the computation ends. -/
theorem valid_worldAfter {x : Eval α} (hx : Keeps s₀ post x) {w : World} (hw : s₀.Before w.store)
    (hvalid : w.Valid) :
    (worldAfter (x w)).Valid ∧ w.store.Before (worldAfter (x w)).store := by
  have hleaves := hx.leaves w hw hvalid
  cases hrun : x w with
  | ok a w' =>
    rw [hrun] at hleaves
    exact ⟨hleaves.2.1, hleaves.1⟩
  | error stop w' =>
    rw [hrun] at hleaves
    exact hleaves.symm

/-- What a computation promises of its results holds of the one it ends with. -/
theorem result_of_eq_ok {x : Eval α} (hx : Keeps s₀ post x) {w w' : World} {a : α}
    (hw : s₀.Before w.store) (hvalid : w.Valid) (hrun : x w = .ok a w') : post w'.store a := by
  have hleaves := hx.leaves w hw hvalid
  rw [hrun] at hleaves
  exact hleaves.2.2

/-- In sequence, the second computation starts from a valid store in which all that existed still
does. -/
theorem bind {x : Eval α} {f : α → Eval β} (hx : Keeps s₀ post x)
    (hf : ∀ s₁ a, s₀.Before s₁ → post s₁ a → Keeps s₁ post' (f a)) :
    Keeps s₀ post' (x >>= f) := by
  refine ⟨fun w hw hvalid => ?_⟩
  have hleaves := hx.leaves w hw hvalid
  simp only [Bind.bind, EStateM.bind]
  cases hrun : x w with
  | ok a w₁ =>
    rw [hrun] at hleaves
    obtain ⟨hbefore, hvalid₁, ha⟩ := hleaves
    have hrest := (hf w₁.store a (hw.trans hbefore) ha).leaves w₁ (.refl _) hvalid₁
    exact hrest.of_before hbefore
  | error stop w₁ => rwa [hrun] at hleaves

theorem weaken {x : Eval α} {post' : Store → α → Prop} (hx : Keeps s₀ post x)
    (h : ∀ s a, post s a → post' s a) : Keeps s₀ post' x where
  leaves w hw hvalid := (hx.leaves w hw hvalid).weaken h

/-- A signal is handed on, and its value exists. -/
theorem onValue {x : Eval (Flow α)} {k : α → Eval (Flow β)} (hx : Keeps s₀ (Flow.Known post) x)
    (hk : ∀ s₁ a, s₀.Before s₁ → post s₁ a → Keeps s₁ (Flow.Known post') (k a)) :
    Keeps s₀ (Flow.Known post') (Eval.onValue x k) := by
  refine hx.bind fun s₁ r hs₁ hr => ?_
  cases r with
  | value a => exact hk s₁ a hs₁ hr
  | signal v => exact keeps_pure fun s hs => Value.Known.of_before hs hr

/-- A computation of a value becomes a result. -/
theorem toResult {x : Eval Value} (h : Keeps s₀ Value.Known x) :
    Keeps s₀ (Flow.Known Value.Known) (do value (← x)) :=
  h.bind fun _ _ _ hv => keeps_pure fun _ hs => hv.of_before hs

/-- What spares containers and changes nothing but containers keeps the world valid. -/
theorem of_spares {x : Eval α} (h : Spares True s₀ post x) (hframe : ContainerLaw.frame.Obeys x) :
    Keeps s₀ post x := by
  refine ⟨fun w hw hvalid => ?_⟩
  have hclosed := hvalid.store.toClosed.sound
  have hleads := leads_of_path (h.path w hw.toOlder hclosed)
  have hframes := hframe.frames w
  have hresult := h.result w hw.toOlder hclosed
  have hleft (w' : World) (hstore : storeAfter (x w) = w'.store) (hw' : w.Frames w') :
      w.store.Before w'.store ∧ w'.Valid := by
    rw [hstore] at hleads
    have hbefore : w.store.Before w'.store :=
      ⟨hleads.older, Nat.le_of_eq (by rw [hw'.cells]), Nat.le_of_eq (by rw [hw'.scopes])⟩
    refine ⟨hbefore, ?_, fun p hp => ?_⟩
    · exact hvalid.store.of_closed (hleads.closed trivial hvalid.store.toClosed) hbefore hw'.scopes
        hw'.functions
    · rw [hw'.printed] at hp
      exact (hvalid.printed p hp).of_before hbefore
  cases hrun : x w with
  | ok a w' =>
    rw [hrun] at hframes hleft
    obtain ⟨hbefore, hvalid'⟩ := hleft w' rfl hframes
    exact ⟨hbefore, hvalid', hresult a w' hrun⟩
  | error stop w' =>
    rw [hrun] at hframes hleft
    exact hleft w' rfl hframes

end Keeps

/-- A computation that spares containers and changes nothing else keeps stores valid. -/
theorem keeps_of_spares_value {x : Eval Value} (h : Spares True s₀ (Value.Sound True) x)
    (hframe : ContainerLaw.frame.Obeys x) : Keeps s₀ Value.Known x :=
  (Keeps.of_spares h hframe).weaken fun _ _ hv => hv trivial

/-- Values that refer to nothing exist in every store. -/
theorem keeps_plain {v : Value} (h : ∀ s, v.Known s) :
    Keeps s₀ (Flow.Known Value.Known) (value v) :=
  keeps_pure fun s _ => h s

/-! ### Operations on the world -/

/-- Reading changes nothing. -/
theorem keeps_read {f : Store → α} (h : ∀ s, s₀.Before s → s.Valid → post s (f s)) :
    Keeps s₀ post (read f) where
  leaves w hw hvalid := ⟨.refl _, hvalid, h w.store hw hvalid.store⟩

/-- A change of the store that keeps it valid. -/
private theorem leaves_store {w : World} {s : Store} {a : α} (hw : w.Valid)
    (hbefore : w.store.Before s) (hs : s.Valid) (ha : post s a) :
    Leaves post w.store (.ok a ⟨s, w.printed, w.log⟩) :=
  ⟨hbefore, ⟨hs, fun p hp => (hw.printed p hp).of_before hbefore⟩, ha⟩

/-- A new scope exists, and the scope around it is older. -/
theorem keeps_add_newScope {parent : Option ScopeRef}
    (h : ∀ outer, parent = some outer → outer.Known s₀) :
    Keeps s₀ ScopeRef.Known (add (Store.newScope parent)) where
  leaves w hw hvalid :=
    leaves_store hvalid (Store.before_newScope w.store parent)
      (hvalid.store.newScope fun outer houter => (h outer houter).of_before hw)
      (by simp [ScopeRef.Known])

theorem keeps_newScope {parent : ScopeRef} (h : parent.Known s₀) :
    Keeps s₀ ScopeRef.Known (newScope parent) :=
  keeps_add_newScope fun outer houter => by
    cases houter
    exact h

/-- Declaring a variable whose value exists. -/
theorem keeps_define (scope : ScopeRef) (name : String) {v : Value} (hv : v.Known s₀)
    (isMutable : Bool) : Keeps s₀ (fun _ _ => True) (define scope name v isMutable) where
  leaves w hw hvalid :=
    leaves_store hvalid (Store.before_define w.store scope name v isMutable)
      (hvalid.store.define scope name (hv.of_before hw) isMutable) trivial

/-- Declaring a namespace whose scope exists. -/
theorem keeps_defineSpace (scope : ScopeRef) (name : String) {space : ScopeRef}
    (h : space.Known s₀) : Keeps s₀ (fun _ _ => True) (defineSpace scope name space) where
  leaves w hw hvalid :=
    leaves_store hvalid (Store.before_defineSpace w.store scope name space)
      (hvalid.store.defineSpace scope name (h.of_before hw)) trivial

/-- Assigning a value that exists. -/
theorem keeps_assign (scope : ScopeRef) (name : String) {v : Value} (hv : v.Known s₀) :
    Keeps s₀ (fun _ _ => True) (assign scope name v) := by
  refine ⟨fun w hw hvalid => ?_⟩
  simp only [assign, Bind.bind, EStateM.bind, read]
  cases htarget : w.store.target scope name with
  | ok cell =>
    exact leaves_store hvalid (Store.before_writeCell w.store cell v)
      (hvalid.store.writeCell htarget (hv.of_before hw)) trivial
  | error e => exact ⟨.refl _, hvalid⟩

/-- A new array of values that exist. -/
theorem keeps_newArray {items : Array Value} (h : ∀ v ∈ items, v.Known s₀) :
    Keeps s₀ Value.Known (newArray items) where
  leaves w hw hvalid :=
    leaves_store hvalid (Store.before_newArray w.store items)
      (hvalid.store.newArray fun v hv => (h v hv).of_before hw)
      (by simp [Value.Known])

theorem keeps_newObject {fields : Table Value} (h : ∀ v ∈ fields.values, v.Known s₀) :
    Keeps s₀ Value.Known (newObject fields) where
  leaves w hw hvalid :=
    leaves_store hvalid (Store.before_newObject w.store fields)
      (hvalid.store.newObject fun v hv => (h v hv).of_before hw)
      (by simp [Value.Known])

/-- A new function whose scope exists. -/
theorem keeps_newFunction {f : Function} (h : f.Known s₀) :
    Keeps s₀ Value.Known (newFunction f) where
  leaves w hw hvalid :=
    leaves_store hvalid (Store.before_newFunction w.store f)
      (hvalid.store.newFunction (h.of_before hw)) (by simp [Value.Known])

/-- A function that is written in a script is made in a scope that exists. -/
theorem keeps_newClosure {scope : ScopeRef} (h : scope.Known s₀) (params : List String)
    (body : Node) (name : Option String) :
    Keeps s₀ Value.Known (newFunction (.closure params body scope name)) :=
  keeps_newFunction (f := .closure params body scope name) h

theorem keeps_push (r : ArrayRef) {v : Value} (hv : v.Known s₀) :
    Keeps s₀ (fun _ _ => True) (push r v) where
  leaves w hw hvalid :=
    leaves_store hvalid (Store.before_push w.store r v) (hvalid.store.push r (hv.of_before hw))
      trivial

theorem keeps_pop (r : ArrayRef) : Keeps s₀ (fun _ _ => True) (pop r) where
  leaves w _ hvalid :=
    leaves_store hvalid (Store.before_pop w.store r) (hvalid.store.pop r) trivial

theorem keeps_changeLog (f : Log → Log) : Keeps s₀ (fun _ _ => True) (changeLog f) where
  leaves _ _ hvalid := ⟨.refl _, ⟨hvalid.store, hvalid.printed⟩, trivial⟩

/-- Tracing changes the log only. -/
theorem keeps_note (event : TraceEvent) : Keeps s₀ (fun _ _ => True) (note event) := by
  refine ⟨fun w hw hvalid => ?_⟩
  simp only [note]
  split <;> exact ⟨.refl _, ⟨hvalid.store, hvalid.printed⟩, trivial⟩

/-- What is put out exists. -/
theorem keeps_emit {v : Value} (hv : v.Known s₀) : Keeps s₀ (fun _ _ => True) (emit v) := by
  refine (keeps_note _).bind fun s₁ _ hs₁ _ => ⟨fun w hw hvalid => ?_⟩
  refine ⟨.refl _, ⟨hvalid.store, fun p hp => ?_⟩, trivial⟩
  rcases Array.mem_push.1 hp with hp | rfl
  · exact hvalid.printed p hp
  · exact hv.of_before (hs₁.trans hw)

/-- The elements of an array exist in a valid store. -/
theorem keeps_items (r : ArrayRef) :
    Keeps s₀ (fun s items => ∀ v ∈ items, v.Known s) (items r) :=
  keeps_read fun _ _ hs v hv => hs.toClosed.sound.items r v hv trivial

/-- What a name is bound to exists in a valid store. -/
theorem keeps_lookup (scope : ScopeRef) (name : String) :
    Keeps s₀ Value.Known (lookup scope name) :=
  keeps_of_spares_value (spares_lookup scope name) (ContainerLaw.frame.obeys_lookup scope name)

theorem keeps_lookupMember (scope : ScopeRef) (space member : String) :
    Keeps s₀ Value.Known (lookupMember scope space member) :=
  keeps_of_spares_value (spares_lookupMember scope space member)
    (ContainerLaw.frame.obeys_lookupMember scope space member)

theorem keeps_memberValue (target : Value) (name : String) :
    Keeps s₀ Value.Known (memberValue target name) :=
  keeps_of_spares_value (spares_memberValue target name)
    (ContainerLaw.frame.obeys_memberValue target name)

theorem keeps_indexValue (target position : Value) :
    Keeps s₀ Value.Known (indexValue target position) :=
  keeps_of_spares_value (spares_indexValue target position)
    (ContainerLaw.frame.obeys_indexValue target position)

theorem keeps_plainValue (data : Json) : Keeps s₀ Value.Known (plainValue data) :=
  keeps_of_spares_value (spares_plainValue s₀ data) (ContainerLaw.frame.obeys_plainValue data)

end Eval

end Sigil
