import Sigil.Proofs.Recording.Evaluator

/-!
# The course of a record

A record is a **course** from one store to another if each of its stages changes the store in the
way that its deed allows (`Deed.Leads`): pushing to an array and popping from one are each a call of
one function of the standard library, a mutable variable takes a declaration that says so, and all
other deeds make changes that spare the containers there are (`Store.Sparing`).

Both are stated twice at once. In the *strict* reading all values that are stored also exist in the
store (`Value.Known`), which is so wherever the store is `Closed` to begin with. The other reading
asks nothing of the values and holds of every store.
-/

namespace Sigil

/-! ### Values that exist -/

/-- A value that exists: what it refers to is in the store. -/
def Value.Known (s : Store) : Value → Prop
  | .arr r => r.index < s.arrays.size
  | .obj r => r.index < s.objects.size
  | .fn r => r.index < s.functions.size
  | .num _ | .str _ | .bool _ | .null => True

/-- A value that exists, in the strict reading; any value in the other. -/
def Value.Sound (strict : Prop) (s : Store) (v : Value) : Prop :=
  strict → v.Known s

namespace Store

/-- All that exists in a store exists in the other, too. -/
structure Older (s s' : Store) : Prop where
  arrays_le : s.arrays.size ≤ s'.arrays.size
  objects_le : s.objects.size ≤ s'.objects.size
  functions_le : s.functions.size ≤ s'.functions.size

theorem Older.refl (s : Store) : s.Older s :=
  ⟨Nat.le_refl _, Nat.le_refl _, Nat.le_refl _⟩

theorem Older.trans {a b c : Store} (hab : a.Older b) (hbc : b.Older c) : a.Older c :=
  ⟨Nat.le_trans hab.arrays_le hbc.arrays_le, Nat.le_trans hab.objects_le hbc.objects_le,
    Nat.le_trans hab.functions_le hbc.functions_le⟩

/-- **A closed store**: the values of variables, elements and fields exist. -/
structure Closed (s : Store) : Prop where
  cells : ∀ cell ∈ s.cells, cell.value.Known s
  items : ∀ items ∈ s.arrays, ∀ v ∈ items, v.Known s
  fields : ∀ fields ∈ s.objects, ∀ v ∈ fields.values, v.Known s

end Store

theorem Value.Known.of_older {s s' : Store} (h : s.Older s') {v : Value} (hv : v.Known s) :
    v.Known s' := by
  cases v with
  | arr r => exact Nat.lt_of_lt_of_le hv h.arrays_le
  | obj r => exact Nat.lt_of_lt_of_le hv h.objects_le
  | fn r => exact Nat.lt_of_lt_of_le hv h.functions_le
  | _ => trivial

theorem Value.Sound.of_older {strict : Prop} {s s' : Store} (h : s.Older s') {v : Value}
    (hv : v.Sound strict s) : v.Sound strict s' :=
  fun hstrict => (hv hstrict).of_older h

/-! ### Operators and literals -/

theorem known_of_map_num {ε : Type} {x : Except ε Float} {v : Value}
    (h : x.map Value.num = .ok v) (s : Store) : v.Known s := by
  cases x with
  | ok x =>
    cases h
    trivial
  | error e => cases h

theorem known_of_applyNumbers {op : String} {x y : Float} {v : Value}
    (h : applyNumbers op x y = .ok v) (s : Store) : v.Known s := by
  unfold applyNumbers at h
  split at h <;> grind [Value.Known, known_of_map_num]

/-- Operators make numbers and truth values only. -/
theorem known_of_applyOperator {op : String} {a b v : Value} (h : applyOperator op a b = .ok v)
    (s : Store) : v.Known s := by
  unfold applyOperator at h
  split at h
  · cases h
    trivial
  · cases h
    trivial
  · split at h
    · exact known_of_applyNumbers h s
    · cases h

theorem known_of_literalValue {value kind : Json} {v : Value}
    (h : literalValue value kind = .ok v) (s : Store) : v.Known s := by
  unfold literalValue at h
  split at h <;> grind [Value.Known, known_of_map_num]

namespace Store

variable {strict : Prop} {s s' : Store}

theorem closed_empty : Store.empty.Closed where
  cells _ h := by cases Array.not_mem_empty _ h
  items _ h := by cases Array.not_mem_empty _ h
  fields _ h := by cases Array.not_mem_empty _ h

/-! ### Changes that spare containers -/

/-- **The single changes that spare the containers there are** and make no mutable variable. In the
strict reading the values that are stored exist. -/
inductive Sparing (strict : Prop) : Store → Store → Prop
  | newScope (s : Store) (parent : Option ScopeRef) : Sparing strict s (s.newScope parent).2
  | newArray {s : Store} {items : Array Value} :
    (∀ v ∈ items, v.Sound strict s) → Sparing strict s (s.newArray items).2
  | newObject {s : Store} {fields : Table Value} :
    (∀ v ∈ fields.values, v.Sound strict s) → Sparing strict s (s.newObject fields).2
  | newFunction (s : Store) (function : Function) : Sparing strict s (s.newFunction function).2
  | define {s : Store} (r : ScopeRef) (name : String) {value : Value} :
    value.Sound strict s → Sparing strict s (s.define r name value false)
  | defineSpace (s : Store) (r : ScopeRef) (name : String) (space : ScopeRef) :
    Sparing strict s (s.defineSpace r name space)
  | writeCell {s : Store} {r : ScopeRef} {name : String} {cell : CellRef} {value : Value} :
    s.target r name = .ok cell → value.Sound strict s → Sparing strict s (s.writeCell cell value)

namespace Sparing

theorem step (h : Sparing strict s s') : s.Step (fun _ => True) s' := by
  cases h with
  | newScope parent => exact .newScope s parent
  | newArray => exact .newArray s _
  | newObject => exact .newObject s _
  | newFunction function => exact .newFunction s function
  | define r name => exact .define s name _ false trivial
  | defineSpace r name space => exact .defineSpace s name space trivial trivial
  | writeCell htarget => exact .writeCell _ htarget

private theorem older (h : Sparing strict s s') : s.Older s' := by
  cases h with
  | newArray => exact ⟨by simp [Store.newArray], Nat.le_refl _, Nat.le_refl _⟩
  | newObject => exact ⟨Nat.le_refl _, by simp [Store.newObject], Nat.le_refl _⟩
  | newFunction => exact ⟨Nat.le_refl _, Nat.le_refl _, by simp [Store.newFunction]⟩
  -- no other change makes anything that a value can refer to
  | _ => exact ⟨Nat.le_refl _, Nat.le_refl _, Nat.le_refl _⟩

end Sparing

theorem older_define (s : Store) (r : ScopeRef) (name : String) (v : Value) (isMutable : Bool) :
    s.Older (s.define r name v isMutable) :=
  ⟨Nat.le_refl _, Nat.le_refl _, Nat.le_refl _⟩

private theorem mem_or_of_mem_modify {α : Type} {xs : Array α} {f : α → α} {i : Nat} {a : α}
    (h : a ∈ xs.modify i f) : a ∈ xs ∨ ∃ b ∈ xs, a = f b := by
  obtain ⟨j, hj⟩ := Array.mem_iff_getElem?.1 h
  rw [Array.getElem?_modify] at hj
  split at hj
  · obtain ⟨b, hb, rfl⟩ := Option.map_eq_some_iff.1 hj
    exact .inr ⟨b, Array.mem_of_getElem? hb, rfl⟩
  · exact .inl (Array.mem_of_getElem? hj)

/-- A store is closed if all that is stored in it existed before. -/
theorem Closed.of_older (h : s.Older s') (hcells : ∀ cell ∈ s'.cells, cell.value.Known s)
    (hitems : ∀ items ∈ s'.arrays, ∀ v ∈ items, v.Known s)
    (hfields : ∀ fields ∈ s'.objects, ∀ v ∈ fields.values, v.Known s) : s'.Closed where
  cells cell hcell := (hcells cell hcell).of_older h
  items items hmem v hv := (hitems items hmem v hv).of_older h
  fields fields hmem v hv := (hfields fields hmem v hv).of_older h

theorem Closed.define (hs : s.Closed) (r : ScopeRef) (name : String) {v : Value} (hv : v.Known s)
    (isMutable : Bool) : (s.define r name v isMutable).Closed := by
  refine .of_older (older_define s r name v isMutable) (fun cell hcell => ?_) hs.items hs.fields
  rcases Array.mem_push.1 hcell with hcell | rfl
  · exact hs.cells cell hcell
  · exact hv

theorem Sparing.closed (h : Sparing strict s s') (hstrict : strict) (hs : s.Closed) :
    s'.Closed := by
  have holder := h.older
  cases h with
  | @newArray items hitems =>
    refine .of_older holder hs.cells (fun xs hxs => ?_) hs.fields
    rcases Array.mem_push.1 hxs with hxs | rfl
    · exact hs.items xs hxs
    · exact fun v hv => hitems v hv hstrict
  | @newObject fields hfields =>
    refine .of_older holder hs.cells hs.items fun t ht => ?_
    rcases Array.mem_push.1 ht with ht | rfl
    · exact hs.fields t ht
    · exact fun v hv => hfields v hv hstrict
  | define r name hvalue => exact hs.define r name (hvalue hstrict) false
  | writeCell htarget hvalue =>
    refine .of_older holder (fun cell hcell => ?_) hs.items hs.fields
    dsimp only [Store.writeCell] at hcell
    rcases mem_or_of_mem_modify hcell with hcell | ⟨old, -, rfl⟩
    · exact hs.cells cell hcell
    · exact hvalue hstrict
  | _ => exact .of_older holder hs.cells hs.items hs.fields

/-! ### Pushing and popping -/

/-- The store after an element is pushed: the arguments are the array and the element. -/
def afterPush (args : List Value) (s : Store) : Store :=
  match Native.arg args 0 with
  | .arr r => s.push r (Native.arg args 1)
  | _ => s

/-- The store after an element is popped: the argument is the array. -/
def afterPop (args : List Value) (s : Store) : Store :=
  match Native.arg args 0 with
  | .arr r => s.pop r
  | _ => s

theorem older_push (s : Store) (r : ArrayRef) (v : Value) : s.Older (s.push r v) :=
  ⟨by simp [push], Nat.le_refl _, Nat.le_refl _⟩

theorem older_pop (s : Store) (r : ArrayRef) : s.Older (s.pop r) :=
  ⟨by simp [pop], Nat.le_refl _, Nat.le_refl _⟩

theorem Closed.push (hs : s.Closed) (r : ArrayRef) {v : Value} (hv : v.Known s) :
    (s.push r v).Closed := by
  refine .of_older (older_push s r v) hs.cells (fun xs hxs u hu => ?_) hs.fields
  dsimp only [Store.push] at hxs
  rcases mem_or_of_mem_modify hxs with hxs | ⟨old, hold, rfl⟩
  · exact hs.items xs hxs u hu
  · rcases Array.mem_push.1 hu with hu | rfl
    · exact hs.items old hold u hu
    · exact hv

theorem Closed.pop (hs : s.Closed) (r : ArrayRef) : (s.pop r).Closed := by
  refine .of_older (older_pop s r) hs.cells (fun xs hxs u hu => ?_) hs.fields
  dsimp only [Store.pop] at hxs
  rcases mem_or_of_mem_modify hxs with hxs | ⟨old, hold, rfl⟩
  · exact hs.items xs hxs u hu
  · rw [← Array.mem_toList_iff, Array.toList_pop] at hu
    exact hs.items old hold u (Array.mem_toList_iff.1 ((List.dropLast_sublist _).subset hu))

end Store

theorem Native.arg_sound {strict : Prop} {s : Store} {args : List Value}
    (h : ∀ v ∈ args, v.Sound strict s) (i : Nat) : (Native.arg args i).Sound strict s := by
  unfold Native.arg
  rw [List.getD_eq_getElem?_getD]
  cases hv : args[i]? with
  | none => exact fun _ => trivial
  | some v => exact h v (List.mem_of_getElem? hv)

/-! ### Courses -/

/-- **How a deed changes the store.** -/
def Deed.Leads (strict : Prop) : Deed → Store → Store → Prop
  | .native .arrPush args, s, s' => s' = s.afterPush args ∧ ∀ v ∈ args, v.Sound strict s
  | .native .arrPop args, s, s' => s' = s.afterPop args
  | .declare isMutable, s, s' =>
    ∃ r name v, s' = s.define r name v isMutable ∧ v.Sound strict s
  | .operation, s, s' | .native _ _, s, s' => Relation.ReflTransGen (Store.Sparing strict) s s'

/-- Whether a deed pushes to an array or pops from one. -/
def Deed.isUpdate : Deed → Bool
  | .native .arrPush _ | .native .arrPop _ => true
  | _ => false

namespace Deed.Leads

variable {strict : Prop} {deed : Deed} {s s' : Store}

/-- What a deed does: it pushes, it pops, it declares a variable, or it takes changes that spare all
containers and make no mutable variable. -/
theorem cases (h : deed.Leads strict s s') :
    (∃ args, deed = .native .arrPush args ∧ s' = s.afterPush args ∧
        ∀ v ∈ args, v.Sound strict s) ∨
      (∃ args, deed = .native .arrPop args ∧ s' = s.afterPop args) ∨
      (∃ isMutable, deed = .declare isMutable ∧
        ∃ r name v, s' = s.define r name v isMutable ∧ v.Sound strict s) ∨
      (deed.isUpdate = false ∧ Relation.ReflTransGen (Store.Sparing strict) s s') := by
  unfold Deed.Leads at h
  split at h
  · exact .inl ⟨_, rfl, h⟩
  · exact .inr (.inl ⟨_, rfl, h⟩)
  · exact .inr (.inr (.inl ⟨_, rfl, h⟩))
  · exact .inr (.inr (.inr ⟨rfl, h⟩))
  · refine .inr (.inr (.inr ⟨?_, h⟩))
    unfold Deed.isUpdate
    split <;> simp_all

/-- A deed changes the store step by step. -/
theorem reaches (h : deed.Leads strict s s') : s.Reaches (fun _ => True) s' := by
  obtain ⟨args, -, rfl, -⟩ | ⟨args, -, rfl⟩ | ⟨isMutable, -, r, name, v, rfl, -⟩ | ⟨-, hpath⟩ :=
    h.cases
  · unfold Store.afterPush
    split
    · exact .single (.push s _ _)
    · exact .refl
  · unfold Store.afterPop
    split
    · exact .single (.pop s _)
    · exact .refl
  · exact .single (.define s name v isMutable trivial)
  · exact Relation.ReflTransGen.mono (fun _ _ => Store.Sparing.step) _ _ hpath

theorem older (h : deed.Leads strict s s') : s.Older s' := by
  obtain ⟨args, -, rfl, -⟩ | ⟨args, -, rfl⟩ | ⟨isMutable, -, r, name, v, rfl, -⟩ | ⟨-, hpath⟩ :=
    h.cases
  · unfold Store.afterPush
    split
    · exact Store.older_push s _ _
    · exact .refl s
  · unfold Store.afterPop
    split
    · exact Store.older_pop s _
    · exact .refl s
  · exact Store.older_define s r name v isMutable
  · clear h
    induction hpath with
    | refl => exact .refl s
    | tail _ hstep ih => exact ih.trans hstep.older

theorem closed (h : deed.Leads strict s s') (hstrict : strict) (hs : s.Closed) : s'.Closed := by
  obtain ⟨args, -, rfl, hargs⟩ | ⟨args, -, rfl⟩ | ⟨isMutable, -, r, name, v, rfl, hv⟩ |
    ⟨-, hpath⟩ := h.cases
  · unfold Store.afterPush
    split
    · exact hs.push _ (Native.arg_sound hargs 1 hstrict)
    · exact hs
  · unfold Store.afterPop
    split
    · exact hs.pop _
    · exact hs
  · exact hs.define r name (hv hstrict) isMutable
  · clear h
    induction hpath with
    | refl => exact hs
    | tail _ hstep ih => exact hstep.closed hstrict ih

end Deed.Leads

/-- The store after some stages, from a store on. -/
def storeAt (s : Store) : List Stage → Store
  | [] => s
  | stage :: stages => storeAt stage.store stages

/-- **A course**: stage by stage, a record leads from one store to another. -/
inductive Course (strict : Prop) : Store → List Stage → Store → Prop
  | nil (s : Store) : Course strict s [] s
  | cons {s s' : Store} {stage : Stage} {stages : List Stage} :
    stage.deed.Leads strict s stage.store → Course strict stage.store stages s' →
      Course strict s (stage :: stages) s'

namespace Course

variable {strict : Prop} {s s₁ s' : Store} {stages more : List Stage}

theorem append (h : Course strict s stages s₁) (h' : Course strict s₁ more s') :
    Course strict s (stages ++ more) s' := by
  induction h with
  | nil => exact h'
  | cons hstage _ ih => exact .cons hstage (ih h')

theorem storeAt_eq (h : Course strict s stages s') : storeAt s stages = s' := by
  induction h with
  | nil => rfl
  | cons _ _ ih => exact ih

/-- A course can be cut anywhere. -/
theorem of_append (h : Course strict s (stages ++ more) s') :
    Course strict s stages (storeAt s stages) ∧ Course strict (storeAt s stages) more s' := by
  induction stages generalizing s with
  | nil => exact ⟨.nil s, h⟩
  | cons stage stages ih =>
    cases h with
    | cons hstage hrest =>
      obtain ⟨hstages, hmore⟩ := ih hrest
      exact ⟨.cons hstage hstages, hmore⟩

/-- Every section of a course is a course. -/
theorem between {first second third : List Stage} (h : Course strict s stages s')
    (hstages : stages = first ++ second ++ third) :
    Course strict (storeAt s first) second (storeAt s (first ++ second)) := by
  subst hstages
  exact (of_append (of_append h).1).2

theorem leads_of_singleton {stage : Stage} (h : Course strict s [stage] s') :
    stage.deed.Leads strict s stage.store := by
  cases h with
  | cons hstage _ => exact hstage

/-- Along a course the store changes step by step. -/
theorem reaches (h : Course strict s stages s') : s.Reaches (fun _ => True) s' := by
  induction h with
  | nil => exact .refl
  | cons hstage _ ih => exact hstage.reaches.trans ih

theorem older (h : Course strict s stages s') : s.Older s' := by
  induction h with
  | nil => exact .refl _
  | cons hstage _ ih => exact hstage.older.trans ih

/-- Along a course the store stays closed. -/
theorem closed (h : Course strict s stages s') (hstrict : strict) (hs : s.Closed) :
    s'.Closed := by
  induction h with
  | nil => exact hs
  | cons hstage _ ih => exact ih (hstage.closed hstrict hs)

end Course

end Sigil
