import Mathlib.Logic.Relation
import Sigil.Proofs.Law

/-!
# How the store changes

`Store.Step` lists all the single changes that evaluation makes to the store: members are added at
the end, names are declared in scopes that are opened, cells of mutable variables are written, and
arrays grow and shrink at their end. That evaluation makes no other changes is a law
(`Law.changes`). What holds of a scope or a cell is then shown for a single step and carried along
a whole evaluation:

* a scope keeps its parent and never loses a name or a namespace, and it stays as it is unless it is
  opened (`Store.Reaches.exists_scope`);
* a cell stays mutable or immutable, and the cell of an immutable variable keeps its value
  (`Store.Reaches.exists_cell`).
-/

namespace Sigil

/-! ### Scopes and cells over time -/

/-- What may become of a scope: its parent stays, and names and namespaces are never removed. -/
structure Scope.Extends (old new : Scope) : Prop where
  parent_eq : new.parent = old.parent
  names_isSome : ∀ name, (old.names.get? name).isSome → (new.names.get? name).isSome
  spaces_isSome : ∀ name, (old.spaces.get? name).isSome → (new.spaces.get? name).isSome

theorem Scope.Extends.refl (scope : Scope) : scope.Extends scope :=
  ⟨rfl, fun _ => id, fun _ => id⟩

theorem Scope.Extends.trans {a b c : Scope} (hab : a.Extends b) (hbc : b.Extends c) :
    a.Extends c :=
  ⟨hbc.parent_eq.trans hab.parent_eq, fun name h => hbc.names_isSome name (hab.names_isSome name h),
    fun name h => hbc.spaces_isSome name (hab.spaces_isSome name h)⟩

/-- A scope with one more name has all it had. -/
private theorem Scope.extends_names (scope : Scope) (name : String) (cell : CellRef) :
    scope.Extends { scope with names := scope.names.insert name cell } where
  parent_eq := rfl
  names_isSome key h := by
    rw [Table.get?_insert]
    split
    · rfl
    · exact h
  spaces_isSome _ h := h

private theorem Scope.extends_spaces (scope : Scope) (name : String) (space : ScopeRef) :
    scope.Extends { scope with spaces := scope.spaces.insert name space } where
  parent_eq := rfl
  names_isSome _ h := h
  spaces_isSome key h := by
    rw [Table.get?_insert]
    split
    · rfl
    · exact h

/-- What may become of a cell: it stays mutable or immutable, and in the second case it keeps its
value. -/
structure Cell.Extends (old new : Cell) : Prop where
  isMutable_eq : new.isMutable = old.isMutable
  value_eq : old.isMutable = false → new.value = old.value

theorem Cell.Extends.refl (cell : Cell) : cell.Extends cell :=
  ⟨rfl, fun _ => rfl⟩

theorem Cell.Extends.trans {a b c : Cell} (hab : a.Extends b) (hbc : b.Extends c) : a.Extends c :=
  ⟨hbc.isMutable_eq.trans hab.isMutable_eq, fun h =>
    (hbc.value_eq (hab.isMutable_eq.trans h)).trans (hab.value_eq h)⟩

namespace Store

/-! ### Single steps -/

/-- **The single changes of the store**, where names are declared in opened scopes only, and the
scopes of namespaces are opened ones. -/
inductive Step (opened : ScopeRef → Prop) : Store → Store → Prop
  | newScope (s : Store) (parent : Option ScopeRef) : Step opened s (s.newScope parent).2
  | newArray (s : Store) (items : Array Value) : Step opened s (s.newArray items).2
  | newObject (s : Store) (fields : Table Value) : Step opened s (s.newObject fields).2
  | newFunction (s : Store) (function : Function) : Step opened s (s.newFunction function).2
  | define (s : Store) {r : ScopeRef} (name : String) (value : Value) (isMutable : Bool) :
    opened r → Step opened s (s.define r name value isMutable)
  | defineSpace (s : Store) {r : ScopeRef} (name : String) (space : ScopeRef) :
    opened r → opened space → Step opened s (s.defineSpace r name space)
  | writeCell {s : Store} {r : ScopeRef} {name : String} {cell : CellRef} (value : Value) :
    s.target r name = .ok cell → Step opened s (s.writeCell cell value)
  | push (s : Store) (r : ArrayRef) (value : Value) : Step opened s (s.push r value)
  | pop (s : Store) (r : ArrayRef) : Step opened s (s.pop r)

/-- Finitely many changes lead from one store to another. -/
abbrev Reaches (opened : ScopeRef → Prop) : Store → Store → Prop :=
  Relation.ReflTransGen (Step opened)

variable {opened : ScopeRef → Prop} {s s' : Store}

/-- The cell that is assigned to is one of a mutable variable. -/
private theorem isMutable_of_target {r : ScopeRef} {name : String} {ref : CellRef} {cell : Cell}
    (h : s.target r name = .ok ref) (hcell : s.cell? ref = some cell) : cell.isMutable = true := by
  unfold target at h
  split at h
  · cases h
  · split at h
    · cases h
    · rename_i found _ old hold
      split at h
      · cases h
        rw [hcell] at hold
        cases hold
        assumption
      · cases h

/-- A declaration changes the scope it is made in and no other. -/
theorem scope?_define (s : Store) (r : ScopeRef) (name : String) (value : Value)
    (isMutable : Bool) (q : ScopeRef) :
    (s.define r name value isMutable).scope? q =
      if r = q then
        (s.scope? q).map fun scope => { scope with names := scope.names.insert name ⟨s.cells.size⟩ }
      else s.scope? q := by
  simp only [scope?, define, newCell, Array.getElem?_modify, ScopeRef.ext_iff]

theorem scope?_defineSpace (s : Store) (r : ScopeRef) (name : String) (space q : ScopeRef) :
    (s.defineSpace r name space).scope? q =
      if r = q then
        (s.scope? q).map fun scope => { scope with spaces := scope.spaces.insert name space }
      else s.scope? q := by
  simp only [scope?, defineSpace, Array.getElem?_modify, ScopeRef.ext_iff]

/-- Writing changes one cell and keeps whether it is mutable. -/
theorem cell?_writeCell (ref : CellRef) (value : Value) (s : Store) (q : CellRef) :
    (s.writeCell ref value).cell? q =
      if ref = q then (s.cell? q).map fun old => { old with value } else s.cell? q := by
  simp only [cell?, writeCell, Array.getElem?_modify, CellRef.ext_iff]

/-- What is in an array stays there when something is pushed. -/
theorem getElem?_push_of_eq_some {α : Type} {xs : Array α} {i : Nat} {a : α} (h : xs[i]? = some a)
    (b : α) : (xs.push b)[i]? = some a := by
  have hlt : i < xs.size := (Array.getElem?_eq_some_iff.1 h).1
  rw [Array.getElem?_push, if_neg (by omega), h]

/-- One change keeps the parent of a scope and all that is declared in it, and leaves the scope as
it is unless it is opened. -/
theorem Step.exists_scope (h : Step opened s s') {r : ScopeRef} {scope : Scope}
    (hscope : s.scope? r = some scope) :
    ∃ scope', s'.scope? r = some scope' ∧ scope.Extends scope' ∧ (¬ opened r → scope' = scope) := by
  cases h with
  | newScope parent =>
    refine ⟨scope, ?_, .refl scope, fun _ => rfl⟩
    exact getElem?_push_of_eq_some hscope _
  | @define q name value isMutable hopened =>
    rw [scope?_define, hscope]
    split
    · rename_i heq
      subst heq
      exact ⟨_, rfl, Scope.extends_names scope name _, fun hclosed => absurd hopened hclosed⟩
    · exact ⟨scope, rfl, .refl scope, fun _ => rfl⟩
  | @defineSpace q name space hopened =>
    rw [scope?_defineSpace, hscope]
    split
    · rename_i heq
      subst heq
      exact ⟨_, rfl, Scope.extends_spaces scope name space, fun hclosed => absurd hopened hclosed⟩
    · exact ⟨scope, rfl, .refl scope, fun _ => rfl⟩
  -- all other changes do not touch scopes
  | _ => exact ⟨scope, hscope, .refl scope, fun _ => rfl⟩

/-- One change leaves cells as they are, except that those of mutable variables get new values. -/
theorem Step.exists_cell (h : Step opened s s') {r : CellRef} {cell : Cell}
    (hcell : s.cell? r = some cell) : ∃ cell', s'.cell? r = some cell' ∧ cell.Extends cell' := by
  cases h with
  | define name value isMutable hopened =>
    exact ⟨cell, getElem?_push_of_eq_some hcell _, .refl cell⟩
  | @writeCell q name ref value htarget =>
    rw [cell?_writeCell, hcell]
    split
    · rename_i heq
      subst heq
      -- an assignment finds no cell but that of a mutable variable
      have hmutable := isMutable_of_target htarget hcell
      exact ⟨_, rfl, rfl, fun himmutable => absurd hmutable (by simp [himmutable])⟩
    · exact ⟨cell, rfl, .refl cell⟩
  -- all other changes do not touch cells
  | _ => exact ⟨cell, hcell, .refl cell⟩

/-- No step takes scopes away. -/
private theorem Step.size_le (h : Step opened s s') : s.scopes.size ≤ s'.scopes.size := by
  cases h <;> simp [Store.newScope, Store.newArray, Store.newObject, Store.newFunction,
    Store.define, Store.newCell, Store.defineSpace, Store.writeCell, Store.push, Store.pop]

/-! ### Many steps -/

namespace Reaches

/-- **Scopes keep what they have.** However a store changes, a scope keeps its parent and all that
is declared in it, and it stays as it is unless it is opened. -/
theorem exists_scope (h : s.Reaches opened s') {r : ScopeRef} {scope : Scope}
    (hscope : s.scope? r = some scope) :
    ∃ scope', s'.scope? r = some scope' ∧ scope.Extends scope' ∧ (¬ opened r → scope' = scope) := by
  induction h with
  | refl => exact ⟨scope, hscope, .refl scope, fun _ => rfl⟩
  | tail _ hstep ih =>
    obtain ⟨scope₁, hscope₁, hextends₁, hclosed₁⟩ := ih
    obtain ⟨scope₂, hscope₂, hextends₂, hclosed₂⟩ := hstep.exists_scope hscope₁
    exact ⟨scope₂, hscope₂, hextends₁.trans hextends₂, fun hclosed =>
      (hclosed₂ hclosed).trans (hclosed₁ hclosed)⟩

/-- **Immutable variables do not change.** However a store changes, a cell stays mutable or
immutable, and in the second case it keeps its value. -/
theorem exists_cell (h : s.Reaches opened s') {r : CellRef} {cell : Cell}
    (hcell : s.cell? r = some cell) : ∃ cell', s'.cell? r = some cell' ∧ cell.Extends cell' := by
  induction h with
  | refl => exact ⟨cell, hcell, .refl cell⟩
  | tail _ hstep ih =>
    obtain ⟨cell₁, hcell₁, hextends₁⟩ := ih
    obtain ⟨cell₂, hcell₂, hextends₂⟩ := hstep.exists_cell hcell₁
    exact ⟨cell₂, hcell₂, hextends₁.trans hextends₂⟩

theorem size_le (h : s.Reaches opened s') : s.scopes.size ≤ s'.scopes.size := by
  induction h with
  | refl => exact Nat.le_refl _
  | tail _ hstep ih => exact Nat.le_trans ih hstep.size_le

/-- Scopes stay. -/
theorem scope?_isSome (h : s.Reaches opened s') {r : ScopeRef} (hr : (s.scope? r).isSome) :
    (s'.scope? r).isSome := by
  obtain ⟨scope, hscope⟩ := Option.isSome_iff_exists.1 hr
  obtain ⟨scope', hscope', -⟩ := h.exists_scope hscope
  simp [hscope']

/-- Names that are declared stay declared. -/
theorem ownCell?_isSome (h : s.Reaches opened s') {r : ScopeRef} {name : String}
    (hname : (s.ownCell? r name).isSome) : (s'.ownCell? r name).isSome := by
  obtain ⟨cell, hcell⟩ := Option.isSome_iff_exists.1 hname
  obtain ⟨scope, hscope, hcell⟩ := Option.bind_eq_some_iff.1 hcell
  obtain ⟨scope', hscope', hextends, -⟩ := h.exists_scope hscope
  simpa [ownCell?, hscope'] using hextends.names_isSome name (by simp [hcell])

theorem ownSpace?_isSome (h : s.Reaches opened s') {r : ScopeRef} {name : String}
    (hname : (s.ownSpace? r name).isSome) : (s'.ownSpace? r name).isSome := by
  obtain ⟨space, hspace⟩ := Option.isSome_iff_exists.1 hname
  obtain ⟨scope, hscope, hspace⟩ := Option.bind_eq_some_iff.1 hspace
  obtain ⟨scope', hscope', hextends, -⟩ := h.exists_scope hscope
  simpa [ownSpace?, hscope'] using hextends.spaces_isSome name (by simp [hspace])

end Reaches

/-- The scopes that are made from now on count as opened. -/
def NewOpened (opened : ScopeRef → Prop) (s : Store) : Prop :=
  ∀ r : ScopeRef, s.scopes.size ≤ r.index → opened r

/-- Scopes that come later are open for declarations, too. -/
private theorem NewOpened.of_reaches (h : s.NewOpened opened) (hreaches : s.Reaches opened s') :
    s'.NewOpened opened :=
  fun r hr => h r (Nat.le_trans hreaches.size_le hr)

/-- All scopes count as opened where it does not matter which ones are. -/
theorem newOpened_true (s : Store) : s.NewOpened fun _ => True :=
  fun _ _ => trivial

end Store

/-! ### Evaluation -/

namespace Eval

variable {α β : Type} {opened : ScopeRef → Prop}

/-- The store that a computation leaves, however it ends. -/
def storeAfter : EStateM.Result Stop World α → Store
  | .ok _ w => w.store
  | .error _ w => w.store

/-- A computation **changes the store step by step**, declaring names in opened scopes only. Scopes
that it makes must count as opened. -/
structure Changes (opened : ScopeRef → Prop) (post : α → Prop) (x : Eval α) : Prop where
  /-- The changes. -/
  reaches : ∀ w : World, w.store.NewOpened opened → w.store.Reaches opened (storeAfter (x w))
  /-- What is known of the results. -/
  result : ∀ w : World, w.store.NewOpened opened → ∀ a w', x w = .ok a w' → post a

namespace Changes

/-- What a computation that has a result does to the store. -/
theorem reaches_of_eq_ok {post : α → Prop} {x : Eval α} (h : Changes opened post x) {w w' : World}
    {a : α} (hw : w.store.NewOpened opened) (hrun : x w = .ok a w') :
    w.store.Reaches opened w'.store := by
  have hreaches := h.reaches w hw
  rwa [hrun] at hreaches

theorem pure {post : α → Prop} {a : α} (h : post a) : Changes opened post (pure a : Eval α) where
  reaches _ _ := .refl
  result _ _ _ _ hresult := by
    cases hresult
    exact h

theorem throw {post : α → Prop} (stop : Stop) : Changes opened post (throw stop : Eval α) where
  reaches _ _ := .refl
  result _ _ _ _ hresult := by cases hresult

/-- In sequence, changes follow one another. -/
theorem bind {post : α → Prop} {post' : β → Prop} {x : Eval α} {f : α → Eval β}
    (hx : Changes opened post x) (hf : ∀ a, post a → Changes opened post' (f a)) :
    Changes opened post' (x >>= f) where
  reaches w hw := by
    -- what `f` starts from is a later store, so the scopes made from there on are opened, too
    have hreaches := hx.reaches w hw
    simp only [Bind.bind, EStateM.bind]
    cases hrun : x w with
    | ok a w₁ =>
      rw [hrun] at hreaches
      have hfa := hf a (hx.result w hw a w₁ hrun)
      exact hreaches.trans (hfa.reaches w₁ (hw.of_reaches hreaches))
    | error stop w₁ => rwa [hrun] at hreaches
  result w hw b w' hresult := by
    obtain ⟨a, w₁, hrun, hrest⟩ := exists_of_bind_eq_ok hresult
    have hw₁ := hw.of_reaches (hx.reaches_of_eq_ok hw hrun)
    exact (hf a (hx.result w hw a w₁ hrun)).result w₁ hw₁ b w' hrest

/-- What is done before a computation stops stays done. -/
theorem attempt {x : Eval α} (hx : Changes opened (fun _ => True) x) :
    Changes opened (fun _ => True) (attempt x) where
  reaches w hw := by
    have hreaches := hx.reaches w hw
    simp only [Eval.attempt]
    cases hrun : x w <;> rwa [hrun] at hreaches
  result _ _ _ _ _ := trivial

/-- A computation that takes at most one step. -/
theorem of_step {x : Eval α}
    (h : ∀ w, storeAfter (x w) = w.store ∨ w.store.Step opened (storeAfter (x w))) :
    Changes opened (fun _ => True) x where
  reaches w _ := by
    rcases h w with heq | hstep
    · rw [heq]
    · exact .single hstep
  result _ _ _ _ _ := trivial

theorem newScope (parent : Option ScopeRef) :
    Changes opened opened (add (Store.newScope parent)) where
  reaches w _ := .single (.newScope w.store parent)
  result w hw a w' hresult := by
    cases hresult
    exact hw _ (Nat.le_refl _)

theorem note (event : TraceEvent) : Changes opened (fun _ => True) (note event) := by
  refine of_step fun w => .inl ?_
  simp only [Eval.note]
  split <;> rfl

/-- Assigning takes one step, or none if it fails. -/
theorem assign (scope : ScopeRef) (name : String) (value : Value) :
    Changes opened (fun _ => True) (assign scope name value) := by
  refine of_step fun w => ?_
  simp only [Eval.assign, Bind.bind, EStateM.bind, read]
  cases htarget : w.store.target scope name with
  | ok cell => exact .inr (.writeCell value htarget)
  | error e => exact .inl rfl

end Changes

end Eval

open Eval

/-- **Evaluation changes the store by single steps**, whatever the opened scopes are. -/
def Law.changes (opened : ScopeRef → Prop) : SessionLaw opened where
  Holds := Changes opened
  of_pure := .pure
  of_bind := .bind
  of_throw := .throw
  of_attempt := .attempt
  of_read _ := .of_step fun _ => .inl rfl
  of_newScope := .newScope
  of_define _ _ _ hopened := .of_step fun w => .inr (.define w.store _ _ _ hopened)
  of_defineSpace _ _ hopened hspace :=
    .of_step fun w => .inr (.defineSpace w.store _ _ hopened hspace)
  of_assign := .assign
  of_newArray _ := .of_step fun w => .inr (.newArray w.store _)
  of_newObject _ := .of_step fun w => .inr (.newObject w.store _)
  of_newFunction _ := .of_step fun w => .inr (.newFunction w.store _)
  of_push _ _ := .of_step fun w => .inr (.push w.store _ _)
  of_pop _ := .of_step fun w => .inr (.pop w.store _)
  of_note event _ := .note event
  of_emit _ := .bind (.note _) fun _ _ => .of_step fun _ => .inl rfl
  of_changeLog _ := .of_step fun _ => .inl rfl

/-- The law that evaluation changes the store step by step, for all scopes alike. -/
abbrev Law.evolves : SessionLaw (fun _ => True) :=
  Law.changes _

theorem Law.evolves_of_eq_ok {α : Type} {post : α → Prop} {x : Eval α}
    (h : Law.evolves.Holds post x) {w w' : World} {a : α} (hrun : x w = .ok a w') :
    w.store.Reaches (fun _ => True) w'.store :=
  Changes.reaches_of_eq_ok h w.store.newOpened_true hrun

end Sigil
