import Sigil.Proofs.Recording.Sparing

/-!
# Valid stores

A store is **valid** if all references in it lead somewhere: the values of variables, elements and
fields exist (`Store.Closed`), so do the cells of names, the scopes of namespaces and the scopes
that functions were made in, and the scope around a scope is older than it. Every change of a store
keeps it valid, provided that what is put in exists.
-/

namespace Sigil

/-- A scope that exists. -/
def ScopeRef.Known (s : Store) (r : ScopeRef) : Prop :=
  r.index < s.scopes.size

/-- A cell that exists. -/
def CellRef.Known (s : Store) (r : CellRef) : Prop :=
  r.index < s.cells.size

/-- A function whose scope exists. -/
def Function.Known (s : Store) : Function → Prop
  | .closure _ _ scope _ => scope.Known s
  | .native _ => True

/-- A scope whose references lead somewhere, at its place in the store: the scope around it is an
older one. -/
structure Scope.Fits (s : Store) (r : ScopeRef) (scope : Scope) : Prop where
  parent : ∀ outer, scope.parent = some outer → outer.index < r.index
  names : ∀ cell ∈ scope.names.values, cell.Known s
  spaces : ∀ space ∈ scope.spaces.values, space.Known s

namespace Store

/-- **A valid store**: all references lead somewhere, and the scopes form a tree. -/
structure Valid (s : Store) : Prop extends s.Closed where
  scopes : ∀ r scope, s.scope? r = some scope → scope.Fits s r
  functions : ∀ f ∈ s.functions, f.Known s

/-- All that exists in a store exists in the other, cells and scopes included. -/
structure Before (s s' : Store) : Prop extends s.Older s' where
  cells_le : s.cells.size ≤ s'.cells.size
  scopes_le : s.scopes.size ≤ s'.scopes.size

variable {s s₁ s' : Store}

theorem Before.refl (s : Store) : s.Before s :=
  ⟨.refl s, Nat.le_refl _, Nat.le_refl _⟩

theorem Before.trans (h : s.Before s₁) (h' : s₁.Before s') : s.Before s' :=
  ⟨h.toOlder.trans h'.toOlder, Nat.le_trans h.cells_le h'.cells_le,
    Nat.le_trans h.scopes_le h'.scopes_le⟩

end Store

/-! ### What exists goes on to exist -/

section Before

variable {s s' : Store} (h : s.Before s')
include h

/-- Values go on to exist. -/
theorem Value.Known.of_before {v : Value} (hv : v.Known s) : v.Known s' :=
  hv.of_older h.toOlder

/-- Scopes go on to exist. -/
theorem ScopeRef.Known.of_before {r : ScopeRef} (hr : r.Known s) : r.Known s' :=
  Nat.lt_of_lt_of_le hr h.scopes_le

/-- Cells go on to exist. -/
theorem CellRef.Known.of_before {r : CellRef} (hr : r.Known s) : r.Known s' :=
  Nat.lt_of_lt_of_le hr h.cells_le

theorem Function.Known.of_before {f : Function} (hf : f.Known s) : f.Known s' := by
  cases f with
  | closure params body scope name => exact ScopeRef.Known.of_before h hf
  | native f => trivial

/-- A scope whose references lead somewhere keeps this while nothing is taken away. -/
theorem Scope.Fits.of_before {r : ScopeRef} {scope : Scope} (hscope : scope.Fits s r) :
    scope.Fits s' r where
  parent := hscope.parent
  names cell hcell := (hscope.names cell hcell).of_before h
  spaces space hspace := (hscope.spaces space hspace).of_before h

end Before

namespace Store

variable {s s' : Store}

/-! ### Changes keep what there is -/

theorem before_newScope (s : Store) (parent : Option ScopeRef) : s.Before (s.newScope parent).2 :=
  ⟨⟨Nat.le_refl _, Nat.le_refl _, Nat.le_refl _⟩, Nat.le_refl _, by simp [newScope]⟩

/-- Declaring a variable adds a cell and takes nothing away. -/
theorem before_define (s : Store) (r : ScopeRef) (name : String) (v : Value) (isMutable : Bool) :
    s.Before (s.define r name v isMutable) :=
  ⟨older_define s r name v isMutable, by simp [define, newCell], by simp [define, newCell]⟩

theorem before_defineSpace (s : Store) (r : ScopeRef) (name : String) (space : ScopeRef) :
    s.Before (s.defineSpace r name space) :=
  ⟨⟨Nat.le_refl _, Nat.le_refl _, Nat.le_refl _⟩, Nat.le_refl _, by simp [defineSpace]⟩

/-- Writing to a cell leaves everything in its place. -/
theorem before_writeCell (s : Store) (cell : CellRef) (v : Value) : s.Before (s.writeCell cell v) :=
  ⟨⟨Nat.le_refl _, Nat.le_refl _, Nat.le_refl _⟩, by simp [writeCell], Nat.le_refl _⟩

theorem before_newFunction (s : Store) (f : Function) : s.Before (s.newFunction f).2 :=
  ⟨⟨Nat.le_refl _, Nat.le_refl _, by simp [newFunction]⟩, Nat.le_refl _, Nat.le_refl _⟩

theorem before_newArray (s : Store) (items : Array Value) : s.Before (s.newArray items).2 :=
  ⟨⟨by simp [newArray], Nat.le_refl _, Nat.le_refl _⟩, Nat.le_refl _, Nat.le_refl _⟩

theorem before_newObject (s : Store) (fields : Table Value) : s.Before (s.newObject fields).2 :=
  ⟨⟨Nat.le_refl _, by simp [newObject], Nat.le_refl _⟩, Nat.le_refl _, Nat.le_refl _⟩

/-- Pushing makes an array longer and leaves it in its place. -/
theorem before_push (s : Store) (r : ArrayRef) (v : Value) : s.Before (s.push r v) :=
  ⟨older_push s r v, Nat.le_refl _, Nat.le_refl _⟩

theorem before_pop (s : Store) (r : ArrayRef) : s.Before (s.pop r) :=
  ⟨older_pop s r, Nat.le_refl _, Nat.le_refl _⟩

/-! ### Changes keep a store valid -/

/-- Changes that spare containers keep a store closed. -/
private theorem Closed.after (hs : s.Closed) (h : Sparing True s s') : s'.Closed :=
  h.closed trivial hs

theorem valid_empty : Store.empty.Valid where
  toClosed := closed_empty
  scopes r scope hscope := by cases hscope
  functions f hf := by cases Array.not_mem_empty _ hf

namespace Valid

/-- A new scope is younger than the scope around it. -/
theorem newScope (hs : s.Valid) {parent : Option ScopeRef}
    (h : ∀ outer, parent = some outer → outer.Known s) : (s.newScope parent).2.Valid where
  toClosed := hs.toClosed.after (.newScope s parent)
  scopes r scope hscope := by
    simp only [scope?, Store.newScope, Array.getElem?_push] at hscope
    split at hscope
    · rename_i hnew
      cases hscope
      refine ⟨fun outer houter => ?_, List.forall_mem_nil _, List.forall_mem_nil _⟩
      rw [hnew]
      exact h outer houter
    · exact (hs.scopes r scope hscope).of_before (before_newScope s parent)
  functions f hf := (hs.functions f hf).of_before (before_newScope s parent)

/-- A declaration refers to a new cell, which exists. -/
theorem define (hs : s.Valid) (r : ScopeRef) (name : String) {v : Value} (hv : v.Known s)
    (isMutable : Bool) : (s.define r name v isMutable).Valid where
  toClosed := hs.toClosed.define r name hv isMutable
  scopes q scope hscope := by
    have hbefore := before_define s r name v isMutable
    rw [scope?_define] at hscope
    split at hscope
    · obtain ⟨old, hold, rfl⟩ := Option.map_eq_some_iff.1 hscope
      have hfits := (hs.scopes q old hold).of_before hbefore
      -- the name stands for the cell that has just been made
      refine ⟨hfits.parent, Table.forall_values_insert hfits.names ?_, hfits.spaces⟩
      simp [CellRef.Known, Store.define, newCell]
    · exact (hs.scopes q scope hscope).of_before hbefore
  functions f hf := (hs.functions f hf).of_before (before_define s r name v isMutable)

/-- The scope of a namespace may be any scope, also one around the namespace. -/
theorem defineSpace (hs : s.Valid) (r : ScopeRef) (name : String) {space : ScopeRef}
    (h : space.Known s) : (s.defineSpace r name space).Valid where
  toClosed := hs.toClosed.after (.defineSpace s r name space)
  scopes q scope hscope := by
    have hbefore := before_defineSpace s r name space
    rw [scope?_defineSpace] at hscope
    split at hscope
    · obtain ⟨old, hold, rfl⟩ := Option.map_eq_some_iff.1 hscope
      have hfits := (hs.scopes q old hold).of_before hbefore
      exact ⟨hfits.parent, hfits.names,
        Table.forall_values_insert hfits.spaces (h.of_before hbefore)⟩
    · exact (hs.scopes q scope hscope).of_before hbefore
  functions f hf := (hs.functions f hf).of_before (before_defineSpace s r name space)

/-- A function whose scope exists may be added. -/
theorem newFunction (hs : s.Valid) {f : Function} (h : f.Known s) : (s.newFunction f).2.Valid where
  toClosed := hs.toClosed.after (.newFunction s f)
  scopes r scope hscope := (hs.scopes r scope hscope).of_before (before_newFunction s f)
  functions g hg := by
    rcases Array.mem_push.1 hg with hg | rfl
    · exact (hs.functions g hg).of_before (before_newFunction s f)
    · exact h.of_before (before_newFunction s g)

/-- Where scopes and functions stay, a store stays valid if the values in it exist. -/
theorem of_closed (hs : s.Valid) (hclosed : s'.Closed) (hbefore : s.Before s')
    (hscopes : s'.scopes = s.scopes) (hfunctions : s'.functions = s.functions) : s'.Valid where
  toClosed := hclosed
  scopes r scope hscope := by
    rw [scope?, hscopes] at hscope
    exact (hs.scopes r scope hscope).of_before hbefore
  functions f hf := by
    rw [hfunctions] at hf
    exact (hs.functions f hf).of_before hbefore

/-- A value that exists may be assigned. -/
theorem writeCell (hs : s.Valid) {r : ScopeRef} {name : String} {cell : CellRef}
    (h : s.target r name = .ok cell) {v : Value} (hv : v.Known s) : (s.writeCell cell v).Valid :=
  hs.of_closed (hs.toClosed.after (.writeCell h fun _ => hv)) (before_writeCell s cell v) rfl rfl

/-- An array of values that exist may be added. -/
theorem newArray (hs : s.Valid) {items : Array Value} (h : ∀ v ∈ items, v.Known s) :
    (s.newArray items).2.Valid :=
  hs.of_closed (hs.toClosed.after (.newArray fun v hv _ => h v hv)) (before_newArray s items) rfl
    rfl

theorem newObject (hs : s.Valid) {fields : Table Value} (h : ∀ v ∈ fields.values, v.Known s) :
    (s.newObject fields).2.Valid :=
  hs.of_closed (hs.toClosed.after (.newObject fun v hv _ => h v hv)) (before_newObject s fields) rfl
    rfl

/-- A value that exists may be pushed. -/
theorem push (hs : s.Valid) (r : ArrayRef) {v : Value} (hv : v.Known s) : (s.push r v).Valid :=
  hs.of_closed (hs.toClosed.push r hv) (before_push s r v) rfl rfl

/-- Popping leaves values that were there before. -/
theorem pop (hs : s.Valid) (r : ArrayRef) : (s.pop r).Valid :=
  hs.of_closed (hs.toClosed.pop r) (before_pop s r) rfl rfl

end Valid

end Store

end Sigil
