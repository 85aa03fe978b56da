import Sigil.Proofs.Generic.Evaluator
import Sigil.Proofs.Namespaces.Registration

/-!
# Loop variables by value

Each iteration of a loop has a scope of its own, in which the loop variable is declared, and code of
the loop body finds it there. Evaluation *by value* (`Operations.byValue`) does not look there. It
keeps beside the world which names are *pinned* in which scopes, and to which values: the scope of
an iteration pins the loop variable to the value that it has in this iteration, and the scopes of
code inside take over the pins of the scope around them, but for the names that the code itself
declares. A pinned name has the value that it is pinned to, whatever is in the store.

What is pinned never changes. That the store always agrees with it (`Store.Upholds`) is the
invariant that relates evaluation by value to evaluation: the value of a pinned name is kept in the
cell of an immutable variable, and no scope on the way to it declares the name.
-/

namespace Sigil

open Eval

/-! ### Evaluation by value -/

/-- The values that names are pinned to, scope by scope. -/
abbrev Pins :=
  ScopeRef → String → Option Value

/-- A world with pins. -/
structure Pinned where
  /-- The world. -/
  world : World
  /-- The pins. -/
  pins : Pins

/-- The pins of a scope for code that declares some names. -/
def hideNames (names : List String) (values : String → Option Value) : String → Option Value :=
  fun name => if name ∈ names then none else values name

private theorem eq_some_of_hideNames {names : List String} {values : String → Option Value}
    {name : String} {v : Value} (h : hideNames names values name = some v) :
    values name = some v := by
  unfold hideNames at h
  split at h
  · cases h
  · exact h

/-- The pins of a scope with a loop variable. -/
def addItem (item : Option LoopItem) (values : String → Option Value) : String → Option Value :=
  match item with
  | some (name, .ok v) => Function.update values name (some v)
  | _ => values

/-- Computations by value. -/
abbrev Pinning :=
  EStateM Stop Pinned

namespace Pinning

/-- What leaves the pins alone. -/
def lift {α : Type} (x : Eval α) : Pinning α := fun s =>
  match x s.world with
  | .ok a world => .ok a { s with world }
  | .error e world => .error e { s with world }

/-- Makes a scope and gives it pins. -/
def newScope (make : Eval ScopeRef) (values : Pins → String → Option Value) :
    Pinning ScopeRef := do
  let inner ← lift make
  modify fun s => { s with pins := Function.update s.pins inner (values s.pins) }
  return inner

/-- The value of a name, from the store only if it is not pinned. -/
def lookup (scope : ScopeRef) (name : String) : Pinning Value := fun s =>
  match s.pins scope name with
  | some v => .ok v s
  | none => lift (Eval.lookup scope name) s

end Pinning

/-- **The operations of evaluation by value.** -/
def Operations.byValue : Operations Pinning where
  lift := Pinning.lift
  newScope names parent :=
    Pinning.newScope (Eval.newScope parent) fun pins => hideNames names (pins parent)
  newIteration body item parent :=
    Pinning.newScope (Operations.world.newIteration body item parent) fun pins =>
      hideNames body.names (addItem item (pins parent))
  lookup := Pinning.lookup
  declare scope name value isMutable := Pinning.lift (Eval.define scope name value isMutable)
  native f args := Pinning.lift (f.run (fun _ _ => throw .outOfFuel) args)

/-! ### Pins that the store agrees with -/

/-- **How a store agrees with a pin**: the scope itself declares the name, immutably and with this
value, or it does not declare it, and the scope around it has the same pin. -/
inductive Store.Backs (s : Store) (pins : Pins) (r : ScopeRef) (name : String) (v : Value) : Prop
  | own {ref : CellRef} : s.ownCell? r name = some ref → s.cell? ref = some ⟨v, false⟩ →
    Backs s pins r name v
  | outer {outer : ScopeRef} : s.ownCell? r name = none → s.parent? r = some outer →
    pins outer name = some v → Backs s pins r name v

namespace Store.Backs

variable {s s' : Store} {pins : Pins} {r : ScopeRef} {name : String} {v : Value}

/-- There are no pins in scopes that do not exist. -/
theorem known (h : s.Backs pins r name v) : r.Known s := by
  have hscope : ∃ scope, s.scope? r = some scope := by
    cases h with
    | own hown _ =>
      obtain ⟨scope, hscope, -⟩ := Option.bind_eq_some_iff.1 hown
      exact ⟨scope, hscope⟩
    | outer _ hparent _ =>
      obtain ⟨scope, hscope, -⟩ := Option.bind_eq_some_iff.1 hparent
      exact ⟨scope, hscope⟩
  obtain ⟨scope, hscope⟩ := hscope
  exact (Array.getElem?_eq_some_iff.1 hscope).1

/-- A store goes on to agree with a pin while the scope stays in its place and does not declare the
name anew: cells of immutable variables do not change. -/
theorem of_keeps (h : s.Backs pins r name v) (hown : s'.ownCell? r name = s.ownCell? r name)
    (hparent : s'.parent? r = s.parent? r) (hcells : s.KeepsCells s') :
    s'.Backs pins r name v := by
  cases h with
  | own hcell hvalue =>
    obtain ⟨⟨v', isMutable⟩, hcell', hmutable, hvalue'⟩ := hcells _ _ hvalue
    obtain rfl : isMutable = false := hmutable
    obtain rfl : v' = v := hvalue' rfl
    exact .own (hown.trans hcell) hcell'
  | outer hnone houter hpin => exact .outer (hown.trans hnone) (hparent.trans houter) hpin

/-- The pins of one scope matter to the scopes inside it only, and there only what they have in
common. -/
theorem of_pins {pins' : Pins} (h : s.Backs pins r name v)
    (hpins : ∀ outer, s.parent? r = some outer → pins outer name = some v →
      pins' outer name = some v) : s.Backs pins' r name v := by
  cases h with
  | own hcell hvalue => exact .own hcell hvalue
  | outer hnone houter hpin => exact .outer hnone houter (hpins _ houter hpin)

end Store.Backs

/-- **A store that agrees with all pins.** Moreover, the scope around a scope is an older one, and
the scopes of functions exist. -/
structure Store.Upholds (pins : Pins) (s : Store) : Prop where
  older : ∀ {r outer : ScopeRef}, s.parent? r = some outer → outer.index < r.index
  functions : ∀ f ∈ s.functions, f.Known s
  backs : ∀ {r : ScopeRef} {name : String} {v : Value}, pins r name = some v →
    s.Backs pins r name v

namespace Store.Upholds

variable {pins : Pins} {s s' : Store} (h : s.Upholds pins) {r : ScopeRef} {name : String}
  {v : Value}
include h

/-- A search for a pinned name finds a cell with the value. -/
private theorem exists_findSome? (hpin : pins r name = some v) (bound : Nat)
    (hbound : r.index ≤ bound) :
    ∃ ref, (s.chainUpTo bound r).findSome? (s.ownCell? · name) = some ref ∧
      s.cell? ref = some ⟨v, false⟩ := by
  induction bound generalizing r with
  | zero =>
    cases h.backs hpin with
    | own hcell hvalue => exact ⟨_, by simp [chainUpTo, hcell], hvalue⟩
    | outer _ houter _ =>
      have hlt := h.older houter
      omega
  | succ bound ih =>
    cases h.backs hpin with
    | own hcell hvalue =>
      obtain ⟨rest, hrest⟩ := s.chainUpTo_eq_cons (bound + 1) r
      exact ⟨_, by simp [hrest, hcell], hvalue⟩
    | outer hnone houter hpin =>
      have hlt := h.older houter
      obtain ⟨ref, hfind, hvalue⟩ := ih hpin (by omega)
      exact ⟨ref, by simp [chainUpTo, houter, hnone, hfind], hvalue⟩

/-- **In the store a pinned name has the value that it is pinned to.** -/
theorem lookup_eq (hpin : pins r name = some v) : s.lookup r name = .ok v := by
  obtain ⟨ref, hfind, hvalue⟩ := h.exists_findSome? hpin r.index (Nat.le_refl _)
  exact lookup_of_cell? hfind hvalue

/-- Nothing is pinned in a scope that is yet to be made. -/
theorem pins_eq_none (hr : s.scopes.size ≤ r.index) : pins r name = none :=
  Option.eq_none_iff_forall_ne_some.2 fun _ hpin => Nat.not_lt.2 hr (h.backs hpin).known

/-! ### Changes -/

/-- Changes that leave scopes in their places and pinned names as they are. -/
theorem of_keeps (hparents : ∀ r, s'.parent? r = s.parent? r)
    (hown : ∀ r name v, pins r name = some v → s'.ownCell? r name = s.ownCell? r name)
    (hcells : s.KeepsCells s') (hfunctions : ∀ f ∈ s'.functions, f.Known s') : s'.Upholds pins where
  older hparent := h.older ((hparents _).symm.trans hparent)
  functions := hfunctions
  backs hpin := (h.backs hpin).of_keeps (hown _ _ _ hpin) (hparents _) hcells

/-- Changes step by step that declare nothing in scopes with pins. -/
theorem of_reaches {opened : ScopeRef → Prop} (hreaches : s.Reaches opened s')
    (hclosed : ∀ r name v, pins r name = some v → ¬ opened r) (hs' : s'.Valid) :
    s'.Upholds pins where
  older := hs'.index_lt_of_parent?
  functions := hs'.functions
  backs {r name v} hpin := by
    have hbacks := h.backs hpin
    obtain ⟨scope, hscope⟩ : ∃ scope, s.scope? r = some scope :=
      ⟨_, Array.getElem?_eq_getElem hbacks.known⟩
    obtain ⟨scope', hscope', -, hsame⟩ := hreaches.exists_scope hscope
    obtain rfl := hsame (hclosed r name v hpin)
    refine hbacks.of_keeps ?_ ?_ fun _ _ => hreaches.exists_cell
    · rw [ownCell?, ownCell?, hscope, hscope']
    · rw [parent?, parent?, hscope, hscope']

/-- What changes neither cells nor scopes nor functions. -/
theorem of_eq (hcells : s'.cells = s.cells) (hscopes : s'.scopes = s.scopes)
    (hfunctions : s'.functions = s.functions) : s'.Upholds pins := by
  refine h.of_keeps (fun r => ?_) (fun r name v _ => ?_)
    (fun ref cell hcell => ⟨cell, ?_, .refl cell⟩) fun f hf => ?_
  · simp only [parent?, scope?, hscopes]
  · simp only [ownCell?, scope?, hscopes]
  · rwa [cell?, hcells]
  · rw [hfunctions] at hf
    have hknown := h.functions f hf
    cases f with
    | closure params body scope name => rwa [Function.Known, ScopeRef.Known, hscopes]
    | native f => trivial

/-- A name that is not pinned can be declared. -/
theorem define (hr : r.Known s) (hname : pins r name = none) (v : Value) (isMutable : Bool) :
    (s.define r name v isMutable).Upholds pins := by
  have hstep : s.Step (fun _ => True) (s.define r name v isMutable) :=
    .define s name v isMutable trivial
  refine h.of_keeps (parent?_define s r name v isMutable) (fun q other u hpin => ?_)
    (fun _ _ => hstep.exists_cell)
    fun f hf => (h.functions f hf).of_before (before_define s r name v isMutable)
  rw [ownCell?_define hr, if_neg]
  rintro ⟨rfl, rfl⟩
  rw [hname] at hpin
  cases hpin

theorem defineSpace (r : ScopeRef) (name : String) (space : ScopeRef) :
    (s.defineSpace r name space).Upholds pins :=
  h.of_keeps (parent?_defineSpace s r name space)
    (fun q other _ _ => ownCell?_defineSpace s r name space q other)
    (fun _ cell hcell => ⟨cell, hcell, .refl cell⟩)
    fun f hf => (h.functions f hf).of_before (before_defineSpace s r name space)

/-- Assignments do not reach the cells of immutable variables. -/
theorem writeCell {ref : CellRef} (htarget : s.target r name = .ok ref) (v : Value) :
    (s.writeCell ref v).Upholds pins := by
  have hstep : s.Step (fun _ => True) (s.writeCell ref v) := .writeCell v htarget
  exact h.of_keeps (fun _ => rfl) (fun _ _ _ _ => rfl) (fun _ _ => hstep.exists_cell)
    fun f hf => (h.functions f hf).of_before (before_writeCell s ref v)

theorem newFunction {f : Function} (hf : f.Known s) : (s.newFunction f).2.Upholds pins := by
  have hbefore := before_newFunction s f
  refine h.of_keeps (fun _ => rfl) (fun _ _ _ _ => rfl)
    (fun _ cell hcell => ⟨cell, hcell, .refl cell⟩) fun g hg => ?_
  rcases Array.mem_push.1 hg with hg | rfl
  · exact (h.functions g hg).of_before hbefore
  · exact hf.of_before hbefore

/-- **A new scope** can have pins of the scope around it. -/
theorem newScope {parent : Option ScopeRef} (hparent : ∀ outer, parent = some outer → outer.Known s)
    {values : String → Option Value}
    (hvalues : ∀ name v, values name = some v → ∃ outer, parent = some outer ∧
      pins outer name = some v) :
    (s.newScope parent).2.Upholds (Function.update pins ⟨s.scopes.size⟩ values) where
  older {r outer} houter := by
    rw [parent?_newScope] at houter
    split at houter
    · rename_i hr
      rw [hr]
      exact hparent outer houter
    · exact h.older houter
  functions f hf := (h.functions f hf).of_before (before_newScope s parent)
  backs {r name v} hpin := by
    have hold {q : ScopeRef} (hq : q.Known s) : q ≠ ⟨s.scopes.size⟩ := by
      rintro rfl
      exact Nat.lt_irrefl _ hq
    by_cases hr : r = ⟨s.scopes.size⟩
    · subst hr
      rw [Function.update_self] at hpin
      obtain ⟨outer, rfl, hpin⟩ := hvalues name v hpin
      have hnone : (s.newScope (some outer)).2.ownCell? ⟨s.scopes.size⟩ name = none := by
        rw [ownCell?, scope?_newScope_new]
        rfl
      have houter : (s.newScope (some outer)).2.parent? ⟨s.scopes.size⟩ = some outer := by
        rw [parent?_newScope, if_pos rfl]
      refine .outer hnone houter ?_
      rwa [Function.update_of_ne (hold (hparent outer rfl))]
    · rw [Function.update_of_ne hr] at hpin
      have hbacks := h.backs hpin
      have houter : (s.newScope parent).2.parent? r = s.parent? r := by
        rw [parent?_newScope, if_neg (Nat.ne_of_lt hbacks.known)]
      have hkept : (s.newScope parent).2.Backs pins r name v :=
        hbacks.of_keeps (ownCell?_newScope ..) houter fun _ cell hcell => ⟨cell, hcell, .refl cell⟩
      refine hkept.of_pins fun outer houter' hpin' => ?_
      -- the scope around an old one is old
      have hlt := h.older (houter.symm.trans houter')
      rwa [Function.update_of_ne (hold (Nat.lt_trans hlt hbacks.known))]

/-- A new scope need not have pins. -/
theorem newScope_self {parent : Option ScopeRef}
    (hparent : ∀ outer, parent = some outer → outer.Known s) :
    (s.newScope parent).2.Upholds pins := by
  have hvalues : ∀ name v, pins ⟨s.scopes.size⟩ name = some v →
      ∃ outer, parent = some outer ∧ pins outer name = some v := by
    intro name v hpin
    have hnone : pins ⟨s.scopes.size⟩ name = none := h.pins_eq_none (Nat.le_refl _)
    rw [hnone] at hpin
    cases hpin
  have hnew := h.newScope hparent hvalues
  rwa [Function.update_eq_self] at hnew

/-- A new scope inside another can have its pins, but for some names. -/
theorem newScope_hideNames (hr : r.Known s) (names : List String) :
    (s.newScope (some r)).2.Upholds
      (Function.update pins ⟨s.scopes.size⟩ (hideNames names (pins r))) := by
  refine h.newScope (fun outer houter => ?_) fun name v hpin =>
    ⟨r, rfl, eq_some_of_hideNames hpin⟩
  cases houter
  exact hr

/-- What a scope declares immutably can be pinned there. -/
theorem pin {ref : CellRef} (hname : pins r name = none) (hcell : s.ownCell? r name = some ref)
    (hvalue : s.cell? ref = some ⟨v, false⟩) :
    s.Upholds (Function.update pins r (Function.update (pins r) name (some v))) where
  older := h.older
  functions := h.functions
  backs {q other u} hpin := by
    -- but for the one pin, all pins are the old ones
    have hother {q : ScopeRef} {other : String} (hne : ¬ (q = r ∧ other = name)) :
        Function.update pins r (Function.update (pins r) name (some v)) q other =
          pins q other := by
      by_cases hq : q = r
      · subst hq
        rw [Function.update_self, Function.update_of_ne fun h => hne ⟨rfl, h⟩]
      · rw [Function.update_of_ne hq]
    by_cases hq : q = r ∧ other = name
    · obtain ⟨rfl, rfl⟩ := hq
      rw [Function.update_self, Function.update_self] at hpin
      cases hpin
      exact .own hcell hvalue
    · rw [hother hq] at hpin
      refine (h.backs hpin).of_pins fun outer _ houter => ?_
      rw [hother, houter]
      rintro ⟨rfl, rfl⟩
      rw [hname] at houter
      cases houter

/-- **The scope of an iteration** can have pins of the scope around it and one of the loop
variable. -/
theorem newIteration (hr : r.Known s) (names : List String) (name : String) (v : Value) :
    ((s.newScope (some r)).2.define ⟨s.scopes.size⟩ name v false).Upholds
      (Function.update pins ⟨s.scopes.size⟩
        (hideNames names (addItem (some (name, .ok v)) (pins r)))) := by
  let values := hideNames (name :: names) (pins r)
  have hscope : (s.newScope (some r)).2.Upholds (Function.update pins ⟨s.scopes.size⟩ values) :=
    h.newScope_hideNames hr (name :: names)
  have hknown : ScopeRef.Known (s.newScope (some r)).2 ⟨s.scopes.size⟩ := by
    simp [ScopeRef.Known, Store.newScope]
  have hfree : Function.update pins ⟨s.scopes.size⟩ values ⟨s.scopes.size⟩ name = none := by
    simp [values, hideNames]
  have hdefine := hscope.define hknown hfree v false
  by_cases hname : name ∈ names
  · -- the body declares the name of the loop variable itself
    have hvalues : hideNames names (addItem (some (name, .ok v)) (pins r)) = values := by
      funext other
      by_cases hother : other = name <;> simp [values, hideNames, addItem, hother, hname]
    rwa [hvalues]
  · have hvalues : hideNames names (addItem (some (name, .ok v)) (pins r)) =
        Function.update values name (some v) := by
      funext other
      by_cases hother : other = name
      · simp [values, hideNames, addItem, hother, hname]
      · simp [values, hideNames, addItem, hother]
    have hpin := hdefine.pin (v := v) hfree (by rw [ownCell?_define hknown, if_pos ⟨rfl, rfl⟩])
      (by simp [cell?_define, nextCell])
    rwa [Function.update_self, Function.update_idem, ← hvalues] at hpin

end Store.Upholds

end Sigil
