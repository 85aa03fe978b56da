import Sigil.Proofs.Validity.Visibility

/-!
# Redefinitions

A name can be declared again in the scope that declares it already. The name gets a new cell then.
A function keeps the scope that it was made in, not the cells of the names in its body, so its calls
find the new cell, as everything does that is evaluated in the scope. The old cell keeps its value,
but nothing stands for it any more, then and ever after: a cell is that of one name in one scope
(`Store.Unshared`), and a declaration gives a name a cell that has just been made.
-/

namespace Sigil

open Eval

namespace Store

variable {opened : ScopeRef → Prop} {s s' : Store} {f g q : ScopeRef} {name : String}
  {ref : CellRef}

/-! ### Cells and names -/

/-- **Every cell is that of one name in one scope**, and names have cells that exist. -/
structure Unshared (s : Store) : Prop where
  known : ∀ q name ref, s.ownCell? q name = some ref → ref.Known s
  unique : ∀ q q' name name' ref, s.ownCell? q name = some ref → s.ownCell? q' name' = some ref →
    q' = q ∧ name' = name

/-- No name stands for the cell, in any scope. -/
def Unnamed (s : Store) (ref : CellRef) : Prop :=
  ∀ q name, s.ownCell? q name ≠ some ref

theorem ownCell?_newScope (s : Store) (parent : Option ScopeRef) (q : ScopeRef) (name : String) :
    (s.newScope parent).2.ownCell? q name = s.ownCell? q name := by
  simp only [ownCell?, scope?, newScope, Array.getElem?_push]
  split
  · rename_i hq
    rw [Array.getElem?_eq_none (by omega)]
    rfl
  · rfl

@[simp]
theorem ownCell?_defineSpace (s : Store) (f : ScopeRef) (space : String) (inner q : ScopeRef)
    (name : String) : (s.defineSpace f space inner).ownCell? q name = s.ownCell? q name := by
  rw [ownCell?, ownCell?, scope?_defineSpace]
  split
  · cases s.scope? q <;> rfl
  · rfl

/-- A name has the cell that it had, or it has just been declared and has the new one. -/
theorem ownCell?_of_define {v : Value} {isMutable : Bool} {other : String}
    (h : (s.define f name v isMutable).ownCell? q other = some ref) :
    s.ownCell? q other = some ref ∨ (q = f ∧ other = name ∧ ref = s.nextCell) := by
  by_cases hf : f.Known s
  · rw [ownCell?_define hf] at h
    split at h
    · rename_i heq
      exact .inr ⟨heq.1, heq.2, (Option.some.inj h).symm⟩
    · exact .inl h
  · -- there is no such scope, and nothing is declared
    rw [ownCell?, scope?_define] at h
    split at h
    · rename_i heq
      subst heq
      rw [scope?, Array.getElem?_eq_none (Nat.le_of_not_lt hf)] at h
      cases h
    · exact .inl h

/-- A name gets no cell by any other change than a declaration. -/
theorem Step.ownCell?_cases (h : Step opened s s') :
    (∃ r name v isMutable, s' = s.define r name v isMutable) ∨
      s.cells.size ≤ s'.cells.size ∧ ∀ q name, s'.ownCell? q name = s.ownCell? q name := by
  cases h with
  | define name v isMutable _ => exact .inl ⟨_, name, v, isMutable, rfl⟩
  | newScope parent => exact .inr ⟨Nat.le_refl _, ownCell?_newScope s parent⟩
  | defineSpace name space _ _ => exact .inr ⟨Nat.le_refl _, ownCell?_defineSpace s _ name space⟩
  | writeCell v htarget => exact .inr ⟨by simp [Store.writeCell], fun _ _ => rfl⟩
  | _ => exact .inr ⟨Nat.le_refl _, fun _ _ => rfl⟩

private theorem cells_size_define (s : Store) (r : ScopeRef) (name : String) (v : Value)
    (isMutable : Bool) : (s.define r name v isMutable).cells.size = s.cells.size + 1 := by
  simp [define, newCell]

private theorem Step.unshared (h : Step opened s s') (hs : s.Unshared) : s'.Unshared := by
  rcases h.ownCell?_cases with ⟨r, name, v, isMutable, rfl⟩ | ⟨hsize, hown⟩
  · have hnew {q : ScopeRef} {other : String} : s.ownCell? q other ≠ some s.nextCell := fun h =>
      Nat.lt_irrefl _ (hs.known q other _ h)
    refine ⟨fun q other ref h => ?_, fun q q' other other' ref h h' => ?_⟩
    · rw [CellRef.Known, cells_size_define]
      rcases ownCell?_of_define h with hold | ⟨-, -, rfl⟩
      · exact Nat.lt_succ_of_lt (hs.known q other ref hold)
      · exact Nat.lt_succ_self _
    · rcases ownCell?_of_define h with hold | ⟨rfl, rfl, hnext⟩ <;>
        rcases ownCell?_of_define h' with hold' | ⟨rfl, rfl, hnext'⟩
      · exact hs.unique q q' other other' ref hold hold'
      · exact absurd (hnext' ▸ hold) hnew
      · exact absurd (hnext ▸ hold') hnew
      · exact ⟨rfl, rfl⟩
  · refine ⟨fun q other ref h => ?_, fun q q' other other' ref h h' => ?_⟩
    · rw [hown] at h
      exact Nat.lt_of_lt_of_le (hs.known q other ref h) hsize
    · rw [hown] at h h'
      exact hs.unique q q' other other' ref h h'

/-- No name is given a cell that exists already. -/
private theorem Step.unnamed (h : Step opened s s') (href : ref.Known s) (hs : s.Unnamed ref) :
    ref.Known s' ∧ s'.Unnamed ref := by
  rcases h.ownCell?_cases with ⟨r, name, v, isMutable, rfl⟩ | ⟨hsize, hown⟩
  · refine ⟨by rw [CellRef.Known, cells_size_define]; exact Nat.lt_succ_of_lt href, ?_⟩
    intro q other h
    rcases ownCell?_of_define h with hold | ⟨-, -, rfl⟩
    · exact hs q other hold
    · exact Nat.lt_irrefl _ href
  · exact ⟨Nat.lt_of_lt_of_le href hsize, fun q other h => hs q other (hown q other ▸ h)⟩

/-- A function stays what it is. -/
private theorem Step.function?_eq (h : Step opened s s') {r : FunctionRef} {function : Function}
    (hfunction : s.function? r = some function) : s'.function? r = some function := by
  cases h with
  | newFunction f => exact getElem?_push_of_eq_some hfunction f
  | _ => exact hfunction

namespace Reaches

theorem unshared (h : s.Reaches opened s') (hs : s.Unshared) : s'.Unshared := by
  induction h with
  | refl => exact hs
  | tail _ hstep ih => exact hstep.unshared ih

private theorem unnamed (h : s.Reaches opened s') (href : ref.Known s) (hs : s.Unnamed ref) :
    ref.Known s' ∧ s'.Unnamed ref := by
  induction h with
  | refl => exact ⟨href, hs⟩
  | tail _ hstep ih => exact hstep.unnamed ih.1 ih.2

theorem function?_eq (h : s.Reaches opened s') {r : FunctionRef} {function : Function}
    (hfunction : s.function? r = some function) : s'.function? r = some function := by
  induction h with
  | refl => exact hfunction
  | tail _ hstep ih => exact hstep.function?_eq ih

end Reaches

private theorem unshared_empty : Store.empty.Unshared where
  known _ _ _ h := by cases h
  unique _ _ _ _ _ h := by cases h

/-- A search finds the cell of a name in some scope only. -/
private theorem Unnamed.find?_ne (h : s.Unnamed ref) (g : ScopeRef) (name : String) :
    s.find? g name ≠ some ref := by
  intro hfind
  obtain ⟨q, -, hq⟩ := List.exists_of_findSome?_eq_some hfind
  exact h q name hq

private theorem Unnamed.memberCell?_ne (h : s.Unnamed ref) (g : ScopeRef) (space member : String) :
    s.memberCell? g space member ≠ some ref := by
  intro hmember
  obtain ⟨inner, -, hinner⟩ := Option.bind_eq_some_iff.1 hmember
  exact h inner member hinner

/-! ### Declaring a name again -/

/-- A scope that declares a name exists. -/
private theorem known_of_ownCell? (h : s.ownCell? f name = some ref) : f.Known s := by
  obtain ⟨scope, hscope, -⟩ := Option.bind_eq_some_iff.1 h
  exact (Array.getElem?_eq_some_iff.1 hscope).1

/-- Nothing stands for the old cell of a name that is declared again. -/
private theorem Unshared.unnamed_define (hs : s.Unshared) (hold : s.ownCell? f name = some ref)
    (v : Value) (isMutable : Bool) : (s.define f name v isMutable).Unnamed ref := by
  intro q other h
  rcases ownCell?_of_define h with hown | ⟨-, -, rfl⟩
  · obtain ⟨rfl, rfl⟩ := hs.unique f q name other ref hold hown
    rw [ownCell?_define (known_of_ownCell? hold), if_pos ⟨rfl, rfl⟩] at h
    exact Nat.lt_irrefl _ (Option.some.inj h ▸ hs.known _ _ _ hold)
  · exact Nat.lt_irrefl _ (hs.known f name _ hold)

/-- Where a declaration is seen, a name stands for what it stands for in its scope. -/
private theorem Valid.find?_of_sees (hs : s.Valid) (h : s.Sees g f name) :
    s.find? g name = s.find? f name := by
  obtain ⟨nearer, haround, hnearer⟩ := h
  induction haround with
  | here => rfl
  | outwards hparent _ ih =>
    obtain ⟨hown, hnearer⟩ := List.forall_mem_cons.1 hnearer
    exact (hs.findSome?_chain_of_parent? hown hparent).trans (ih hnearer)

/-- The scopes that are passed on the way outwards are younger than where it ends. -/
private theorem Around.index_lt {nearer : List ScopeRef} (hs : s.Valid) (h : s.Around g nearer f) :
    f.index ≤ g.index ∧ ∀ q ∈ nearer, f.index < q.index := by
  induction h with
  | here => exact ⟨Nat.le_refl _, List.forall_mem_nil _⟩
  | outwards hparent _ ih =>
    have hlt := Nat.lt_of_le_of_lt ih.1 (hs.index_lt_of_parent? hparent)
    exact ⟨Nat.le_of_lt hlt, List.forall_mem_cons.2 ⟨hlt, ih.2⟩⟩

private theorem Around.define {nearer : List ScopeRef} (h : s.Around g nearer f) (r : ScopeRef)
    (name : String) (v : Value) (isMutable : Bool) :
    (s.define r name v isMutable).Around g nearer f := by
  induction h with
  | here => exact .here
  | outwards hparent _ ih => exact .outwards ((parent?_define ..).trans hparent) ih

/-- A name that is declared again is seen from where it was seen. -/
private theorem Sees.define (hs : s.Valid) (h : s.Sees g f name) (hf : f.Known s) (v : Value)
    (isMutable : Bool) : (s.define f name v isMutable).Sees g f name := by
  obtain ⟨nearer, haround, hnearer⟩ := h
  refine ⟨nearer, haround.define f name v isMutable, fun q hq => ?_⟩
  have hne : q ≠ f := by
    rintro rfl
    exact Nat.lt_irrefl _ ((haround.index_lt hs).2 q hq)
  rw [ownCell?_define hf, if_neg fun h => hne h.1, hnearer q hq]

/-! ### The scope of a call -/

/-- A variable has the same value in a scope as in the one around it, unless the scope declares its
name. -/
private theorem Valid.lookup_of_parent? (hs : s.Valid) (hown : s.ownCell? g name = none)
    (hparent : s.parent? g = some f) : s.lookup g name = s.lookup f name := by
  have hfind : s.find? g name = s.find? f name := hs.findSome?_chain_of_parent? hown hparent
  rw [lookup, lookup, hfind]

theorem parent?_newScope (s : Store) (parent : Option ScopeRef) (q : ScopeRef) :
    (s.newScope parent).2.parent? q = if q.index = s.scopes.size then parent else s.parent? q := by
  simp only [parent?, scope?, newScope, Array.getElem?_push]
  split <;> rfl

/-- A new scope is around no other. -/
private theorem Valid.chain_newScope (hs : s.Valid) (hg : g.Known s) (parent : Option ScopeRef) :
    (s.newScope parent).2.chain g = s.chain g := by
  have hupTo (bound : Nat) (q : ScopeRef) (hq : q.Known s) :
      (s.newScope parent).2.chainUpTo bound q = s.chainUpTo bound q := by
    induction bound generalizing q with
    | zero => rfl
    | succ bound ih =>
      rw [chainUpTo, chainUpTo, parent?_newScope, if_neg (Nat.ne_of_lt hq)]
      cases hparent : s.parent? q with
      | none => rfl
      | some outer => exact congrArg _ (ih outer (Nat.lt_trans (hs.index_lt_of_parent? hparent) hq))
  exact hupTo g.index g hg

/-- In a new scope variables have the values that they have around it. -/
theorem Valid.lookup_newScope (hs : s.Valid) (hg : g.Known s) (name : String) :
    (s.newScope (some g)).2.lookup ⟨s.scopes.size⟩ name = s.lookup g name := by
  have hs' : (s.newScope (some g)).2.Valid := hs.newScope fun outer houter => by
    cases houter
    exact hg
  have hown : (s.newScope (some g)).2.ownCell? ⟨s.scopes.size⟩ name = none := by
    rw [ownCell?_newScope, ownCell?, scope?, Array.getElem?_eq_none (Nat.le_refl _)]
    rfl
  have hparent : (s.newScope (some g)).2.parent? ⟨s.scopes.size⟩ = some g := by
    rw [parent?_newScope, if_pos rfl]
  rw [hs'.lookup_of_parent? hown hparent]
  refine lookup_congr ?_ fun _ _ => rfl
  simp only [find?, hs.chain_newScope hg, ownCell?_newScope]

end Store

/-- Parameters of other names leave a variable as it is in the scope of a call. -/
private theorem exists_bindParams_eq_ok (inner : ScopeRef) {x : String} (params : List String)
    (hx : x ∉ params) {args : List Value} {w : World} (hw : w.store.Valid)
    (hinner : inner.Known w.store) (hargs : ∀ v ∈ args, v.Known w.store) :
    ∃ s', bindParams inner params args w = .ok () { w with store := s' } ∧
      s'.lookup inner x = w.store.lookup inner x := by
  induction params generalizing args w with
  | nil => exact ⟨w.store, rfl, rfl⟩
  | cons param params ih =>
    obtain ⟨hne, hx⟩ := not_or.1 (List.mem_cons.not.1 hx)
    have harg : (args.headD .null).Known w.store := by
      cases args with
      | nil => trivial
      | cons v args => exact hargs v List.mem_cons_self
    have hbefore := Store.before_define w.store inner param (args.headD .null) false
    have hdeclared := hw.declared_define hinner param (args.headD .null) false
    have htail : ∀ v ∈ args.tail, v.Known (w.store.define inner param (args.headD .null) false) :=
      fun v hv => (hargs v (List.mem_of_mem_tail hv)).of_before hbefore
    obtain ⟨s', hrun, hlookup⟩ := ih hx
      (w := { w with store := w.store.define inner param _ false })
      (hw.define inner param harg false) (hinner.of_before hbefore) htail
    exact ⟨s', hrun, hlookup.trans (hdeclared.lookup_eq inner x fun h => hne h.1)⟩

theorem Eval.store_worldAfter {α : Type} (r : EStateM.Result Stop World α) :
    (worldAfter r).store = storeAfter r := by
  cases r <;> rfl

/-- A note leaves the store alone. -/
theorem Eval.exists_note_eq_ok (event : TraceEvent) (w : World) :
    ∃ log, note event w = .ok () { w with log } := by
  simp only [note]
  split
  · exact ⟨_, rfl⟩
  · exact ⟨w.log, rfl⟩

/-- **A call evaluates the body of a function in a new scope**, in which a variable that is no
parameter has the value that it has in the scope of the function. -/
theorem exists_callWithin_eq (fuel : Nat) {w : World} (hw : w.Valid) {r : FunctionRef}
    {params : List String} {statements : List Node} {g : ScopeRef} {name : Option String}
    (hr : w.store.function? r = some (.closure params (.block statements) g name)) {x : String}
    (hx : x ∉ params) {args : List Value} (hargs : ∀ v ∈ args, v.Known w.store) :
    ∃ inner w', callWithin (fuel + 1) (.fn r) args w =
        (Flow.result <$> evalBlock (evalWithin fuel) statements inner) w' ∧
      w'.store.lookup inner x = w.store.lookup g x := by
  have hg : g.Known w.store := hw.store.functions _ (Array.mem_of_getElem? hr)
  let s₁ := (w.store.newScope (some g)).2
  have hs₁ : s₁.Valid := hw.store.newScope fun outer houter => by
    cases houter
    exact hg
  have hbefore := Store.before_newScope w.store (some g)
  obtain ⟨s₂, hbind, hlookup⟩ := exists_bindParams_eq_ok ⟨w.store.scopes.size⟩ params hx
    (w := { w with store := s₁ }) hs₁ (by simp [ScopeRef.Known, s₁, Store.newScope])
    fun v hv => (hargs v hv).of_before hbefore
  obtain ⟨log, hnote⟩ := exists_note_eq_ok (.calledClosure name args) { w with store := s₂ }
  refine ⟨⟨w.store.scopes.size⟩, { w with store := s₂, log }, ?_,
    hlookup.trans (hw.store.lookup_newScope hg x)⟩
  have hscope : newScope g w = .ok ⟨w.store.scopes.size⟩ { w with store := s₁ } := rfl
  have hfunction : function? r w = .ok (w.store.function? r) w := rfl
  simp only [callWithin, callValue, callClosure, bind, EStateM.bind, hfunction, hr, hscope, hbind,
    hnote]
  rfl

/-! ### Worlds -/

namespace World

/-- In every world that can come about, cells are not shared. -/
theorem Reachable.unshared {w : World} (h : w.Reachable) : w.store.Unshared := by
  induction h with
  | fresh level => exact Store.unshared_empty
  | @setup w given _ ih =>
    have hlaw : Law.evolves.Obeys (Session.setup given) :=
      Law.evolves.holds_newGlobals.bind fun _ =>
        (Law.evolves.obeys_defineVariables trivial given).bind fun _ => Law.evolves.obeys_pure _
    rw [store_worldAfter]
    exact (Changes.reaches hlaw w w.store.newOpened_true).unshared ih
  | @outermost w _ ih =>
    have hstep : w.store.Step (fun _ => True) (w.store.newScope none).2 := .newScope w.store none
    exact hstep.unshared ih
  | step _ hstep ih => exact hstep.reaches.unshared ih

end World

/-- **A redefinition reaches the functions made before it.** In every world that can come about, let
a scope `f` that declares a name `x` declare it again. Then `x` has the new value in `f`. The old
cell keeps its value, but from then on nothing stands for it. So take any function of that world
from whose scope `g` the declaration of `x` in `f` is seen. It is seen as before, and as long as it
is, every call of the function evaluates the body in a scope in which `x` has the value that it has
in `f` at that time. Right after the redefinition this is the new value. -/
theorem redefinition_reaches_closures {w : World} (hw : w.Reachable) {f : ScopeRef} {x : String}
    {old : CellRef} (hold : w.store.ownCell? f x = some old) {v : Value} (hv : v.Known w.store)
    (isMutable : Bool) :
    ∃ w', define f x v isMutable w = .ok () w' ∧ w'.store.lookup f x = .ok v ∧
      w'.store.cell? old = w.store.cell? old ∧
      (∀ w'', w'.Reaches w'' → (∀ g y, w''.store.find? g y ≠ some old) ∧
        ∀ g space member, w''.store.memberCell? g space member ≠ some old) ∧
      ∀ g, w.store.Sees g f x → w'.store.Sees g f x ∧
        ∀ w'', w'.Reaches w'' → w''.store.Sees g f x →
          ∀ r params statements name,
            w.store.function? r = some (.closure params (.block statements) g name) → x ∉ params →
            ∀ (fuel : Nat) args, (∀ a ∈ args, a.Known w''.store) →
              ∃ inner w₁, callWithin (fuel + 1) (.fn r) args w'' =
                  (Flow.result <$> evalBlock (evalWithin fuel) statements inner) w₁ ∧
                w₁.store.lookup inner x = w''.store.lookup f x := by
  have hs := hw.valid.store
  have hf := Store.known_of_ownCell? hold
  have hdeclared := hs.declared_define hf x v isMutable
  let w' : World := { w with store := w.store.define f x v isMutable }
  have hstep : w.Step w' :=
    ⟨0, .define f x v isMutable,
      ⟨List.forall_mem_singleton.2 hf, List.forall_mem_singleton.2 hv⟩, rfl⟩
  have hw' : w'.Valid := (hw.step hstep).valid
  have hknown : old.Known w.store := hw.unshared.known f x old hold
  have hunnamed : w'.store.Unnamed old := hw.unshared.unnamed_define hold v isMutable
  refine ⟨w', rfl, (hdeclared.find?_eq f (.refl _ f x)).2, hdeclared.old_cells old ?_,
    fun w'' hreaches => ?_, fun g hsees => ⟨hsees.define hs hf v isMutable, ?_⟩⟩
  · -- the new cell is none of those there were
    rintro rfl
    exact Nat.lt_irrefl _ hknown
  · -- no name leads to the old cell any more, and no step can make one lead there again
    have hknown' : old.Known w'.store := hknown.of_before (Store.before_define ..)
    obtain ⟨-, hnever⟩ := hreaches.reaches.unnamed hknown' hunnamed
    exact ⟨hnever.find?_ne, hnever.memberCell?_ne⟩
  · intro w'' hreaches hsees'' r params statements name hr hx fuel args hargs
    have hw'' := (hreaches.valid hw').1
    have hr'' : w''.store.function? r = some (.closure params (.block statements) g name) :=
      hreaches.reaches.function?_eq (hstep.reaches.function?_eq hr)
    obtain ⟨inner, w₁, hcall, hlookup⟩ := exists_callWithin_eq fuel hw'' hr'' hx hargs
    refine ⟨inner, w₁, hcall, hlookup.trans ?_⟩
    rw [Store.lookup, Store.lookup, hw''.store.find?_of_sees hsees'']

/-- A function that reads `x` is made in the outermost scope 0, which declares `x` as yes and then
again as no. A call of the function gives no. -/
theorem redefinition_reaches_closures_call :
    ∃ w : World, (w.Reachable ∧ w.store.ownCell? ⟨0⟩ "x" = some ⟨0⟩) ∧
      ∃ w', define ⟨0⟩ "x" (.bool false) false w = .ok () w' ∧
        ∃ inner w₁, callWithin 9 (.fn ⟨0⟩) [] w' =
            (Flow.result <$> evalBlock (evalWithin 8) [.ident "x"] inner) w₁ ∧
          w₁.store.lookup inner "x" = .ok (.bool false) := by
  let w₀ := worldAfter (add (Store.newScope none) (Session.emptyWorld 0 none))
  let w₁ := Request.after 0 (.define ⟨0⟩ "x" (.bool true) false) w₀
  let w₂ := Request.after 9 (.evaluate (.functionExpr none [] (.block [.ident "x"])) ⟨0⟩) w₁
  have hscope : ScopeRef.Known w₀.store ⟨0⟩ := Nat.zero_lt_one
  have hscope' : ScopeRef.Known w₁.store ⟨0⟩ := Nat.zero_lt_one
  have hw₁ : w₁.Reachable := (World.Reachable.outermost (.fresh 0 none)).step
    ⟨0, .define ⟨0⟩ "x" (.bool true) false,
      ⟨List.forall_mem_singleton.2 hscope, List.forall_mem_singleton.2 trivial⟩, rfl⟩
  have hw₂ : w₂.Reachable := hw₁.step
    ⟨9, .evaluate (.functionExpr none [] (.block [.ident "x"])) ⟨0⟩,
      ⟨List.forall_mem_singleton.2 hscope', List.forall_mem_nil _⟩, rfl⟩
  have hold : w₂.store.ownCell? ⟨0⟩ "x" = some ⟨0⟩ := by rfl
  obtain ⟨w', hdefine, hlookup, -, -, hcalls⟩ :=
    redefinition_reaches_closures hw₂ hold (v := .bool false) trivial false
  obtain ⟨hsees, hcalls⟩ := hcalls ⟨0⟩ (.refl _ _ _)
  obtain ⟨inner, w₃, hcall, hread⟩ := hcalls w' .refl hsees ⟨0⟩ [] [.ident "x"] none rfl
    List.not_mem_nil 8 [] (List.forall_mem_nil _)
  exact ⟨w₂, ⟨hw₂, hold⟩, w', hdefine, inner, w₃, hcall, hread.trans hlookup⟩

/-- **Functions made before a redefinition do not keep the old value.** The function made by
`#g = @() { x }` gives yes while `x` is yes, and no after the second definition of `x`. -/
theorem redefined_variable_is_read :
    ∃ w w₁ w₂ w₃ w₄ : World, w.Reachable ∧
      evalBlock (evalWithin 9) [.varDecl "x" (.truth true) false,
          .varDecl "g" (.functionExpr none [] (.block [.ident "x"])) false] ⟨0⟩ w =
        .ok (.value .null) w₁ ∧
      evalWithin 9 (.call (.ident "g") []) ⟨0⟩ w₁ = .ok (.value (.bool true)) w₂ ∧
      evalWithin 9 (.varDecl "x" (.truth false) false) ⟨0⟩ w₂ = .ok (.value .null) w₃ ∧
      evalWithin 9 (.call (.ident "g") []) ⟨0⟩ w₃ = .ok (.value (.bool false)) w₄ :=
  ⟨_, _, _, _, _, .outermost (.fresh 0 none), rfl, rfl, rfl, rfl⟩

end Sigil
