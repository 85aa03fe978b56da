import Sigil.Proofs.Validity.Redefinition

/-!
# What is registered before constants have values

Before the statements of a block are evaluated, the functions and namespaces among them are
declared, and the functions of each namespace in a new scope. This pass cannot fail. It is described
here name by name: what a name of the block's scope and of the scopes of its namespaces stands for
afterwards is told by the *last* declaration of that name (`lastFunction?`, `lastSpace?`).

`Store.HoldsMember` says what a name stands for in a scope, with what comes first: the value of a
constant, a function, nothing.
-/

namespace Sigil

open Eval

/-! ### Last declarations -/

namespace Node

/-- The parameters and the body of a function of this name. -/
def function? (name : String) : Node → Option (List String × Node)
  | .functionDecl f params body => if f = name then some (params, body) else none
  | _ => none

/-- Whether a tree declares a namespace. -/
def isSpaceDecl : Node → Bool
  | .spaceDecl .. => true
  | _ => false

end Node

/-- The last function of a name among trees. -/
def lastFunction? (name : String) (nodes : List Node) : Option (List String × Node) :=
  nodes.reverse.findSome? (Node.function? name)

/-- The last namespace of a name. -/
def lastSpace? (name : String) (spaces : List OpenSpace) : Option OpenSpace :=
  spaces.reverse.find? (·.name = name)

/-- The declaration of a namespace. -/
def OpenSpace.node (space : OpenSpace) : Node :=
  .spaceDecl space.name space.members

private theorem lastFunction?_cons (name : String) (n : Node) (nodes : List Node) :
    lastFunction? name (n :: nodes) = (lastFunction? name nodes).or (n.function? name) := by
  simp [lastFunction?, List.findSome?_append]

private theorem lastFunction?_append (name : String) (nodes nodes' : List Node) :
    lastFunction? name (nodes ++ nodes') =
      (lastFunction? name nodes').or (lastFunction? name nodes) := by
  simp [lastFunction?, List.findSome?_append]

private theorem lastSpace?_append (name : String) (spaces spaces' : List OpenSpace) :
    lastSpace? name (spaces ++ spaces') =
      (lastSpace? name spaces').or (lastSpace? name spaces) := by
  simp [lastSpace?, List.find?_append]

theorem mem_of_lastSpace? {name : String} {space : OpenSpace} {spaces : List OpenSpace}
    (h : lastSpace? name spaces = some space) : space ∈ spaces ∧ space.name = name := by
  refine ⟨List.mem_reverse.1 (List.mem_of_find?_eq_some h), ?_⟩
  simpa using List.find?_some h

namespace Store

variable {opened : ScopeRef → Prop} {s s₁ s' : Store} {r q : ScopeRef} {name : String}

/-! ### What a name stands for in a scope -/

/-- A name stands for a function in a scope that it was declared in. -/
def HoldsFunction (s : Store) (r : ScopeRef) (name : String) (params : List String)
    (body : Node) : Prop :=
  ∃ ref f, s.ownCell? r name = some ref ∧ s.cell? ref = some ⟨.fn f, false⟩ ∧
    s.function? f = some (.closure params body r (some name))

/-- **What a name stands for in a scope**: the value of a constant if there is one, or else a
function if there is one, or else nothing. -/
def HoldsMember (s : Store) (r : ScopeRef) (name : String) :
    Option Value → Option (List String × Node) → Prop
  | some v, _ => ∃ ref, s.ownCell? r name = some ref ∧ s.cell? ref = some ⟨v, false⟩
  | none, some (params, body) => s.HoldsFunction r name params body
  | none, none => s.ownCell? r name = none

/-- The cell of an immutable variable keeps its contents. -/
private theorem Reaches.cell?_immutable (h : s.Reaches opened s') {ref : CellRef} {v : Value}
    (hcell : s.cell? ref = some ⟨v, false⟩) : s'.cell? ref = some ⟨v, false⟩ := by
  obtain ⟨⟨v', isMutable⟩, hcell', hmutable, hvalue⟩ := h.exists_cell hcell
  obtain rfl : isMutable = false := hmutable
  obtain rfl : v' = v := hvalue rfl
  exact hcell'

theorem HoldsFunction.of_reaches {params : List String} {body : Node}
    (h : s.HoldsFunction r name params body) (hreaches : s.Reaches opened s')
    (hown : s'.ownCell? r name = s.ownCell? r name) : s'.HoldsFunction r name params body := by
  obtain ⟨ref, f, href, hcell, hfunction⟩ := h
  exact ⟨ref, f, hown.trans href, hreaches.cell?_immutable hcell, hreaches.function?_eq hfunction⟩

/-- As long as a name has its cell, it stands for the same. -/
theorem HoldsMember.of_reaches {value : Option Value} {function : Option (List String × Node)}
    (h : s.HoldsMember r name value function) (hreaches : s.Reaches opened s')
    (hown : s'.ownCell? r name = s.ownCell? r name) : s'.HoldsMember r name value function := by
  cases value with
  | some v =>
    obtain ⟨ref, href, hcell⟩ := h
    exact ⟨ref, hown.trans href, hreaches.cell?_immutable hcell⟩
  | none =>
    cases function with
    | some function => exact HoldsFunction.of_reaches h hreaches hown
    | none => exact hown.trans h

/-! ### Functions -/

/-- **The functions among trees are declared in a scope**, and nothing else is declared: a name that
is not one of a function has the cell that it had. -/
structure FunctionsDeclared (s : Store) (scope : ScopeRef) (nodes : List Node) (s' : Store) :
    Prop where
  reaches : s.Reaches (fun _ => True) s'
  size_eq : s'.scopes.size = s.scopes.size
  scope?_eq : ∀ q, q ≠ scope → s'.scope? q = s.scope? q
  parent?_eq : s'.parent? scope = s.parent? scope
  ownSpace?_eq : ∀ name, s'.ownSpace? scope name = s.ownSpace? scope name
  holds : ∀ name params body, lastFunction? name nodes = some (params, body) →
    s'.HoldsFunction scope name params body
  ownCell?_eq : ∀ name, lastFunction? name nodes = none →
    s'.ownCell? scope name = s.ownCell? scope name

namespace FunctionsDeclared

variable {scope : ScopeRef} {n : Node} {nodes : List Node}

theorem refl (s : Store) (scope : ScopeRef) : s.FunctionsDeclared scope [] s where
  reaches := .refl
  size_eq := rfl
  scope?_eq _ _ := rfl
  parent?_eq := rfl
  ownSpace?_eq _ := rfl
  holds _ _ _ h := by cases h
  ownCell?_eq _ _ := rfl

/-- Later declarations come first. -/
theorem trans (h : s.FunctionsDeclared scope [n] s₁) (h' : s₁.FunctionsDeclared scope nodes s') :
    s.FunctionsDeclared scope (n :: nodes) s' where
  reaches := h.reaches.trans h'.reaches
  size_eq := h'.size_eq.trans h.size_eq
  scope?_eq q hq := (h'.scope?_eq q hq).trans (h.scope?_eq q hq)
  parent?_eq := h'.parent?_eq.trans h.parent?_eq
  ownSpace?_eq name := (h'.ownSpace?_eq name).trans (h.ownSpace?_eq name)
  holds name params body hlast := by
    rw [lastFunction?_cons] at hlast
    cases hrest : lastFunction? name nodes with
    | some function =>
      rw [hrest] at hlast
      cases hlast
      exact h'.holds name params body hrest
    | none =>
      rw [hrest, Option.none_or] at hlast
      have hfirst := h.holds name params body (by rw [lastFunction?_cons]; exact hlast)
      exact hfirst.of_reaches h'.reaches (h'.ownCell?_eq name hrest)
  ownCell?_eq name hlast := by
    rw [lastFunction?_cons, Option.or_eq_none_iff] at hlast
    refine (h'.ownCell?_eq name hlast.1).trans (h.ownCell?_eq name ?_)
    rw [lastFunction?_cons]
    exact hlast.2

/-- Other trees than functions do not count. -/
theorem cons (hn : ∀ name, n.function? name = none) (h : s.FunctionsDeclared scope nodes s') :
    s.FunctionsDeclared scope (n :: nodes) s' := by
  have hlast (name : String) : lastFunction? name (n :: nodes) = lastFunction? name nodes := by
    rw [lastFunction?_cons, hn, Option.or_none]
  exact ⟨h.reaches, h.size_eq, h.scope?_eq, h.parent?_eq, h.ownSpace?_eq,
    fun name params body hname => h.holds name params body (hlast name ▸ hname),
    fun name hname => h.ownCell?_eq name (hlast name ▸ hname)⟩

end FunctionsDeclared

/-! ### Namespaces -/

/-- The declaration of a namespace gives one name of one scope another scope. -/
theorem ownSpace?_defineSpace (hr : r.Known s) (space q : ScopeRef) (other : String) :
    (s.defineSpace r name space).ownSpace? q other =
      if q = r ∧ other = name then some space else s.ownSpace? q other := by
  rw [ownSpace?, ownSpace?, scope?_defineSpace]
  by_cases hq : q = r
  · subst hq
    obtain ⟨scope, hscope⟩ : ∃ scope, s.scope? q = some scope := ⟨_, Array.getElem?_eq_getElem hr⟩
    simp [hscope, Table.get?_insert]
  · rw [if_neg (Ne.symm hq), if_neg fun h => hq h.1]

@[simp]
theorem parent?_defineSpace (s : Store) (r : ScopeRef) (name : String) (space q : ScopeRef) :
    (s.defineSpace r name space).parent? q = s.parent? q := by
  rw [parent?, parent?, scope?_defineSpace]
  split
  · cases s.scope? q <;> rfl
  · rfl

/-- A new scope leaves the others as they are. -/
private theorem scope?_newScope (parent : Option ScopeRef) (hq : q.Known s) :
    (s.newScope parent).2.scope? q = s.scope? q :=
  (Array.getElem?_push ..).trans (if_neg (Nat.ne_of_lt hq))

theorem scope?_newScope_new (s : Store) (parent : Option ScopeRef) :
    (s.newScope parent).2.scope? ⟨s.scopes.size⟩ = some ⟨parent, .empty, .empty⟩ :=
  Array.getElem?_push_size

/-- **The functions and namespaces among statements are declared in a scope**, and so are the
functions of the namespaces in scopes of their own, which are new and different. Nothing else is
declared. -/
structure AllDeclared (s : Store) (scope : ScopeRef) (statements : List Node)
    (spaces : List OpenSpace) (s' : Store) : Prop where
  reaches : s.Reaches (fun _ => True) s'
  nodes : spaces.map OpenSpace.node = statements.filter Node.isSpaceDecl
  scope?_eq : ∀ q, q.Known s → q ≠ scope → s'.scope? q = s.scope? q
  holds : ∀ name params body, lastFunction? name statements = some (params, body) →
    s'.HoldsFunction scope name params body
  ownCell?_eq : ∀ name, lastFunction? name statements = none →
    s'.ownCell? scope name = s.ownCell? scope name
  ownSpace?_eq : ∀ name, s'.ownSpace? scope name =
    ((lastSpace? name spaces).map OpenSpace.scope).or (s.ownSpace? scope name)
  new : ∀ space ∈ spaces, ¬ space.scope.Known s ∧ space.scope.Known s' ∧
    s'.parent? space.scope = some scope
  distinct : (spaces.map OpenSpace.scope).Nodup
  members : ∀ space ∈ spaces, ∀ name,
    s'.HoldsMember space.scope name none (lastFunction? name space.members)
  inner : ∀ q name, ¬ q.Known s → s'.ownSpace? q name = none

namespace AllDeclared

variable {scope : ScopeRef} {statements statements' : List Node} {spaces spaces' : List OpenSpace}

private theorem of_functionsDeclared (h : s.FunctionsDeclared scope statements s')
    (hstatements : statements.filter Node.isSpaceDecl = []) :
    s.AllDeclared scope statements [] s' where
  reaches := h.reaches
  nodes := hstatements.symm
  scope?_eq q _ hq := h.scope?_eq q hq
  holds := h.holds
  ownCell?_eq := h.ownCell?_eq
  ownSpace?_eq := h.ownSpace?_eq
  new := List.forall_mem_nil _
  distinct := List.nodup_nil
  members := List.forall_mem_nil _
  inner q name hq := by
    have hsize : s'.scopes.size ≤ q.index := h.size_eq ▸ Nat.le_of_not_lt hq
    rw [ownSpace?, scope?, Array.getElem?_eq_none hsize]
    rfl

theorem append (hscope : scope.Known s) (h : s.AllDeclared scope statements spaces s₁)
    (h' : s₁.AllDeclared scope statements' spaces' s') :
    s.AllDeclared scope (statements ++ statements') (spaces ++ spaces') s' := by
  have hknown {q : ScopeRef} (hq : q.Known s) : q.Known s₁ :=
    Nat.lt_of_lt_of_le hq h.reaches.size_le
  -- the scopes of the first namespaces stay as they are
  have hfirst {q : ScopeRef} (hq : ¬ q.Known s) (hq₁ : q.Known s₁) : s'.scope? q = s₁.scope? q :=
    h'.scope?_eq q hq₁ fun heq => hq (heq ▸ hscope)
  refine ⟨h.reaches.trans h'.reaches, ?_, fun q hq hne => ?_, fun name params body hlast => ?_,
    fun name hlast => ?_, fun name => ?_, fun space hspace => ?_, ?_, fun space hspace name => ?_,
    fun q name hq => ?_⟩
  · rw [List.map_append, List.filter_append, h.nodes, h'.nodes]
  · exact (h'.scope?_eq q (hknown hq) hne).trans (h.scope?_eq q hq hne)
  · rw [lastFunction?_append] at hlast
    cases hrest : lastFunction? name statements' with
    | some function =>
      rw [hrest] at hlast
      cases hlast
      exact h'.holds name params body hrest
    | none =>
      rw [hrest, Option.none_or] at hlast
      exact (h.holds name params body hlast).of_reaches h'.reaches (h'.ownCell?_eq name hrest)
  · rw [lastFunction?_append, Option.or_eq_none_iff] at hlast
    exact (h'.ownCell?_eq name hlast.1).trans (h.ownCell?_eq name hlast.2)
  · rw [h'.ownSpace?_eq, h.ownSpace?_eq, lastSpace?_append]
    cases lastSpace? name spaces' <;> simp
  · rcases List.mem_append.1 hspace with hspace | hspace
    · obtain ⟨hnew, hknown₁, hparent⟩ := h.new space hspace
      refine ⟨hnew, Nat.lt_of_lt_of_le hknown₁ h'.reaches.size_le, ?_⟩
      rw [parent?, hfirst hnew hknown₁]
      exact hparent
    · obtain ⟨hnew, hknown₁, hparent⟩ := h'.new space hspace
      exact ⟨fun hq => hnew (hknown hq), hknown₁, hparent⟩
  · rw [List.map_append]
    refine List.nodup_append.2 ⟨h.distinct, h'.distinct, fun r hr r' hr' heq => ?_⟩
    obtain ⟨space, hspace, rfl⟩ := List.mem_map.1 hr
    obtain ⟨space', hspace', rfl⟩ := List.mem_map.1 hr'
    exact (h'.new space' hspace').1 (heq ▸ (h.new space hspace).2.1)
  · rcases List.mem_append.1 hspace with hspace | hspace
    · obtain ⟨hnew, hknown₁, -⟩ := h.new space hspace
      refine (h.members space hspace name).of_reaches h'.reaches ?_
      rw [ownCell?, ownCell?, hfirst hnew hknown₁]
    · exact h'.members space hspace name
  · by_cases hq₁ : q.Known s₁
    · rw [ownSpace?, hfirst hq hq₁]
      exact h.inner q name hq
    · exact h'.inner q name hq₁

end AllDeclared

end Store

open Store

section Declarations

variable {scope : ScopeRef} {w w' : World}

theorem store_eq_of_note {event : TraceEvent} (h : note event w = .ok () w') :
    w'.store = w.store := by
  obtain ⟨log, hlog⟩ := exists_note_eq_ok event w
  rw [hlog] at h
  cases h
  rfl

private theorem functionsDeclared_of_declareFunction {name : String} {params : List String}
    {body : Node} (hscope : scope.Known w.store)
    (h : declareFunction name params body scope w = .ok () w') :
    w.store.FunctionsDeclared scope [.functionDecl name params body] w'.store := by
  have hreaches :=
    Law.evolves_of_eq_ok (Law.evolves.obeys_declareFunction name params body trivial) h
  obtain ⟨f, w₁, hnew, h⟩ := exists_of_bind_eq_ok h
  obtain ⟨_, w₂, hdefine, hnote⟩ := exists_of_bind_eq_ok h
  cases hnew
  cases hdefine
  rw [store_eq_of_note hnote] at hreaches ⊢
  let s₁ := (w.store.newFunction (.closure params body scope (some name))).2
  let f : FunctionRef := ⟨w.store.functions.size⟩
  have hknown : scope.Known s₁ := hscope
  have hlast (other : String) : lastFunction? other [.functionDecl name params body] =
      if name = other then some (params, body) else none := by
    rw [lastFunction?_cons]
    rfl
  refine ⟨hreaches, ?_, fun q hq => ?_, parent?_define s₁ .., fun _ => ownSpace?_define s₁ .., ?_,
    fun other hother => ?_⟩
  · exact Array.size_modify ..
  · exact (scope?_define s₁ ..).trans (if_neg (Ne.symm hq))
  · intro other params' body' hother
    rw [hlast] at hother
    split at hother
    · rename_i heq
      cases heq
      cases hother
      refine ⟨s₁.nextCell, f, ?_, ?_, ?_⟩
      · exact (ownCell?_define hknown ..).trans (if_pos ⟨rfl, rfl⟩)
      · exact (cell?_define ..).trans (if_pos rfl)
      · exact Array.getElem?_push_size
    · cases hother
  · rw [hlast] at hother
    refine (ownCell?_define hknown ..).trans (if_neg fun h => ?_)
    rw [if_pos h.2.symm] at hother
    cases hother

private theorem functionsDeclared_of_declareMembers {members : List Node}
    (hscope : scope.Known w.store) (h : declareMembers scope members w = .ok () w') :
    w.store.FunctionsDeclared scope members w'.store := by
  fun_induction declareMembers scope members generalizing w with
  | case1 =>
    cases h
    exact .refl _ scope
  | case2 name params body members ih =>
    obtain ⟨_, w₁, hfirst, hrest⟩ := exists_of_bind_eq_ok h
    have hdeclared := functionsDeclared_of_declareFunction hscope hfirst
    exact hdeclared.trans (ih (Nat.lt_of_lt_of_eq hscope hdeclared.size_eq.symm) hrest)
  | case3 member members hmember ih =>
    refine (ih hscope h).cons fun name => ?_
    cases member with
    | functionDecl f params body => exact absurd rfl (hmember f params body)
    | _ => rfl

private theorem allDeclared_of_declareSpace {name : String} {members : List Node} {inner : ScopeRef}
    (hscope : scope.Known w.store) (h : declareSpace name members scope w = .ok inner w') :
    w.store.AllDeclared scope [.spaceDecl name members] [⟨name, members, inner⟩] w'.store := by
  have hreaches := Law.evolves_of_eq_ok (Law.evolves.holds_declareSpace name members trivial) h
  obtain ⟨r, w₁, hnew, h⟩ := exists_of_bind_eq_ok h
  obtain ⟨_, w₂, hmembers, h⟩ := exists_of_bind_eq_ok h
  obtain ⟨_, w₃, hdefine, h⟩ := exists_of_bind_eq_ok h
  obtain ⟨_, w₄, hnote, hpure⟩ := exists_of_bind_eq_ok h
  cases hnew
  cases hdefine
  cases hpure
  rw [store_eq_of_note hnote] at hreaches ⊢
  let inner : ScopeRef := ⟨w.store.scopes.size⟩
  let s₁ := (w.store.newScope (some scope)).2
  let s' := w₂.store.defineSpace scope name inner
  have hsize : s₁.scopes.size = w.store.scopes.size + 1 := Array.size_push ..
  have hinner : inner.Known s₁ := by simp [ScopeRef.Known, hsize, inner]
  have hne : scope ≠ inner := fun heq => Nat.lt_irrefl _ (heq ▸ hscope)
  have hnew : s₁.scope? inner = some ⟨some scope, .empty, .empty⟩ := scope?_newScope_new ..
  have hdeclared : s₁.FunctionsDeclared inner members w₂.store :=
    functionsDeclared_of_declareMembers hinner hmembers
  have hknown {q : ScopeRef} (hq : q.Known s₁) : q.Known w₂.store :=
    Nat.lt_of_lt_of_eq hq hdeclared.size_eq.symm
  have hscope₂ : scope.Known w₂.store := hknown (by simp only [ScopeRef.Known] at *; omega)
  -- a scope that was there before is touched by the declaration of the namespace only
  have hold {q : ScopeRef} (hq : q.Known w.store) : w₂.store.scope? q = w.store.scope? q := by
    rw [hdeclared.scope?_eq q fun heq => Nat.lt_irrefl _ (heq ▸ hq), scope?_newScope _ hq]
  refine ⟨hreaches, rfl, fun q hq hneq => ?_, fun _ _ _ hlast => ?_, fun other _ => ?_,
    fun other => ?_, List.forall_mem_singleton.2 ⟨Nat.lt_irrefl _, ?_, ?_⟩,
    List.pairwise_singleton .., List.forall_mem_singleton.2 fun other => ?_, fun q other hq => ?_⟩
  · rw [scope?_defineSpace, if_neg (Ne.symm hneq), hold hq]
  · cases hlast
  · rw [ownCell?_defineSpace, ownCell?, ownCell?, hold hscope]
  · rw [ownSpace?_defineSpace hscope₂, ownSpace?, hold hscope]
    by_cases heq : other = name
    · subst heq
      simp [lastSpace?]
    · simp [lastSpace?, heq, Ne.symm heq, ownSpace?]
  · exact Nat.lt_of_lt_of_eq (hknown hinner) (Array.size_modify ..).symm
  · rw [parent?_defineSpace, hdeclared.parent?_eq, parent?, hnew]
    rfl
  · have hstep : w₂.store.Reaches (fun _ => True) s' :=
      .single (.defineSpace w₂.store name inner trivial trivial)
    have hown : s'.ownCell? inner other = w₂.store.ownCell? inner other := ownCell?_defineSpace ..
    cases hlast : lastFunction? other members with
    | some function => exact (hdeclared.holds other _ _ hlast).of_reaches hstep hown
    | none =>
      refine (hown.trans (hdeclared.ownCell?_eq other hlast)).trans ?_
      rw [ownCell?, hnew]
      rfl
  · have hne : q ≠ scope := fun heq => hq (heq ▸ hscope)
    rw [ownSpace?_defineSpace hscope₂, if_neg fun h => hne h.1]
    by_cases heq : q = inner
    · subst heq
      rw [hdeclared.ownSpace?_eq, ownSpace?, hnew]
      rfl
    · have hsize' : s₁.scopes.size ≤ q.index := by
        have hne' : q.index ≠ w.store.scopes.size := fun h => heq (ScopeRef.ext h)
        simp only [ScopeRef.Known] at hq
        omega
      rw [ownSpace?, hdeclared.scope?_eq q heq, scope?, Array.getElem?_eq_none hsize']
      rfl

theorem allDeclared_of_declareAll {statements : List Node} {spaces : List OpenSpace}
    (hscope : scope.Known w.store) (h : declareAll scope statements w = .ok spaces w') :
    w.store.AllDeclared scope statements spaces w'.store := by
  fun_induction declareAll scope statements generalizing w spaces with
  | case1 =>
    cases h
    exact .of_functionsDeclared (.refl _ scope) rfl
  | case2 name params body rest ih =>
    obtain ⟨_, w₁, hfirst, hrest⟩ := exists_of_bind_eq_ok h
    have hdeclared := AllDeclared.of_functionsDeclared
      (functionsDeclared_of_declareFunction hscope hfirst) rfl
    exact hdeclared.append hscope (ih (Nat.lt_of_lt_of_le hscope hdeclared.reaches.size_le) hrest)
  | case3 name members rest ih =>
    obtain ⟨inner, w₁, hfirst, h⟩ := exists_of_bind_eq_ok h
    obtain ⟨others, w₂, hrest, hpure⟩ := exists_of_bind_eq_ok h
    cases hpure
    have hdeclared := allDeclared_of_declareSpace hscope hfirst
    exact hdeclared.append hscope (ih (Nat.lt_of_lt_of_le hscope hdeclared.reaches.size_le) hrest)
  | case4 statement rest hfunction hspace ih =>
    have hfirst : w.store.AllDeclared scope [statement] [] w.store := by
      cases statement with
      | functionDecl name params body => exact absurd rfl (hfunction name params body)
      | spaceDecl name members => exact absurd rfl (hspace name members)
      | _ => exact .of_functionsDeclared ((FunctionsDeclared.refl _ scope).cons fun _ => rfl) rfl
    exact hfirst.append hscope (ih hscope h)

end Declarations

end Sigil
