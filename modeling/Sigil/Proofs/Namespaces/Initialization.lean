import Mathlib.Data.List.Nodup
import Sigil.Proofs.Grammar.Constants
import Sigil.Proofs.Namespaces.Registration
import Sigil.Proofs.Scoping

/-!
# Constants of namespaces get their values

Once all functions and namespaces of a block are declared, the constants of the namespaces are
evaluated, one after another in the order of the text (`Initializes`). `Store.Registered` says what
is there after some of them: all functions and namespaces, and exactly these constants. A constant
comes before a function of its name, and a later constant before an earlier one.

Of two namespaces with one name the later one is what the name stands for. The scope of the earlier
one is that of no namespace, so its members are found by their bare names only, and only in scopes
inside it.
-/

namespace Sigil

open Eval Store
open Printer (isDeclaration)

/-! ### Initializers -/

/-- **A constant of a namespace that waits for its value.** -/
structure Initializer where
  /-- The name of the namespace. -/
  space : String
  /-- The scope of the namespace. -/
  scope : ScopeRef
  /-- The name of the constant. -/
  name : String
  /-- What is evaluated. -/
  value : Node

/-- The constants of a namespace, in order. -/
def OpenSpace.initializers (space : OpenSpace) : List Initializer :=
  space.members.filterMap fun
    | .varDecl name value _ => some ⟨space.name, space.scope, name, value⟩
    | _ => none

/-- The constants of namespaces, in the order of the text. -/
def initializers (spaces : List OpenSpace) : List Initializer :=
  spaces.flatMap OpenSpace.initializers

/-- Evaluates a constant in the scope of its namespace and declares it there. -/
def Initializer.perform (eval : Evaluator) (c : Initializer) : Eval Value := do
  let v := (← eval c.value c.scope).result
  define c.scope c.name v false
  note (.declaredMember c.space c.name v)
  return v

/-- **Constants are evaluated exactly once, one after another**, from one world to another, and come
to these values. -/
inductive Initializes (eval : Evaluator) : List Initializer → World → List Value → World → Prop
  | nil {w : World} : Initializes eval [] w [] w
  | cons {c : Initializer} {rest : List Initializer} {w w₁ w' : World} {v : Value}
      {values : List Value} :
    c.perform eval w = .ok v w₁ → Initializes eval rest w₁ values w' →
      Initializes eval (c :: rest) w (v :: values) w'

/-- The value of the last constant of a name in a scope, among those that have values. -/
def lastValue? (scope : ScopeRef) (name : String) (done : List (Initializer × Value)) :
    Option Value :=
  done.reverse.findSome? fun entry =>
    if entry.1.scope = scope ∧ entry.1.name = name then some entry.2 else none

private theorem lastValue?_concat (scope : ScopeRef) (name : String)
    (done : List (Initializer × Value)) (c : Initializer) (v : Value) :
    lastValue? scope name (done ++ [(c, v)]) =
      if c.scope = scope ∧ c.name = name then some v else lastValue? scope name done := by
  simp only [lastValue?, List.reverse_append, List.reverse_singleton, List.singleton_append,
    List.findSome?_cons]
  split <;> rename_i heq <;> split at heq <;> simp_all

namespace Initializes

variable {eval : Evaluator} {cs cs' : List Initializer} {w w₁ w' : World}
  {values values' : List Value}

theorem append (h : Initializes eval cs w values w₁) (h' : Initializes eval cs' w₁ values' w') :
    Initializes eval (cs ++ cs') w (values ++ values') w' := by
  induction h with
  | nil => exact h'
  | cons hfirst _ ih => exact .cons hfirst (ih h')

/-- A run can be split after any number of constants. -/
private theorem exists_split (h : Initializes eval cs w values w') (j : Nat) :
    ∃ w₁, Initializes eval (cs.take j) w (values.take j) w₁ ∧
      Initializes eval (cs.drop j) w₁ (values.drop j) w' := by
  induction h generalizing j with
  | nil => exact ⟨_, by simpa using .nil, by simpa using .nil⟩
  | @cons c rest w w₁ w' v values hfirst hrest ih =>
    cases j with
    | zero => exact ⟨w, .nil, .cons hfirst hrest⟩
    | succ j =>
      obtain ⟨w₂, htake, hdrop⟩ := ih j
      exact ⟨w₂, .cons hfirst htake, hdrop⟩

end Initializes

section Runs

variable {eval : Evaluator} {w w' : World}

/-- The constants among the members of a namespace get their values in order. -/
private theorem exists_initializes_of_initSpace {name : String} {inner : ScopeRef}
    {members : List Node} (hmembers : ∀ c ∈ members, c.isMutableDecl = false)
    (h : initSpace eval name inner members w = .ok () w') :
    ∃ values, Initializes eval (OpenSpace.initializers ⟨name, members, inner⟩) w values w' := by
  fun_induction initSpace eval name inner members generalizing w with
  | case1 =>
    cases h
    exact ⟨[], .nil⟩
  | case2 constant value isMutable members ih =>
    obtain rfl : isMutable = false := hmembers _ List.mem_cons_self
    obtain ⟨r, w₁, heval, h⟩ := exists_of_bind_eq_ok h
    obtain ⟨_, w₂, hdefine, h⟩ := exists_of_bind_eq_ok h
    obtain ⟨_, w₃, hnote, h⟩ := exists_of_bind_eq_ok h
    obtain ⟨values, hvalues⟩ := ih (fun c hc => hmembers c (List.mem_cons_of_mem _ hc)) h
    refine ⟨r.result :: values, .cons ?_ hvalues⟩
    simp only [Initializer.perform, bind, EStateM.bind, heval, hdefine, hnote]
    rfl
  | case3 member members hmember ih =>
    obtain ⟨values, hvalues⟩ := ih (fun c hc => hmembers c (List.mem_cons_of_mem _ hc)) h
    refine ⟨values, ?_⟩
    cases member with
    | varDecl constant value isMutable => exact absurd rfl (hmember constant value isMutable)
    | _ => exact hvalues

private theorem exists_initializes_of_forM {spaces : List OpenSpace}
    (hspaces : ∀ space ∈ spaces, ∀ c ∈ space.members, c.isMutableDecl = false)
    (h : (spaces.forM fun space => initSpace eval space.name space.scope space.members) w =
      .ok () w') : ∃ values, Initializes eval (initializers spaces) w values w' := by
  induction spaces generalizing w with
  | nil =>
    cases h
    exact ⟨[], .nil⟩
  | cons space spaces ih =>
    obtain ⟨_, w₁, hfirst, hrest⟩ := exists_of_bind_eq_ok h
    obtain ⟨hmembers, hspaces⟩ := List.forall_mem_cons.1 hspaces
    obtain ⟨values, hvalues⟩ := exists_initializes_of_initSpace hmembers hfirst
    obtain ⟨values', hvalues'⟩ := ih hspaces hrest
    exact ⟨values ++ values', hvalues.append hvalues'⟩

end Runs

/-! ### What is there after some constants -/

namespace Store

variable {opened : ScopeRef → Prop} {s s' : Store} {scope : ScopeRef} {statements : List Node}
  {spaces : List OpenSpace} {done : List (Initializer × Value)}

/-- A change gives namespaces no other scopes than opened ones. -/
private theorem Step.ownSpace?_cases (h : Step opened s s') {q r : ScopeRef} {name : String}
    (hown : s'.ownSpace? q name = some r) : s.ownSpace? q name = some r ∨ opened r := by
  cases h with
  | newScope parent =>
    simp only [ownSpace?, scope?, Store.newScope, Array.getElem?_push] at hown
    split at hown
    · cases hown
    · exact .inl hown
  | define other v isMutable _ => exact .inl ((ownSpace?_define ..).symm.trans hown)
  | @defineSpace r' other space hopened hspace =>
    by_cases hr' : r'.Known s
    · rw [ownSpace?_defineSpace hr'] at hown
      split at hown
      · cases hown
        exact .inr hspace
      · exact .inl hown
    · -- there is no such scope, and nothing is declared
      rw [ownSpace?, scope?_defineSpace] at hown
      split at hown
      · rename_i heq
        subst heq
        rw [scope?, Array.getElem?_eq_none (Nat.le_of_not_lt hr')] at hown
        cases hown
      · exact .inl hown
  | _ => exact .inl hown

private theorem Reaches.ownSpace?_cases (h : s.Reaches opened s') {q r : ScopeRef} {name : String}
    (hown : s'.ownSpace? q name = some r) : s.ownSpace? q name = some r ∨ opened r := by
  induction h with
  | refl => exact .inl hown
  | tail _ hstep ih =>
    rcases hstep.ownSpace?_cases hown with hown | hopened
    · exact ih hown
    · exact .inr hopened

/-- The scopes that are searched are around the scope where the search starts. -/
private theorem exists_around_of_mem_chain {g q : ScopeRef} (h : q ∈ s.chain g) :
    ∃ nearer, s.Around g nearer q := by
  have hupTo (bound : Nat) (g : ScopeRef) (h : q ∈ s.chainUpTo bound g) :
      ∃ nearer, s.Around g nearer q := by
    induction bound generalizing g with
    | zero =>
      obtain rfl := List.mem_singleton.1 h
      exact ⟨[], .here⟩
    | succ bound ih =>
      rw [chainUpTo] at h
      cases hparent : s.parent? g with
      | none =>
        rw [hparent] at h
        obtain rfl := List.mem_singleton.1 h
        exact ⟨[], .here⟩
      | some outer =>
        rw [hparent] at h
        rcases List.mem_cons.1 h with rfl | h
        · exact ⟨[], .here⟩
        · obtain ⟨nearer, haround⟩ := ih outer h
          exact ⟨g :: nearer, .outwards hparent haround⟩
  exact hupTo g.index g h

/-- A search for a namespace starts in the scope itself. -/
private theorem findSpace?_of_ownSpace? {r space : ScopeRef} {name : String}
    (h : s.ownSpace? r name = some space) : s.findSpace? r name = some space := by
  obtain ⟨outer, houter⟩ := s.chainUpTo_eq_cons r.index r
  rw [findSpace?, chain, houter, List.findSome?_cons, h]

/-- **What is registered** in a scope when some of the constants have values: all functions and
namespaces among the statements, where the last declaration of a name counts, and in the scopes of
the namespaces their functions and exactly these constants. -/
structure Registered (s : Store) (scope : ScopeRef) (statements : List Node)
    (spaces : List OpenSpace) (done : List (Initializer × Value)) : Prop where
  /-- The functions of the block. -/
  functions : ∀ name params body, lastFunction? name statements = some (params, body) →
    s.HoldsFunction scope name params body
  /-- The last namespace of a name is what the name stands for. -/
  ownSpace?_eq : ∀ name space, lastSpace? name spaces = some space →
    s.ownSpace? scope name = some space.scope
  /-- The scopes of the namespaces are those of no others. -/
  lastSpace?_eq : ∀ space ∈ spaces, ∀ q name, s.ownSpace? q name = some space.scope →
    lastSpace? name spaces = some space
  /-- The members of the namespaces. -/
  members : ∀ space ∈ spaces, ∀ name,
    s.HoldsMember space.scope name (lastValue? space.scope name done)
      (lastFunction? name space.members)
  /-- The scopes of the namespaces are different, and the block's is none of them. -/
  distinct : (spaces.map OpenSpace.scope).Nodup
  scope_ne : ∀ space ∈ spaces, space.scope ≠ scope
  /-- All of them exist. -/
  scope_known : scope.Known s
  space_known : ∀ space ∈ spaces, space.scope.Known s
  /-- Every cell is that of one name in one scope. -/
  unshared : s.Unshared

namespace Registered

/-- What is registered when no constant has a value. -/
private theorem of_allDeclared (hs : s.Valid) (hcells : s.Unshared) (hscope : scope.Known s)
    (h : s.AllDeclared scope statements spaces s') : s'.Registered scope statements spaces [] where
  functions := h.holds
  ownSpace?_eq name space hspace := by
    rw [h.ownSpace?_eq, hspace]
    rfl
  lastSpace?_eq space hspace q name hown := by
    -- a namespace that was there before has a scope that was there before
    have hold (hown : s.ownSpace? q name = some space.scope) : False := by
      obtain ⟨old, hold, hname⟩ := Option.bind_eq_some_iff.1 hown
      exact (h.new space hspace).1
        ((hs.scopes q old hold).spaces space.scope (Table.mem_values_of_get? hname))
    by_cases hq : q.Known s
    · by_cases hne : q = scope
      · subst hne
        rw [h.ownSpace?_eq] at hown
        cases hlast : lastSpace? name spaces with
        | none =>
          rw [hlast] at hown
          exact (hold hown).elim
        | some space' =>
          rw [hlast] at hown
          have heq : space'.scope = space.scope := Option.some.inj hown
          rw [List.inj_on_of_nodup_map h.distinct (mem_of_lastSpace? hlast).1 hspace heq]
      · rw [ownSpace?, h.scope?_eq q hq hne] at hown
        exact (hold hown).elim
    · rw [h.inner q name hq] at hown
      cases hown
  members := h.members
  distinct := h.distinct
  scope_ne space hspace heq := (h.new space hspace).1 (heq ▸ hscope)
  scope_known := Nat.lt_of_lt_of_le hscope h.reaches.size_le
  space_known space hspace := (h.new space hspace).2.1
  unshared := h.reaches.unshared hcells

/-- What makes new scopes only keeps all that is registered. -/
private theorem of_reaches (h : s.Registered scope statements spaces done)
    (hreaches : s.Reaches (fun q => s.scopes.size ≤ q.index) s') :
    s'.Registered scope statements spaces done := by
  have hscope {q : ScopeRef} (hq : q.Known s) : s'.scope? q = s.scope? q := by
    obtain ⟨old, hold⟩ : ∃ old, s.scope? q = some old := ⟨_, Array.getElem?_eq_getElem hq⟩
    obtain ⟨new, hnew, -, heq⟩ := hreaches.exists_scope hold
    rw [hnew, hold, heq (Nat.not_le.2 hq)]
  have hown {q : ScopeRef} (hq : q.Known s) (name : String) :
      s'.ownCell? q name = s.ownCell? q name := by
    rw [ownCell?, ownCell?, hscope hq]
  refine ⟨fun name params body hlast => ?_, fun name space hspace => ?_,
    fun space hspace q name hq => ?_, fun space hspace name => ?_, h.distinct, h.scope_ne,
    Nat.lt_of_lt_of_le h.scope_known hreaches.size_le,
    fun space hspace => Nat.lt_of_lt_of_le (h.space_known space hspace) hreaches.size_le,
    hreaches.unshared h.unshared⟩
  · exact (h.functions name params body hlast).of_reaches hreaches (hown h.scope_known name)
  · rw [ownSpace?, hscope h.scope_known]
    exact h.ownSpace?_eq name space hspace
  · rcases hreaches.ownSpace?_cases hq with hq | hnew
    · exact h.lastSpace?_eq space hspace q name hq
    · exact absurd hnew (Nat.not_le.2 (h.space_known space hspace))
  · exact (h.members space hspace name).of_reaches hreaches (hown (h.space_known space hspace) name)

/-- One more constant of a namespace is declared. -/
private theorem define (h : s.Registered scope statements spaces done) {c : Initializer}
    {space : OpenSpace} (hspace : space ∈ spaces) (hc : c.scope = space.scope) (v : Value) :
    (s.define c.scope c.name v false).Registered scope statements spaces (done ++ [(c, v)]) := by
  have hknown : c.scope.Known s := hc ▸ h.space_known space hspace
  have hstep : s.Reaches (fun _ => True) (s.define c.scope c.name v false) :=
    .single (.define s c.name v false trivial)
  have hsize : (s.define c.scope c.name v false).scopes.size = s.scopes.size := Array.size_modify ..
  refine ⟨fun name params body hlast => ?_, fun name space hspace => ?_,
    fun space hspace q name hq => ?_, fun space' hspace' name => ?_, h.distinct, h.scope_ne,
    Nat.lt_of_lt_of_eq h.scope_known hsize.symm,
    fun space hspace => Nat.lt_of_lt_of_eq (h.space_known space hspace) hsize.symm,
    hstep.unshared h.unshared⟩
  · refine (h.functions name params body hlast).of_reaches hstep ?_
    have hne : scope ≠ c.scope := fun heq => h.scope_ne space hspace (hc.symm.trans heq.symm)
    rw [ownCell?_define hknown, if_neg fun h => hne h.1]
  · exact (ownSpace?_define ..).trans (h.ownSpace?_eq name space hspace)
  · exact h.lastSpace?_eq space hspace q name ((ownSpace?_define ..).symm.trans hq)
  · rw [lastValue?_concat]
    split
    · rename_i heq
      obtain ⟨hscope, rfl⟩ := heq
      refine ⟨s.nextCell, ?_, ?_⟩
      · rw [ownCell?_define hknown, if_pos ⟨hscope.symm, rfl⟩]
      · exact (cell?_define ..).trans (if_pos rfl)
    · rename_i hne
      refine (h.members space' hspace' name).of_reaches hstep ?_
      rw [ownCell?_define hknown, if_neg fun h => hne ⟨h.1.symm, h.2.symm⟩]

/-- Evaluating a constant and declaring it adds just this constant. -/
theorem perform (fuel : Nat) {w w' : World} (h : w.store.Registered scope statements spaces done)
    {c : Initializer} {space : OpenSpace} (hspace : space ∈ spaces) (hc : c.scope = space.scope)
    (hvalue : c.value.Quiet) {v : Value} (hrun : c.perform (evalWithin fuel) w = .ok v w') :
    w'.store.Registered scope statements spaces (done ++ [(c, v)]) := by
  obtain ⟨r, w₁, heval, hrun⟩ := exists_of_bind_eq_ok hrun
  obtain ⟨_, w₂, hdefine, hrun⟩ := exists_of_bind_eq_ok hrun
  obtain ⟨_, w₃, hnote, hpure⟩ := exists_of_bind_eq_ok hrun
  cases hpure
  rw [store_eq_of_note hnote]
  cases hdefine
  -- the scopes that are opened are those that are not there yet
  have hchanges :=
    ((Law.changes fun q => w.store.scopes.size ≤ q.index).obeys_within fuel).1 c.value c.scope
      (.inr hvalue)
  have hreaches := Changes.reaches_of_eq_ok hchanges (fun _ hq => hq) heval
  exact (h.of_reaches hreaches).define hspace hc r.result

/-- **After each run of constants exactly these are registered.** -/
theorem initializes (fuel : Nat) {cs : List Initializer} {w w' : World} {values : List Value}
    (hcs : ∀ c ∈ cs, c.value.Quiet ∧ ∃ space ∈ spaces, c.scope = space.scope)
    (hrun : Initializes (evalWithin fuel) cs w values w')
    (h : w.store.Registered scope statements spaces done) :
    w'.store.Registered scope statements spaces (done ++ cs.zip values) := by
  induction hrun generalizing done with
  | nil => simpa using h
  | @cons c rest w w₁ w' v values hfirst _ ih =>
    obtain ⟨⟨hvalue, space, hspace, hc⟩, hrest⟩ := List.forall_mem_cons.1 hcs
    simpa using ih hrest (h.perform fuel hspace hc hvalue hfirst)

/-- No namespace leads to the scope of a namespace that was declared again. -/
private theorem findSpace?_ne (h : s.Registered scope statements spaces done) {space : OpenSpace}
    (hspace : space ∈ spaces) (hlast : lastSpace? space.name spaces ≠ some space) (g : ScopeRef)
    (name : String) : s.findSpace? g name ≠ some space.scope := by
  intro hfind
  obtain ⟨q, -, hq⟩ := List.exists_of_findSome?_eq_some hfind
  have hname := h.lastSpace?_eq space hspace q name hq
  obtain ⟨-, rfl⟩ := mem_of_lastSpace? hname
  exact hlast hname

/-- The variables of the scope of a namespace are found by their names only, and from scopes inside
it only. -/
private theorem around_of_find? (h : s.Registered scope statements spaces done) {r g : ScopeRef}
    {member name : String} {ref : CellRef} (hmember : s.ownCell? r member = some ref)
    (hfind : s.find? g name = some ref) : name = member ∧ ∃ nearer, s.Around g nearer r := by
  obtain ⟨q, hq, hown⟩ := List.exists_of_findSome?_eq_some hfind
  obtain ⟨rfl, rfl⟩ := h.unshared.unique r q member name ref hmember hown
  exact ⟨rfl, exists_around_of_mem_chain hq⟩

/-- What a member of a namespace is. -/
private theorem lookupMember_eq (h : s.Registered scope statements spaces done) {name : String}
    {space : OpenSpace} (hspace : lastSpace? name spaces = some space) (member : String) :
    (∀ v, lastValue? space.scope member done = some v →
      s.lookupMember scope name member = .ok v) ∧
    (lastValue? space.scope member done = none →
      (∀ params body, lastFunction? member space.members = some (params, body) →
        ∃ f, s.lookupMember scope name member = .ok (.fn f) ∧
          s.function? f = some (.closure params body space.scope (some member))) ∧
      (lastFunction? member space.members = none →
        s.lookupMember scope name member = .error (.undefinedMember name member))) := by
  have hfind : s.findSpace? scope name = some space.scope :=
    findSpace?_of_ownSpace? (h.ownSpace?_eq name space hspace)
  have hmember := h.members space (mem_of_lastSpace? hspace).1 member
  refine ⟨fun v hv => ?_, fun hnone => ⟨fun params body hfunction => ?_, fun hfunction => ?_⟩⟩
  · rw [hv] at hmember
    obtain ⟨ref, hown, hcell⟩ := hmember
    simp only [lookupMember, hfind, hown, Option.bind_some, hcell]
  · rw [hnone, hfunction] at hmember
    obtain ⟨ref, f, hown, hcell, hf⟩ := hmember
    exact ⟨f, by simp only [lookupMember, hfind, hown, Option.bind_some, hcell], hf⟩
  · rw [hnone, hfunction] at hmember
    have hown : s.ownCell? space.scope member = none := hmember
    simp only [lookupMember, hfind, hown, Option.bind_none]

end Registered

end Store

/-! ### Program texts -/

/-- In the tree of a program text all statements are scoped and their namespaces hold constants, at
every depth. -/
private theorem statements_of_parseProgram {text : String} {program : Node}
    (h : parseProgram text = .ok program) :
    program.Throughout fun n => ∀ c ∈ n.statements, c.Scoped ∧ c.ConstantSpaces := by
  have hscoped := scoped_of_parseProgram h
  have hconstant := constantSpaces_of_parseProgram h
  clear h
  induction hconstant with
  | intro _ hstatements' hoperands' ihstatements ihoperands =>
    cases hscoped with
    | intro _ hstatements hoperands _ =>
      exact .intro (fun c hc => ⟨hstatements c hc, hstatements' c hc⟩)
        (fun c hc => ihstatements c hc (hstatements c hc))
        fun c hc => ihoperands c hc (hoperands c hc)

section Statements

variable {statements : List Node} (hstatements : ∀ c ∈ statements, c.Scoped ∧ c.ConstantSpaces)
  {spaces : List OpenSpace}
  (hspaces : spaces.map OpenSpace.node = statements.filter Node.isSpaceDecl)
include hstatements hspaces

private theorem node_of_mem_spaces {space : OpenSpace} (h : space ∈ spaces) :
    space.node.Scoped ∧ space.node.ConstantSpaces := by
  have hnode : space.node ∈ statements.filter Node.isSpaceDecl := hspaces ▸ List.mem_map_of_mem h
  exact hstatements _ (List.mem_filter.1 hnode).1

/-- The constants of the namespaces among statements are immutable. -/
private theorem isMutableDecl_of_mem_spaces {space : OpenSpace} (h : space ∈ spaces) :
    ∀ c ∈ space.members, c.isMutableDecl = false := by
  obtain ⟨-, hconstant⟩ := node_of_mem_spaces hstatements hspaces h
  cases hconstant with
  | intro hholds _ _ => exact hholds space.name space.members rfl

/-- The constants of the namespaces among statements declare nothing while they are evaluated. -/
private theorem quiet_of_mem_initializers {c : Initializer} (hc : c ∈ initializers spaces) :
    c.value.Quiet ∧ ∃ space ∈ spaces, c.scope = space.scope := by
  obtain ⟨space, hspace, hc⟩ := List.mem_flatMap.1 hc
  obtain ⟨member, hmember, hc⟩ := List.mem_filterMap.1 hc
  obtain ⟨hscoped, -⟩ := node_of_mem_spaces hstatements hspaces hspace
  cases hscoped with
  | intro _ hmembers _ _ =>
    cases member with
    | varDecl name value isMutable =>
      cases hc
      cases hmembers _ hmember with
      | intro _ _ hvalue hdeclaration =>
        have hmem : value ∈ (Node.varDecl name value isMutable).operands :=
          List.mem_singleton_self _
        exact ⟨(hvalue value hmem).quiet (hdeclaration value hmem), space, hspace, rfl⟩
    | _ => cases hc

end Statements

/-- **What a namespace contains after hoisting.** Let the statements of a block be those of a
program text, and let their functions and namespaces be declared, in a scope of a valid world in
which cells are not shared, without an error. First all functions and namespaces are declared. Then
the constants of the namespaces are evaluated, each exactly once and in the order of the text. After
any number of them all functions and namespaces are registered, and exactly these constants are; and
so it is while the next one is evaluated, since that declares names in new scopes only. The scope of
a namespace that is declared again later is that of no namespace any more, so its members are found
by their bare names only, and in scopes inside it only.

In the end a member of the last namespace of a name is the value of its last constant of that name,
or else its last function of that name, made in the scope of the namespace, or else undefined. -/
theorem namespaces_after_hoisting :
    (∀ text program, parseProgram text = .ok program →
      program.Throughout fun n => ∀ c ∈ n.statements, c.Scoped ∧ c.ConstantSpaces) ∧
    (∀ w : World, w.Reachable → w.store.Valid ∧ w.store.Unshared) ∧
    ∀ (fuel : Nat) (statements : List Node) (scope : ScopeRef) (w w' : World),
      (∀ c ∈ statements, c.Scoped ∧ c.ConstantSpaces) → w.store.Valid → w.store.Unshared →
      scope.Known w.store → hoist (evalWithin fuel) statements scope w = .ok () w' →
      ∃ spaces w₀ values, declareAll scope statements w = .ok spaces w₀ ∧
        spaces.map OpenSpace.node = statements.filter Node.isSpaceDecl ∧
        (∀ j, ∃ w₁,
          Initializes (evalWithin fuel) ((initializers spaces).take j) w₀ (values.take j) w₁ ∧
          Initializes (evalWithin fuel) ((initializers spaces).drop j) w₁ (values.drop j) w' ∧
          ∀ s, w₁.store.Reaches (fun q => w₁.store.scopes.size ≤ q.index) s →
            s.Registered scope statements spaces
              (((initializers spaces).take j).zip (values.take j)) ∧
            ∀ space ∈ spaces,
              (lastSpace? space.name spaces ≠ some space →
                ∀ g name, s.findSpace? g name ≠ some space.scope) ∧
              ∀ member ref, s.ownCell? space.scope member = some ref →
                ∀ g name, s.find? g name = some ref →
                  name = member ∧ ∃ nearer, s.Around g nearer space.scope) ∧
        ∀ name space, lastSpace? name spaces = some space → ∀ member,
          (∀ v, lastValue? space.scope member ((initializers spaces).zip values) = some v →
            w'.store.lookupMember scope name member = .ok v) ∧
          (lastValue? space.scope member ((initializers spaces).zip values) = none →
            (∀ params body, lastFunction? member space.members = some (params, body) →
              ∃ f, w'.store.lookupMember scope name member = .ok (.fn f) ∧
                w'.store.function? f = some (.closure params body space.scope (some member))) ∧
            (lastFunction? member space.members = none →
              w'.store.lookupMember scope name member = .error (.undefinedMember name member) ∧
                (ScriptError.scope (.undefinedMember name member)).category = .undefined)) := by
  refine ⟨fun text program => statements_of_parseProgram,
    fun w hw => ⟨hw.valid.store, hw.unshared⟩, ?_⟩
  intro fuel statements scope w w' hstatements hvalid hunshared hscope hrun
  obtain ⟨spaces, w₀, hdeclare, hrun⟩ := exists_of_bind_eq_ok hrun
  have hdeclared := allDeclared_of_declareAll hscope hdeclare
  have hnodes := hdeclared.nodes
  obtain ⟨values, hvalues⟩ := exists_initializes_of_forM
    (fun space hspace => isMutableDecl_of_mem_spaces hstatements hnodes hspace) hrun
  have hquiet (c : Initializer) (hc : c ∈ initializers spaces) :=
    quiet_of_mem_initializers hstatements hnodes hc
  have hstart := Registered.of_allDeclared hvalid hunshared hscope hdeclared
  refine ⟨spaces, w₀, values, hdeclare, hnodes, fun j => ?_, fun name space hspace member => ?_⟩
  · -- the first `j` constants have their values in a world that lies between the two
    obtain ⟨w₁, htake, hdrop⟩ := hvalues.exists_split j
    have hregistered :=
      hstart.initializes fuel (fun c hc => hquiet c (List.mem_of_mem_take hc)) htake
    rw [List.nil_append] at hregistered
    refine ⟨w₁, htake, hdrop, fun s hs => ⟨hregistered.of_reaches hs, fun space hspace => ?_⟩⟩
    exact ⟨(hregistered.of_reaches hs).findSpace?_ne hspace,
      fun _ _ hown _ _ => (hregistered.of_reaches hs).around_of_find? hown⟩
  · -- after all of them, a member has the value it got last, or else is the last function
    have hregistered := hstart.initializes fuel hquiet hvalues
    rw [List.nil_append] at hregistered
    obtain ⟨hvalue, helse⟩ := hregistered.lookupMember_eq hspace member
    refine ⟨hvalue, fun hnone => ?_⟩
    obtain ⟨hfunction, hundefined⟩ := helse hnone
    exact ⟨hfunction, fun hmember => ⟨hundefined hmember, rfl⟩⟩

/-- A namespace with a constant `k`, declared again with a constant `m`, in a scope with a variable
`k`: the second one has no member `k`, and the scope 1 of the first one is that of no namespace. -/
theorem namespaces_after_hoisting_again :
    let statements : List Node :=
      [.spaceDecl "N" [.varDecl "k" (.truth true) false],
        .spaceDecl "N" [.varDecl "m" (.truth false) false]]
    ∃ w w' : World, (w.store.Valid ∧ w.store.Unshared ∧ ScopeRef.Known w.store ⟨0⟩ ∧
        ∀ c ∈ statements, c.Scoped ∧ c.ConstantSpaces) ∧
      hoist (evalWithin 9) statements ⟨0⟩ w = .ok () w' ∧
      w'.store.lookup ⟨0⟩ "k" = .ok .null ∧
      w'.store.lookupMember ⟨0⟩ "N" "k" = .error (.undefinedMember "N" "k") ∧
      w'.store.lookupMember ⟨0⟩ "N" "m" = .ok (.bool false) ∧
      ∀ g name, w'.store.findSpace? g name ≠ some ⟨1⟩ := by
  intro statements
  let w₀ := worldAfter (add (Store.newScope none) (Session.emptyWorld 0 none))
  let w := Request.after 0 (.define ⟨0⟩ "k" .null true) w₀
  let w' := worldAfter (hoist (evalWithin 9) statements ⟨0⟩ w)
  have hknown : ScopeRef.Known w₀.store ⟨0⟩ := Nat.zero_lt_one
  have hw : w.Reachable := (World.Reachable.outermost (.fresh 0 none)).step
    ⟨0, .define ⟨0⟩ "k" .null true,
      ⟨List.forall_mem_singleton.2 hknown, List.forall_mem_singleton.2 trivial⟩, rfl⟩
  have hspace (m : String) (b : Bool) :
      (Node.spaceDecl "N" [.varDecl m (.truth b) false]).Scoped ∧
        (Node.spaceDecl "N" [.varDecl m (.truth b) false]).ConstantSpaces := by
    have hvalue : (Node.truth b).Scoped := .of_statements trivial (List.forall_mem_nil _) rfl
    have hvalue' : (Node.truth b).ConstantSpaces :=
      .intro (fun _ _ h => by cases h) (List.forall_mem_nil _) (List.forall_mem_nil _)
    have hconstant : (Node.varDecl m (.truth b) false).Scoped :=
      .intro trivial (List.forall_mem_nil _) (List.forall_mem_singleton.2 hvalue)
        (List.forall_mem_singleton.2 rfl)
    have hconstant' : (Node.varDecl m (.truth b) false).ConstantSpaces :=
      .intro (fun _ _ h => by cases h) (List.forall_mem_nil _) (List.forall_mem_singleton.2 hvalue')
    refine ⟨.of_statements trivial (List.forall_mem_singleton.2 hconstant) rfl,
      .intro (fun name members h => ?_) (List.forall_mem_singleton.2 hconstant')
        (List.forall_mem_nil _)⟩
    cases h
    exact List.forall_mem_singleton.2 rfl
  have hstatements : ∀ c ∈ statements, c.Scoped ∧ c.ConstantSpaces :=
    List.forall_mem_cons.2 ⟨hspace "k" true, List.forall_mem_singleton.2 (hspace "m" false)⟩
  have hscope : ScopeRef.Known w.store ⟨0⟩ := Nat.zero_lt_one
  have hrun : hoist (evalWithin 9) statements ⟨0⟩ w = .ok () w' := by rfl
  obtain ⟨-, hreachable, hhoist⟩ := namespaces_after_hoisting
  obtain ⟨hvalid, hunshared⟩ := hreachable w hw
  refine ⟨w, w', ⟨hvalid, hunshared, hscope, hstatements⟩, hrun, rfl, ?_⟩
  obtain ⟨spaces, w₁, values, hdeclare, -, hruns, hmembers⟩ :=
    hhoist 9 statements ⟨0⟩ w w' hstatements hvalid hunshared hscope hrun
  let first : OpenSpace := ⟨"N", [.varDecl "k" (.truth true) false], ⟨1⟩⟩
  let second : OpenSpace := ⟨"N", [.varDecl "m" (.truth false) false], ⟨2⟩⟩
  have hspaces : declareAll ⟨0⟩ statements w =
      .ok [first, second] (worldAfter (declareAll ⟨0⟩ statements w)) := by rfl
  rw [hspaces] at hdeclare
  cases hdeclare
  obtain ⟨w₂, hnone, hall, -⟩ := hruns 0
  cases hnone
  cases hall with
  | cons hfirst hrest =>
    cases hfirst
    cases hrest with
    | cons hsecond hnil =>
      cases hsecond
      cases hnil
      have hlast := hmembers "N" second rfl
      obtain ⟨w₃, -, hend, hregistered⟩ := hruns 2
      cases hend
      obtain ⟨-, hhidden⟩ := hregistered w'.store .refl
      have hne : second.scope ≠ first.scope := by decide
      refine ⟨(((hlast "k").2 rfl).2 rfl).1, (hlast "m").1 _ rfl, ?_⟩
      exact (hhidden first List.mem_cons_self).1 fun h =>
        hne (congrArg OpenSpace.scope (Option.some.inj h))

end Sigil
