import Sigil.Proofs.Generic.Evaluator
import Sigil.Proofs.Generic.Matching

/-!
# Two meanings that correspond

Let evaluation be put together from two sets of operations. A `Correspondence` relates computations
over the one to computations over the other: those that are done alike, with results that match.
Sequencing keeps it, and the operations of the two sets are related one by one, given references
that match. Then whole evaluations and calls are related (`Correspondence.within`), so a fact about
two meanings of programs takes one lemma for each operation and none for the constructs of the
language.

What matches may grow as computations go on, which is why everything is relative to a *stage*. A
correspondence may also tell names apart: a name is declared in a scope only if it is *opened*
there. Whoever makes a scope opens the names that its code declares.
-/

namespace Sigil

open Node

/-- Loop variables of one name whose values match. -/
inductive LoopItem.Matches (m : Matching) : LoopItem → LoopItem → Prop
  | ok (name : String) {v v' : Value} : v.Matches m v' → Matches m (name, .ok v) (name, .ok v')
  | error (name : String) (e : Fault) : Matches m (name, .error e) (name, .error e)

/-- Where everything matches only itself, so do loop variables. -/
theorem LoopItem.Matches.eq_of_rel {m : Matching} (hm : m ≤ .refl) {item item' : Option LoopItem}
    (h : Option.Rel (Matches m) item item') : item = item' := by
  cases h with
  | none => rfl
  | some hitem =>
    cases hitem with
    | ok name hv => rw [hv.eq hm]
    | error name e => rfl

/-- **A correspondence of two meanings of programs.** -/
structure Correspondence {m₁ m₂ : Type → Type} [Monad m₁] [Monad m₂] (ops₁ : Operations m₁)
    (ops₂ : Operations m₂) where
  /-- How far the two meanings have come. -/
  Stage : Type
  /-- A stage that is reached from another. -/
  Later : Stage → Stage → Prop
  /-- The references that stand for each other. -/
  matching : Stage → Matching
  /-- A name may be declared in a scope. -/
  Opened : Stage → ScopeRef → String → Prop
  /-- The computations are done alike from a stage on, and at the stage where they end their results
  have a property. -/
  Holds {α β : Type} (i : Stage) (post : Stage → α → β → Prop) (x : m₁ α) (y : m₂ β) : Prop
  later_refl (i : Stage) : Later i i
  later_trans {i j k : Stage} : Later i j → Later j k → Later i k
  matching_le {i j : Stage} : Later i j → matching i ≤ matching j
  opened_later {i j : Stage} {r : ScopeRef} {name : String} :
    Later i j → Opened i r name → Opened j r name
  of_pure {α β : Type} {i : Stage} {post : Stage → α → β → Prop} {a : α} {b : β} :
    (∀ j, Later i j → post j a b) → Holds i post (pure a) (pure b)
  of_bind {α β α' β' : Type} {i : Stage} {post : Stage → α → β → Prop}
    {post' : Stage → α' → β' → Prop} {x : m₁ α} {y : m₂ β} {f : α → m₁ α'} {g : β → m₂ β'} :
    Holds i post x y → (∀ j a b, Later i j → post j a b → Holds j post' (f a) (g b)) →
      Holds i post' (x >>= f) (y >>= g)
  of_throw {α β : Type} {i : Stage} {post : Stage → α → β → Prop} (reason : Stop) :
    Holds i post (ops₁.lift (throw reason)) (ops₂.lift (throw reason))
  of_newScope {i : Stage} (names : List String) {r r' : ScopeRef} :
    (matching i).scopes.Rel r r' →
      Holds i (fun j q q' => (matching j).scopes.Rel q q' ∧ ∀ name ∈ names, Opened j q name)
        (ops₁.newScope names r) (ops₂.newScope names r')
  of_newIteration {i : Stage} (body : Node) {item item' : Option LoopItem} {r r' : ScopeRef} :
    Option.Rel (LoopItem.Matches (matching i)) item item' → (matching i).scopes.Rel r r' →
      Holds i (fun j q q' => (matching j).scopes.Rel q q' ∧ ∀ name ∈ body.names, Opened j q name)
        (ops₁.newIteration body item r) (ops₂.newIteration body item' r')
  of_lookup {i : Stage} {r r' : ScopeRef} (name : String) :
    (matching i).scopes.Rel r r' →
      Holds i (fun j => Value.Matches (matching j)) (ops₁.lookup r name) (ops₂.lookup r' name)
  of_lookupMember {i : Stage} {r r' : ScopeRef} (space member : String) :
    (matching i).scopes.Rel r r' →
      Holds i (fun j => Value.Matches (matching j)) (ops₁.lift (Eval.lookupMember r space member))
        (ops₂.lift (Eval.lookupMember r' space member))
  of_define {i : Stage} {r r' : ScopeRef} {name : String} {v v' : Value} :
    (matching i).scopes.Rel r r' → Opened i r name → v.Matches (matching i) v' →
      Holds i (fun _ _ _ => True) (ops₁.lift (Eval.define r name v false))
        (ops₂.lift (Eval.define r' name v' false))
  of_declare {i : Stage} {r r' : ScopeRef} {name : String} {v v' : Value} (isMutable : Bool) :
    (matching i).scopes.Rel r r' → Opened i r name → v.Matches (matching i) v' →
      Holds i (fun _ _ _ => True) (ops₁.declare r name v isMutable)
        (ops₂.declare r' name v' isMutable)
  of_defineSpace {i : Stage} {r r' q q' : ScopeRef} (name : String) :
    (matching i).scopes.Rel r r' → (matching i).scopes.Rel q q' →
      Holds i (fun _ _ _ => True) (ops₁.lift (Eval.defineSpace r name q))
        (ops₂.lift (Eval.defineSpace r' name q'))
  of_assign {i : Stage} {r r' : ScopeRef} (name : String) {v v' : Value} :
    (matching i).scopes.Rel r r' → v.Matches (matching i) v' →
      Holds i (fun _ _ _ => True) (ops₁.lift (Eval.assign r name v))
        (ops₂.lift (Eval.assign r' name v'))
  of_declares {i : Stage} {r r' : ScopeRef} (name : String) :
    (matching i).scopes.Rel r r' →
      Holds i (fun _ b b' => b = b') (ops₁.lift (Eval.declares r name))
        (ops₂.lift (Eval.declares r' name))
  of_declaresSpace {i : Stage} {r r' : ScopeRef} (name : String) :
    (matching i).scopes.Rel r r' →
      Holds i (fun _ b b' => b = b') (ops₁.lift (Eval.declaresSpace r name))
        (ops₂.lift (Eval.declaresSpace r' name))
  of_newArray {i : Stage} {items items' : Array Value} :
    Value.ItemsMatch (matching i) items items' →
      Holds i (fun j => Value.Matches (matching j)) (ops₁.lift (Eval.newArray items))
        (ops₂.lift (Eval.newArray items'))
  of_newObject {i : Stage} {fields fields' : Table Value} :
    fields.Matches (Value.Matches (matching i)) fields' →
      Holds i (fun j => Value.Matches (matching j)) (ops₁.lift (Eval.newObject fields))
        (ops₂.lift (Eval.newObject fields'))
  of_newFunction {i : Stage} {f f' : Function} :
    f.Matches (matching i) f' →
      Holds i (fun j => Value.Matches (matching j)) (ops₁.lift (Eval.newFunction f))
        (ops₂.lift (Eval.newFunction f'))
  of_items {i : Stage} {r r' : ArrayRef} :
    (matching i).arrays.Rel r r' →
      Holds i (fun j => Value.ItemsMatch (matching j)) (ops₁.lift (Eval.items r))
        (ops₂.lift (Eval.items r'))
  of_function? {i : Stage} {r r' : FunctionRef} :
    (matching i).functions.Rel r r' →
      Holds i (fun j => Option.Rel (Function.Matches (matching j))) (ops₁.lift (Eval.function? r))
        (ops₂.lift (Eval.function? r'))
  of_text {i : Stage} {v v' : Value} :
    v.Matches (matching i) v' →
      Holds i (fun _ s s' => s = s') (ops₁.lift (Eval.text v)) (ops₂.lift (Eval.text v'))
  of_note {i : Stage} {event event' : TraceEvent} :
    event.Matches (matching i) event' →
      Holds i (fun _ _ _ => True) (ops₁.lift (Eval.note event)) (ops₂.lift (Eval.note event'))
  of_emit {i : Stage} {v v' : Value} :
    v.Matches (matching i) v' →
      Holds i (fun _ _ _ => True) (ops₁.lift (Eval.emit v)) (ops₂.lift (Eval.emit v'))
  of_memberValue {i : Stage} {v v' : Value} (name : String) :
    v.Matches (matching i) v' →
      Holds i (fun j => Value.Matches (matching j)) (ops₁.lift (memberValue v name))
        (ops₂.lift (memberValue v' name))
  of_indexValue {i : Stage} {v v' u u' : Value} :
    v.Matches (matching i) v' → u.Matches (matching i) u' →
      Holds i (fun j => Value.Matches (matching j)) (ops₁.lift (indexValue v u))
        (ops₂.lift (indexValue v' u'))
  of_native {i : Stage} (f : Native) {args args' : List Value} :
    f.takesFunction = false → Value.AllMatch (matching i) args args' →
      Holds i (fun j => Value.Matches (matching j)) (ops₁.native f args) (ops₂.native f args')

namespace Correspondence

variable {m₁ m₂ : Type → Type} [Monad m₁] [Monad m₂] {ops₁ : Operations m₁} {ops₂ : Operations m₂}
  (c : Correspondence ops₁ ops₂) {α β α' β' : Type} {i j : c.Stage}

/-! ### Computations -/

/-- Scopes that stand for each other. -/
abbrev Scopes (i : c.Stage) : ScopeRef → ScopeRef → Prop :=
  (c.matching i).scopes.Rel

/-- Values that match. -/
abbrev Values (i : c.Stage) : Value → Value → Prop :=
  Value.Matches (c.matching i)

/-- Computations of results that match. -/
abbrev Flows (post : c.Stage → α → β → Prop) (i : c.Stage) : Flow α → Flow β → Prop :=
  Flow.Matches (post i) (c.matching i)

/-- The names that a tree declares in a scope are opened there. -/
def Allows (i : c.Stage) (r : ScopeRef) (names : List String) : Prop :=
  ∀ name ∈ names, c.Opened i r name

variable {c}

/-- Opened names stay opened. -/
theorem Allows.later {r : ScopeRef} {names : List String} (h : c.Allows i r names)
    (hij : c.Later i j) : c.Allows j r names :=
  fun name hname => c.opened_later hij (h name hname)

theorem Allows.mono {r : ScopeRef} {names names' : List String} (h : c.Allows i r names)
    (hnames : ∀ name ∈ names', name ∈ names) : c.Allows i r names' :=
  fun name hname => h name (hnames name hname)

/-- The names of two pieces of code are opened if those of each are. -/
private theorem allows_append {r : ScopeRef} {names names' : List String} :
    c.Allows i r (names ++ names') ↔ c.Allows i r names ∧ c.Allows i r names' :=
  List.forall_mem_append

/-- Signals correspond as values do. -/
theorem onValue {post : c.Stage → α → β → Prop} {post' : c.Stage → α' → β' → Prop}
    {x : m₁ (Flow α)} {y : m₂ (Flow β)} {f : α → m₁ (Flow α')} {g : β → m₂ (Flow β')}
    (hx : c.Holds i (c.Flows post) x y)
    (hf : ∀ j a b, c.Later i j → post j a b → c.Holds j (c.Flows post') (f a) (g b)) :
    c.Holds i (c.Flows post') (Operations.onValue x f) (Operations.onValue y g) := by
  refine c.of_bind hx fun j r r' hij hr => ?_
  cases hr with
  | value hab => exact hf j _ _ hij hab
  | signal hv => exact c.of_pure fun k hjk => .signal (hv.mono (c.matching_le hjk))

/-- Values that match are results that match. -/
private theorem value {v v' : Value} (h : c.Values i v v') :
    c.Holds i (c.Flows c.Values) (Operations.value v) (Operations.value v') :=
  c.of_pure fun _ hij => .value (h.mono (c.matching_le hij))

/-- A computation of a value as one of a result. -/
theorem toResult {x : m₁ Value} {y : m₂ Value} (h : c.Holds i c.Values x y) :
    c.Holds i (c.Flows c.Values) (do Operations.value (← x)) (do Operations.value (← y)) :=
  c.of_bind h fun _ _ _ _ hv => value hv

/-- Both stop for the same mistake. -/
private theorem fail {post : c.Stage → α → β → Prop} (error : ScriptError) :
    c.Holds i post (ops₁.fail error) (ops₂.fail error) :=
  c.of_throw _

/-- An operation that fails alike on both sides. -/
private theorem ofExcept {post : c.Stage → α → β → Prop} {x : Except Stop α} {y : Except Stop β}
    (h : Alike (fun a b => ∀ j, c.Later i j → post j a b) x y) :
    c.Holds i post (ops₁.ofExcept x) (ops₂.ofExcept y) := by
  cases h with
  | ok hpost => exact c.of_pure hpost
  | error e => exact c.of_throw e

/-! ### Declarations -/

/-- Functions of scopes that stand for each other match. -/
private theorem declareFunction {name : String} (params : List String) (body : Node)
    {r r' : ScopeRef} (hr : c.Scopes i r r') (hname : c.Opened i r name) :
    c.Holds i (fun _ _ _ => True) (ops₁.declareFunction name params body r)
      (ops₂.declareFunction name params body r') := by
  refine c.of_bind (c.of_newFunction (.closure params body (some name) hr)) fun j f f' hij hf => ?_
  refine c.of_bind (c.of_define ((c.matching_le hij).scopes hr) (c.opened_later hij hname) hf)
    fun k _ _ _ _ => ?_
  exact c.of_note (.declaredFunction name)

/-- The members of a namespace are opened in its scope. -/
private theorem declareMembers {r r' : ScopeRef} (hr : c.Scopes i r r') {members : List Node}
    (hmembers : c.Allows i r (namesAll members)) :
    c.Holds i (fun _ _ _ => True) (ops₁.declareMembers r members)
      (ops₂.declareMembers r' members) := by
  fun_induction Operations.declareMembers ops₁ r members generalizing i with
  | case1 => exact c.of_pure fun _ _ => trivial
  | case2 name params body members ih =>
    obtain ⟨hname, hrest⟩ := allows_append.1 hmembers
    refine c.of_bind (declareFunction params body hr (hname name List.mem_cons_self))
      fun j _ _ hij _ => ?_
    exact ih ((c.matching_le hij).scopes hr) (hrest.later hij)
  | case3 member members hmember ih =>
    obtain ⟨-, hrest⟩ := allows_append.1 hmembers
    cases member with
    | functionDecl name params body => exact absurd rfl (hmember name params body)
    | _ => exact ih hr hrest

/-- The scope of a namespace is opened for the names of its members. -/
private theorem declareSpace (name : String) (members : List Node) {r r' : ScopeRef}
    (hr : c.Scopes i r r') :
    c.Holds i (fun j q q' => c.Scopes j q q' ∧ c.Allows j q (namesAll members))
      (ops₁.declareSpace name members r) (ops₂.declareSpace name members r') := by
  refine c.of_bind (c.of_newScope (namesAll members) hr) fun j q q' hij ⟨hq, hnames⟩ => ?_
  refine c.of_bind (declareMembers hq hnames) fun k _ _ hjk _ => ?_
  refine c.of_bind (c.of_defineSpace name
    ((c.matching_le (c.later_trans hij hjk)).scopes hr) ((c.matching_le hjk).scopes hq))
    fun l _ _ hkl _ => ?_
  refine c.of_bind (c.of_note (.declaredSpace name)) fun n _ _ hln _ => c.of_pure fun o hno => ?_
  have hjo : c.Later j o :=
    c.later_trans hjk (c.later_trans hkl (c.later_trans hln hno))
  exact ⟨(c.matching_le hjo).scopes hq, Allows.later hnames hjo⟩

/-- Namespaces that match and whose scopes are opened for the names of their members. -/
def Spaces (c : Correspondence ops₁ ops₂) (i : c.Stage) : List OpenSpace → List OpenSpace → Prop :=
  List.Forall₂ fun space space' =>
    space.Matches (c.matching i) space' ∧ c.Allows i space.scope (namesAll space.members)

theorem Spaces.later {spaces spaces' : List OpenSpace} (h : c.Spaces i spaces spaces')
    (hij : c.Later i j) : c.Spaces j spaces spaces' :=
  List.Forall₂.imp (fun _ _ h =>
    ⟨⟨h.1.name_eq, h.1.members_eq, (c.matching_le hij).scopes h.1.scope⟩, h.2.later hij⟩) h

/-- The namespaces that wait for their constants match. -/
private theorem declareAll {r r' : ScopeRef} (hr : c.Scopes i r r') {statements : List Node}
    (hstatements : c.Allows i r (namesAll statements)) :
    c.Holds i c.Spaces (ops₁.declareAll r statements) (ops₂.declareAll r' statements) := by
  fun_induction Operations.declareAll ops₁ r statements generalizing i with
  | case1 => exact c.of_pure fun _ _ => .nil
  | case2 name params body rest ih =>
    obtain ⟨hname, hrest⟩ := allows_append.1 hstatements
    refine c.of_bind (declareFunction params body hr (hname name List.mem_cons_self))
      fun j _ _ hij _ => ?_
    exact ih ((c.matching_le hij).scopes hr) (hrest.later hij)
  | case3 name members rest ih =>
    refine c.of_bind (declareSpace name members hr) fun j q q' hij ⟨hq, hnames⟩ => ?_
    refine c.of_bind (ih ((c.matching_le hij).scopes hr) (hstatements.later hij))
      fun k spaces spaces' hjk hspaces => c.of_pure fun l hkl => ?_
    have hjl := c.later_trans hjk hkl
    exact .cons ⟨⟨rfl, rfl, (c.matching_le hjl).scopes hq⟩, hnames.later hjl⟩ (hspaces.later hkl)
  | case4 statement rest hfunction hspace ih =>
    obtain ⟨-, hrest⟩ := allows_append.1 hstatements
    cases statement with
    | functionDecl name params body => exact absurd rfl (hfunction name params body)
    | spaceDecl name members => exact absurd rfl (hspace name members)
    | _ => exact ih hr hrest

section Constructs

variable {eval₁ : Node → ScopeRef → m₁ Result} {eval₂ : Node → ScopeRef → m₂ Result}
  {call₁ : Value → List Value → m₁ Value} {call₂ : Value → List Value → m₂ Value}

section Eval

variable (heval : ∀ i n r r', c.Scopes i r r' → c.Allows i r n.names →
  c.Holds i (c.Flows c.Values) (eval₁ n r) (eval₂ n r'))
include heval

/-- The constants of namespaces that match get values that match. -/
private theorem initSpace (name : String) {r r' : ScopeRef} (hr : c.Scopes i r r')
    {members : List Node} (hmembers : c.Allows i r (namesAll members)) :
    c.Holds i (fun _ _ _ => True) (ops₁.initSpace eval₁ name r members)
      (ops₂.initSpace eval₂ name r' members) := by
  fun_induction Operations.initSpace ops₁ eval₁ name r members generalizing i with
  | case1 => exact c.of_pure fun _ _ => trivial
  | case2 constant value isMutable members ih =>
    obtain ⟨hfirst, hrest⟩ := allows_append.1 hmembers
    refine c.of_bind (heval i value r r' hr (hfirst.mono fun _ h => List.mem_cons_of_mem _ h))
      fun j v v' hij hv => ?_
    have hr' := (c.matching_le hij).scopes hr
    refine c.of_bind (c.of_declare isMutable hr'
      (c.opened_later hij (hfirst constant List.mem_cons_self)) hv.result) fun k _ _ hjk _ => ?_
    refine c.of_bind
      (c.of_note (.declaredMember name constant (hv.result.mono (c.matching_le hjk))))
      fun l _ _ hkl _ => ?_
    have hil := c.later_trans hij (c.later_trans hjk hkl)
    exact ih ((c.matching_le hil).scopes hr) (hrest.later hil)
  | case3 member members hmember ih =>
    obtain ⟨-, hrest⟩ := allows_append.1 hmembers
    cases member with
    | varDecl constant value isMutable => exact absurd rfl (hmember constant value isMutable)
    | _ => exact ih hr hrest

private theorem initSpaces {spaces spaces' : List OpenSpace} (h : c.Spaces i spaces spaces') :
    c.Holds i (fun _ _ _ => True)
      (spaces.forM fun space => ops₁.initSpace eval₁ space.name space.scope space.members)
      (spaces'.forM fun space => ops₂.initSpace eval₂ space.name space.scope space.members) := by
  induction spaces generalizing i spaces' with
  | nil =>
    cases h
    exact c.of_pure fun _ _ => trivial
  | cons space spaces ih =>
    obtain ⟨space', spaces', ⟨hmatches, hallows⟩, hspaces, rfl⟩ := List.forall₂_cons_left_iff.1 h
    have hfirst : c.Holds i (fun _ _ _ => True)
        (ops₁.initSpace eval₁ space.name space.scope space.members)
        (ops₂.initSpace eval₂ space'.name space'.scope space'.members) := by
      rw [hmatches.name_eq, hmatches.members_eq]
      exact initSpace heval space.name hmatches.scope hallows
    exact c.of_bind hfirst fun j _ _ hij _ => ih (Spaces.later hspaces hij)

/-- Declaring comes before evaluating on both sides. -/
private theorem hoist {r r' : ScopeRef} (hr : c.Scopes i r r') {statements : List Node}
    (hstatements : c.Allows i r (namesAll statements)) :
    c.Holds i (fun _ _ _ => True) (ops₁.hoist eval₁ statements r)
      (ops₂.hoist eval₂ statements r') :=
  c.of_bind (declareAll hr hstatements) fun _ _ _ _ hspaces => initSpaces heval hspaces

/-! ### Sequences -/

/-- Statements are evaluated in scopes that stand for each other. -/
private theorem evalStatements {r r' : ScopeRef} (hr : c.Scopes i r r') {statements : List Node}
    (hstatements : c.Allows i r (namesAll statements)) {v v' : Value} (hv : c.Values i v v') :
    c.Holds i (c.Flows c.Values) (Operations.evalStatements eval₁ r v statements)
      (Operations.evalStatements eval₂ r' v' statements) := by
  induction statements generalizing i v v' with
  | nil => exact value hv
  | cons statement rest ih =>
    obtain ⟨hfirst, hrest⟩ := allows_append.1 hstatements
    exact onValue (heval i statement r r' hr hfirst) fun j _ _ hij hv =>
      ih ((c.matching_le hij).scopes hr) (hrest.later hij) hv

/-- Blocks correspond if the evaluation of statements does. -/
theorem evalBlock {r r' : ScopeRef} (hr : c.Scopes i r r') {statements : List Node}
    (hstatements : c.Allows i r (namesAll statements)) :
    c.Holds i (c.Flows c.Values) (ops₁.evalBlock eval₁ statements r)
      (ops₂.evalBlock eval₂ statements r') :=
  c.of_bind (hoist heval hr hstatements) fun _ _ _ hij _ =>
    evalStatements heval ((c.matching_le hij).scopes hr) (hstatements.later hij) .null

/-- Values from left to right, which go on to match while the others are evaluated. -/
private theorem evalAll {r r' : ScopeRef} (hr : c.Scopes i r r') {nodes : List Node}
    (hnodes : c.Allows i r (namesAll nodes)) :
    c.Holds i (c.Flows fun j => Value.AllMatch (c.matching j)) (Operations.evalAll eval₁ r nodes)
      (Operations.evalAll eval₂ r' nodes) := by
  induction nodes generalizing i with
  | nil => exact c.of_pure fun _ _ => .value .nil
  | cons n rest ih =>
    obtain ⟨hfirst, hrest⟩ := allows_append.1 hnodes
    refine onValue (heval i n r r' hr hfirst) fun j v v' hij hv => ?_
    refine onValue (ih ((c.matching_le hij).scopes hr) (hrest.later hij)) fun k vs vs' hjk hvs => ?_
    exact c.of_pure fun l hkl => .value (.cons (hv.mono (c.matching_le (c.later_trans hjk hkl)))
      (Value.AllMatch.mono (c.matching_le hkl) hvs))

private theorem evalEntries {r r' : ScopeRef} (hr : c.Scopes i r r')
    {entries : List (String × Node)} (hentries : c.Allows i r (namesEntries entries))
    {done done' : Table Value} (hdone : done.Matches (c.Values i) done') :
    c.Holds i (c.Flows fun j => Table.Matches (c.Values j))
      (Operations.evalEntries eval₁ r done entries)
      (Operations.evalEntries eval₂ r' done' entries) := by
  induction entries generalizing i done done' with
  | nil =>
    exact c.of_pure fun j hij => .value (hdone.mono fun _ _ hv => hv.mono (c.matching_le hij))
  | cons entry rest ih =>
    obtain ⟨key, n⟩ := entry
    obtain ⟨hfirst, hrest⟩ := allows_append.1 hentries
    refine onValue (heval i n r r' hr hfirst) fun j v v' hij hv => ?_
    exact ih ((c.matching_le hij).scopes hr) (hrest.later hij)
      ((hdone.mono fun _ _ hv => hv.mono (c.matching_le hij)).insert key hv)

/-- Values that match have the same text. -/
private theorem evalParts {r r' : ScopeRef} (hr : c.Scopes i r r') {parts : List (String ⊕ Node)}
    (hparts : c.Allows i r (namesParts parts)) (done : String) :
    c.Holds i (c.Flows fun _ s s' => s = s') (ops₁.evalParts eval₁ r done parts)
      (ops₂.evalParts eval₂ r' done parts) := by
  induction parts generalizing i done with
  | nil => exact c.of_pure fun _ _ => .value rfl
  | cons part rest ih =>
    cases part with
    | inl s => exact ih hr hparts (done ++ s)
    | inr n =>
      obtain ⟨hfirst, hrest⟩ := allows_append.1 hparts
      refine onValue (heval i n r r' hr hfirst) fun j v v' hij hv => ?_
      refine c.of_bind (c.of_text hv) fun k s s' hjk hs => ?_
      obtain rfl := hs
      have hik := c.later_trans hij hjk
      exact ih ((c.matching_le hik).scopes hr) (hrest.later hik) _

/-! ### Choices -/

private theorem evalOptional {r r' : ScopeRef} (hr : c.Scopes i r r') {n : Node}
    (hn : c.Allows i r n.names) :
    c.Holds i (c.Flows c.Values) (Operations.evalOptional eval₁ n r)
      (Operations.evalOptional eval₂ n r') := by
  cases n with
  | absent => exact value .null
  | _ => exact heval i _ r r' hr hn

/-- The same condition holds on both sides. -/
private theorem evalBranches {r r' : ScopeRef} (hr : c.Scopes i r r')
    {branches : List (Node × Node)} {otherwise : Node}
    (hbranches : c.Allows i r (namesPairs branches)) (hotherwise : c.Allows i r otherwise.names) :
    c.Holds i (c.Flows c.Values) (ops₁.evalBranches eval₁ r otherwise branches)
      (ops₂.evalBranches eval₂ r' otherwise branches) := by
  induction branches generalizing i with
  | nil => exact evalOptional heval hr hotherwise
  | cons branch rest ih =>
    obtain ⟨condition, body⟩ := branch
    obtain ⟨hcondition, hrest⟩ := allows_append.1 hbranches
    obtain ⟨hbody, hrest⟩ := allows_append.1 hrest
    refine onValue (heval i condition r r' hr hcondition) fun j v v' hij hv => ?_
    cases hv with
    | bool holds =>
      refine c.of_bind (c.of_note (.condition holds)) fun k _ _ hjk _ => ?_
      have hik := c.later_trans hij hjk
      have hr' := (c.matching_le hik).scopes hr
      cases holds with
      | true => exact heval k body r r' hr' (hbody.later hik)
      | false => exact ih hr' (hrest.later hik) (hotherwise.later hik)
    | _ => exact fail _

/-- Values that match are equal to the same patterns. -/
private theorem evalArms {r r' : ScopeRef} (hr : c.Scopes i r r') {subject subject' : Value}
    (hsubject : c.Values i subject subject') {arms : List (Node × Node)} {otherwise : Node}
    (harms : c.Allows i r (namesPairs arms)) (hotherwise : c.Allows i r otherwise.names) :
    c.Holds i (c.Flows c.Values) (Operations.evalArms eval₁ r subject otherwise arms)
      (Operations.evalArms eval₂ r' subject' otherwise arms) := by
  induction arms generalizing i with
  | nil => exact evalOptional heval hr hotherwise
  | cons arm rest ih =>
    obtain ⟨pattern, body⟩ := arm
    obtain ⟨hpattern, hrest⟩ := allows_append.1 harms
    obtain ⟨hbody, hrest⟩ := allows_append.1 hrest
    refine onValue (heval i pattern r r' hr hpattern) fun j v v' hij hv => ?_
    have hsubject' := hsubject.mono (c.matching_le hij)
    have hr' := (c.matching_le hij).scopes hr
    rw [hsubject'.equal_eq hv]
    split
    · exact heval j body r r' hr' (hbody.later hij)
    · exact ih hr' hsubject' (hrest.later hij) (hotherwise.later hij)

/-! ### Loops -/

omit heval in
/-- Bodies that are done alike whatever the counter are repeated alike. -/
private theorem repeatBody {body₁ : Nat → m₁ Result} {body₂ : Nat → m₂ Result}
    (hbody : ∀ j k, c.Later i j → c.Holds j (c.Flows c.Values) (body₁ k) (body₂ k))
    (remaining next : Nat) {done done' : Array Value}
    (hdone : Value.ItemsMatch (c.matching i) done done') :
    c.Holds i (c.Flows c.Values) (ops₁.repeatBody body₁ remaining next done)
      (ops₂.repeatBody body₂ remaining next done') := by
  induction remaining generalizing i next done done' with
  | zero => exact toResult (c.of_newArray hdone)
  | succ remaining ih =>
    refine onValue (hbody i next (c.later_refl i)) fun j v v' hij hv => ?_
    exact ih (fun k n hjk => hbody k n (c.later_trans hij hjk)) (next + 1)
      ((hdone.mono (c.matching_le hij)).push hv)

omit heval in
/-- Bodies that are done alike for items that match are done alike for each of the items. -/
private theorem eachBody {body₁ : Value → m₁ Result} {body₂ : Value → m₂ Result}
    (hbody : ∀ j v v', c.Later i j → c.Values j v v' →
      c.Holds j (c.Flows c.Values) (body₁ v) (body₂ v'))
    {items items' : List Value} (hitems : Value.AllMatch (c.matching i) items items')
    {done done' : Array Value}
    (hdone : Value.ItemsMatch (c.matching i) done done') :
    c.Holds i (c.Flows c.Values) (ops₁.eachBody body₁ items done)
      (ops₂.eachBody body₂ items' done') := by
  induction items generalizing i items' done done' with
  | nil =>
    cases hitems
    exact toResult (c.of_newArray hdone)
  | cons item items ih =>
    obtain ⟨item', rest', hitem, hrest, rfl⟩ := List.forall₂_cons_left_iff.1 hitems
    refine onValue (hbody i item item' (c.later_refl i) hitem) fun j v v' hij hv => ?_
    have hle := c.matching_le hij
    exact ih (fun k v v' hjk hv => hbody k v v' (c.later_trans hij hjk) hv)
      (Value.AllMatch.mono hle hrest) ((hdone.mono hle).push hv)

/-- An iteration with items that match. -/
private theorem countRound (counter : Option String) (body : Node) {r r' : ScopeRef}
    (hr : c.Scopes i r r') (total k : Nat) :
    c.Holds i (c.Flows c.Values) (ops₁.countRound eval₁ counter body r total k)
      (ops₂.countRound eval₂ counter body r' total k) := by
  have hitem : Option.Rel (LoopItem.Matches (c.matching i))
      (counter.map fun name => (name, (doubleOf k).map Value.num))
      (counter.map fun name => (name, (doubleOf k).map Value.num)) := by
    cases counter with
    | none => exact .none
    | some name =>
      cases doubleOf k with
      | ok x => exact .some (.ok name (.num x))
      | error e => exact .some (.error name e)
  refine c.of_bind (c.of_newIteration body hitem hr) fun j q q' hij ⟨hq, hnames⟩ => ?_
  refine c.of_bind (c.of_note (.iteration k total)) fun l _ _ hjl _ => ?_
  exact heval l body q q' ((c.matching_le hjl).scopes hq) (Allows.later hnames hjl)

private theorem eachRound (item : String) (body : Node) {r r' : ScopeRef} (hr : c.Scopes i r r')
    {v v' : Value} (hv : c.Values i v v') :
    c.Holds i (c.Flows c.Values) (ops₁.eachRound eval₁ item body r v)
      (ops₂.eachRound eval₂ item body r' v') :=
  c.of_bind (c.of_newIteration body (.some (.ok item hv)) hr) fun j q q' _ ⟨hq, hnames⟩ =>
    heval j body q q' hq hnames

/-- Loops with the same count have as many iterations. -/
private theorem evalCountLoop (counter : Option String) {count : Node} (body : Node)
    {r r' : ScopeRef} (hr : c.Scopes i r r') (hcount : c.Allows i r count.names) :
    c.Holds i (c.Flows c.Values) (ops₁.evalCountLoop eval₁ counter count body r)
      (ops₂.evalCountLoop eval₂ counter count body r') := by
  refine onValue (heval i count r r' hr hcount) fun j v v' hij hv => ?_
  have htotal : loopCount v' = loopCount v := by cases hv <;> rfl
  have hcounts : c.Holds j (fun _ n n' => n = n') (ops₁.ofExcept (loopCount v))
      (ops₂.ofExcept (loopCount v')) := by
    rw [htotal]
    exact ofExcept (.refl fun _ _ _ _ => rfl)
  refine c.of_bind hcounts fun k total total' hjk htotal => ?_
  obtain rfl := htotal
  have hik := c.later_trans hij hjk
  exact repeatBody (fun l n hkl => countRound heval counter body
    ((c.matching_le (c.later_trans hik hkl)).scopes hr) total n) total 1 .nil

/-- Arrays that match have as many elements. -/
private theorem evalEachLoop (item : String) {collection : Node} (body : Node) {r r' : ScopeRef}
    (hr : c.Scopes i r r') (hcollection : c.Allows i r collection.names) :
    c.Holds i (c.Flows c.Values) (ops₁.evalEachLoop eval₁ item collection body r)
      (ops₂.evalEachLoop eval₂ item collection body r') := by
  refine onValue (heval i collection r r' hr hcollection) fun j v v' hij hv => ?_
  cases hv with
  | arr harr =>
    refine c.of_bind (c.of_items harr) fun k items items' hjk hitems => ?_
    have hik := c.later_trans hij hjk
    exact eachBody (fun l v v' hkl hv => eachRound heval item body
      ((c.matching_le (c.later_trans hik hkl)).scopes hr) hv) hitems .nil
  | _ => exact fail _

/-! ### Operands -/

/-- The left operand decides on both sides or on none. -/
private theorem evalLogical (op : String) {left right : Node} {r r' : ScopeRef}
    (hr : c.Scopes i r r') (hleft : c.Allows i r left.names) (hright : c.Allows i r right.names) :
    c.Holds i (c.Flows c.Values) (ops₁.evalLogical eval₁ op left right r)
      (ops₂.evalLogical eval₂ op left right r') := by
  refine onValue (heval i left r r' hr hleft) fun j v v' hij hv => ?_
  cases hv with
  | bool a =>
    dsimp only
    split
    · exact value (.bool a)
    · refine onValue (heval j right r r' ((c.matching_le hij).scopes hr) (hright.later hij))
        fun k u u' _ hu => ?_
      cases hu with
      | bool b => exact value (.bool b)
      | _ => exact fail _
  | _ => exact fail _

omit heval in
/-- An operator gives values that match, or stops for the same reason. -/
private theorem applyOperator (op : String) {v v' u u' : Value} (hv : c.Values i v v')
    (hu : c.Values i u u') :
    c.Holds i c.Values (ops₁.ofExcept (applyOperator op v u))
      (ops₂.ofExcept (applyOperator op v' u')) := by
  have heq : Sigil.applyOperator op v' u' = Sigil.applyOperator op v u := by
    simp only [Sigil.applyOperator, hv.equal_eq hu, hv.kind_eq, hu.kind_eq]
    cases hv <;> cases hu <;> rfl
  rw [heq]
  exact ofExcept (.refl fun w hw _ _ => .of_known fun s => known_of_applyOperator hw s)

/-- Operands that match give results that match. -/
private theorem evalBinary (op : String) {left right : Node} {r r' : ScopeRef}
    (hr : c.Scopes i r r') (hleft : c.Allows i r left.names) (hright : c.Allows i r right.names) :
    c.Holds i (c.Flows c.Values) (ops₁.evalBinary eval₁ op left right r)
      (ops₂.evalBinary eval₂ op left right r') := by
  unfold Operations.evalBinary
  split
  · exact evalLogical heval op hr hleft hright
  · refine onValue (heval i left r r' hr hleft) fun j v v' hij hv => ?_
    refine onValue (heval j right r r' ((c.matching_le hij).scopes hr) (hright.later hij))
      fun k u u' hjk hu => ?_
    exact toResult (applyOperator op (hv.mono (c.matching_le hjk)) hu)

omit heval in
/-- The name of a function expression is opened in the scope made for it. -/
private theorem makeFunction (name : Option String) (params : List String) (body : Node)
    {r r' : ScopeRef} (hr : c.Scopes i r r') :
    c.Holds i c.Values (ops₁.makeFunction name params body r)
      (ops₂.makeFunction name params body r') := by
  cases name with
  | none => exact c.of_newFunction (.closure params body none hr)
  | some name =>
    refine c.of_bind (c.of_newScope [name] hr) fun j q q' hij ⟨hq, hnames⟩ => ?_
    refine c.of_bind (c.of_newFunction (.closure params body (some name) hq))
      fun k f f' hjk hf => ?_
    refine c.of_bind (c.of_define ((c.matching_le hjk).scopes hq)
      (c.opened_later hjk (hnames name List.mem_cons_self)) hf) fun l _ _ hkl _ => ?_
    exact c.of_pure fun n hln => hf.mono (c.matching_le (c.later_trans hkl hln))

end Eval

/-! ### The standard library -/

private theorem arrayArg (f : Native) {args args' : List Value}
    (h : Value.AllMatch (c.matching i) args args') (k : Nat) :
    c.Holds i (fun j => (c.matching j).arrays.Rel) (ops₁.arrayArg f args k)
      (ops₂.arrayArg f args' k) := by
  have harg := h.arg k
  unfold Operations.arrayArg
  generalize Native.arg args k = v, Native.arg args' k = v' at harg
  cases harg with
  | arr hr => exact c.of_pure fun _ hij => (c.matching_le hij).arrays hr
  | _ => exact fail _

private theorem functionArg (f : Native) {args args' : List Value}
    (h : Value.AllMatch (c.matching i) args args') (k : Nat) :
    c.Holds i c.Values (ops₁.functionArg f args k) (ops₂.functionArg f args' k) := by
  have harg := h.arg k
  unfold Operations.functionArg
  generalize Native.arg args k = v, Native.arg args' k = v' at harg
  cases harg with
  | fn hr => exact c.of_pure fun _ hij => .fn ((c.matching_le hij).functions hr)
  | _ => exact fail _

/-- Calls for elements that match. -/
private theorem mapM {f : Value → m₁ Value} {g : Value → m₂ Value}
    (hf : ∀ j v v', c.Later i j → c.Values j v v' → c.Holds j c.Values (f v) (g v'))
    {items items' : List Value} (hitems : Value.AllMatch (c.matching i) items items') :
    c.Holds i (fun j => Value.AllMatch (c.matching j)) (items.mapM f) (items'.mapM g) := by
  unfold List.mapM
  have hloop {done done' : List Value} (hdone : Value.AllMatch (c.matching i) done done') :
      c.Holds i (fun j => Value.AllMatch (c.matching j)) (List.mapM.loop f items done)
        (List.mapM.loop g items' done') := by
    induction items generalizing i items' done done' with
    | nil =>
      cases hitems
      exact c.of_pure fun j hij => List.rel_reverse (Value.AllMatch.mono (c.matching_le hij) hdone)
    | cons item items ih =>
      obtain ⟨item', rest', hitem, hrest, rfl⟩ := List.forall₂_cons_left_iff.1 hitems
      refine c.of_bind (hf i item item' (c.later_refl i) hitem) fun j v v' hij hv => ?_
      have hle := c.matching_le hij
      exact ih (fun k v v' hjk hv => hf k v v' (c.later_trans hij hjk) hv)
        (Value.AllMatch.mono hle hrest) (.cons hv (Value.AllMatch.mono hle hdone))
  exact hloop .nil

private theorem filterM {f : Value → m₁ Bool} {g : Value → m₂ Bool}
    (hf : ∀ j v v', c.Later i j → c.Values j v v' →
      c.Holds j (fun _ b b' => b = b') (f v) (g v'))
    {items items' : List Value} (hitems : Value.AllMatch (c.matching i) items items') :
    c.Holds i (fun j => Value.AllMatch (c.matching j)) (items.filterM f) (items'.filterM g) := by
  unfold List.filterM
  have hauxiliary {kept kept' : List Value} (hkept : Value.AllMatch (c.matching i) kept kept') :
      c.Holds i (fun j => Value.AllMatch (c.matching j)) (items.filterAuxM f kept)
        (items'.filterAuxM g kept') := by
    induction items generalizing i items' kept kept' with
    | nil =>
      cases hitems
      exact c.of_pure fun j hij => Value.AllMatch.mono (c.matching_le hij) hkept
    | cons item items ih =>
      obtain ⟨item', rest', hitem, hrest, rfl⟩ := List.forall₂_cons_left_iff.1 hitems
      refine c.of_bind (hf i item item' (c.later_refl i) hitem) fun j b b' hij hb => ?_
      obtain rfl := hb
      have hle := c.matching_le hij
      refine ih (fun k v v' hjk hv => hf k v v' (c.later_trans hij hjk) hv)
        (Value.AllMatch.mono hle hrest) ?_
      cases b with
      | true => exact .cons (hitem.mono hle) (Value.AllMatch.mono hle hkept)
      | false => exact Value.AllMatch.mono hle hkept
  exact c.of_bind (hauxiliary .nil) fun j kept kept' _ hkept =>
    c.of_pure fun k hjk => List.rel_reverse (Value.AllMatch.mono (c.matching_le hjk) hkept)

/-- The accumulated values match after each step. -/
private theorem foldlM {f : Value → Value → m₁ Value} {g : Value → Value → m₂ Value}
    (hf : ∀ j u u' v v', c.Later i j → c.Values j u u' → c.Values j v v' →
      c.Holds j c.Values (f u v) (g u' v'))
    {items items' : List Value} (hitems : Value.AllMatch (c.matching i) items items')
    {start start' : Value} (hstart : c.Values i start start') :
    c.Holds i c.Values (items.foldlM f start) (items'.foldlM g start') := by
  induction items generalizing i items' start start' with
  | nil =>
    cases hitems
    exact c.of_pure fun j hij => hstart.mono (c.matching_le hij)
  | cons item items ih =>
    obtain ⟨item', rest', hitem, hrest, rfl⟩ := List.forall₂_cons_left_iff.1 hitems
    refine c.of_bind (hf i start start' item item' (c.later_refl i) hstart hitem)
      fun j v v' hij hv => ?_
    exact ih (fun k u u' v v' hjk hu hv => hf k u u' v v' (c.later_trans hij hjk) hu hv)
      (Value.AllMatch.mono (c.matching_le hij) hrest) hv

section Call

variable (hcall : ∀ i f f' args args', c.Values i f f' → Value.AllMatch (c.matching i) args args' →
  c.Holds i c.Values (call₁ f args) (call₂ f' args'))
include hcall

/-- Elements that match pass a test or fail it together. -/
private theorem passes {test test' item item' : Value} (htest : c.Values i test test')
    (hitem : c.Values i item item') :
    c.Holds i (fun _ b b' => b = b') (ops₁.passes call₁ test item)
      (ops₂.passes call₂ test' item') := by
  refine c.of_bind (hcall i test test' [item] [item'] htest (.cons hitem .nil))
    fun j v v' _ hv => ?_
  cases hv with
  | bool b => exact c.of_pure fun _ _ => rfl
  | _ => exact fail _

omit hcall in
/-- A function that takes an array and a function goes on with the function and the elements of the
array. -/
private theorem withItems (f : Native) {args args' : List Value}
    (hargs : Value.AllMatch (c.matching i) args args') {post : c.Stage → α → β → Prop}
    {k₁ : Value → Array Value → m₁ α} {k₂ : Value → Array Value → m₂ β}
    (hk : ∀ j g g' items items', c.Later i j → c.Values j g g' →
      Value.ItemsMatch (c.matching j) items items' →
      c.Holds j post (k₁ g items) (k₂ g' items')) :
    c.Holds i post
      (do
        let r ← ops₁.arrayArg f args 0
        let g ← ops₁.functionArg f args 1
        k₁ g (← ops₁.lift (Eval.items r)))
      (do
        let r ← ops₂.arrayArg f args' 0
        let g ← ops₂.functionArg f args' 1
        k₂ g (← ops₂.lift (Eval.items r))) := by
  refine c.of_bind (arrayArg f hargs 0) fun j r r' hij hr => ?_
  refine c.of_bind (functionArg f (hargs.mono (c.matching_le hij)) 1) fun k g g' hjk hg => ?_
  refine c.of_bind (c.of_items ((c.matching_le hjk).arrays hr)) fun l items items' hkl hitems => ?_
  exact hk l g g' items items' (c.later_trans hij (c.later_trans hjk hkl))
    (hg.mono (c.matching_le hkl))
    hitems

/-- **Functions of the standard library correspond** if the calls that they make do. -/
theorem run (f : Native) {args args' : List Value}
    (hargs : Value.AllMatch (c.matching i) args args') :
    c.Holds i c.Values (ops₁.run call₁ f args) (ops₂.run call₂ f args') := by
  cases f with
  | arrMap =>
    refine withItems .arrMap hargs fun j g g' items items' _ hg hitems => ?_
    refine c.of_bind (mapM (fun k v v' hjk hv => hcall k g g' [v] [v']
      (hg.mono (c.matching_le hjk)) (.cons hv .nil)) hitems) fun k results results' _ hresults => ?_
    exact c.of_newArray hresults
  | arrFilter =>
    refine withItems .arrFilter hargs fun j g g' items items' _ hg hitems => ?_
    refine c.of_bind (filterM (fun k v v' hjk hv =>
      passes hcall (hg.mono (c.matching_le hjk)) hv) hitems) fun k kept kept' _ hkept => ?_
    exact c.of_newArray hkept
  | arrReduce =>
    refine withItems .arrReduce hargs fun j g g' items items' hij hg hitems => ?_
    have hstep (k : c.Stage) (u u' v v' : Value) (hjk : c.Later j k) (hu : c.Values k u u')
        (hv : c.Values k v v') : c.Holds k c.Values (call₁ g [u, v]) (call₂ g' [u', v']) :=
      hcall k g g' [u, v] [u', v'] (hg.mono (c.matching_le hjk)) (.cons hu (.cons hv .nil))
    have hstart := (hargs.mono (c.matching_le hij)).getElem? 2
    unfold Value.ItemsMatch at hitems
    generalize args[2]? = start, args'[2]? = start', items.toList = items,
      items'.toList = items' at hstart hitems
    cases hstart with
    | some hstart => exact foldlM hstep hitems hstart
    | none =>
      cases hitems with
      | nil => exact fail _
      | cons hfirst hrest => exact foldlM hstep hrest hfirst
  | _ => exact c.of_native _ rfl hargs

end Call

/-! ### Calls -/

/-- Parameters get arguments that match. -/
private theorem bindParams {r r' : ScopeRef} (hr : c.Scopes i r r') {params : List String}
    (hparams : c.Allows i r params) {args args' : List Value}
    (hargs : Value.AllMatch (c.matching i) args args') :
    c.Holds i (fun _ _ _ => True) (ops₁.bindParams r params args)
      (ops₂.bindParams r' params args') := by
  induction params generalizing i args args' with
  | nil => exact c.of_pure fun _ _ => trivial
  | cons param params ih =>
    have hparam := hparams param List.mem_cons_self
    have hfirst : c.Values i (args.headD .null) (args'.headD .null) := by
      cases hargs with
      | nil => exact .null
      | cons hv _ => exact hv
    have hrest : Value.AllMatch (c.matching i) args.tail args'.tail := by
      cases hargs with
      | nil => exact .nil
      | cons _ hrest => exact hrest
    refine c.of_bind (c.of_define hr hparam hfirst) fun j _ _ hij _ => ?_
    have hle := c.matching_le hij
    exact ih (hle.scopes hr)
      (Allows.later (hparams.mono fun _ h => List.mem_cons_of_mem _ h) hij) (hrest.mono hle)

section Whole

variable (heval : ∀ i n r r', c.Scopes i r r' → c.Allows i r n.names →
  c.Holds i (c.Flows c.Values) (eval₁ n r) (eval₂ n r'))
include heval

/-- The scope of a call is opened for the parameters and for what the body declares. -/
private theorem callClosure (params : List String) (body : Node) {r r' : ScopeRef}
    (name : Option String) (hr : c.Scopes i r r') {args args' : List Value}
    (hargs : Value.AllMatch (c.matching i) args args') :
    c.Holds i c.Values (ops₁.callClosure eval₁ params body r name args)
      (ops₂.callClosure eval₂ params body r' name args') := by
  refine c.of_bind (c.of_newScope (params ++ body.bodyNames) hr) fun j q q' hij ⟨hq, hnames⟩ => ?_
  obtain ⟨hparams, hbody⟩ := allows_append.1 hnames
  have hargs' := hargs.mono (c.matching_le hij)
  refine c.of_bind (bindParams hq hparams hargs') fun k _ _ hjk _ => ?_
  refine c.of_bind (c.of_note (.calledClosure name (hargs'.mono (c.matching_le hjk))))
    fun l _ _ hkl _ => ?_
  have hjl := c.later_trans hjk hkl
  cases body with
  | block statements =>
    refine c.of_bind (evalBlock heval ((c.matching_le hjl).scopes hq) (hbody.later hjl))
      fun n v v' _ hv => ?_
    exact c.of_pure fun o hno => hv.result.mono (c.matching_le hno)
  | _ => exact c.of_throw _

variable (hcall : ∀ i f f' args args', c.Values i f f' → Value.AllMatch (c.matching i) args args' →
  c.Holds i c.Values (call₁ f args) (call₂ f' args'))
include hcall

omit heval in
private theorem callNative (f : Native) {args args' : List Value}
    (hargs : Value.AllMatch (c.matching i) args args') :
    c.Holds i c.Values (ops₁.callNative call₁ f args) (ops₂.callNative call₂ f args') := by
  refine c.of_bind (c.of_note (.calledNative f)) fun j _ _ hij _ => run hcall f ?_
  have hargs' := hargs.mono (c.matching_le hij)
  cases f.arity with
  | none => exact hargs'
  | some n => exact hargs'.adjustArgs n

/-- Functions that match are called alike, and other values are no functions on both sides. -/
private theorem callValue {f f' : Value} (hf : c.Values i f f') {args args' : List Value}
    (hargs : Value.AllMatch (c.matching i) args args') :
    c.Holds i c.Values (ops₁.callValue eval₁ call₁ f args)
      (ops₂.callValue eval₂ call₂ f' args') := by
  cases hf with
  | fn hr =>
    refine c.of_bind (c.of_function? hr) fun j g g' hij hg => ?_
    have hargs' := hargs.mono (c.matching_le hij)
    cases hg with
    | none => exact fail _
    | some hg =>
      cases hg with
      | closure params body name hscope => exact callClosure heval params body name hscope hargs'
      | native f => exact callNative hcall f hargs'
  | _ => exact fail _

/-! ### Trees -/

/-- **A tree corresponds to itself if its parts and its calls do.** -/
private theorem evalNode {n : Node} {r r' : ScopeRef} (hr : c.Scopes i r r')
    (hn : c.Allows i r n.names) :
    c.Holds i (c.Flows c.Values) (ops₁.evalNode eval₁ call₁ n r)
      (ops₂.evalNode eval₂ call₂ n r') := by
  cases n with
  | absent | program => exact c.of_throw _
  | literal v kind =>
    unfold Operations.evalNode
    dsimp only
    cases hv : literalValue v kind with
    | ok v => exact value (.of_known fun s => known_of_literalValue hv s)
    | error e => exact c.of_throw _
  | ident name => exact toResult (c.of_lookup name hr)
  | spaceMember space name => exact toResult (c.of_lookupMember space name hr)
  | array elements =>
    exact onValue (evalAll heval hr hn) fun j vs vs' _ hvs => toResult (c.of_newArray hvs)
  | object entries =>
    exact onValue (evalEntries heval hr hn .empty) fun j _ _ _ hfields =>
      toResult (c.of_newObject hfields)
  | template parts =>
    refine onValue (evalParts heval hr hn "") fun j s s' _ hs => ?_
    obtain rfl := hs
    exact value (.str s)
  -- the name is opened for the scope: this is where a declaration needs it
  | varDecl name n isMutable =>
    refine onValue (heval i n r r' hr (hn.mono fun _ h => List.mem_cons_of_mem _ h))
      fun j v v' hij hv => ?_
    refine c.of_bind (c.of_declare isMutable ((c.matching_le hij).scopes hr)
      (c.opened_later hij (hn name List.mem_cons_self)) hv) fun k _ _ hjk _ => ?_
    exact c.of_bind (c.of_note (.declaredVariable isMutable name (hv.mono (c.matching_le hjk))))
      fun _ _ _ _ _ => value .null
  | assign name n =>
    refine onValue (heval i n r r' hr hn) fun j v v' hij hv => ?_
    exact c.of_bind (c.of_assign name ((c.matching_le hij).scopes hr) hv) fun _ _ _ _ _ =>
      value .null
  | output n =>
    refine onValue (heval i n r r' hr hn) fun j v v' _ hv => ?_
    exact c.of_bind (c.of_emit hv) fun _ _ _ _ _ => value .null
  | ret n =>
    refine onValue (heval i n r r' hr hn) fun j v v' _ hv => ?_
    exact c.of_pure fun k hjk => .signal (hv.mono (c.matching_le hjk))
  | member target name =>
    exact onValue (heval i target r r' hr hn) fun j v v' _ hv => toResult (c.of_memberValue name hv)
  | index target position =>
    obtain ⟨htarget, hposition⟩ := allows_append.1 hn
    refine onValue (heval i target r r' hr htarget) fun j v v' hij hv => ?_
    refine onValue (heval j position r r' ((c.matching_le hij).scopes hr) (hposition.later hij))
      fun k u u' hjk hu => ?_
    exact toResult (c.of_indexValue (hv.mono (c.matching_le hjk)) hu)
  | call callee args =>
    obtain ⟨hcallee, hargs⟩ := allows_append.1 hn
    refine onValue (heval i callee r r' hr hcallee) fun j f f' hij hf => ?_
    refine onValue (evalAll heval ((c.matching_le hij).scopes hr) (hargs.later hij))
      fun k vs vs' hjk hvs => ?_
    exact toResult (hcall k f f' vs vs' (hf.mono (c.matching_le hjk)) hvs)
  | block statements =>
    exact c.of_bind (c.of_newScope (namesAll statements) hr) fun j q q' _ ⟨hq, hnames⟩ =>
      evalBlock heval hq hnames
  | functionExpr name params body => exact toResult (makeFunction name params body hr)
  -- hoisting has declared these in a sequence of statements, and then nothing is left to do
  | functionDecl name params body =>
    refine c.of_bind (c.of_declares name hr) fun j b b' hij hb => ?_
    obtain rfl := hb
    cases b with
    | true => exact value .null
    | false =>
      exact c.of_bind (declareFunction params body ((c.matching_le hij).scopes hr)
        (c.opened_later hij (hn name List.mem_cons_self))) fun _ _ _ _ _ => value .null
  | spaceDecl name members =>
    refine c.of_bind (c.of_declaresSpace name hr) fun j b b' hij hb => ?_
    obtain rfl := hb
    cases b with
    | true => exact value .null
    | false =>
      refine c.of_bind (declareSpace name members ((c.matching_le hij).scopes hr))
        fun k q q' _ ⟨hq, hnames⟩ => ?_
      exact c.of_bind (initSpace heval name hq hnames) fun _ _ _ _ _ => value .null
  | conditional branches otherwise =>
    obtain ⟨hbranches, hotherwise⟩ := allows_append.1 hn
    exact evalBranches heval hr hbranches hotherwise
  | selection subject arms otherwise =>
    obtain ⟨hsubject, hrest⟩ := allows_append.1 hn
    obtain ⟨harms, hotherwise⟩ := allows_append.1 hrest
    refine onValue (heval i subject r r' hr hsubject) fun j v v' hij hv => ?_
    exact evalArms heval ((c.matching_le hij).scopes hr) hv (harms.later hij) (hotherwise.later hij)
  | countLoop counter count body => exact evalCountLoop heval counter body hr hn
  | eachLoop item collection body => exact evalEachLoop heval item body hr hn
  | binary op left right =>
    obtain ⟨hleft, hright⟩ := allows_append.1 hn
    exact evalBinary heval op hr hleft hright

end Whole

end Constructs

/-- **Evaluations correspond if their operations do**: in scopes that stand for each other a tree is
evaluated alike, and so are functions that match called with arguments that match. -/
theorem within (fuel : Nat) :
    (∀ i n r r', c.Scopes i r r' → c.Allows i r n.names →
      c.Holds i (c.Flows c.Values) (ops₁.evalWithin fuel n r) (ops₂.evalWithin fuel n r')) ∧
    (∀ i f f' args args', c.Values i f f' → Value.AllMatch (c.matching i) args args' →
      c.Holds i c.Values (ops₁.callWithin fuel f args) (ops₂.callWithin fuel f' args')) := by
  induction fuel with
  | zero => exact ⟨fun _ _ _ _ _ _ => c.of_throw _, fun _ _ _ _ _ _ _ => c.of_throw _⟩
  | succ fuel ih =>
    exact ⟨fun _ _ _ _ hr hn => evalNode ih.1 ih.2 hr hn,
      fun _ _ _ _ _ hf hargs => callValue ih.1 ih.2 hf hargs⟩

end Correspondence

end Sigil
