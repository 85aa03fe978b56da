import Sigil.Proofs.ByValue.Evaluation

/-!
# Loop variables are per iteration

A host holds the outermost scopes that it has made and the scopes that it was answered, and it hands
over no others. `Hosted` is a session by value together with these scopes; there nothing is pinned.
So whatever a host asks for, it is answered by value as it is answered otherwise, and what is pinned
stays pinned in all later states.

A function made in an iteration of a loop thus has the loop variable of this iteration for good: the
iteration pins it, its value is the value that the variable has in the store, and no other
iteration, no other function and no later request can change it.
-/

namespace Sigil

open Eval

/-! ### Requests by value -/

namespace Pinning

variable {α : Type}

/-- The end of a computation by value without the pins. -/
def forget : EStateM.Result Stop Pinned α → EStateM.Result Stop World α
  | .ok a s => .ok a s.world
  | .error e s => .error e s.world

/-- Runs a computation and closes the trace file afterwards, however the computation ends. -/
def closingFile (x : Pinning α) : Pinning α := fun s =>
  match x s with
  | .ok a ⟨⟨store, printed, log⟩, pins⟩ => .ok a ⟨⟨store, printed, log.closeFile⟩, pins⟩
  | .error e ⟨⟨store, printed, log⟩, pins⟩ => .error e ⟨⟨store, printed, log.closeFile⟩, pins⟩

end Pinning

/-- Performs a request by value. -/
def Request.performByValue (fuel : Nat) (request : Request) : Pinning Answer :=
  Operations.byValue.perform Pinning.closingFile fuel request

/-- The scopes that a host is answered. -/
def Answer.scopes : Answer → List ScopeRef
  | .scope r => [r]
  | _ => []

/-- A scope in which nothing is pinned. -/
structure Pinned.Free (s : Pinned) (r : ScopeRef) : Prop where
  known : r.Known s.world.store
  unpinned : ∀ name, s.pins r name = none

namespace Pinned.Free

variable {s s' : Pinned} {r : ScopeRef}

theorem opened (h : s.Free r) (name : String) : s.Opened r name :=
  ⟨h.known, h.unpinned name⟩

theorem later (h : s.Free r) (hs : s.Later s') : s'.Free r where
  known := hs.known h.known
  unpinned name := by rw [hs.pins_eq r h.known, h.unpinned]

end Pinned.Free

/-- The same answer, in whose scopes nothing is pinned. -/
def Pinned.Answers (s : Pinned) (a b : Answer) : Prop :=
  a = b ∧ ∀ r ∈ a.scopes, s.Free r

namespace ByValue

variable {α β : Type} {s : Pinned} {r : ScopeRef}

private theorem closingFile {x : Pinning α} {y : Eval α} (hx : ByValue s (fun _ => Eq) x y) :
    ByValue s (fun _ => Eq) (Pinning.closingFile x) (Eval.closingFile y) := by
  intro hs
  have hends := hx hs
  simp only [Pinning.closingFile, Eval.closingFile]
  generalize x s = out, y s.world = out' at hends ⊢
  cases hends with
  | @ok a b s' hlater hs' hpost =>
    obtain rfl : a = b := hpost
    exact .ok ⟨hlater.scopes_le, hlater.pins_eq⟩ hs' rfl
  | @error e s' hlater hs' => exact .error e ⟨hlater.scopes_le, hlater.pins_eq⟩ hs'

private theorem runStatements (fuel : Nat) (statements : List Node) (hr : s.Free r) :
    ByValue s (fun _ => Eq) (Operations.byValue.runStatements fuel statements r)
      (Sigil.runStatements fuel statements r) := by
  refine (evalBlock fuel hr.known fun name _ => hr.opened name).bind fun s₁ out out' _ hout => ?_
  obtain rfl : out = out' := hout
  cases out with
  | value v => exact (note _).bind fun _ _ _ _ _ => of_pure rfl
  | signal v => exact (note _).bind fun _ _ _ _ _ => (note _).bind fun _ _ _ _ _ => of_pure rfl

private theorem runProgram (fuel : Nat) (program : Node) (hr : s.Free r) :
    ByValue s (fun _ => Eq) (Operations.byValue.runProgram Pinning.closingFile fuel program r)
      (Sigil.runProgram fuel program r) := by
  refine (of_store_eq (x := changeLog Log.openFile) rfl).bind fun s₁ _ _ hlater _ => ?_
  cases program with
  | program body =>
    exact (note _).bind fun s₂ _ _ hlater' _ =>
      closingFile (runStatements fuel body (hr.later (hlater.trans hlater')))
  | _ => exact of_throw _

/-- **Every request is answered by value as it is answered otherwise**, if nothing is pinned in the
scopes that it hands over. Then nothing is pinned in scopes that are answered. -/
theorem perform (fuel : Nat) {request : Request} (h : ∀ r ∈ request.scopes, s.Free r) :
    ByValue s Pinned.Answers (request.performByValue fuel) (request.perform fuel) := by
  have hvalue {x : Pinning Value} {y : Eval Value} (hx : ByValue s (fun _ => Eq) x y) :
      ByValue s Pinned.Answers (do return .result (.value (← x)))
        (do return .result (.value (← y))) := by
    refine hx.bind fun s₁ v v' _ hv => of_pure ?_
    obtain rfl : v = v' := hv
    exact ⟨rfl, List.forall_mem_nil _⟩
  have hread {x : Pinning Value} {y : Eval Value}
      (hx : ByValue s (fun s' => Value.Matches s'.matching) x y) :
      ByValue s Pinned.Answers (do return .result (.value (← x)))
        (do return .result (.value (← y))) :=
    hvalue (hx.weaken fun s' _ _ hv => hv.eq s'.matching_le_refl)
  have hdone {x : Pinning Unit} {y : Eval Unit} (hx : ByValue s (fun _ _ _ => True) x y) :
      ByValue s Pinned.Answers (do x; return .done) (do y; return .done) :=
    hx.bind fun _ _ _ _ _ => of_pure ⟨rfl, List.forall_mem_nil _⟩
  cases request with
  | run program scope => exact hvalue (runProgram fuel program (List.forall_mem_singleton.1 h))
  | evaluate n scope =>
    have hscope : s.Free scope := List.forall_mem_singleton.1 h
    refine (evalWithin fuel hscope.known fun name _ => hscope.opened name).bind
      fun s₁ out out' _ hout => of_pure ?_
    obtain rfl : out = out' := hout
    exact ⟨rfl, List.forall_mem_nil _⟩
  | call f args => exact hvalue (callWithin fuel f args)
  | plain data => exact hread (value_of_frame (ContainerLaw.frame.obeys_plainValue data))
  | newScope parent =>
    have hparent : s.Free parent := List.forall_mem_singleton.1 h
    refine (newScope [] hparent.known).bind fun s₁ q q' _ hq => of_pure ?_
    obtain rfl := hq.eq
    refine ⟨rfl, List.forall_mem_singleton.2 ⟨hq.known, fun name => ?_⟩⟩
    simp [hq.pins_eq, hideNames, hparent.unpinned]
  | lookup scope name => exact hread (lookup scope name)
  | lookupMember scope space member =>
    exact hread (value_of_frame (ContainerLaw.frame.obeys_lookupMember scope space member))
  | define scope name v isMutable =>
    have hscope : s.Free scope := List.forall_mem_singleton.1 h
    exact hdone (define (hscope.opened name) v isMutable)
  | defineSpace scope name space => exact hdone (defineSpace scope name space)
  | assign scope name v => exact hdone (assign scope name v)

end ByValue

private theorem EndsByValue.forget_eq {α : Type} {s : Pinned} {post : Pinned → α → α → Prop}
    {out : EStateM.Result Stop Pinned α} {out' : EStateM.Result Stop World α}
    (h : EndsByValue s post out out') (hpost : ∀ s' a b, post s' a b → a = b) :
    Pinning.forget out = out' := by
  cases h with
  | ok _ _ hab => exact congrArg (EStateM.Result.ok · _) (hpost _ _ _ hab)
  | error e _ _ => rfl

/-! ### Sessions by value -/

/-- **A session by value**, with the scopes that the host holds. -/
structure Hosted where
  /-- The state of the session. -/
  state : Pinned
  /-- The scopes that the host holds. -/
  held : List ScopeRef

namespace Hosted

/-- The session before anything is in it. -/
def fresh (level : Nat) (earlier : Option String) : Hosted where
  state := ⟨Session.emptyWorld level earlier, fun _ _ => none⟩
  held := []

/-- The session after a computation that gives the host scopes. -/
def after {α : Type} (h : Hosted) (scopes : α → List ScopeRef) :
    EStateM.Result Stop Pinned α → Hosted
  | .ok a state => ⟨state, scopes a ++ h.held⟩
  | .error _ state => ⟨state, h.held⟩

/-- The requests that a host can make: it hands over scopes that it holds, and values that exist. -/
structure Allows (h : Hosted) (request : Request) : Prop where
  scopes : ∀ r ∈ request.scopes, r ∈ h.held
  values : ∀ v ∈ request.values, v.Known h.state.world.store

/-- **What a host can do.** -/
inductive Step : Hosted → Hosted → Prop
  /-- It sets up an interpreter, with host variables. -/
  | setup (h : Hosted) (given : List (String × Json)) :
    Step h (h.after (fun r => [r]) (Pinning.lift (Session.setup given) h.state))
  /-- It makes a scope that is in no other. -/
  | outermost (h : Hosted) :
    Step h (h.after (fun r => [r]) (Pinning.lift (add (Store.newScope none)) h.state))
  /-- It makes a request. -/
  | request {h : Hosted} (fuel : Nat) {request : Request} : h.Allows request →
    Step h (h.after Answer.scopes (request.performByValue fuel h.state))

/-- A session goes on. -/
abbrev Reaches : Hosted → Hosted → Prop :=
  Relation.ReflTransGen Step

/-- The sessions that a host can bring about. -/
def Reachable (h : Hosted) : Prop :=
  ∃ level earlier, (fresh level earlier).Reaches h

/-- The store agrees with the pins, and nothing is pinned in the scopes that the host holds. -/
structure Sound (h : Hosted) : Prop where
  world : h.state.world.Reachable
  upholds : h.state.world.store.Upholds h.state.pins
  held : ∀ r ∈ h.held, h.state.Free r

/-- Pins and functions stay. -/
structure Follows (h h' : Hosted) : Prop where
  later : h.state.Later h'.state
  functions : ∀ q f, h.state.world.store.function? q = some f →
    h'.state.world.store.function? q = some f

private theorem sound_fresh (level : Nat) (earlier : Option String) :
    (fresh level earlier).Sound where
  world := .fresh level earlier
  upholds := by
    refine ⟨fun hparent => ?_, fun f hf => ?_, fun hpin => ?_⟩
    · cases hparent
    · cases Array.not_mem_empty f hf
    · cases hpin
  held := List.forall_mem_nil _

namespace Sound

variable {h h' : Hosted} (hh : h.Sound)
include hh

/-- The host makes a scope at the outside, in which all else is declared. -/
private theorem of_new {x : Eval ScopeRef} (hlaw : ∀ opened, (Law.changes opened).Holds opened x)
    (hkeeps : Keeps h.state.world.store ScopeRef.Known x)
    (hworld : (worldAfter (x h.state.world)).Reachable) :
    (h.after (fun r => [r]) (Pinning.lift x h.state)).Sound ∧
      h.Follows (h.after (fun r => [r]) (Pinning.lift x h.state)) := by
  let opened (r : ScopeRef) : Prop := h.state.world.store.scopes.size ≤ r.index
  have hnew : h.state.world.store.NewOpened opened := fun _ hr => hr
  have hreaches := Changes.reaches (hlaw opened) h.state.world hnew
  rw [← store_worldAfter] at hreaches
  have hupholds : (worldAfter (x h.state.world)).store.Upholds h.state.pins :=
    hh.upholds.of_reaches hreaches (fun _ _ _ hpin => Nat.not_le.2 (hh.upholds.backs hpin).known)
      hworld.valid.store
  have hlater : h.state.Later { h.state with world := worldAfter (x h.state.world) } :=
    ⟨hreaches.size_le, fun _ _ => rfl⟩
  have hheld (r : ScopeRef) (hr : r ∈ h.held) := (hh.held r hr).later hlater
  have hfunctions (q : FunctionRef) (f : Function)
      (hf : h.state.world.store.function? q = some f) := hreaches.function?_eq hf
  simp only [Pinning.lift]
  cases hrun : x h.state.world with
  | ok r w' =>
    have hknown := hkeeps.result_of_eq_ok (.refl _) hh.world.valid hrun
    have hunknown := Changes.result (hlaw opened) h.state.world hnew r w' hrun
    rw [hrun] at hworld hupholds hlater hheld hfunctions
    refine ⟨⟨hworld, hupholds, List.forall_mem_cons.2 ⟨⟨hknown, fun name => ?_⟩, hheld⟩⟩, hlater,
      hfunctions⟩
    exact hh.upholds.pins_eq_none hunknown
  | error e w' =>
    rw [hrun] at hworld hupholds hlater hheld hfunctions
    exact ⟨⟨hworld, hupholds, hheld⟩, hlater, hfunctions⟩

private theorem of_request (fuel : Nat) {request : Request} (hrequest : h.Allows request) :
    (h.after Answer.scopes (request.performByValue fuel h.state)).Sound ∧
      h.Follows (h.after Answer.scopes (request.performByValue fuel h.state)) := by
  have hscopes : ∀ r ∈ request.scopes, h.state.Free r :=
    fun r hr => hh.held r (hrequest.scopes r hr)
  have hends := ByValue.perform fuel hscopes hh.upholds
  have hstep : h.state.world.Step (request.after fuel h.state.world) :=
    ⟨fuel, request, ⟨fun r hr => (hscopes r hr).known, hrequest.values⟩, rfl⟩
  have hworld := hh.world.step hstep
  have hfunctions (q : FunctionRef) (f : Function)
      (hf : h.state.world.store.function? q = some f) := hstep.reaches.function?_eq hf
  unfold Request.after at hworld hfunctions
  generalize request.performByValue fuel h.state = out,
    request.perform fuel h.state.world = out' at hends hworld hfunctions ⊢
  cases hends with
  | ok hlater hupholds hanswer =>
    have hheld (r : ScopeRef) (hr : r ∈ h.held) := (hh.held r hr).later hlater
    exact ⟨⟨hworld, hupholds, List.forall_mem_append.2 ⟨hanswer.2, hheld⟩⟩, hlater, hfunctions⟩
  | error e hlater hupholds =>
    exact ⟨⟨hworld, hupholds, fun r hr => (hh.held r hr).later hlater⟩, hlater, hfunctions⟩

/-- **One step** of a host. -/
theorem of_step (hstep : h.Step h') : h'.Sound ∧ h.Follows h' := by
  cases hstep with
  | setup given =>
    refine hh.of_new (fun opened => ?_) (keeps_setup given) (.setup given hh.world)
    exact (Law.changes opened).of_bind (Law.changes opened).holds_newGlobals fun scope hscope =>
      ((Law.changes opened).obeys_defineVariables hscope given).bind fun _ =>
        (Law.changes opened).of_pure hscope
  | outermost =>
    refine hh.of_new (fun opened => (Law.changes opened).of_newScope none)
      (keeps_add_newScope fun outer houter => ?_) (.outermost hh.world)
    cases houter
  | request fuel hrequest => exact hh.of_request fuel hrequest

/-- **Many steps** of a host. -/
theorem of_reaches (hreaches : h.Reaches h') : h'.Sound ∧ h.Follows h' := by
  induction hreaches with
  | refl => exact ⟨hh, .refl _, fun _ _ hf => hf⟩
  | tail _ hstep ih =>
    obtain ⟨hsound, hfollows⟩ := ih.1.of_step hstep
    exact ⟨hsound, ih.2.later.trans hfollows.later, fun q f hf =>
      hfollows.functions q f (ih.2.functions q f hf)⟩

end Sound

private theorem Reachable.sound {h : Hosted} (hh : h.Reachable) : h.Sound := by
  obtain ⟨level, earlier, hreaches⟩ := hh
  exact ((sound_fresh level earlier).of_reaches hreaches).1

end Hosted

/-! ### Loops and calls -/

/-- **What is pinned where**: every iteration of a loop with a variable has a new scope, which pins
the variable to its value in this iteration, and every other scope takes over the pins of the scope
around it. Names that the code in the scope declares are not pinned. -/
structure PinsIterations (eval : Node → ScopeRef → Pinning Result) : Prop where
  /-- A counted loop has the iterations 1, 2 and so on up to the number that it starts with. -/
  counts : ∀ {x count body scope v total s s₁}, eval count scope s = .ok (.value v) s₁ →
    loopCount v = .ok total →
      Operations.byValue.evalCountLoop eval (some x) count body scope s =
        Operations.byValue.repeatBody
          (Operations.byValue.countRound eval (some x) body scope total) total 1 #[] s₁
  /-- In the `k`-th iteration the variable is `k`. -/
  counted : ∀ {k : Nat} {number} x body scope total s, doubleOf k = .ok number → ∃ inner s₁,
    Operations.byValue.countRound eval (some x) body scope total k s = eval body inner s₁ ∧
      ¬ inner.Known s.world.store ∧
      s₁.pins inner = hideNames body.names (Function.update (s.pins scope) x (some (.num number)))
  /-- A loop over an array has an iteration for each element that the array has at the start. -/
  goesThrough : ∀ {x collection body scope r s s₁},
    eval collection scope s = .ok (.value (.arr r)) s₁ →
      Operations.byValue.evalEachLoop eval x collection body scope s =
        Operations.byValue.eachBody (Operations.byValue.eachRound eval x body scope)
          (s₁.world.store.items r).toList #[] s₁
  /-- There the variable is the element. -/
  each : ∀ x body scope v s, ∃ inner s₁,
    Operations.byValue.eachRound eval x body scope v s = eval body inner s₁ ∧
      ¬ inner.Known s.world.store ∧
      s₁.pins inner = hideNames body.names (Function.update (s.pins scope) x (some v))
  /-- The scopes of blocks, calls, namespaces and functions with names take over pins. -/
  inside : ∀ names scope s, ∃ inner s₁,
    Operations.byValue.newScope names scope s = .ok inner s₁ ∧ ¬ inner.Known s.world.store ∧
      s₁.pins inner = hideNames names (s.pins scope)
  /-- A function that an expression makes has the pins of the scope that the expression is in, but
  for its own name. -/
  made : ∀ name params body scope s, ∃ f g s₁,
    Operations.byValue.makeFunction name params body scope s = .ok (.fn f) s₁ ∧
      s₁.world.store.function? f = some (.closure params body g name) ∧
      s₁.pins g = hideNames name.toList (s.pins scope)
  /-- A function that is declared in a scope has the pins of the scope. -/
  declared : ∀ name params body scope s, ∃ f s₁,
    Operations.byValue.declareFunction name params body scope s = .ok () s₁ ∧
      s₁.world.store.function? f = some (.closure params body scope (some name)) ∧
      s₁.pins scope = s.pins scope

/-- A note leaves the store and the pins alone. -/
private theorem exists_lift_note_eq_ok (event : TraceEvent) (s : Pinned) :
    ∃ log, Operations.byValue.lift (note event) s =
      .ok () { s with world := { s.world with log } } := by
  obtain ⟨log, hlog⟩ := exists_note_eq_ok event s.world
  exact ⟨log, by simp only [Operations.byValue, Pinning.lift, hlog]⟩

private theorem pinsIterations (eval : Node → ScopeRef → Pinning Result) : PinsIterations eval where
  counts hcount htotal := by
    simp only [Operations.evalCountLoop, Operations.onValue, Operations.ofExcept, Bind.bind,
      EStateM.bind, hcount, htotal]
    rfl
  counted {k number} x body scope total s hk := by
    let q : ScopeRef := ⟨s.world.store.scopes.size⟩
    let s₁ : Pinned := {
      world := {
        s.world with
        store := (s.world.store.newScope (some scope)).2.define q x (.num number) false }
      pins := Function.update s.pins q
        (hideNames body.names (Function.update (s.pins scope) x (some (.num number)))) }
    have hnew : Operations.byValue.newIteration body (some (x, .ok (.num number))) scope s =
        .ok q s₁ := rfl
    -- the trace notes the iteration after its scope is made, which changes no pin
    obtain ⟨log, hnote⟩ := exists_lift_note_eq_ok (.iteration k total) s₁
    refine ⟨q, { s₁ with world := { s₁.world with log } }, ?_, Nat.lt_irrefl _,
      Function.update_self ..⟩
    simp only [Operations.countRound, Option.map_some, hk, Except.map, Bind.bind, EStateM.bind,
      hnew, hnote]
  goesThrough hcollection := by
    simp only [Operations.evalEachLoop, Operations.onValue, Bind.bind, EStateM.bind, hcollection]
    rfl
  each x body scope v s := ⟨_, _, rfl, Nat.lt_irrefl _, Function.update_self ..⟩
  inside names scope s := ⟨_, _, rfl, Nat.lt_irrefl _, Function.update_self ..⟩
  made name params body scope s := by
    cases name with
    | none =>
      refine ⟨_, scope, _, rfl, Array.getElem?_push_size, ?_⟩
      funext x
      simp [hideNames]
    | some name => exact ⟨_, _, _, rfl, Array.getElem?_push_size, Function.update_self ..⟩
  declared name params body scope s := by
    let store := (s.world.store.newFunction (.closure params body scope (some name))).2
    let w₁ : World :=
      { s.world with store := store.define scope name (.fn ⟨s.world.store.functions.size⟩) false }
    obtain ⟨log, hnote⟩ := exists_lift_note_eq_ok (.declaredFunction name) { s with world := w₁ }
    exact ⟨_, _, hnote, Array.getElem?_push_size, rfl⟩

/-- Parameters are declared by value as they are otherwise. -/
private theorem exists_bindParams_byValue {s : Pinned} (hs : s.world.store.Upholds s.pins)
    {q : ScopeRef} (params : List String) (hq : ∀ param ∈ params, s.Opened q param)
    (args : List Value) :
    ∃ w', Operations.byValue.bindParams q params args s = .ok () { s with world := w' } ∧
      bindParams q params args s.world = .ok () w' ∧ w'.store.Upholds s.pins := by
  induction params generalizing s args with
  | nil => exact ⟨s.world, rfl, rfl, hs⟩
  | cons param params ih =>
    obtain ⟨hparam, hparams⟩ := List.forall_mem_cons.1 hq
    let w₁ : World :=
      { s.world with store := s.world.store.define q param (args.headD .null) false }
    have hknown : q.Known w₁.store := hparam.1.of_before (Store.before_define ..)
    obtain ⟨w', hbind, hbind', hs'⟩ := ih (s := { s with world := w₁ })
      (hs.define hparam.1 hparam.2 (args.headD .null) false)
      (fun other hother => ⟨hknown, (hparams other hother).2⟩) args.tail
    exact ⟨w', hbind, hbind', hs'⟩

/-- **A call evaluates the body of a function in a new scope** with the pins of the scope of the
function, but for the names that the function declares. -/
theorem exists_callWithin_byValue (fuel : Nat) {s : Pinned} (hs : s.world.store.Upholds s.pins)
    {f : FunctionRef} {params : List String} {statements : List Node} {g : ScopeRef}
    {name : Option String}
    (hf : s.world.store.function? f = some (.closure params (.block statements) g name))
    (args : List Value) :
    ∃ inner s₁, s₁.world.store.Upholds s₁.pins ∧
      s₁.pins inner = hideNames (params ++ Node.namesAll statements) (s.pins g) ∧
      Operations.byValue.callWithin (fuel + 1) (.fn f) args s =
        (Flow.result <$> Operations.byValue.evalBlock (Operations.byValue.evalWithin fuel)
          statements inner) s₁ ∧
      callWithin (fuel + 1) (.fn f) args s.world =
        (Flow.result <$> evalBlock (evalWithin fuel) statements inner) s₁.world := by
  have hg : g.Known s.world.store := hs.functions _ (Array.mem_of_getElem? hf)
  let q : ScopeRef := ⟨s.world.store.scopes.size⟩
  let names := params ++ Node.namesAll statements
  let s₁ : Pinned := {
    world := { s.world with store := (s.world.store.newScope (some g)).2 }
    pins := Function.update s.pins q (hideNames names (s.pins g)) }
  have hpins : s₁.pins q = hideNames names (s.pins g) := Function.update_self ..
  have hs₁ : s₁.world.store.Upholds s₁.pins := hs.newScope_hideNames hg names
  have hq : ∀ param ∈ params, s₁.Opened q param := fun param hparam => by
    refine ⟨by simp [ScopeRef.Known, q, s₁, Store.newScope], ?_⟩
    simp [hpins, hideNames, names, hparam]
  obtain ⟨w₂, hbind, hbind', hs₂⟩ := exists_bindParams_byValue hs₁ params hq args
  obtain ⟨log, hlog⟩ := exists_note_eq_ok (.calledClosure name args) w₂
  refine ⟨q, { s₁ with world := { w₂ with log } }, hs₂, hpins, ?_, ?_⟩
  · have hnew : Operations.byValue.newScope (params ++ (Node.block statements).bodyNames) g s =
        .ok q s₁ := rfl
    have hfunction : Operations.byValue.lift (function? f) s =
      .ok (s.world.store.function? f) s := rfl
    have hnote : Operations.byValue.lift (note (.calledClosure name args)) { s₁ with world := w₂ } =
        .ok () { s₁ with world := { w₂ with log } } := by
      simp only [Operations.byValue, Pinning.lift, hlog]
    simp only [Operations.callWithin, Operations.callValue, Operations.callClosure, Bind.bind,
      EStateM.bind, hfunction, hf, hnew, hbind, hnote]
    rfl
  · have hnew : newScope g s.world = .ok q s₁.world := rfl
    have hfunction : function? f s.world = .ok (s.world.store.function? f) s.world := rfl
    simp only [callWithin, callValue, callClosure, Bind.bind, EStateM.bind, hfunction, hf, hnew,
      hbind', hlog]
    rfl

/-- **Loop variables are per iteration.** Evaluation by value fixes the value of a loop variable
when the iteration starts (`PinsIterations`): code of the body that refers to it, now or in a
function that is called later, has this value, unless a scope in between declares the name. In every
session that a host can bring about this is what evaluation does: requests are answered by value as
they are answered otherwise, with the same effects. What is pinned in a scope stays so in all later
states, and looking the name up there gives the value that it is pinned to. And take a function that
was made where a name is pinned, and that does not declare the name itself. Every later call of it
evaluates its body in a scope where the name is pinned to the same value and has this value. -/
theorem loop_variables_are_per_iteration {h : Hosted} (hh : h.Reachable) :
    (∀ eval, PinsIterations eval) ∧
    (∀ fuel request, h.Allows request →
      Pinning.forget (request.performByValue fuel h.state) = request.perform fuel h.state.world) ∧
    ∀ h', h.Reaches h' →
      (∀ r x v, h.state.pins r x = some v →
        h'.state.pins r x = some v ∧ h'.state.world.store.lookup r x = .ok v) ∧
      ∀ f params statements g name x v,
        h.state.world.store.function? f = some (.closure params (.block statements) g name) →
        h.state.pins g x = some v → x ∉ params ++ Node.namesAll statements →
        ∀ (fuel : Nat) args, ∃ inner s₁,
          s₁.pins inner x = some v ∧ s₁.world.store.lookup inner x = .ok v ∧
          Operations.byValue.callWithin (fuel + 1) (.fn f) args h'.state =
            (Flow.result <$> Operations.byValue.evalBlock (Operations.byValue.evalWithin fuel)
              statements inner) s₁ ∧
          callWithin (fuel + 1) (.fn f) args h'.state.world =
            (Flow.result <$> evalBlock (evalWithin fuel) statements inner) s₁.world := by
  have hsound := hh.sound
  refine ⟨pinsIterations, fun fuel request hrequest => ?_, fun h' hreaches => ?_⟩
  · have hends := ByValue.perform fuel (fun r hr => hsound.held r (hrequest.scopes r hr))
      hsound.upholds
    exact hends.forget_eq fun _ _ _ hanswer => hanswer.1
  · obtain ⟨hsound', hlater, hfunctions⟩ := hsound.of_reaches hreaches
    have hpins {r : ScopeRef} {x : String} {v : Value} (hpin : h.state.pins r x = some v) :
        h'.state.pins r x = some v := by
      rw [hlater.pins_eq r (hsound.upholds.backs hpin).known, hpin]
    refine ⟨fun r x v hpin => ⟨hpins hpin, hsound'.upholds.lookup_eq (hpins hpin)⟩, ?_⟩
    intro f params statements g name x v hf hpin hx fuel args
    obtain ⟨inner, s₁, hs₁, hinner, hcall, hcall'⟩ :=
      exists_callWithin_byValue fuel hsound'.upholds (hfunctions f _ hf) args
    have hpin₁ : s₁.pins inner x = some v := by rw [hinner, hideNames, if_neg hx, hpins hpin]
    exact ⟨inner, s₁, hpin₁, hs₁.lookup_eq hpin₁, hcall, hcall'⟩

/-- In an outermost scope 0, the loop `~~ #x, [yes, no] { @() { x } }` makes two functions, in the
scopes 2 and 4 of the two blocks. Whatever happens then, the first finds yes, and the second no. -/
theorem loop_variables_are_per_iteration_two :
    ∃ h : Hosted, h.Reachable ∧
      h.state.world.store.function? ⟨0⟩ = some (.closure [] (.block [.ident "x"]) ⟨2⟩ none) ∧
      h.state.world.store.function? ⟨1⟩ = some (.closure [] (.block [.ident "x"]) ⟨4⟩ none) ∧
      ∀ h', h.Reaches h' → ∀ fuel : Nat,
        (∃ inner w, w.store.lookup inner "x" = .ok (.bool true) ∧
          callWithin (fuel + 1) (.fn ⟨0⟩) [] h'.state.world =
            (Flow.result <$> evalBlock (evalWithin fuel) [.ident "x"] inner) w) ∧
        ∃ inner w, w.store.lookup inner "x" = .ok (.bool false) ∧
          callWithin (fuel + 1) (.fn ⟨1⟩) [] h'.state.world =
            (Flow.result <$> evalBlock (evalWithin fuel) [.ident "x"] inner) w := by
  obtain ⟨h, hh, hfacts⟩ : ∃ h : Hosted, h.Reachable ∧
      (h.state.pins ⟨2⟩ "x", h.state.pins ⟨4⟩ "x", h.state.world.store.functions) =
        (some (.bool true), some (.bool false), #[.closure [] (.block [.ident "x"]) ⟨2⟩ none,
          .closure [] (.block [.ident "x"]) ⟨4⟩ none]) := by
    have hallows : Hosted.Allows
        ((Hosted.fresh 0 none).after (fun r => [r])
          (Pinning.lift (add (Store.newScope none)) (Hosted.fresh 0 none).state))
        (.evaluate (.eachLoop "x" (.array [.truth true, .truth false])
          (.block [.functionExpr none [] (.block [.ident "x"])])) ⟨0⟩) :=
      ⟨List.forall_mem_singleton.2 List.mem_cons_self, List.forall_mem_nil _⟩
    exact ⟨_, ⟨0, none, .tail (.single (.outermost (.fresh 0 none))) (.request 4 hallows)⟩, rfl⟩
  obtain ⟨hyes, hfacts⟩ := Prod.mk.inj hfacts
  obtain ⟨hno, hfunctions⟩ := Prod.mk.inj hfacts
  have hfirst : h.state.world.store.function? ⟨0⟩ =
      some (.closure [] (.block [.ident "x"]) ⟨2⟩ none) := by
    rw [Store.function?, hfunctions]
    rfl
  have hsecond : h.state.world.store.function? ⟨1⟩ =
      some (.closure [] (.block [.ident "x"]) ⟨4⟩ none) := by
    rw [Store.function?, hfunctions]
    rfl
  obtain ⟨-, -, hlater⟩ := loop_variables_are_per_iteration hh
  refine ⟨h, hh, hfirst, hsecond, fun h' hreaches fuel => ?_⟩
  obtain ⟨-, hcalls⟩ := hlater h' hreaches
  obtain ⟨inner, s₁, -, hlookup, -, hcall⟩ :=
    hcalls ⟨0⟩ [] [.ident "x"] ⟨2⟩ none "x" _ hfirst hyes List.not_mem_nil fuel []
  obtain ⟨inner', s₂, -, hlookup', -, hcall'⟩ :=
    hcalls ⟨1⟩ [] [.ident "x"] ⟨4⟩ none "x" _ hsecond hno List.not_mem_nil fuel []
  exact ⟨⟨inner, s₁.world, hlookup, hcall⟩, inner', s₂.world, hlookup', hcall'⟩

end Sigil
