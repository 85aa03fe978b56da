import Sigil.Proofs.Safety.Run
import Sigil.Proofs.Validity.Evaluation
import Sigil.Proofs.Validity.Searches

/-!
# Sessions keep all references valid

A host holds references that it got from the session, so each of its requests hands over values and
scopes that exist (`Request.Known`). Whatever it asks for, and however that ends, the world of the
session stays valid, scopes keep the scope around them, and what the host is answered exists.
-/

namespace Sigil

open Eval

variable {s₀ : Store}

/-! ### Programs -/

private theorem Eval.Keeps.closingFile {α : Type} {post : Store → α → Prop} {x : Eval α}
    (hx : Keeps s₀ post x) : Keeps s₀ post (closingFile x) := by
  refine ⟨fun w hw hvalid => ?_⟩
  have hleaves := hx.leaves w hw hvalid
  simp only [Eval.closingFile]
  cases hrun : x w with
  | ok a w' =>
    rw [hrun] at hleaves
    obtain ⟨hbefore, hvalid', ha⟩ := hleaves
    exact ⟨hbefore, ⟨hvalid'.store, hvalid'.printed⟩, ha⟩
  | error stop w' =>
    rw [hrun] at hleaves
    obtain ⟨hbefore, hvalid'⟩ := hleaves
    exact ⟨hbefore, hvalid'.store, hvalid'.printed⟩

private theorem keeps_runStatements (fuel : Nat) (statements : List Node) {scope : ScopeRef}
    (h : scope.Known s₀) : Keeps s₀ Value.Known (runStatements fuel statements scope) := by
  refine (keeps_evalBlock (keeps_within fuel).1 h statements).bind fun s₁ r _ hr => ?_
  cases r with
  | value v =>
    exact (keeps_note _).bind fun _ _ hs _ =>
      keeps_pure fun _ hs' => Value.Known.of_before (hs.trans hs') hr
  | signal v =>
    exact (keeps_note _).bind fun _ _ hs _ => (keeps_note _).bind fun _ _ hs' _ =>
      keeps_pure fun _ hs'' => Value.Known.of_before ((hs.trans hs').trans hs'') hr

private theorem keeps_runProgram (fuel : Nat) (program : Node) {scope : ScopeRef}
    (h : scope.Known s₀) :
    Keeps s₀ Value.Known (runProgram fuel program scope) := by
  refine (keeps_changeLog _).bind fun _ _ hs _ => ?_
  cases program with
  | program body =>
    refine (keeps_note _).bind fun _ _ hs' _ => Keeps.closingFile ?_
    exact keeps_runStatements fuel body (h.of_before (hs.trans hs'))
  | _ => exact keeps_throw _

/-! ### Requests -/

/-- The scopes that a request hands over. -/
def Request.scopes : Request → List ScopeRef
  | .run _ scope | .evaluate _ scope | .lookup scope _ | .lookupMember scope _ _
  | .define scope _ _ _ | .assign scope _ _ | .newScope scope => [scope]
  | .defineSpace scope _ space => [scope, space]
  | .call _ _ | .plain _ => []

/-- A request that hands over what exists. -/
structure Request.Known (s : Store) (request : Request) : Prop where
  scopes : ∀ r ∈ request.scopes, r.Known s
  values : ∀ v ∈ request.values, v.Known s

/-- An answer that exists. -/
def Answer.Known (s : Store) : Answer → Prop
  | .result r => r.Known Value.Known s
  | .scope r => r.Known s
  | .done => True

/-- **Every request keeps the world valid**, and the answer exists. -/
theorem keeps_perform (fuel : Nat) {request : Request} (h : request.Known s₀) :
    Keeps s₀ Answer.Known (request.perform fuel) := by
  have hvalue {x : Eval Value} (hx : Keeps s₀ Value.Known x) :
      Keeps s₀ Answer.Known (do return .result (.value (← x))) :=
    hx.bind fun _ _ _ hv => keeps_pure fun _ hs => Value.Known.of_before hs hv
  have hdone {x : Eval Unit} (hx : Keeps s₀ (fun _ _ => True) x) :
      Keeps s₀ Answer.Known (do x; return .done) :=
    hx.bind fun _ _ _ _ => keeps_pure fun _ _ => trivial
  obtain ⟨hscopes, hvalues⟩ := h
  cases request with
  | run program scope =>
    exact hvalue (keeps_runProgram fuel program (List.forall_mem_singleton.1 hscopes))
  | evaluate n scope =>
    refine ((keeps_within fuel).1 s₀ n scope (List.forall_mem_singleton.1 hscopes)).bind
      fun _ r _ hr => keeps_pure fun _ hs => ?_
    cases r with
    | value v | signal v => exact Value.Known.of_before hs hr
  | call f args =>
    exact hvalue ((keeps_within fuel).2 s₀ f args (List.forall_mem_cons.1 hvalues).2)
  | plain data => exact hvalue (keeps_plainValue data)
  | newScope parent =>
    exact (keeps_newScope (List.forall_mem_singleton.1 hscopes)).bind fun _ _ _ hr =>
      keeps_pure fun _ hs => ScopeRef.Known.of_before hs hr
  | lookup scope name => exact hvalue (keeps_lookup scope name)
  | lookupMember scope space member => exact hvalue (keeps_lookupMember scope space member)
  | define scope name v isMutable =>
    exact hdone (keeps_define scope name (List.forall_mem_singleton.1 hvalues) isMutable)
  | defineSpace scope name space =>
    exact hdone (keeps_defineSpace scope name (hscopes space (by simp [Request.scopes])))
  | assign scope name v =>
    exact hdone (keeps_assign scope name (List.forall_mem_singleton.1 hvalues))

/-! ### The start of a session -/

private theorem keeps_defineMember (scope : ScopeRef) (name : String) {member : LibraryMember}
    (h : ∀ v, member = .constant v → ∀ s, v.Known s) :
    Keeps s₀ (fun _ _ => True) (defineMember scope name member) := by
  cases member with
  | function native =>
    have hnative : (Function.native native).Known s₀ := trivial
    exact (keeps_newFunction hnative).bind fun _ _ _ hv => keeps_define scope name hv false
  | constant v =>
    have hv : Keeps s₀ Value.Known (pure v : Eval Value) := keeps_pure fun s _ => h v rfl s
    exact hv.bind fun _ _ _ hv => keeps_define scope name hv false

private theorem keeps_defineLibrary {scope : ScopeRef} (h : scope.Known s₀) :
    Keeps s₀ (fun _ _ => True) (defineLibrary scope) := by
  refine (keeps_forM fun s₁ hs₁ space hspace => ?_).bind fun _ _ _ _ =>
    keeps_defineMember scope _ fun v hv => by cases hv
  refine (keeps_newScope (h.of_before hs₁)).bind fun s₂ inner _ hinner => ?_
  refine (keeps_forM fun s₃ _ member hmember => keeps_defineMember inner _ fun v hv => ?_).bind
    fun _ _ hs _ => keeps_defineSpace scope _ (hinner.of_before hs)
  exact Recording.known_of_mem_library hspace hmember hv

private theorem keeps_defineVariables (scope : ScopeRef) (given : List (String × Json)) :
    Keeps s₀ (fun _ _ => True) (defineVariables scope given) := by
  induction given generalizing s₀ with
  | nil => exact keeps_pure fun _ _ => trivial
  | cons entry rest ih =>
    exact (keeps_plainValue entry.2).bind fun _ _ _ hv =>
      (keeps_define scope entry.1 hv false).bind fun _ _ _ _ => ih

/-- The outermost scope exists. -/
theorem keeps_setup (given : List (String × Json)) :
    Keeps s₀ ScopeRef.Known (Session.setup given) := by
  have hnew : Keeps s₀ ScopeRef.Known (add (Store.newScope none)) :=
    keeps_add_newScope fun outer houter => by cases houter
  have hglobals : Keeps s₀ ScopeRef.Known Session.newGlobals :=
    hnew.bind fun s₁ scope _ hscope => (keeps_defineLibrary hscope).bind fun _ _ hs _ =>
      keeps_pure fun _ hs' => hscope.of_before (hs.trans hs')
  exact hglobals.bind fun s₁ scope _ hscope => (keeps_defineVariables scope given).bind
    fun _ _ hs _ => keeps_pure fun _ hs' => hscope.of_before (hs.trans hs')

theorem valid_of_start {level : Nat} {earlier : Option String} {given : List (String × Json)}
    {start : Session} (hstart : Session.start level earlier given = .ok start) :
    start.world.Valid ∧ start.globals.Known start.world.store := by
  have hempty : (Session.emptyWorld level earlier).Valid :=
    ⟨Store.valid_empty, fun p hp => by cases Array.not_mem_empty p hp⟩
  have hrun := Session.setup_of_start hstart
  have hvalid := ((keeps_setup given).valid_worldAfter (.refl _) hempty).1
  rw [hrun] at hvalid
  exact ⟨hvalid, (keeps_setup given).result_of_eq_ok (.refl _) hempty hrun⟩

/-! ### Whole sessions -/

namespace World

/-- **One request of a host** that hands over what exists, however it ends. -/
def Step (w w' : World) : Prop :=
  ∃ (fuel : Nat) (request : Request), request.Known w.store ∧ w' = request.after fuel w

/-- Finitely many requests lead from one world to another. -/
abbrev Reaches : World → World → Prop :=
  Relation.ReflTransGen Step

variable {w w' : World}

theorem Step.valid (h : w.Step w') (hw : w.Valid) : w'.Valid ∧ w.store.Before w'.store := by
  obtain ⟨fuel, request, hrequest, rfl⟩ := h
  exact (keeps_perform fuel hrequest).valid_worldAfter (.refl _) hw

theorem Reaches.valid (h : w.Reaches w') (hw : w.Valid) : w'.Valid ∧ w.store.Before w'.store := by
  induction h with
  | refl => exact ⟨hw, .refl _⟩
  | tail _ hstep ih =>
    obtain ⟨hvalid, hbefore⟩ := hstep.valid ih.1
    exact ⟨hvalid, ih.2.trans hbefore⟩

/-- A request changes the store step by step. -/
theorem Step.reaches (h : w.Step w') : w.store.Reaches (fun _ => True) w'.store := by
  obtain ⟨fuel, request, -, rfl⟩ := h
  have hreaches := Changes.reaches
    (Law.evolves.obeys_request (fun _ => trivial) fuel request) w w.store.newOpened_true
  unfold Request.after
  cases hrun : request.perform fuel w <;> rwa [hrun] at hreaches

theorem Reaches.reaches (h : w.Reaches w') : w.store.Reaches (fun _ => True) w'.store := by
  induction h with
  | refl => exact .refl
  | tail _ hstep ih => exact ih.trans hstep.reaches

/-- A scope keeps the scope around it. -/
private theorem Reaches.parent?_eq (h : w.Reaches w') {r : ScopeRef} (hr : r.Known w.store) :
    w'.store.parent? r = w.store.parent? r := by
  obtain ⟨scope, hscope⟩ : ∃ scope, w.store.scope? r = some scope :=
    ⟨_, Array.getElem?_eq_getElem hr⟩
  obtain ⟨scope', hscope', hextends, -⟩ := h.reaches.exists_scope hscope
  simp [Store.parent?, hscope, hscope', hextends.parent_eq]

end World

/-- **All references stay valid.** Take any session and any requests that hand over what exists,
whatever they are and however they end. The world is valid: the scope around a scope is an older
one, the scopes of functions and namespaces exist, and so do all values in cells and containers and
all that was put out. The answers to further requests exist, and scopes keep the scope around them.
So every search for a name ends, looks into no scope twice and finds what exists. -/
theorem references_stay_valid {level : Nat} {earlier : Option String}
    {given : List (String × Json)} {start : Session}
    (hstart : Session.start level earlier given = .ok start) {w : World}
    (hw : start.world.Reaches w) :
    w.Valid ∧
      (∀ (fuel : Nat) (request : Request) answer w', request.Known w.store →
        request.perform fuel w = .ok answer w' → answer.Known w'.store) ∧
      (∀ w', w.Reaches w' → ∀ r, r.Known w.store →
        r.Known w'.store ∧ w'.store.parent? r = w.store.parent? r) ∧
      ∀ r name,
        w.store.SearchEnds (w.store.ownCell? · name) r (w.store.find? r name) ∧
          w.store.SearchEnds (w.store.ownSpace? · name) r (w.store.findSpace? r name) ∧
          (∀ cell, w.store.find? r name = some cell → cell.Known w.store) ∧
          ∀ space, w.store.findSpace? r name = some space → space.Known w.store := by
  obtain ⟨hvalid, -⟩ := hw.valid (valid_of_start hstart).1
  refine ⟨hvalid, fun fuel request answer w' hrequest hrun => ?_, fun w' hw' r hr => ?_,
    fun r name => ?_⟩
  · exact (keeps_perform fuel hrequest).result_of_eq_ok (.refl _) hvalid hrun
  · exact ⟨hr.of_before (hw'.valid hvalid).2, hw'.parent?_eq hr⟩
  · exact ⟨hvalid.store.searchEnds _ r, hvalid.store.searchEnds _ r,
      fun _ => hvalid.store.known_of_find?, fun _ => hvalid.store.known_of_findSpace?⟩

/-- The outermost scope as a namespace of itself, and then an assignment that fails. -/
theorem references_stay_valid_loop : ∃ start w, Session.start 0 none [] = .ok start ∧
    w = start.world.after 9
      [.defineSpace start.globals "Self" start.globals, .assign start.globals "x" .null] ∧
    w.Valid ∧
      w.store.SearchEnds (w.store.ownCell? · "x") start.globals
        (w.store.find? start.globals "x") := by
  have hgiven : ∀ entry ∈ ([] : List (String × Json)), entry.2.holdsDoubles = true :=
    List.forall_mem_nil _
  obtain ⟨start, hstart, -⟩ := exists_start 0 none hgiven
  obtain ⟨hvalid, hglobals⟩ := valid_of_start hstart
  have hfirst : start.world.Step
      (Request.after 9 (.defineSpace start.globals "Self" start.globals) start.world) :=
    ⟨9, _, ⟨by simpa [Request.scopes] using hglobals, List.forall_mem_nil _⟩, rfl⟩
  have hknown := hglobals.of_before (hfirst.valid hvalid).2
  have hreaches := Relation.ReflTransGen.tail (.single hfirst)
    (⟨9, .assign start.globals "x" .null, ⟨List.forall_mem_singleton.2 hknown,
      List.forall_mem_singleton.2 trivial⟩, rfl⟩ : World.Step _ _)
  obtain ⟨hvalid', -, -, hsearches⟩ := references_stay_valid hstart hreaches
  exact ⟨start, _, hstart, rfl, hvalid', (hsearches start.globals "x").1⟩

end Sigil
