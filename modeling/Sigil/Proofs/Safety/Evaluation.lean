import Sigil.Proofs.Safety.Guards
import Sigil.Proofs.Safety.Trees

/-!
# Evaluation does not go wrong

`Eval.Ensures stops post x` is the logic of this module: from a store whose functions can all be
called, the computation `x` gives a result with the property `post`, or it stops for one of the
reasons `stops`, and in both cases the functions of the store can still be called. Every operation
on the world and every construct has one lemma. Evaluating an evaluable tree stops only for reasons
that a script can bring about (`safe_within`): the trees are evaluable, the bodies of all functions
in the store are, and every operation that has no result somewhere stands behind its guard.
-/

namespace Sigil

/-- A function that can be called: the body of one written in a script is a block of statements that
can be evaluated. -/
def Function.Callable : Function → Prop
  | .closure _ body _ _ => ∃ statements, body = .block statements ∧ ∀ s ∈ statements, s.Evaluable
  | .native _ => True

/-- A function whose body is a block of evaluable statements can be called. -/
private theorem Function.callable_closure {statements : List Node}
    (h : ∀ s ∈ statements, s.Evaluable) (params : List String) (scope : ScopeRef)
    (name : Option String) :
    (Function.closure params (.block statements) scope name).Callable :=
  ⟨statements, rfl, h⟩

/-- All functions of the store can be called. -/
def Store.Callable (s : Store) : Prop :=
  ∀ f ∈ s.functions, f.Callable

namespace Eval

variable {α β : Type} {stops : Stop → Prop} {post : α → Prop} {post' : β → Prop}

/-- **What a computation ensures** from a store whose functions can be called: they still can
afterwards, and there is a result with the property `post` or a reason to stop among `stops`. -/
structure Ensures (stops : Stop → Prop) (post : α → Prop) (x : Eval α) : Prop where
  /-- How the computation ends. -/
  ends : ∀ w, w.store.Callable →
    match x w with
    | .ok a w' => w'.store.Callable ∧ post a
    | .error stop w' => w'.store.Callable ∧ stops stop

/-- A computation that stops only for one of the given reasons. -/
abbrev Safe (stops : Stop → Prop) (x : Eval α) : Prop :=
  Ensures stops (fun _ => True) x

/-! ### Putting computations together -/

/-- A result that is there already has what is known of it. -/
private theorem ensures_pure {a : α} (h : post a) : Ensures stops post (pure a : Eval α) :=
  ⟨fun _ hw => ⟨hw, h⟩⟩

theorem safe_pure (a : α) : Safe stops (pure a : Eval α) :=
  ensures_pure trivial

/-- What comes next may rely on what is known of the result before it. -/
theorem Ensures.bind {x : Eval α} {f : α → Eval β} (hx : Ensures stops post x)
    (hf : ∀ a, post a → Ensures stops post' (f a)) : Ensures stops post' (x >>= f) := by
  refine ⟨fun w hw => ?_⟩
  have hxw := hx.ends w hw
  change match EStateM.bind x f w with
    | .ok a w' => w'.store.Callable ∧ post' a
    | .error stop w' => w'.store.Callable ∧ stops stop
  unfold EStateM.bind
  cases hresult : x w with
  | ok a w' =>
    rw [hresult] at hxw
    exact (hf a hxw.2).ends w' hxw.1
  | error stop w' =>
    rw [hresult] at hxw
    exact hxw

/-- Less may be known of the results. -/
theorem Ensures.weaken {post' : α → Prop} {x : Eval α} (hx : Ensures stops post x)
    (h : ∀ a, post a → post' a) : Ensures stops post' x := by
  refine ⟨fun w hw => ?_⟩
  have hxw := hx.ends w hw
  cases hresult : x w with
  | ok a w' =>
    rw [hresult] at hxw
    exact ⟨hxw.1, h a hxw.2⟩
  | error stop w' =>
    rw [hresult] at hxw
    exact hxw

private theorem Ensures.safe {x : Eval α} (hx : Ensures stops post x) : Safe stops x :=
  hx.weaken fun _ _ => trivial

/-- A computation that has no reason to stop has a result. -/
theorem Ensures.exists_ok {x : Eval α} (hx : Ensures (fun _ => False) post x) {w : World}
    (hw : w.store.Callable) : ∃ a w', x w = .ok a w' ∧ w'.store.Callable ∧ post a := by
  have hxw := hx.ends w hw
  cases hresult : x w with
  | ok a w' =>
    rw [hresult] at hxw
    exact ⟨a, w', rfl, hxw⟩
  | error stop w' =>
    rw [hresult] at hxw
    exact hxw.2.elim

theorem Safe.bind {x : Eval α} {f : α → Eval β} (hx : Safe stops x)
    (hf : ∀ a, Ensures stops post' (f a)) : Ensures stops post' (x >>= f) :=
  Ensures.bind hx fun a _ => hf a

theorem Safe.map {x : Eval α} (hx : Safe stops x) (f : α → β) : Safe stops (f <$> x) := by
  rw [← bind_pure_comp]
  exact hx.bind fun _ => safe_pure _

/-- A signal is handed on, which is no reason to stop. -/
theorem Safe.onValue {x : Eval (Flow α)} {k : α → Eval (Flow β)} (hx : Safe stops x)
    (hk : ∀ a, Safe stops (k a)) : Safe stops (Eval.onValue x k) :=
  hx.bind fun
    | .value a => hk a
    | .signal v => safe_pure (Flow.signal v)

private theorem safe_throw {stop : Stop} (h : stops stop) : Safe stops (throw stop : Eval α) :=
  ⟨fun _ hw => ⟨hw, h⟩⟩

/-- An operation that fails stops for the reason that it gives. -/
private theorem ensures_ofExcept {x : Except Stop α} (h : ∀ stop, x = .error stop → stops stop) :
    Ensures stops (fun a => x = .ok a) (ofExcept x : Eval α) := by
  cases x with
  | ok a => exact ensures_pure rfl
  | error stop => exact ⟨fun _ hw => ⟨hw, h stop rfl⟩⟩

/-- An operation that has a result does not stop. -/
private theorem ensures_ofPartial {x : Except Fault α} {a : α} (hx : x = .ok a) (ha : post a) :
    Ensures stops post (ofPartial x) := by
  rw [hx]
  exact ensures_pure ha

/-- An operation that has a result here does not stop. -/
private theorem safe_ofPartial {x : Except Fault α} (h : ∃ a, x = .ok a) :
    Safe stops (ofPartial x) := by
  obtain ⟨a, ha⟩ := h
  exact ensures_ofPartial ha trivial

private theorem safe_required {fault : Fault} {x : Option α} (h : ∃ a, x = some a) :
    Safe stops (ofPartial (required fault x)) := by
  obtain ⟨a, rfl⟩ := h
  exact ensures_ofPartial rfl trivial

/-- There is an element at every position of a list. -/
private theorem ensures_place {x : Float} {items : List α} (h : isPosition x items.length = true) :
    Ensures stops (fun i => ∃ item, items[(i - 1).toNat]? = some item)
      (ofPartial (wholePart Binary.truncate x)) := by
  obtain ⟨i, item, hi, hitem⟩ := exists_place h
  exact ensures_ofPartial hi ⟨item, hitem⟩

section Lists

variable {γ : Type}

/-- Computations one after another are safe if each of them is. -/
private theorem safe_mapM {f : γ → Eval α} {xs : List γ} (h : ∀ x ∈ xs, Safe stops (f x)) :
    Safe stops (xs.mapM f) := by
  induction xs with
  | nil => exact safe_pure []
  | cons x xs ih =>
    rw [List.mapM_cons]
    refine (h x (by simp)).bind fun a => ?_
    exact (ih fun y hy => h y (by simp [hy])).bind fun as => safe_pure (a :: as)

theorem safe_forM {f : γ → Eval PUnit} {xs : List γ} (h : ∀ x ∈ xs, Safe stops (f x)) :
    Safe stops (xs.forM f) := by
  induction xs with
  | nil => exact safe_pure _
  | cons x xs ih =>
    exact (h x (by simp)).bind fun _ => ih fun y hy => h y (by simp [hy])

private theorem safe_foldlM {f : α → γ → Eval α} {xs : List γ}
    (h : ∀ a, ∀ x ∈ xs, Safe stops (f a x)) (start : α) : Safe stops (xs.foldlM f start) := by
  induction xs generalizing start with
  | nil => exact safe_pure start
  | cons x xs ih =>
    rw [List.foldlM_cons]
    exact (h start x (by simp)).bind fun a => ih (fun a y hy => h a y (by simp [hy])) a

/-- Tests one after another are safe if each of them is. -/
private theorem safe_filterM {f : γ → Eval Bool} {xs : List γ} (h : ∀ x ∈ xs, Safe stops (f x)) :
    Safe stops (xs.filterM f) := by
  -- the elements kept so far are collected in reverse
  have hauxiliary (kept : List γ) : Safe stops (xs.filterAuxM f kept) := by
    induction xs generalizing kept with
    | nil => exact safe_pure kept
    | cons x xs ih =>
      exact (h x (by simp)).bind fun _ => ih (fun y hy => h y (by simp [hy])) _
  exact (hauxiliary []).bind fun _ => safe_pure _

end Lists

/-! ### The world -/

private theorem safe_read (f : Store → α) : Safe stops (read f) :=
  ⟨fun _ hw => ⟨hw, trivial⟩⟩

/-- The functions that are found can be called. -/
private theorem ensures_function? (r : FunctionRef) :
    Ensures stops (fun f? => ∀ f, f? = some f → f.Callable) (function? r) :=
  ⟨fun _ hw => ⟨hw, fun f hf => hw f (Array.mem_of_getElem? hf)⟩⟩

/-- A change of the store that leaves the functions alone. -/
private theorem safe_change {f : Store → Store} (h : ∀ s, (f s).functions = s.functions) :
    Safe stops (change f) := by
  refine ⟨fun w hw => ?_⟩
  refine ⟨?_, trivial⟩
  change ∀ g ∈ (f w.store).functions, g.Callable
  rw [h]
  exact hw

/-- Something new in the store, other than a function. -/
theorem safe_add {f : Store → α × Store} (h : ∀ s, (f s).2.functions = s.functions) :
    Safe stops (add f) := by
  refine ⟨fun w hw => ?_⟩
  refine ⟨?_, trivial⟩
  change ∀ g ∈ (f w.store).2.functions, g.Callable
  rw [h]
  exact hw

/-- A new function has to be one that can be called. -/
theorem safe_newFunction {f : Function} (h : f.Callable) : Safe stops (newFunction f) := by
  have hadd : Safe stops (add (Store.newFunction f)) := by
    refine ⟨fun w hw => ?_⟩
    refine ⟨fun g hg => ?_, trivial⟩
    rcases Array.mem_push.1 hg with hg | rfl
    · exact hw g hg
    · exact h
  exact hadd.map _

theorem safe_newScope (parent : ScopeRef) : Safe stops (newScope parent) :=
  safe_add fun _ => rfl

theorem safe_define (scope : ScopeRef) (name : String) (value : Value) (isMutable : Bool) :
    Safe stops (define scope name value isMutable) :=
  safe_change fun _ => rfl

theorem safe_defineSpace (scope : ScopeRef) (name : String) (space : ScopeRef) :
    Safe stops (defineSpace scope name space) :=
  safe_change fun _ => rfl

theorem safe_newArray (items : Array Value) : Safe stops (newArray items) :=
  Safe.map (safe_add fun _ => rfl) _

theorem safe_newObject (fields : Table Value) : Safe stops (newObject fields) :=
  Safe.map (safe_add fun _ => rfl) _

private theorem safe_push (r : ArrayRef) (value : Value) : Safe stops (push r value) :=
  safe_change fun _ => rfl

private theorem safe_pop (r : ArrayRef) : Safe stops (pop r) :=
  safe_change fun _ => rfl

/-- Tracing reads the store and changes the log only. -/
theorem safe_note (event : TraceEvent) : Safe stops (note event) := by
  refine ⟨fun ⟨store, printed, log⟩ hw => ?_⟩
  by_cases h : event.level ≤ log.level
  · simp only [note, h, if_true]
    exact ⟨hw, trivial⟩
  · simp only [note, h, if_false]
    exact ⟨hw, trivial⟩

/-- So does putting out a value. -/
private theorem safe_emit (v : Value) : Safe stops (emit v) :=
  (safe_note _).bind fun _ => ⟨fun _ hw => ⟨hw, trivial⟩⟩

theorem safe_changeLog (f : Log → Log) : Safe stops (changeLog f) :=
  ⟨fun _ hw => ⟨hw, trivial⟩⟩

/-- The trace file is closed however a computation ends. -/
theorem Safe.closingFile {x : Eval α} (hx : Safe stops x) : Safe stops (closingFile x) := by
  refine ⟨fun w hw => ?_⟩
  have hxw := hx.ends w hw
  unfold Eval.closingFile
  cases hresult : x w with
  | ok a w' =>
    rw [hresult] at hxw
    exact hxw
  | error stop w' =>
    rw [hresult] at hxw
    exact hxw

end Eval

/-! ### What a script can bring about -/

/-- The reasons to stop that a script can bring about: a mistake of its own, or nesting beyond what
is allowed. -/
def Stop.Expected : Stop → Prop
  | .script _ | .outOfFuel => True
  | .tree _ | .fault _ => False

namespace Eval

variable {α : Type}

/-- A mistake of the script is to be expected. -/
private theorem safe_fail (e : ScriptError) : Safe Stop.Expected (fail e : Eval α) :=
  safe_throw trivial

/-- An operation that fails with mistakes of the script only. -/
private theorem ensures_ofExcept_script {x : Except Stop α} (h : OnlyScriptErrors x) :
    Ensures Stop.Expected (fun a => x = .ok a) (ofExcept x : Eval α) := by
  refine ensures_ofExcept fun stop hstop => ?_
  obtain ⟨e, rfl⟩ := h stop hstop
  trivial

/-- A name that is not there, or not mutable, is a mistake of the script. -/
private theorem safe_ofScope (x : Except ScopeError α) : Safe Stop.Expected (ofScope x) := by
  cases x with
  | ok a => exact safe_pure a
  | error e => exact safe_throw trivial

/-- Reading a variable fails only if there is none of the name. -/
private theorem safe_lookup (scope : ScopeRef) (name : String) :
    Safe Stop.Expected (lookup scope name) :=
  (safe_read _).bind fun _ => safe_ofScope _

/-- Reading a member of a namespace fails only if the one or the other is missing. -/
private theorem safe_lookupMember (scope : ScopeRef) (space member : String) :
    Safe Stop.Expected (lookupMember scope space member) :=
  (safe_read _).bind fun _ => safe_ofScope _

/-- Assigning fails only if there is no such variable or it is immutable. -/
private theorem safe_assign (scope : ScopeRef) (name : String) (value : Value) :
    Safe Stop.Expected (assign scope name value) :=
  (safe_read _).bind fun _ => (safe_ofScope _).bind fun _ => safe_change fun _ => rfl

end Eval

open Eval

/-! ### The standard library -/

namespace Native

variable (f : Native) (args : List Value) (i : Nat)

/-- An argument of the wrong kind is a mistake of the script, here and in the lemmas below. -/
private theorem safe_arrayArg : Safe Stop.Expected (arrayArg f args i) := by
  unfold arrayArg
  split
  · exact safe_pure _
  · exact safe_fail _

private theorem safe_objectArg : Safe Stop.Expected (objectArg f args i) := by
  unfold objectArg
  split
  · exact safe_pure _
  · exact safe_fail _

private theorem safe_textArg : Safe Stop.Expected (textArg f args i) := by
  unfold textArg
  split
  · exact safe_pure _
  · exact safe_fail _

private theorem safe_numberArg : Safe Stop.Expected (numberArg f args i) := by
  unfold numberArg
  split
  · exact safe_pure _
  · exact safe_fail _

private theorem safe_truthArg : Safe Stop.Expected (truthArg f args i) := by
  unfold truthArg
  split
  · exact safe_pure _
  · exact safe_fail _

private theorem safe_functionArg : Safe Stop.Expected (functionArg f args i) := by
  unfold functionArg
  split
  · exact safe_pure _
  · exact safe_fail _

/-- An element that is no text is a mistake of the script. -/
private theorem safe_joinTexts (items : List Value) : Safe Stop.Expected (joinTexts items) := by
  refine safe_mapM fun item _ => ?_
  split
  · exact safe_pure _
  · exact safe_fail _

private theorem safe_pairs (entries : List (String × Value)) : Safe Stop.Expected (pairs entries) :=
  (safe_mapM fun _ _ => safe_newArray _).bind fun _ => safe_newArray _

/-- A whole part of a number is a number, whichever number it is. -/
private theorem safe_integral {part : Float → Except Fault Int}
    (h : ∀ x, isFinite x = true → ∃ n, part x = .ok n ∧ n.natAbs ≤ Binary.largest) :
    Safe Stop.Expected (do return Value.num (← ofPartial (integral part (← numberArg f args i)))) :=
  (safe_numberArg f args i).bind fun x =>
    (safe_ofPartial (integral_eq_ok h x)).bind fun _ => safe_pure _

variable {call : Caller}

/-- A test that gives no truth value is a mistake of the script. -/
private theorem safe_passes (hcall : ∀ g args, Safe Stop.Expected (call g args))
    (test item : Value) :
    Safe Stop.Expected (passes call test item) :=
  (hcall test [item]).bind fun v => by
    split
    · exact safe_pure _
    · exact safe_fail _

/-- **Functions of the standard library are safe** if the functions that they are given are. -/
theorem safe_run (hcall : ∀ g args, Safe Stop.Expected (call g args)) :
    Safe Stop.Expected (run call f args) := by
  cases f with
  | print => exact (safe_emit _).bind fun _ => safe_pure _
  | coreType | coreEq | coreNeq => exact safe_pure _
  | coreNot => exact (safe_truthArg _ _ _).bind fun _ => safe_pure _
  | coreToStr => exact (safe_read _).bind fun _ => safe_pure _
  | arrLen => exact (safe_arrayArg _ _ _).bind fun _ => (safe_read _).bind fun _ => safe_pure _
  | arrPush => exact (safe_arrayArg _ _ _).bind fun _ => (safe_push _ _).bind fun _ => safe_pure _
  | arrPop =>
    refine (safe_arrayArg _ _ _).bind fun r => (safe_read _).bind fun elements => ?_
    split
    · exact safe_pure _
    · exact (safe_pop r).bind fun _ => safe_pure _
  | arrIncl => exact (safe_arrayArg _ _ _).bind fun _ => (safe_read _).bind fun _ => safe_pure _
  | arrReverse =>
    exact (safe_arrayArg _ _ _).bind fun _ => (safe_read _).bind fun _ => safe_newArray _
  | arrConcat =>
    exact (safe_arrayArg _ _ _).bind fun _ => (safe_arrayArg _ _ _).bind fun _ =>
      (safe_read _).bind fun _ => (safe_read _).bind fun _ => safe_newArray _
  | arrJoin =>
    refine (safe_arrayArg _ _ _).bind fun r => ?_
    have hjoin (separator : String) : Safe Stop.Expected (do
        let parts ← joinTexts (← items r).toList
        return Value.str (separator.intercalate parts)) :=
      (safe_read _).bind fun _ => (safe_joinTexts _).bind fun _ => safe_pure _
    split
    · exact (safe_pure _).bind hjoin
    · exact (safe_textArg _ _ _).bind hjoin
  | arrMap =>
    refine (safe_arrayArg _ _ _).bind fun r => (safe_functionArg _ _ _).bind fun g => ?_
    exact (safe_read _).bind fun _ => (safe_mapM fun item _ => hcall g [item]).bind fun _ =>
      safe_newArray _
  | arrFilter =>
    refine (safe_arrayArg _ _ _).bind fun r => (safe_functionArg _ _ _).bind fun g => ?_
    exact (safe_read _).bind fun _ =>
      (safe_filterM fun item _ => safe_passes hcall g item).bind fun _ => safe_newArray _
  | arrReduce =>
    refine (safe_arrayArg _ _ _).bind fun r => (safe_functionArg _ _ _).bind fun g => ?_
    refine (safe_read _).bind fun elements => ?_
    dsimp only
    split
    · exact safe_foldlM (fun acc item _ => hcall g [acc, item]) _
    · exact safe_fail _
    · exact safe_foldlM (fun acc item _ => hcall g [acc, item]) _
  | objKeys | objVals =>
    exact (safe_objectArg _ _ _).bind fun _ => (safe_read _).bind fun _ => safe_newArray _
  | objKvs => exact (safe_objectArg _ _ _).bind fun _ => (safe_read _).bind fun _ => safe_pairs _
  | objHas =>
    exact (safe_objectArg _ _ _).bind fun _ => (safe_textArg _ _ _).bind fun _ =>
      (safe_read _).bind fun _ => safe_pure _
  | strLen => exact (safe_textArg _ _ _).bind fun _ => safe_pure _
  | strPick =>
    refine (safe_textArg _ _ _).bind fun s => (safe_numberArg _ _ _).bind fun position => ?_
    dsimp only
    split
    · rename_i hposition
      refine (ensures_place hposition).bind fun i hcharacter => ?_
      exact (safe_required hcharacter).bind fun _ => safe_pure _
    · exact safe_fail _
  | strSplit => exact (safe_textArg _ _ _).bind fun _ => safe_newArray _
  | strIncl =>
    exact (safe_textArg _ _ _).bind fun _ => (safe_textArg _ _ _).bind fun _ => safe_pure _
  | mathFloor => exact safe_integral _ _ _ floor_eq_ok
  | mathCeil => exact safe_integral _ _ _ ceil_eq_ok
  | mathRound => exact safe_integral _ _ _ roundHalfUp_eq_ok
  | mathAbs => exact (safe_numberArg _ _ _).bind fun _ => safe_pure _

end Native

/-! ### Constructs -/

section Constructs

variable {eval : Evaluator} {call : Caller}

/-- A function that is declared can be called: its body is a block of evaluable statements. -/
private theorem safe_declareFunction (name : String) (params : List String) {statements : List Node}
    (h : ∀ s ∈ statements, s.Evaluable) (scope : ScopeRef) :
    Safe Stop.Expected (declareFunction name params (.block statements) scope) :=
  (safe_newFunction (Function.callable_closure h _ _ _)).bind fun _ =>
    (safe_define _ _ _ _).bind fun _ => safe_note _

/-- Members of a namespace that are functions are declared; the others wait for their values. -/
private theorem safe_declareMembers (scope : ScopeRef) {members : List Node}
    (h : ∀ n ∈ members, n.Evaluable) : Safe Stop.Expected (declareMembers scope members) := by
  induction members with
  | nil => exact safe_pure ()
  | cons member members ih =>
    simp only [List.forall_mem_cons] at h
    obtain ⟨hmember, hmembers⟩ := h
    cases hmember with
    | functionDecl hbody =>
      exact (safe_declareFunction _ _ hbody scope).bind fun _ => ih hmembers
    | _ => exact ih hmembers

/-- Declaring a namespace evaluates nothing. -/
private theorem safe_declareSpace (name : String) {members : List Node}
    (h : ∀ n ∈ members, n.Evaluable) (scope : ScopeRef) :
    Safe Stop.Expected (declareSpace name members scope) :=
  (safe_newScope scope).bind fun inner => (safe_declareMembers inner h).bind fun _ =>
    (safe_defineSpace _ _ _).bind fun _ => (safe_note _).bind fun _ => safe_pure inner

/-- The namespaces that wait for the values of their constants have evaluable members. -/
private theorem ensures_declareAll (scope : ScopeRef) {statements : List Node}
    (h : ∀ s ∈ statements, s.Evaluable) :
    Ensures Stop.Expected (fun spaces => ∀ space ∈ spaces, ∀ n ∈ space.members, n.Evaluable)
      (declareAll scope statements) := by
  induction statements with
  | nil => exact ensures_pure (by simp)
  | cons statement rest ih =>
    simp only [List.forall_mem_cons] at h
    obtain ⟨hstatement, hrest⟩ := h
    cases hstatement with
    | functionDecl hbody => exact (safe_declareFunction _ _ hbody scope).bind fun _ => ih hrest
    | spaceDecl hmembers =>
      refine (safe_declareSpace _ hmembers scope).bind fun inner => ?_
      exact (ih hrest).bind fun spaces hspaces => ensures_pure (by simpa using ⟨hmembers, hspaces⟩)
    | _ => exact ih hrest

variable (heval : ∀ n scope, n.Evaluable → Safe Stop.Expected (eval n scope))
include heval

/-- The values of constants are evaluable trees. -/
private theorem safe_initSpace (name : String) (inner : ScopeRef) {members : List Node}
    (h : ∀ n ∈ members, n.Evaluable) : Safe Stop.Expected (initSpace eval name inner members) := by
  induction members with
  | nil => exact safe_pure ()
  | cons member members ih =>
    simp only [List.forall_mem_cons] at h
    obtain ⟨hmember, hmembers⟩ := h
    cases hmember with
    | varDecl hvalue =>
      exact (heval _ inner hvalue).bind fun _ => (safe_define _ _ _ _).bind fun _ =>
        (safe_note _).bind fun _ => ih hmembers
    | _ => exact ih hmembers

/-- Functions and namespaces are declared before any statement is evaluated. -/
private theorem safe_hoist {statements : List Node} (h : ∀ s ∈ statements, s.Evaluable)
    (scope : ScopeRef) :
    Safe Stop.Expected (hoist eval statements scope) :=
  (ensures_declareAll scope h).bind fun _ hspaces =>
    safe_forM fun space hspace => safe_initSpace heval space.name space.scope (hspaces space hspace)

/-- Evaluable statements in order, up to the first signal. -/
private theorem safe_evalStatements (scope : ScopeRef) (last : Value) {statements : List Node}
    (h : ∀ s ∈ statements, s.Evaluable) :
    Safe Stop.Expected (evalStatements eval scope last statements) := by
  induction statements generalizing last with
  | nil => exact safe_pure _
  | cons statement rest ih =>
    simp only [List.forall_mem_cons] at h
    exact (heval statement scope h.1).onValue fun v => ih v h.2

/-- A block of evaluable statements. -/
theorem safe_evalBlock {statements : List Node} (h : ∀ s ∈ statements, s.Evaluable)
    (scope : ScopeRef) : Safe Stop.Expected (evalBlock eval statements scope) :=
  (safe_hoist heval h scope).bind fun _ => safe_evalStatements heval scope .null h

private theorem safe_evalAll (scope : ScopeRef) {nodes : List Node} (h : ∀ n ∈ nodes, n.Evaluable) :
    Safe Stop.Expected (evalAll eval scope nodes) := by
  induction nodes with
  | nil => exact safe_pure _
  | cons node nodes ih =>
    simp only [List.forall_mem_cons] at h
    exact (heval node scope h.1).onValue fun _ => (ih h.2).onValue fun _ => safe_pure _

private theorem safe_evalEntries (scope : ScopeRef) (done : Table Value)
    {entries : List (String × Node)} (h : ∀ entry ∈ entries, entry.2.Evaluable) :
    Safe Stop.Expected (evalEntries eval scope done entries) := by
  induction entries generalizing done with
  | nil => exact safe_pure _
  | cons entry rest ih =>
    simp only [List.forall_mem_cons] at h
    exact (heval entry.2 scope h.1).onValue fun _ => ih _ h.2

/-- Every value has a text, so only the evaluation of the parts can stop. -/
private theorem safe_evalParts (scope : ScopeRef) (done : String) {parts : List (String ⊕ Node)}
    (h : ∀ n, .inr n ∈ parts → n.Evaluable) :
    Safe Stop.Expected (evalParts eval scope done parts) := by
  induction parts generalizing done with
  | nil => exact safe_pure _
  | cons part rest ih =>
    have hrest (n : Node) (hn : .inr n ∈ rest) : n.Evaluable := h n (by simp [hn])
    cases part with
    | inl s => exact ih _ hrest
    | inr n =>
      exact (heval n scope (h n (by simp))).onValue fun _ => (safe_read _).bind fun _ => ih _ hrest

/-- An absent tree is not evaluated. -/
private theorem safe_evalOptional {n : Node} (h : n ≠ .absent → n.Evaluable) (scope : ScopeRef) :
    Safe Stop.Expected (evalOptional eval n scope) := by
  unfold evalOptional
  split
  · exact safe_pure _
  · rename_i hne
    exact heval n scope (h hne)

/-- A condition that is no truth value is a mistake of the script. -/
private theorem safe_evalBranches (scope : ScopeRef) {branches : List (Node × Node)}
    {otherwise : Node} (h : Node.EvaluableClauses branches otherwise) :
    Safe Stop.Expected (evalBranches eval scope otherwise branches) := by
  induction branches with
  | nil => exact safe_evalOptional heval h.otherwise scope
  | cons branch rest ih =>
    obtain ⟨condition, body⟩ := branch
    obtain ⟨⟨hcondition, hbody⟩, hrest⟩ := Node.evaluableClauses_cons.1 h
    refine (heval condition scope hcondition).onValue fun v => ?_
    split
    · refine (safe_note _).bind fun _ => ?_
      split
      · exact heval body scope hbody
      · exact ih hrest
    · exact safe_fail _

/-- Values of all kinds can be compared. -/
private theorem safe_evalArms (scope : ScopeRef) (subject : Value) {arms : List (Node × Node)}
    {otherwise : Node} (h : Node.EvaluableClauses arms otherwise) :
    Safe Stop.Expected (evalArms eval scope subject otherwise arms) := by
  induction arms with
  | nil => exact safe_evalOptional heval h.otherwise scope
  | cons arm rest ih =>
    obtain ⟨pattern, body⟩ := arm
    obtain ⟨⟨hpattern, hbody⟩, hrest⟩ := Node.evaluableClauses_cons.1 h
    refine (heval pattern scope hpattern).onValue fun v => ?_
    split
    · exact heval body scope hbody
    · exact ih hrest

omit heval in
/-- The counter stays below the number that the loop started with. -/
private theorem safe_repeatBody {body : Nat → Eval Result} {remaining next : Nat}
    (h : ∀ i, i < next + remaining → Safe Stop.Expected (body i)) (done : Array Value) :
    Safe Stop.Expected (repeatBody body remaining next done) := by
  induction remaining generalizing next done with
  | zero => exact (safe_newArray _).bind fun _ => safe_pure _
  | succ remaining ih =>
    exact (h next (by omega)).onValue fun v => ih (fun i hi => h i (by omega)) _

omit heval in
/-- One iteration for each of the elements. -/
private theorem safe_eachBody {body : Value → Eval Result} (h : ∀ v, Safe Stop.Expected (body v))
    (items : List Value) (done : Array Value) :
    Safe Stop.Expected (eachBody body items done) := by
  induction items generalizing done with
  | nil => exact (safe_newArray _).bind fun _ => safe_pure _
  | cons item rest ih => exact (h item).onValue fun v => ih _

/-- A counter is a double because the count of the loop is one. -/
private theorem safe_evalCountLoop (counter : Option String) {count body : Node}
    (hcount : count.Evaluable) (hbody : body.Evaluable) (scope : ScopeRef) :
    Safe Stop.Expected (evalCountLoop eval counter count body scope) := by
  refine (heval count scope hcount).onValue fun v => ?_
  refine (ensures_ofExcept_script (onlyScriptErrors_loopCount v)).bind fun total htotal => ?_
  refine safe_repeatBody (fun i hi => ?_) _
  -- the counter is a double, because the number of iterations is
  have hcounter : ∃ x, doubleOf i = .ok x := by
    have := loopCount_le htotal
    exact doubleOf_eq_ok (by omega)
  refine (safe_newScope scope).bind fun inner => ?_
  have hrest : Safe Stop.Expected (do
      note (.iteration i total)
      eval body inner) :=
    (safe_note _).bind fun _ => heval body inner hbody
  cases counter with
  | none => exact hrest
  | some name =>
    exact (safe_ofPartial hcounter).bind fun _ => (safe_define _ _ _ _).bind fun _ => hrest

/-- A collection that is no array is a mistake of the script. -/
private theorem safe_evalEachLoop (item : String) {collection body : Node}
    (hcollection : collection.Evaluable) (hbody : body.Evaluable) (scope : ScopeRef) :
    Safe Stop.Expected (evalEachLoop eval item collection body scope) := by
  refine (heval collection scope hcollection).onValue fun v => ?_
  split
  · refine (safe_read _).bind fun elements => safe_eachBody (fun v => ?_) _ _
    exact (safe_newScope scope).bind fun inner => (safe_define _ _ _ _).bind fun _ =>
      heval body inner hbody
  · exact safe_fail _

omit heval in
/-- The position is checked before the element is taken. -/
private theorem safe_indexValue (target position : Value) :
    Safe Stop.Expected (indexValue target position) := by
  unfold indexValue
  split
  · refine (safe_read _).bind fun elements => ?_
    split
    · rename_i hposition
      rw [← Array.length_toList] at hposition
      refine (ensures_place hposition).bind fun i hitem => safe_required ?_
      simpa using hitem
    · exact safe_fail _
  · exact safe_fail _
  · exact safe_fail _

omit heval in
/-- A member of something that is no object is a mistake of the script. -/
private theorem safe_memberValue (target : Value) (name : String) :
    Safe Stop.Expected (memberValue target name) := by
  unfold memberValue
  split
  · exact (safe_read _).bind fun _ => safe_pure _
  · exact safe_fail _

/-- Operands of the wrong kind are mistakes of the script. -/
private theorem safe_evalBinary (op : String) {left right : Node} (hleft : left.Evaluable)
    (hright : right.Evaluable) (scope : ScopeRef) :
    Safe Stop.Expected (evalBinary eval op left right scope) := by
  unfold evalBinary
  split
  · refine (heval left scope hleft).onValue fun v => ?_
    split
    · split
      · exact safe_pure _
      · refine (heval right scope hright).onValue fun v => ?_
        split
        · exact safe_pure _
        · exact safe_fail _
    · exact safe_fail _
  · refine (heval left scope hleft).onValue fun a => (heval right scope hright).onValue fun b => ?_
    exact (ensures_ofExcept_script (onlyScriptErrors_applyOperator op a b)).safe.bind fun _ =>
      safe_pure _

omit heval in
/-- The body of a function expression is a block of evaluable statements. -/
private theorem safe_makeFunction (name : Option String) (params : List String)
    {statements : List Node} (h : ∀ s ∈ statements, s.Evaluable) (scope : ScopeRef) :
    Safe Stop.Expected (makeFunction name params (.block statements) scope) := by
  cases name with
  | none => exact safe_newFunction (Function.callable_closure h _ _ _)
  | some name =>
    exact (safe_newScope scope).bind fun _ =>
      (safe_newFunction (Function.callable_closure h _ _ _)).bind fun _ =>
        (safe_define _ _ _ _).bind fun _ => safe_pure _

omit heval in
/-- Missing arguments are null, and surplus ones are ignored. -/
private theorem safe_bindParams (scope : ScopeRef) (params : List String) (args : List Value) :
    Safe Stop.Expected (bindParams scope params args) := by
  induction params generalizing args with
  | nil => exact safe_pure ()
  | cons param params ih => exact (safe_define _ _ _ _).bind fun _ => ih _

/-- A call evaluates the body of the function, which is evaluable. -/
private theorem safe_callClosure (params : List String) {statements : List Node}
    (h : ∀ s ∈ statements, s.Evaluable) (scope : ScopeRef) (name : Option String)
    (args : List Value) :
    Safe Stop.Expected (callClosure eval params (.block statements) scope name args) :=
  (safe_newScope scope).bind fun inner => (safe_bindParams _ _ _).bind fun _ =>
    (safe_note _).bind fun _ => (safe_evalBlock heval h inner).bind fun _ => safe_pure _

variable (hcall : ∀ f args, Safe Stop.Expected (call f args))
include hcall

omit heval in
/-- Arguments are adjusted to the number that the function takes. -/
private theorem safe_callNative (f : Native) (args : List Value) :
    Safe Stop.Expected (callNative call f args) :=
  (safe_note _).bind fun _ => Native.safe_run f _ hcall

/-- **Calls are safe**: the functions of the store can be called, and nothing else is. -/
theorem safe_callValue (f : Value) (args : List Value) :
    Safe Stop.Expected (callValue eval call f args) := by
  unfold callValue
  split
  · rename_i r
    refine (ensures_function? r).bind fun function? hfunction => ?_
    split
    · -- the body is a block, because the function is in the store
      obtain ⟨statements, rfl, hstatements⟩ := hfunction _ rfl
      exact safe_callClosure heval _ hstatements _ _ _
    · exact safe_callNative hcall _ _
    · exact safe_fail _
  · exact safe_fail _

/-- **Evaluating an evaluable tree is safe** if evaluating its parts and calling functions is. -/
theorem safe_evalNode {node : Node} (h : node.Evaluable) (scope : ScopeRef) :
    Safe Stop.Expected (evalNode eval call node scope) := by
  cases h with
  | literal hvalue =>
    rw [evalNode, hvalue]
    exact safe_pure _
  | array helements =>
    exact (safe_evalAll heval scope helements).onValue fun _ =>
      (safe_newArray _).bind fun _ => safe_pure _
  | object hentries =>
    exact (safe_evalEntries heval scope .empty hentries).onValue fun _ =>
      (safe_newObject _).bind fun _ => safe_pure _
  | template hparts =>
    exact (safe_evalParts heval scope "" hparts).onValue fun _ => safe_pure _
  | ident => exact (safe_lookup _ _).bind fun _ => safe_pure _
  | varDecl hvalue =>
    exact (heval _ scope hvalue).onValue fun _ => (safe_define _ _ _ _).bind fun _ =>
      (safe_note _).bind fun _ => safe_pure _
  | assign hvalue =>
    exact (heval _ scope hvalue).onValue fun _ => (safe_assign _ _ _).bind fun _ => safe_pure _
  | member htarget =>
    exact (heval _ scope htarget).onValue fun _ => (safe_memberValue _ _).bind fun _ => safe_pure _
  | index htarget hposition =>
    exact (heval _ scope htarget).onValue fun _ => (heval _ scope hposition).onValue fun _ =>
      (safe_indexValue _ _).bind fun _ => safe_pure _
  | spaceMember => exact (safe_lookupMember _ _ _).bind fun _ => safe_pure _
  | call hcallee hargs =>
    exact (heval _ scope hcallee).onValue fun f =>
      (safe_evalAll heval scope hargs).onValue fun vs => (hcall f vs).bind fun _ => safe_pure _
  | block hstatements =>
    exact (safe_newScope scope).bind fun inner => safe_evalBlock heval hstatements inner
  | functionDecl hstatements =>
    refine (safe_read _).bind fun declared => ?_
    split
    · exact safe_pure _
    · exact (safe_declareFunction _ _ hstatements scope).bind fun _ => safe_pure _
  | functionExpr hstatements =>
    exact (safe_makeFunction _ _ hstatements scope).bind fun _ => safe_pure _
  | spaceDecl hmembers =>
    refine (safe_read _).bind fun declared => ?_
    split
    · exact safe_pure _
    · exact (safe_declareSpace _ hmembers scope).bind fun inner =>
        (safe_initSpace heval _ inner hmembers).bind fun _ => safe_pure _
  | conditional hconditions hbodies hotherwise =>
    exact safe_evalBranches heval scope ⟨hconditions, hbodies, hotherwise⟩
  | selection hsubject hpatterns hbodies hotherwise =>
    exact (heval _ scope hsubject).onValue fun v =>
      safe_evalArms heval scope v ⟨hpatterns, hbodies, hotherwise⟩
  | countLoop hcount hbody => exact safe_evalCountLoop heval _ hcount hbody scope
  | eachLoop hcollection hbody => exact safe_evalEachLoop heval _ hcollection hbody scope
  | ret hvalue => exact (heval _ scope hvalue).onValue fun _ => safe_pure _
  | output hvalue =>
    exact (heval _ scope hvalue).onValue fun _ => (safe_emit _).bind fun _ => safe_pure _
  | binary hleft hright => exact safe_evalBinary heval _ hleft hright scope

end Constructs

/-- **Evaluation is safe at every depth of nesting.** -/
theorem safe_within (fuel : Nat) :
    (∀ n scope, n.Evaluable → Safe Stop.Expected (evalWithin fuel n scope)) ∧
      ∀ f args, Safe Stop.Expected (callWithin fuel f args) := by
  -- both at once: trees hold calls, and calls evaluate the bodies of functions
  induction fuel with
  | zero =>
    refine ⟨fun n scope _ => ?_, fun f args => ?_⟩
    · rw [evalWithin]
      exact safe_throw trivial
    · rw [callWithin]
      exact safe_throw trivial
  | succ fuel ih =>
    refine ⟨fun n scope hn => ?_, fun f args => ?_⟩
    · rw [evalWithin]
      exact safe_evalNode ih.1 ih.2 hn scope
    · rw [callWithin]
      exact safe_callValue ih.1 ih.2 f args

end Sigil
