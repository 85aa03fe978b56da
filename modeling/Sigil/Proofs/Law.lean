import Sigil.Proofs.Parts
import Sigil.Session

/-!
# Laws of evaluation

A `Law` is a property of computations that every single operation on the world has and that
sequencing keeps. Whatever is a law holds of the evaluation of every tree and of every call
(`Law.obeys_within`), so an invariant of evaluation takes one lemma for each operation on the world
and none for the constructs of the language. The standard library takes fewer operations than
scripts do, and a `ContainerLaw` is asked of these only.

A law may tell scopes apart: names are declared in scopes that are `opened` only, and the scopes of
namespaces are opened ones. New scopes are opened, and evaluating a tree declares names in new
scopes and in its own. A `Quiet` tree declares none in its own scope, which then need not be
opened.
-/

namespace Sigil

/-! ### Trees that declare no names -/

namespace Node

/-- Whether evaluating a tree declares a name in the very scope it is evaluated in. -/
def declaresName : Node → Bool
  | .varDecl .. | .functionDecl .. | .spaceDecl .. => true
  | _ => false

/-- **Quiet trees**: neither the tree nor a part of it declares a name, where statements do not
count. These are evaluated in scopes of their own. -/
inductive Quiet : Node → Prop
  | intro {n : Node} : n.declaresName = false → (∀ c ∈ n.operands, Quiet c) → Quiet n

private theorem Quiet.declaresName_eq {n : Node} (h : n.Quiet) : n.declaresName = false := by
  cases h with
  | intro hn _ => exact hn

/-- The operands of a tree that declares nothing declare nothing. -/
private theorem Quiet.operand {n c : Node} (h : n.Quiet) (hc : c ∈ n.operands) : c.Quiet := by
  cases h with
  | intro _ hoperands => exact hoperands c hc

/-- A tree may be evaluated in a scope that is opened, and in any other if it is quiet. -/
def Allowed (opened : ScopeRef → Prop) (scope : ScopeRef) (n : Node) : Prop :=
  opened scope ∨ n.Quiet

variable {opened : ScopeRef → Prop} {scope : ScopeRef} {n c : Node}

/-- The operands of a tree are evaluated in the scope of the tree. -/
private theorem Allowed.operand (h : n.Allowed opened scope) (hc : c ∈ n.operands) :
    c.Allowed opened scope :=
  h.imp_right fun hn => hn.operand hc

private theorem Allowed.opened_of_declaresName (h : n.Allowed opened scope)
    (hn : n.declaresName = true) : opened scope := by
  rcases h with h | h
  · exact h
  · rw [h.declaresName_eq] at hn
    cases hn

end Node

/-! ### Laws -/

/-- Whether an event is that a value is put out. Such events are noted by putting out a value, all
others by themselves. -/
def TraceEvent.isOutput : TraceEvent → Bool
  | .printed _ => true
  | _ => false

/-- Runs a computation and goes on with how it ended. -/
def Eval.attempt {α : Type} (x : Eval α) : Eval (Except Stop α) :=
  fun w =>
    match x w with
    | .ok a w => .ok (.ok a) w
    | .error stop w => .ok (.error stop) w

/-- A sequence that comes to a result consists of two computations that do. -/
theorem Eval.exists_of_bind_eq_ok {α β : Type} {x : Eval α} {f : α → Eval β} {w w' : World} {b : β}
    (h : (x >>= f) w = .ok b w') : ∃ a w₁, x w = .ok a w₁ ∧ f a w₁ = .ok b w' := by
  simp only [bind, EStateM.bind] at h
  split at h
  · rename_i a w₁ hx
    exact ⟨a, w₁, hx, h⟩
  · cases h

/-- Sequences do the same if what comes second does the same after what came first. -/
theorem Eval.bind_congr_ok {α β : Type} {x : Eval α} {f g : α → Eval β} {w : World}
    (h : ∀ a w', x w = .ok a w' → f a w' = g a w') : (x >>= f) w = (x >>= g) w := by
  simp only [bind, EStateM.bind]
  split
  · rename_i a w' hrun
    exact h a w' hrun
  · rfl

open Eval

/-- Closing the trace file is a step after a computation that may have failed. -/
theorem Eval.closingFile_eq {α : Type} (x : Eval α) :
    closingFile x = (do
      let result ← attempt x
      changeLog Log.closeFile
      ofExcept result) := by
  funext w
  simp only [closingFile, attempt, bind, EStateM.bind]
  cases x w <;> rfl

/-- **A law of containers**: a property of computations that everything has that only reads the
store, makes arrays and objects and updates arrays. Sequencing keeps it, and it comes with what is
known of the results. -/
structure ContainerLaw where
  /-- The computation obeys the law, and its results have the property `post`. -/
  Holds {α : Type} (post : α → Prop) (x : Eval α) : Prop
  of_pure {α : Type} {post : α → Prop} {a : α} : post a → Holds post (pure a)
  of_bind {α β : Type} {post : α → Prop} {post' : β → Prop} {x : Eval α} {f : α → Eval β} :
    Holds post x → (∀ a, post a → Holds post' (f a)) → Holds post' (x >>= f)
  of_throw {α : Type} {post : α → Prop} (stop : Stop) : Holds post (throw stop : Eval α)
  of_read {α : Type} (f : Store → α) : Holds (fun _ => True) (read f)
  of_newArray (items : Array Value) : Holds (fun _ => True) (newArray items)
  of_newObject (fields : Table Value) : Holds (fun _ => True) (newObject fields)
  of_push (r : ArrayRef) (value : Value) : Holds (fun _ => True) (push r value)
  of_pop (r : ArrayRef) : Holds (fun _ => True) (pop r)

/-- **A law of evaluation**: a law of containers that every other operation on the world obeys as
well. -/
structure Law (opened : ScopeRef → Prop) extends ContainerLaw where
  of_newScope (parent : Option ScopeRef) : Holds opened (add (Store.newScope parent))
  of_define {scope : ScopeRef} (name : String) (value : Value) (isMutable : Bool) :
    opened scope → Holds (fun _ => True) (define scope name value isMutable)
  of_defineSpace {scope : ScopeRef} (name : String) (space : ScopeRef) :
    opened scope → opened space → Holds (fun _ => True) (defineSpace scope name space)
  of_assign (scope : ScopeRef) (name : String) (value : Value) :
    Holds (fun _ => True) (assign scope name value)
  of_newFunction (function : Function) : Holds (fun _ => True) (newFunction function)
  of_note (event : TraceEvent) : event.isOutput = false → Holds (fun _ => True) (note event)
  of_emit (value : Value) : Holds (fun _ => True) (emit value)

/-- **A law of sessions**: a law of evaluation that also holds of what only runs and hosts do, which
open and close the trace file and go on after failures. -/
structure SessionLaw (opened : ScopeRef → Prop) extends Law opened where
  of_attempt {α : Type} {x : Eval α} :
    Holds (fun _ => True) x → Holds (fun _ => True) (attempt x)
  of_changeLog (f : Log → Log) : Holds (fun _ => True) (changeLog f)

namespace ContainerLaw

variable (law : ContainerLaw) {α β γ : Type}

/-- The computation obeys the law. -/
abbrev Obeys (x : Eval α) : Prop :=
  law.Holds (fun _ => True) x

/-! ### Putting computations together -/

theorem obeys_pure (a : α) : law.Obeys (pure a : Eval α) :=
  law.of_pure trivial

variable {law}

/-- In sequence, both parts keep to the law. -/
theorem Holds.bind {post : α → Prop} {post' : β → Prop} {x : Eval α} {f : α → Eval β}
    (hx : law.Holds post x) (hf : ∀ a, law.Holds post' (f a)) : law.Holds post' (x >>= f) :=
  law.of_bind hx fun a _ => hf a

/-- A signal is handed on. -/
theorem Holds.onValue {x : Eval (Flow α)} {k : α → Eval (Flow β)} (hx : law.Obeys x)
    (hk : ∀ a, law.Obeys (k a)) : law.Obeys (Eval.onValue x k) :=
  hx.bind fun
    | .value a => hk a
    | .signal v => law.obeys_pure (Flow.signal v)

variable (law)

theorem obeys_ofExcept (x : Except Stop α) : law.Obeys (ofExcept x : Eval α) := by
  cases x with
  | ok a => exact law.obeys_pure a
  | error stop => exact law.of_throw stop

section Lists

variable {law}

/-- One computation after another keeps to the law if each of them does. -/
theorem obeys_mapM {f : γ → Eval α} (h : ∀ x, law.Obeys (f x)) (xs : List γ) :
    law.Obeys (xs.mapM f) := by
  induction xs with
  | nil => exact law.obeys_pure []
  | cons x xs ih =>
    rw [List.mapM_cons]
    exact (h x).bind fun a => ih.bind fun as => law.obeys_pure (a :: as)

theorem obeys_forM {f : γ → Eval PUnit} {xs : List γ} (h : ∀ x ∈ xs, law.Obeys (f x)) :
    law.Obeys (xs.forM f) := by
  induction xs with
  | nil => exact law.obeys_pure _
  | cons x xs ih =>
    rw [List.forall_mem_cons] at h
    exact h.1.bind fun _ => ih h.2

theorem obeys_foldlM {f : α → γ → Eval α} (h : ∀ a x, law.Obeys (f a x)) (start : α)
    (xs : List γ) : law.Obeys (xs.foldlM f start) := by
  induction xs generalizing start with
  | nil => exact law.obeys_pure start
  | cons x xs ih =>
    rw [List.foldlM_cons]
    exact (h start x).bind fun a => ih a

/-- So do tests one after another. -/
theorem obeys_filterM {f : γ → Eval Bool} (h : ∀ x, law.Obeys (f x)) (xs : List γ) :
    law.Obeys (xs.filterM f) := by
  -- the elements kept so far are collected in reverse
  have hauxiliary (kept : List γ) : law.Obeys (xs.filterAuxM f kept) := by
    induction xs generalizing kept with
    | nil => exact law.obeys_pure kept
    | cons x xs ih => exact (h x).bind fun _ => ih _
  exact (hauxiliary []).bind fun _ => law.obeys_pure _

end Lists

/-! ### Operations on the world -/

theorem obeys_fail (e : ScriptError) : law.Obeys (fail e : Eval α) :=
  law.of_throw _

theorem obeys_malformed (e : TreeError) : law.Obeys (malformed e : Eval α) :=
  law.of_throw _

/-- Reading a variable. -/
theorem obeys_lookup (scope : ScopeRef) (name : String) : law.Obeys (lookup scope name) :=
  (law.of_read _).bind fun _ => law.obeys_ofExcept _

theorem obeys_lookupMember (scope : ScopeRef) (space member : String) :
    law.Obeys (lookupMember scope space member) :=
  (law.of_read _).bind fun _ => law.obeys_ofExcept _

/-! ### The standard library -/

section Native

variable (f : Native) (args : List Value) (i : Nat)

/-- Arguments of a given kind, here and in the lemmas below. -/
theorem obeys_arrayArg : law.Obeys (Native.arrayArg f args i) := by
  unfold Native.arrayArg
  split
  · exact law.obeys_pure _
  · exact law.obeys_fail _

theorem obeys_objectArg : law.Obeys (Native.objectArg f args i) := by
  unfold Native.objectArg
  split
  · exact law.obeys_pure _
  · exact law.obeys_fail _

theorem obeys_textArg : law.Obeys (Native.textArg f args i) := by
  unfold Native.textArg
  split
  · exact law.obeys_pure _
  · exact law.obeys_fail _

theorem obeys_numberArg : law.Obeys (Native.numberArg f args i) := by
  unfold Native.numberArg
  split
  · exact law.obeys_pure _
  · exact law.obeys_fail _

theorem obeys_truthArg : law.Obeys (Native.truthArg f args i) := by
  unfold Native.truthArg
  split
  · exact law.obeys_pure _
  · exact law.obeys_fail _

theorem obeys_functionArg : law.Obeys (Native.functionArg f args i) := by
  unfold Native.functionArg
  split
  · exact law.obeys_pure _
  · exact law.obeys_fail _

theorem obeys_joinTexts (items : List Value) : law.Obeys (Native.joinTexts items) := by
  refine obeys_mapM (fun item => ?_) items
  split
  · exact law.obeys_pure _
  · exact law.obeys_fail _

/-- Arrays of a name and a value each, in a new array. -/
theorem obeys_pairs (entries : List (String × Value)) : law.Obeys (Native.pairs entries) :=
  (obeys_mapM (fun _ => law.of_newArray _) entries).bind fun _ => law.of_newArray _

theorem obeys_integral (part : Float → Except Fault Int) :
    law.Obeys
      (do return Value.num (← ofPartial (integral part (← Native.numberArg f args i)))) :=
  (law.obeys_numberArg f args i).bind fun _ => (law.obeys_ofExcept _).bind fun _ =>
    law.obeys_pure _

variable {law} {call : Caller}

/-- A test is a call. -/
theorem obeys_passes (hcall : ∀ g args, law.Obeys (call g args)) (test item : Value) :
    law.Obeys (Native.passes call test item) :=
  (hcall test [item]).bind fun v => by
    split
    · exact law.obeys_pure _
    · exact law.obeys_fail _

/-- A law holds of the standard library if it holds of the functions that it is given, except that
`print` puts out a value. -/
theorem obeys_run (hf : f ≠ .print) (hcall : ∀ g args, law.Obeys (call g args)) :
    law.Obeys (f.run call args) := by
  cases f with
  | print => exact absurd rfl hf
  | coreType | coreEq | coreNeq => exact law.obeys_pure _
  | coreNot => exact (law.obeys_truthArg _ _ _).bind fun _ => law.obeys_pure _
  | coreToStr => exact (law.of_read _).bind fun _ => law.obeys_pure _
  | arrLen | arrIncl =>
    exact (law.obeys_arrayArg _ _ _).bind fun _ => (law.of_read _).bind fun _ => law.obeys_pure _
  | arrPush =>
    exact (law.obeys_arrayArg _ _ _).bind fun _ => (law.of_push _ _).bind fun _ => law.obeys_pure _
  | arrPop =>
    refine (law.obeys_arrayArg _ _ _).bind fun r => (law.of_read _).bind fun elements => ?_
    split
    · exact law.obeys_pure _
    · exact (law.of_pop r).bind fun _ => law.obeys_pure _
  | arrReverse =>
    exact (law.obeys_arrayArg _ _ _).bind fun _ => (law.of_read _).bind fun _ => law.of_newArray _
  | arrConcat =>
    exact (law.obeys_arrayArg _ _ _).bind fun _ => (law.obeys_arrayArg _ _ _).bind fun _ =>
      (law.of_read _).bind fun _ => (law.of_read _).bind fun _ => law.of_newArray _
  | arrJoin =>
    refine (law.obeys_arrayArg _ _ _).bind fun r => ?_
    have hjoin (separator : String) : law.Obeys (do
        let parts ← Native.joinTexts (← items r).toList
        return Value.str (separator.intercalate parts)) :=
      (law.of_read _).bind fun _ => (law.obeys_joinTexts _).bind fun _ => law.obeys_pure _
    split
    · exact (law.obeys_pure _).bind hjoin
    · exact (law.obeys_textArg _ _ _).bind hjoin
  | arrMap =>
    refine (law.obeys_arrayArg _ _ _).bind fun r => (law.obeys_functionArg _ _ _).bind fun g => ?_
    exact (law.of_read _).bind fun _ => (obeys_mapM (fun item => hcall g [item]) _).bind fun _ =>
      law.of_newArray _
  | arrFilter =>
    refine (law.obeys_arrayArg _ _ _).bind fun r => (law.obeys_functionArg _ _ _).bind fun g => ?_
    exact (law.of_read _).bind fun _ => (obeys_filterM (obeys_passes hcall g) _).bind fun _ =>
      law.of_newArray _
  | arrReduce =>
    refine (law.obeys_arrayArg _ _ _).bind fun r => (law.obeys_functionArg _ _ _).bind fun g => ?_
    refine (law.of_read _).bind fun elements => ?_
    dsimp only
    split
    · exact obeys_foldlM (fun acc item => hcall g [acc, item]) _ _
    · exact law.obeys_fail _
    · exact obeys_foldlM (fun acc item => hcall g [acc, item]) _ _
  | objKeys | objVals =>
    exact (law.obeys_objectArg _ _ _).bind fun _ => (law.of_read _).bind fun _ => law.of_newArray _
  | objKvs =>
    exact (law.obeys_objectArg _ _ _).bind fun _ => (law.of_read _).bind fun _ => law.obeys_pairs _
  | objHas =>
    exact (law.obeys_objectArg _ _ _).bind fun _ => (law.obeys_textArg _ _ _).bind fun _ =>
      (law.of_read _).bind fun _ => law.obeys_pure _
  | strLen => exact (law.obeys_textArg _ _ _).bind fun _ => law.obeys_pure _
  | strPick =>
    refine (law.obeys_textArg _ _ _).bind fun s => (law.obeys_numberArg _ _ _).bind fun _ => ?_
    dsimp only
    split
    · exact (law.obeys_ofExcept _).bind fun _ => (law.obeys_ofExcept _).bind fun _ =>
        law.obeys_pure _
    · exact law.obeys_fail _
  | strSplit => exact (law.obeys_textArg _ _ _).bind fun _ => law.of_newArray _
  | strIncl =>
    exact (law.obeys_textArg _ _ _).bind fun _ => (law.obeys_textArg _ _ _).bind fun _ =>
      law.obeys_pure _
  | mathFloor | mathCeil | mathRound => exact law.obeys_integral _ _ _ _
  | mathAbs => exact (law.obeys_numberArg _ _ _).bind fun _ => law.obeys_pure _

end Native

/-! ### Operands and plain data -/

/-- An element of an array. -/
theorem obeys_indexValue (target position : Value) : law.Obeys (indexValue target position) := by
  unfold indexValue
  split
  · refine (law.of_read _).bind fun elements => ?_
    split
    · exact (law.obeys_ofExcept _).bind fun _ => law.obeys_ofExcept _
    · exact law.obeys_fail _
  · exact law.obeys_fail _
  · exact law.obeys_fail _

/-- A field of an object. -/
theorem obeys_memberValue (target : Value) (name : String) :
    law.Obeys (memberValue target name) := by
  unfold memberValue
  split
  · exact (law.of_read _).bind fun _ => law.obeys_pure _
  · exact law.obeys_fail _

mutual

/-- Plain data becomes new containers. -/
theorem obeys_plainValue : ∀ data : Json, law.Obeys (plainValue data)
  | .null | .bool _ | .float _ | .str _ => by
    rw [plainValue]
    exact law.obeys_pure _
  | .int n => by
    rw [plainValue]
    split
    · exact law.obeys_pure _
    · exact law.obeys_malformed _
  | .arr items => by
    rw [plainValue]
    exact (obeys_plainItems items).bind fun _ => law.of_newArray _
  | .obj fields => by
    rw [plainValue]
    exact (obeys_plainFields fields).bind fun _ => law.of_newObject _

theorem obeys_plainItems : ∀ items : List Json, law.Obeys (plainItems items)
  | [] => by
    rw [plainItems]
    exact law.obeys_pure []
  | item :: items => by
    rw [plainItems]
    exact (obeys_plainValue item).bind fun _ => (obeys_plainItems items).bind fun _ =>
      law.obeys_pure _

theorem obeys_plainFields : ∀ fields : List (String × Json), law.Obeys (plainFields fields)
  | [] => by
    rw [plainFields]
    exact law.obeys_pure []
  | (name, value) :: fields => by
    rw [plainFields]
    exact (obeys_plainValue value).bind fun _ => (obeys_plainFields fields).bind fun _ =>
      law.obeys_pure _

end

end ContainerLaw

/-! ### Computations on containers -/

/-- The world that a computation leaves, however it ends. -/
def Eval.worldAfter {α : Type} : EStateM.Result Stop World α → World
  | .ok _ w | .error _ w => w

/-- Two worlds that differ in their arrays and objects only. -/
structure World.Frames (w w' : World) : Prop where
  cells : w'.store.cells = w.store.cells
  scopes : w'.store.scopes = w.store.scopes
  functions : w'.store.functions = w.store.functions
  printed : w'.printed = w.printed
  log : w'.log = w.log

theorem World.Frames.refl (w : World) : w.Frames w :=
  ⟨rfl, rfl, rfl, rfl, rfl⟩

theorem World.Frames.trans {w w₁ w' : World} (h : w.Frames w₁) (h' : w₁.Frames w') :
    w.Frames w' where
  cells := h'.cells.trans h.cells
  scopes := h'.scopes.trans h.scopes
  functions := h'.functions.trans h.functions
  printed := h'.printed.trans h.printed
  log := h'.log.trans h.log

namespace Eval

variable {α β : Type}

/-- A computation that changes arrays and objects only. -/
structure OnContainers (post : α → Prop) (x : Eval α) : Prop where
  /-- All else stays. -/
  frames : ∀ w : World, w.Frames (worldAfter (x w))
  /-- What is known of the results. -/
  result : ∀ w a w', x w = .ok a w' → post a

namespace OnContainers

/-- A computation that changes nothing else and of whose results nothing is known. -/
private theorem of_frames {x : Eval α} (h : ∀ w : World, w.Frames (worldAfter (x w))) :
    OnContainers (fun _ => True) x where
  frames := h
  result _ _ _ _ := trivial

theorem bind {post : α → Prop} {post' : β → Prop} {x : Eval α} {f : α → Eval β}
    (hx : OnContainers post x) (hf : ∀ a, post a → OnContainers post' (f a)) :
    OnContainers post' (x >>= f) where
  frames w := by
    have hframes := hx.frames w
    simp only [Bind.bind, EStateM.bind]
    cases hrun : x w with
    | ok a w₁ =>
      rw [hrun] at hframes
      exact hframes.trans ((hf a (hx.result w a w₁ hrun)).frames w₁)
    | error stop w₁ => rwa [hrun] at hframes
  result w b w' hresult := by
    obtain ⟨a, w₁, hrun, hrest⟩ := exists_of_bind_eq_ok hresult
    exact (hf a (hx.result w a w₁ hrun)).result w₁ b w' hrest

end OnContainers

end Eval

/-- **To change arrays and objects only** is a law of containers. -/
def ContainerLaw.frame : ContainerLaw where
  Holds := OnContainers
  of_pure h := ⟨fun w => .refl w, fun _ _ _ hresult => by cases hresult; exact h⟩
  of_bind := .bind
  of_throw _ := ⟨fun w => .refl w, fun _ _ _ hresult => by cases hresult⟩
  of_read _ := .of_frames fun w => .refl w
  of_newArray _ := .of_frames fun _ => ⟨rfl, rfl, rfl, rfl, rfl⟩
  of_newObject _ := .of_frames fun _ => ⟨rfl, rfl, rfl, rfl, rfl⟩
  of_push _ _ := .of_frames fun _ => ⟨rfl, rfl, rfl, rfl, rfl⟩
  of_pop _ := .of_frames fun _ => ⟨rfl, rfl, rfl, rfl, rfl⟩

namespace Law

open ContainerLaw

variable {opened : ScopeRef → Prop} (law : Law opened) {α : Type}

/-! ### Declarations -/

section Declarations

variable {scope : ScopeRef}

/-- Declaring a function takes a scope that is open for declarations. -/
theorem obeys_declareFunction (name : String) (params : List String) (body : Node)
    (h : opened scope) : law.Obeys (declareFunction name params body scope) :=
  (law.of_newFunction _).bind fun _ => (law.of_define _ _ _ h).bind fun _ => law.of_note _ (by rfl)

theorem obeys_declareMembers (h : opened scope) (members : List Node) :
    law.Obeys (declareMembers scope members) := by
  fun_induction declareMembers scope members with
  | case1 => exact law.obeys_pure ()
  | case2 name params body members ih =>
    exact (law.obeys_declareFunction name params body h).bind fun _ => ih
  | case3 member members _ ih => exact ih

/-- The scope of a namespace is new. -/
theorem holds_declareSpace (name : String) (members : List Node) (h : opened scope) :
    law.Holds opened (declareSpace name members scope) :=
  law.of_bind (law.of_newScope _) fun inner hinner =>
    (law.obeys_declareMembers hinner members).bind fun _ =>
      (law.of_defineSpace name inner h hinner).bind fun _ => (law.of_note _ (by rfl)).bind fun _ =>
        law.of_pure hinner

theorem holds_declareAll (h : opened scope) (statements : List Node) :
    law.Holds (fun spaces => ∀ space ∈ spaces, opened space.scope)
      (declareAll scope statements) := by
  fun_induction declareAll scope statements with
  | case1 => exact law.of_pure (List.forall_mem_nil _)
  | case2 name params body rest ih =>
    exact (law.obeys_declareFunction name params body h).bind fun _ => ih
  | case3 name members rest ih =>
    refine law.of_bind (law.holds_declareSpace name members h) fun inner hinner => ?_
    exact law.of_bind ih fun spaces hspaces =>
      law.of_pure (List.forall_mem_cons.2 ⟨hinner, hspaces⟩)
  | case4 statement rest _ _ ih => exact ih

end Declarations

/-! ### Constructs -/

section Constructs

variable {law} {eval : Evaluator} {call : Caller} {scope : ScopeRef}
  (heval : ∀ n scope, n.Allowed opened scope → law.Obeys (eval n scope))
include heval

/-- The constants of a namespace are declared in its scope. -/
theorem obeys_initSpace (name : String) {inner : ScopeRef} (h : opened inner)
    (members : List Node) : law.Obeys (initSpace eval name inner members) := by
  fun_induction initSpace eval name inner members with
  | case1 => exact law.obeys_pure ()
  | case2 constant value isMutable members ih =>
    exact (heval value inner (.inl h)).bind fun _ => (law.of_define _ _ _ h).bind fun _ =>
      (law.of_note _ (by rfl)).bind fun _ => ih
  | case3 member members _ ih => exact ih

/-- What stands among statements is declared in their scope. -/
theorem obeys_hoist (h : opened scope) (statements : List Node) :
    law.Obeys (hoist eval statements scope) :=
  law.of_bind (law.holds_declareAll h statements) fun _ hspaces =>
    obeys_forM fun space hspace => obeys_initSpace heval space.name (hspaces space hspace) _

theorem obeys_evalStatements (h : opened scope) (last : Value) (statements : List Node) :
    law.Obeys (evalStatements eval scope last statements) := by
  induction statements generalizing last with
  | nil => exact law.obeys_pure _
  | cons statement rest ih => exact (heval statement scope (.inl h)).onValue fun v => ih v

/-- A block declares in the scope it is evaluated in. -/
theorem obeys_evalBlock (h : opened scope) (statements : List Node) :
    law.Obeys (evalBlock eval statements scope) :=
  (obeys_hoist heval h statements).bind fun _ => obeys_evalStatements heval h .null statements

theorem obeys_evalAll {nodes : List Node} (h : ∀ n ∈ nodes, n.Allowed opened scope) :
    law.Obeys (evalAll eval scope nodes) := by
  induction nodes with
  | nil => exact law.obeys_pure _
  | cons node nodes ih =>
    rw [List.forall_mem_cons] at h
    exact (heval node scope h.1).onValue fun _ => (ih h.2).onValue fun _ => law.obeys_pure _

theorem obeys_evalEntries (done : Table Value) {entries : List (String × Node)}
    (h : ∀ entry ∈ entries, entry.2.Allowed opened scope) :
    law.Obeys (evalEntries eval scope done entries) := by
  induction entries generalizing done with
  | nil => exact law.obeys_pure _
  | cons entry rest ih =>
    rw [List.forall_mem_cons] at h
    exact (heval entry.2 scope h.1).onValue fun _ => ih _ h.2

theorem obeys_evalParts (done : String) {parts : List (String ⊕ Node)}
    (h : ∀ n, .inr n ∈ parts → n.Allowed opened scope) :
    law.Obeys (evalParts eval scope done parts) := by
  induction parts generalizing done with
  | nil => exact law.obeys_pure _
  | cons part rest ih =>
    have hrest (n : Node) (hn : .inr n ∈ rest) := h n (List.mem_cons_of_mem part hn)
    cases part with
    | inl s => exact ih _ hrest
    | inr n =>
      exact (heval n scope (h n List.mem_cons_self)).onValue fun _ =>
        (law.of_read _).bind fun _ => ih _ hrest

/-- An absent tree is not evaluated. -/
theorem obeys_evalOptional {n : Node} (h : n.Allowed opened scope) :
    law.Obeys (evalOptional eval n scope) := by
  unfold evalOptional
  split
  · exact law.obeys_pure _
  · exact heval n scope h

theorem obeys_evalBranches {branches : List (Node × Node)} {otherwise : Node}
    (hotherwise : otherwise.Allowed opened scope)
    (h : ∀ n ∈ Node.pairParts branches, n.Allowed opened scope) :
    law.Obeys (evalBranches eval scope otherwise branches) := by
  induction branches with
  | nil => exact obeys_evalOptional heval hotherwise
  | cons branch rest ih =>
    have hrest := ih fun n hn => h n (List.mem_append_right [branch.1, branch.2] hn)
    refine (heval branch.1 scope (h _ (Node.fst_mem_pairParts List.mem_cons_self))).onValue
      fun v => ?_
    split
    · refine (law.of_note _ (by rfl)).bind fun _ => ?_
      split
      · exact heval branch.2 scope (h _ (Node.snd_mem_pairParts List.mem_cons_self))
      · exact hrest
    · exact law.obeys_fail _

theorem obeys_evalArms (subject : Value) {arms : List (Node × Node)} {otherwise : Node}
    (hotherwise : otherwise.Allowed opened scope)
    (h : ∀ n ∈ Node.pairParts arms, n.Allowed opened scope) :
    law.Obeys (evalArms eval scope subject otherwise arms) := by
  induction arms with
  | nil => exact obeys_evalOptional heval hotherwise
  | cons arm rest ih =>
    have hrest := ih fun n hn => h n (List.mem_append_right [arm.1, arm.2] hn)
    refine (heval arm.1 scope (h _ (Node.fst_mem_pairParts List.mem_cons_self))).onValue
      fun v => ?_
    split
    · exact heval arm.2 scope (h _ (Node.snd_mem_pairParts List.mem_cons_self))
    · exact hrest

omit heval in
/-- Iterations one after another, and an array of their values. -/
theorem obeys_repeatBody {body : Nat → Eval Result} (h : ∀ i, law.Obeys (body i))
    (remaining next : Nat) (done : Array Value) :
    law.Obeys (repeatBody body remaining next done) := by
  induction remaining generalizing next done with
  | zero => exact (law.of_newArray _).bind fun _ => law.obeys_pure _
  | succ remaining ih => exact (h next).onValue fun v => ih _ _

omit heval in
theorem obeys_eachBody {body : Value → Eval Result} (h : ∀ v, law.Obeys (body v))
    (items : List Value) (done : Array Value) : law.Obeys (eachBody body items done) := by
  induction items generalizing done with
  | nil => exact (law.of_newArray _).bind fun _ => law.obeys_pure _
  | cons item rest ih => exact (h item).onValue fun v => ih _

/-- The body of a loop may be any tree: every iteration has a new scope. -/
theorem obeys_evalCountLoop (counter : Option String) {count : Node}
    (hcount : count.Allowed opened scope) (body : Node) :
    law.Obeys (evalCountLoop eval counter count body scope) := by
  refine (heval count scope hcount).onValue fun v => (law.obeys_ofExcept _).bind fun total => ?_
  refine obeys_repeatBody (fun i => ?_) _ _ _
  refine law.of_bind (law.of_newScope _) fun inner hinner => ?_
  have hrest : law.Obeys (do
      note (.iteration i total)
      eval body inner) :=
    (law.of_note _ (by rfl)).bind fun _ => heval body inner (.inl hinner)
  cases counter with
  | none => exact hrest
  | some name =>
    exact (law.obeys_ofExcept _).bind fun _ => (law.of_define _ _ _ hinner).bind fun _ => hrest

/-- Each iteration has a new scope for its variable. -/
theorem obeys_evalEachLoop (item : String) {collection : Node}
    (hcollection : collection.Allowed opened scope) (body : Node) :
    law.Obeys (evalEachLoop eval item collection body scope) := by
  refine (heval collection scope hcollection).onValue fun v => ?_
  split
  · refine (law.of_read _).bind fun elements => obeys_eachBody (fun v => ?_) _ _
    exact law.of_bind (law.of_newScope _) fun inner hinner =>
      (law.of_define _ _ _ hinner).bind fun _ => heval body inner (.inl hinner)
  · exact law.obeys_fail _

theorem obeys_evalBinary (op : String) {left right : Node} (hleft : left.Allowed opened scope)
    (hright : right.Allowed opened scope) :
    law.Obeys (evalBinary eval op left right scope) := by
  unfold evalBinary
  split
  · refine (heval left scope hleft).onValue fun v => ?_
    split
    · split
      · exact law.obeys_pure _
      · refine (heval right scope hright).onValue fun v => ?_
        split
        · exact law.obeys_pure _
        · exact law.obeys_fail _
    · exact law.obeys_fail _
  · exact (heval left scope hleft).onValue fun _ => (heval right scope hright).onValue fun _ =>
      (law.obeys_ofExcept _).bind fun _ => law.obeys_pure _

omit heval in
/-- A function expression declares its name in a scope of its own. -/
theorem obeys_makeFunction (name : Option String) (params : List String) (body : Node) :
    law.Obeys (makeFunction name params body scope) := by
  cases name with
  | none => exact law.of_newFunction _
  | some name =>
    exact law.of_bind (law.of_newScope _) fun inner hinner => (law.of_newFunction _).bind fun _ =>
      (law.of_define _ _ _ hinner).bind fun _ => law.obeys_pure _

omit heval in
/-- Parameters are declared in the scope of the call. -/
theorem obeys_bindParams (h : opened scope) (params : List String) (args : List Value) :
    law.Obeys (bindParams scope params args) := by
  induction params generalizing args with
  | nil => exact law.obeys_pure ()
  | cons param params ih => exact (law.of_define _ _ _ h).bind fun _ => ih _

/-- A function may have any body: every call has a new scope. -/
theorem obeys_callClosure (params : List String) (body : Node) (name : Option String)
    (args : List Value) : law.Obeys (callClosure eval params body scope name args) := by
  refine law.of_bind (law.of_newScope _) fun inner hinner => ?_
  refine (obeys_bindParams hinner _ _).bind fun _ => (law.of_note _ (by rfl)).bind fun _ => ?_
  split
  · exact (obeys_evalBlock heval hinner _).bind fun _ => law.obeys_pure _
  · exact law.obeys_malformed _

variable (hcall : ∀ f args, law.Obeys (call f args))
include hcall

omit heval in
/-- A function of the standard library changes what its calls change. -/
theorem obeys_callNative (f : Native) (args : List Value) :
    law.Obeys (callNative call f args) := by
  refine (law.of_note _ (by rfl)).bind fun _ => ?_
  by_cases hprint : f = .print
  · subst hprint
    exact (law.of_emit _).bind fun _ => law.obeys_pure _
  · exact obeys_run f _ hprint hcall

/-- A law holds of calls if it holds of what they evaluate and call. -/
theorem obeys_callValue (f : Value) (args : List Value) :
    law.Obeys (callValue eval call f args) := by
  unfold callValue
  split
  · refine (law.of_read _).bind fun function? => ?_
    split
    · exact obeys_callClosure heval _ _ _ _
    · exact obeys_callNative hcall _ _
    · exact law.obeys_fail _
  · exact law.obeys_fail _

/-- A law holds of the meaning of a tree if it holds of what it evaluates and calls. -/
theorem obeys_evalNode {node : Node} (h : node.Allowed opened scope) :
    law.Obeys (evalNode eval call node scope) := by
  have hpart {c : Node} (hc : c ∈ node.operands) : law.Obeys (eval c scope) :=
    heval c scope (h.operand hc)
  cases node with
  | absent | program => exact law.obeys_malformed _
  | literal v kind =>
    rw [evalNode]
    split
    · exact law.obeys_pure _
    · exact law.obeys_malformed _
  | ident name => exact (law.obeys_lookup _ _).bind fun _ => law.obeys_pure _
  | spaceMember space name => exact (law.obeys_lookupMember _ _ _).bind fun _ => law.obeys_pure _
  | array elements =>
    exact (obeys_evalAll heval fun n hn => h.operand hn).onValue fun _ =>
      (law.of_newArray _).bind fun _ => law.obeys_pure _
  | object entries =>
    refine (obeys_evalEntries heval .empty fun entry hentry => ?_).onValue fun _ =>
      (law.of_newObject _).bind fun _ => law.obeys_pure _
    exact h.operand (List.mem_map_of_mem hentry)
  | template parts =>
    exact (obeys_evalParts heval "" fun n hn => h.operand (Node.mem_template_operands hn)).onValue
      fun _ => law.obeys_pure _
  | varDecl name n isMutable =>
    refine (hpart List.mem_cons_self).onValue fun _ => ?_
    exact (law.of_define _ _ _ (h.opened_of_declaresName rfl)).bind fun _ =>
      (law.of_note _ (by rfl)).bind fun _ => law.obeys_pure _
  | assign name n =>
    exact (hpart List.mem_cons_self).onValue fun _ => (law.of_assign _ _ _).bind fun _ =>
      law.obeys_pure _
  | output n =>
    exact (hpart List.mem_cons_self).onValue fun _ => (law.of_emit _).bind fun _ =>
      law.obeys_pure _
  | ret n => exact (hpart List.mem_cons_self).onValue fun _ => law.obeys_pure _
  | member target name =>
    exact (hpart List.mem_cons_self).onValue fun _ => (law.obeys_memberValue _ _).bind fun _ =>
      law.obeys_pure _
  | index target position =>
    exact (hpart List.mem_cons_self).onValue fun _ =>
      (hpart (List.mem_cons_of_mem _ List.mem_cons_self)).onValue fun _ =>
        (law.obeys_indexValue _ _).bind fun _ => law.obeys_pure _
  | call callee args =>
    exact (hpart List.mem_cons_self).onValue fun f =>
      (obeys_evalAll heval fun n hn => h.operand (List.mem_cons_of_mem _ hn)).onValue fun vs =>
        (hcall f vs).bind fun _ => law.obeys_pure _
  | block statements =>
    exact law.of_bind (law.of_newScope _) fun inner hinner => obeys_evalBlock heval hinner _
  | functionExpr name params body =>
    exact (obeys_makeFunction _ _ _).bind fun _ => law.obeys_pure _
  | functionDecl name params body =>
    refine (law.of_read _).bind fun declared => ?_
    split
    · exact law.obeys_pure _
    · exact (law.obeys_declareFunction _ _ _ (h.opened_of_declaresName rfl)).bind fun _ =>
        law.obeys_pure _
  | spaceDecl name members =>
    refine (law.of_read _).bind fun declared => ?_
    split
    · exact law.obeys_pure _
    · exact law.of_bind (law.holds_declareSpace _ _ (h.opened_of_declaresName rfl))
        fun inner hinner => (obeys_initSpace heval _ hinner _).bind fun _ => law.obeys_pure _
  | conditional branches otherwise =>
    exact obeys_evalBranches heval (h.operand List.mem_cons_self) fun n hn =>
      h.operand (List.mem_cons_of_mem _ hn)
  | selection subject arms otherwise =>
    refine (hpart List.mem_cons_self).onValue fun v => obeys_evalArms heval v ?_ fun n hn => ?_
    · exact h.operand (List.mem_cons_of_mem _ List.mem_cons_self)
    · exact h.operand (List.mem_cons_of_mem _ (List.mem_cons_of_mem _ hn))
  | countLoop counter count body =>
    exact obeys_evalCountLoop heval _ (h.operand List.mem_cons_self) _
  | eachLoop item collection body =>
    exact obeys_evalEachLoop heval _ (h.operand List.mem_cons_self) _
  | binary op left right =>
    exact obeys_evalBinary heval _ (h.operand List.mem_cons_self)
      (h.operand (List.mem_cons_of_mem _ List.mem_cons_self))

end Constructs

/-- **A law holds of every evaluation and of every call**, at every depth of nesting. -/
theorem obeys_within (fuel : Nat) :
    (∀ n scope, n.Allowed opened scope → law.Obeys (evalWithin fuel n scope)) ∧
      ∀ f args, law.Obeys (callWithin fuel f args) := by
  -- both at once: trees hold calls, and calls evaluate the bodies of functions
  induction fuel with
  | zero =>
    refine ⟨fun n scope _ => ?_, fun f args => ?_⟩
    · rw [evalWithin]
      exact law.of_throw _
    · rw [callWithin]
      exact law.of_throw _
  | succ fuel ih =>
    refine ⟨fun n scope hn => ?_, fun f args => ?_⟩
    · rw [evalWithin]
      exact obeys_evalNode ih.1 ih.2 hn
    · rw [callWithin]
      exact obeys_callValue ih.1 ih.2 f args

/-- A law holds of every sequence of statements that is run in a scope that is opened. -/
theorem obeys_runStatements (fuel : Nat) (statements : List Node) {scope : ScopeRef}
    (h : opened scope) : law.Obeys (runStatements fuel statements scope) := by
  refine (obeys_evalBlock (law.obeys_within fuel).1 h _).bind fun result => ?_
  split
  · exact (law.of_note _ (by rfl)).bind fun _ => law.obeys_pure _
  · exact (law.of_note _ (by rfl)).bind fun _ => (law.of_note _ (by rfl)).bind fun _ =>
      law.obeys_pure _

/-! ### Sessions -/

/-- Host variables are declared in a scope that is open for declarations. -/
theorem obeys_defineVariables {scope : ScopeRef} (h : opened scope)
    (given : List (String × Json)) : law.Obeys (defineVariables scope given) := by
  induction given with
  | nil => exact law.obeys_pure ()
  | cons entry rest ih =>
    exact (law.obeys_plainValue entry.2).bind fun _ => (law.of_define _ _ _ h).bind fun _ => ih

theorem obeys_defineMember {scope : ScopeRef} (h : opened scope) (name : String)
    (member : LibraryMember) : law.Obeys (defineMember scope name member) := by
  cases member with
  | function native => exact (law.of_newFunction _).bind fun _ => law.of_define _ _ _ h
  | constant v => exact (law.obeys_pure v).bind fun _ => law.of_define _ _ _ h

/-- So is the standard library, each namespace with a scope of its own. -/
theorem obeys_defineLibrary {scope : ScopeRef} (h : opened scope) :
    law.Obeys (defineLibrary scope) := by
  refine Holds.bind (obeys_forM ?_) fun _ => law.obeys_defineMember h _ _
  rintro ⟨space, members⟩ -
  refine law.of_bind (law.of_newScope _) fun inner hinner => ?_
  exact (obeys_forM fun member _ => law.obeys_defineMember hinner member.1 member.2).bind fun _ =>
    law.of_defineSpace _ _ h hinner

/-- The outermost scope of a session is new. -/
theorem holds_newGlobals : law.Holds opened Session.newGlobals :=
  law.of_bind (law.of_newScope none) fun _ hscope =>
    (law.obeys_defineLibrary hscope).bind fun _ => law.of_pure hscope

end Law

namespace SessionLaw

variable {opened : ScopeRef → Prop} (law : SessionLaw opened) {α : Type}

/-- The trace file is closed after a computation that keeps to the law. -/
theorem obeys_closingFile {x : Eval α} (hx : law.Obeys x) : law.Obeys (closingFile x) := by
  rw [closingFile_eq]
  exact (law.of_attempt hx).bind fun _ => (law.of_changeLog _).bind fun _ => law.obeys_ofExcept _

/-- A law of sessions holds of every run of a program in a scope that is opened. -/
theorem obeys_runProgram (fuel : Nat) (program : Node) {scope : ScopeRef} (h : opened scope) :
    law.Obeys (runProgram fuel program scope) := by
  refine (law.of_changeLog _).bind fun _ => ?_
  split
  · refine (law.of_note _ (by rfl)).bind fun _ => law.obeys_closingFile ?_
    exact law.obeys_runStatements fuel _ h
  · exact law.obeys_malformed _

end SessionLaw

end Sigil
