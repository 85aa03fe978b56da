import Sigil.Proofs.Knots
import Sigil.Proofs.Parts

/-!
# Calm evaluation

A recorded computation is *calm* if it never runs out of the nesting that it is allowed and pushes
nothing to any array (`Recorded.Calm`). Every operation on the world is, and every construct is one
if the evaluation of its parts is, except for calls (`Recording.calm_evalNode`). Loops ask for
nothing more: they go through a list of iterations that is there when they start.
-/

namespace Sigil

open Eval

/-- Whether a tree is a call. -/
def Node.isCall : Node → Bool
  | .call _ _ => true
  | _ => false

/-! ### Operations on the world -/

namespace Eval

variable {α β : Type}

/-- A computation that stops has run out if and only if fuel is what it lacks. -/
private theorem ranOut_error {stop : Stop} {w : World} :
    RanOut (.error stop w : EStateM.Result Stop World α) ↔ stop = .outOfFuel := by
  cases stop <;> simp [RanOut]

/-- A computation that never runs out of the nesting it is allowed. -/
def Lasts (x : Eval α) : Prop :=
  ∀ w, ¬RanOut (x w)

/-- A result that is there already. -/
private theorem lasts_pure (a : α) : Lasts (pure a : Eval α) :=
  fun _ h => h

/-- A sequence runs out only if one of its parts does. -/
theorem Lasts.bind {x : Eval α} {f : α → Eval β} (hx : Lasts x) (hf : ∀ a, Lasts (f a)) :
    Lasts (x >>= f) := by
  intro w hout
  cases hrun : x w with
  | ok a w' =>
    rw [bind_eq_of_ok hrun] at hout
    exact hf a w' hout
  | error stop w' =>
    rw [bind_eq_of_error hrun, ranOut_error] at hout
    exact hx w (hrun ▸ ranOut_error.2 hout)

private theorem Lasts.map {x : Eval α} (hx : Lasts x) (f : α → β) : Lasts (f <$> x) := by
  rw [← bind_pure_comp]
  exact hx.bind fun _ => lasts_pure _

private theorem lasts_read (f : Store → α) : Lasts (read f) :=
  fun _ h => h

private theorem lasts_change (f : Store → Store) : Lasts (change f) :=
  fun _ h => h

private theorem lasts_add (f : Store → α × Store) : Lasts (add f) :=
  fun _ h => h

/-- Tracing has always a result. -/
private theorem lasts_note (event : TraceEvent) : Lasts (note event) := by
  rintro ⟨store, printed, log⟩
  simp only [note]
  split <;> exact id

/-- So has putting out a value. -/
private theorem lasts_emit (v : Value) : Lasts (emit v) :=
  (lasts_note _).bind fun _ _ h => h

/-- A mistake of the script is no running out. -/
private theorem lasts_fail (e : ScriptError) : Lasts (fail e : Eval α) :=
  fun _ h => h

/-- Nor is a fault of the tree. -/
private theorem lasts_malformed (e : TreeError) : Lasts (malformed e : Eval α) :=
  fun _ h => h

/-- Nor is a search that fails. -/
private theorem lasts_ofScope (x : Except ScopeError α) : Lasts (ofScope x) := by
  cases x <;> exact fun _ h => h

/-- Nor is an operation without a result. -/
private theorem lasts_ofPartial (x : Except Fault α) : Lasts (ofPartial x) := by
  cases x <;> exact fun _ h => h

private theorem lasts_lookup (scope : ScopeRef) (name : String) : Lasts (lookup scope name) :=
  (lasts_read _).bind fun _ => lasts_ofScope _

private theorem lasts_lookupMember (scope : ScopeRef) (space name : String) :
    Lasts (lookupMember scope space name) :=
  (lasts_read _).bind fun _ => lasts_ofScope _

/-- Assigning searches for the cell and writes to it. -/
private theorem lasts_assign (scope : ScopeRef) (name : String) (v : Value) :
    Lasts (assign scope name v) :=
  (lasts_read _).bind fun _ => (lasts_ofScope _).bind fun _ => lasts_change _

end Eval

/-- A field of an object, or a mistake of the script. -/
private theorem lasts_memberValue (target : Value) (name : String) :
    Lasts (memberValue target name) := by
  unfold memberValue
  split
  · exact (lasts_read _).bind fun _ => lasts_pure _
  · exact lasts_fail _

/-- An element of an array, or a mistake of the script. -/
private theorem lasts_indexValue (target position : Value) :
    Lasts (indexValue target position) := by
  unfold indexValue
  split
  · refine (lasts_read _).bind fun elements => ?_
    split
    · exact (lasts_ofPartial _).bind fun _ => lasts_ofPartial _
    · exact lasts_fail _
  · exact lasts_fail _
  · exact lasts_fail _

/-! ### Recorded computations -/

namespace Recorded

variable {α β γ : Type}

/-- **A calm computation**: it never runs out of the nesting it is allowed, and it pushes nothing to
any array. -/
structure Calm (x : Recorded α) : Prop where
  lasts : ∀ w, ¬RanOut (x w).2
  quiet : ∀ w, ∀ stage ∈ (x w).1, stage.deed.isPush = false

/-- A deed that is no push, of a computation that does not run out. -/
private theorem calm_perform {deed : Deed} (hdeed : deed.isPush = false) {x : Eval α}
    (hx : Lasts x) :
    Calm (perform deed x) :=
  ⟨hx, fun _ => List.forall_mem_singleton.2 hdeed⟩

/-- An operation on the world. -/
private theorem calm_lift {x : Eval α} (hx : Lasts x) : Calm (perform .operation x) :=
  calm_perform rfl hx

/-- A result that is there already leaves no stage. -/
private theorem calm_pure (a : α) : Calm (pure a : Recorded α) :=
  ⟨fun _ h => h, fun _ => List.forall_mem_nil _⟩

/-- What comes next has to be calm only for the results that there are. -/
private theorem Calm.bind_of_ok {x : Recorded α} {f : α → Recorded β} (hx : Calm x)
    (hf : ∀ w a w', (x w).2 = .ok a w' → Calm (f a)) : Calm (x >>= f) := by
  refine ⟨fun w hout => ?_, fun w => ?_⟩
  · cases hrun : (x w).2 with
    | ok a w' =>
      rw [bind_eq_of_ok hrun] at hout
      exact (hf w a w' hrun).lasts w' hout
    | error stop w' =>
      rw [bind_eq_of_error hrun, ranOut_error] at hout
      exact hx.lasts w (hrun ▸ ranOut_error.2 hout)
  · cases hrun : (x w).2 with
    | ok a w' =>
      rw [bind_eq_of_ok hrun]
      exact List.forall_mem_append.2 ⟨hx.quiet w, (hf w a w' hrun).quiet w'⟩
    | error stop w' =>
      rw [bind_eq_of_error hrun]
      exact hx.quiet w

/-- In sequence, both records are without pushes. -/
theorem Calm.bind {x : Recorded α} {f : α → Recorded β} (hx : Calm x) (hf : ∀ a, Calm (f a)) :
    Calm (x >>= f) :=
  hx.bind_of_ok fun _ a _ _ => hf a

/-- A signal is handed on without a stage. -/
theorem Calm.onValue {x : Recorded (Flow α)} {k : α → Recorded (Flow β)} (hx : Calm x)
    (hk : ∀ a, Calm (k a)) : Calm (Operations.onValue x k) := by
  refine hx.bind fun flow => ?_
  cases flow with
  | value a => exact hk a
  | signal v => exact calm_pure _

/-- One computation for each element of a list. -/
private theorem calm_forM {f : γ → Recorded PUnit} {xs : List γ} (h : ∀ x ∈ xs, Calm (f x)) :
    Calm (xs.forM f) := by
  induction xs with
  | nil => exact calm_pure _
  | cons x xs ih =>
    rw [List.forall_mem_cons] at h
    exact h.1.bind fun _ => ih h.2

/-- A sequence with a result has an intermediate result. -/
private theorem exists_of_bind_eq_ok {x : Recorded α} {f : α → Recorded β} {w w' : World} {b : β}
    (h : ((x >>= f) w).2 = .ok b w') : ∃ a w₁, (x w).2 = .ok a w₁ ∧ (f a w₁).2 = .ok b w' := by
  cases hrun : (x w).2 with
  | ok a w₁ =>
    rw [bind_eq_of_ok hrun] at h
    exact ⟨a, w₁, rfl, h⟩
  | error stop w₁ =>
    rw [bind_eq_of_error hrun] at h
    cases h

end Recorded

/-! ### Constructs -/

namespace Recording

open Recorded

private theorem calm_value (v : Value) : Calm (Operations.value v : Recorded Result) :=
  calm_pure _

private theorem calm_lift_value {x : Eval Value} (hx : Lasts x) :
    Calm (Recorded.perform .operation x >>= fun v => Operations.value v) :=
  (calm_lift hx).bind calm_value

/-- What stops with mistakes of the script only does not run out. -/
private theorem calm_ofExcept {α : Type} {x : Except Stop α} (h : OnlyScriptErrors x) :
    Calm (operations.ofExcept x) := by
  cases x with
  | ok a => exact calm_pure a
  | error stop =>
    obtain ⟨e, rfl⟩ := h stop rfl
    exact calm_lift (lasts_fail e)

/-- Making the scope of an iteration and its loop variable is calm. -/
private theorem calm_newIteration (body : Node) (item : Option LoopItem) (scope : ScopeRef) :
    Calm (operations.newIteration body item scope) := by
  refine (calm_lift (lasts_add (Store.newScope (some scope)))).bind fun inner => ?_
  cases item with
  | none => exact calm_pure inner
  | some item =>
    exact (calm_lift (lasts_ofPartial item.2)).bind fun _ => (calm_lift (lasts_change _)).bind
      fun _ => calm_pure inner

private theorem calm_declare (scope : ScopeRef) (name : String) (v : Value) (isMutable : Bool) :
    Calm (operations.declare scope name v isMutable) :=
  calm_perform rfl (lasts_change _)

/-- Declaring a function makes it and does not evaluate its body. -/
private theorem calm_declareFunction (name : String) (params : List String) (body : Node)
    (scope : ScopeRef) : Calm (operations.declareFunction name params body scope) :=
  (calm_lift ((lasts_add _).map _)).bind fun _ => (calm_lift (lasts_change _)).bind fun _ =>
    calm_lift (lasts_note _)

/-- Members that are functions are declared. -/
private theorem calm_declareMembers (scope : ScopeRef) (members : List Node) :
    Calm (operations.declareMembers scope members) := by
  fun_induction Operations.declareMembers operations scope members with
  | case1 => exact calm_pure _
  | case2 name params body members ih => exact (calm_declareFunction _ _ _ _).bind fun _ => ih
  | case3 member members _ ih => exact ih

/-- Declaring a namespace makes its scope and declares its functions there. -/
private theorem calm_declareSpace (name : String) (members : List Node) (scope : ScopeRef) :
    Calm (operations.declareSpace name members scope) :=
  (calm_lift (lasts_add _)).bind fun _ => (calm_declareMembers _ _).bind fun _ =>
    (calm_lift (lasts_change _)).bind fun _ => (calm_lift (lasts_note _)).bind fun _ => calm_pure _

/-- Declaring what stands among statements evaluates none of them. -/
private theorem calm_declareAll (scope : ScopeRef) (statements : List Node) :
    Calm (operations.declareAll scope statements) := by
  fun_induction Operations.declareAll operations scope statements with
  | case1 => exact calm_pure _
  | case2 name params body rest ih => exact (calm_declareFunction _ _ _ _).bind fun _ => ih
  | case3 name members rest ih =>
    exact (calm_declareSpace _ _ _).bind fun _ => ih.bind fun _ => calm_pure _
  | case4 statement rest _ _ ih => exact ih

/-- A function expression with a name makes a scope for it first. -/
private theorem calm_makeFunction (name : Option String) (params : List String) (body : Node)
    (scope : ScopeRef) : Calm (operations.makeFunction name params body scope) := by
  cases name with
  | none => exact calm_lift ((lasts_add _).map _)
  | some name =>
    exact (calm_lift (lasts_add _)).bind fun _ => (calm_lift ((lasts_add _).map _)).bind fun _ =>
      (calm_lift (lasts_change _)).bind fun _ => calm_pure _

section Constructs

variable {P : Node → Prop} {eval : Node → ScopeRef → Recorded Result}
  (hparts : ∀ n, P n → (∀ c ∈ n.statements, P c) ∧ ∀ c ∈ n.operands, P c)
  (heval : ∀ n, P n → ∀ scope, Calm (eval n scope))

include hparts heval in
/-- The values of constants are parts of the namespace. -/
private theorem calm_initSpace (name : String) (inner : ScopeRef) {members : List Node}
    (h : ∀ n ∈ members, P n) : Calm (operations.initSpace eval name inner members) := by
  induction members with
  | nil => exact calm_pure _
  | cons member members ih =>
    rw [List.forall_mem_cons] at h
    cases member with
    | varDecl constant value isMutable =>
      have hvalue : P value := (hparts _ h.1).2 value (List.mem_singleton_self _)
      exact (heval value hvalue inner).bind fun _ => (calm_declare _ _ _ _).bind fun _ =>
        (calm_lift (lasts_note _)).bind fun _ => ih h.2
    | _ => exact ih h.2

/-- The namespaces that wait for the values of their constants are declared by the statements. -/
private theorem spaceDecl_mem_of_declareAll {scope : ScopeRef} {statements : List Node}
    {w w' : World} {spaces : List OpenSpace}
    (h : (operations.declareAll scope statements w).2 = .ok spaces w') :
    ∀ space ∈ spaces, .spaceDecl space.name space.members ∈ statements := by
  fun_induction Operations.declareAll operations scope statements generalizing w spaces with
  | case1 =>
    cases h
    exact List.forall_mem_nil _
  | case2 name params body rest ih =>
    obtain ⟨_, w₁, -, h⟩ := exists_of_bind_eq_ok h
    exact fun space hspace => List.mem_cons_of_mem _ (ih h space hspace)
  | case3 name members rest ih =>
    obtain ⟨inner, w₁, -, h⟩ := exists_of_bind_eq_ok h
    obtain ⟨spaces', w₂, hrest, h⟩ := exists_of_bind_eq_ok h
    cases h
    refine List.forall_mem_cons.2 ⟨List.mem_cons_self, fun space hspace => ?_⟩
    exact List.mem_cons_of_mem _ (ih hrest space hspace)
  | case4 statement rest _ _ ih =>
    exact fun space hspace => List.mem_cons_of_mem _ (ih h space hspace)

include hparts heval in
/-- Declaring comes first, and then the constants of namespaces get their values. -/
private theorem calm_hoist {statements : List Node} (h : ∀ n ∈ statements, P n) (scope : ScopeRef) :
    Calm (operations.hoist eval statements scope) := by
  refine (calm_declareAll scope statements).bind_of_ok fun w spaces w' hspaces => ?_
  refine calm_forM fun space hspace => calm_initSpace hparts heval _ _ ?_
  exact (hparts _ (h _ (spaceDecl_mem_of_declareAll hspaces space hspace))).1

include heval

/-- Statements in order, up to the first signal. -/
private theorem calm_evalStatements {statements : List Node} (h : ∀ n ∈ statements, P n)
    (scope : ScopeRef) (last : Value) :
    Calm (Operations.evalStatements eval scope last statements) := by
  induction statements generalizing last with
  | nil => exact calm_value last
  | cons statement rest ih =>
    rw [List.forall_mem_cons] at h
    exact (heval statement h.1 scope).onValue fun v => ih h.2 v

include hparts in
/-- A block of calm statements. -/
theorem calm_evalBlock {statements : List Node} (h : ∀ n ∈ statements, P n) (scope : ScopeRef) :
    Calm (operations.evalBlock eval statements scope) :=
  (calm_hoist hparts heval h scope).bind fun _ => calm_evalStatements heval h scope .null

/-- Elements or arguments from left to right. -/
private theorem calm_evalAll {nodes : List Node} (h : ∀ n ∈ nodes, P n) (scope : ScopeRef) :
    Calm (Operations.evalAll eval scope nodes) := by
  induction nodes with
  | nil => exact calm_pure _
  | cons n nodes ih =>
    rw [List.forall_mem_cons] at h
    exact (heval n h.1 scope).onValue fun _ => (ih h.2).onValue fun _ => calm_pure _

private theorem calm_evalEntries {entries : List (String × Node)}
    (h : ∀ n ∈ entries.map Prod.snd, P n) (scope : ScopeRef) (done : Table Value) :
    Calm (Operations.evalEntries eval scope done entries) := by
  induction entries generalizing done with
  | nil => exact calm_pure _
  | cons entry rest ih =>
    rw [List.map_cons, List.forall_mem_cons] at h
    exact (heval entry.2 h.1 scope).onValue fun _ => ih h.2 _

/-- The text of a part is an operation on the world: a walk that comes to an end. -/
private theorem calm_evalParts {parts : List (String ⊕ Node)} (h : ∀ n, .inr n ∈ parts → P n)
    (scope : ScopeRef) (done : String) : Calm (operations.evalParts eval scope done parts) := by
  induction parts generalizing done with
  | nil => exact calm_pure _
  | cons part rest ih =>
    have hrest (n : Node) (hn : .inr n ∈ rest) : P n := h n (List.mem_cons_of_mem _ hn)
    cases part with
    | inl s => exact ih hrest _
    | inr n =>
      exact (heval n (h n List.mem_cons_self) scope).onValue fun _ =>
        (calm_lift (lasts_read _)).bind fun _ => ih hrest _

/-- An absent tree is null. -/
private theorem calm_evalOptional {n : Node} (h : P n) (scope : ScopeRef) :
    Calm (Operations.evalOptional eval n scope) := by
  unfold Operations.evalOptional
  split
  · exact calm_value .null
  · exact heval n h scope

/-- Conditions up to the first that holds, and its body. -/
private theorem calm_evalBranches {branches : List (Node × Node)} {otherwise : Node}
    (h : ∀ n ∈ Node.pairParts branches, P n) (hotherwise : P otherwise) (scope : ScopeRef) :
    Calm (operations.evalBranches eval scope otherwise branches) := by
  induction branches with
  | nil => exact calm_evalOptional heval hotherwise scope
  | cons branch rest ih =>
    have hcondition := h _ (Node.fst_mem_pairParts List.mem_cons_self)
    have hbody := h _ (Node.snd_mem_pairParts List.mem_cons_self)
    refine (heval branch.1 hcondition scope).onValue fun v => ?_
    split
    · refine (calm_lift (lasts_note _)).bind fun _ => ?_
      split
      · exact heval branch.2 hbody scope
      · exact ih fun n hn => h n (List.mem_append_right _ hn)
    · exact calm_lift (lasts_fail _)

/-- Patterns up to the first that equals the subject, and its body. -/
private theorem calm_evalArms {arms : List (Node × Node)} {otherwise : Node}
    (h : ∀ n ∈ Node.pairParts arms, P n) (hotherwise : P otherwise) (scope : ScopeRef)
    (subject : Value) : Calm (Operations.evalArms eval scope subject otherwise arms) := by
  induction arms with
  | nil => exact calm_evalOptional heval hotherwise scope
  | cons arm rest ih =>
    have hpattern := h _ (Node.fst_mem_pairParts List.mem_cons_self)
    have hbody := h _ (Node.snd_mem_pairParts List.mem_cons_self)
    refine (heval arm.1 hpattern scope).onValue fun v => ?_
    split
    · exact heval arm.2 hbody scope
    · exact ih fun n hn => h n (List.mem_append_right _ hn)

omit heval in
/-- However often a body is run, the number is known when the loop starts. -/
private theorem calm_repeatBody {body : Nat → Recorded Result} (h : ∀ i, Calm (body i))
    (remaining next : Nat) (done : Array Value) :
    Calm (operations.repeatBody body remaining next done) := by
  induction remaining generalizing next done with
  | zero => exact calm_lift_value ((lasts_add _).map _)
  | succ remaining ih => exact (h next).onValue fun v => ih (next + 1) (done.push v)

omit heval in
/-- The elements are known when the loop starts. -/
private theorem calm_eachBody {body : Value → Recorded Result} (h : ∀ v, Calm (body v))
    (items : List Value) (done : Array Value) : Calm (operations.eachBody body items done) := by
  induction items generalizing done with
  | nil => exact calm_lift_value ((lasts_add _).map _)
  | cons item rest ih => exact (h item).onValue fun v => ih (done.push v)

/-- The count comes first, and then so many iterations. -/
private theorem calm_evalCountLoop {count body : Node} (hcount : P count) (hbody : P body)
    (counter : Option String) (scope : ScopeRef) :
    Calm (operations.evalCountLoop eval counter count body scope) := by
  refine (heval count hcount scope).onValue fun v => ?_
  refine (calm_ofExcept (onlyScriptErrors_loopCount v)).bind fun total => ?_
  refine calm_repeatBody (fun i => ?_) total 1 #[]
  exact (calm_newIteration body _ scope).bind fun inner => (calm_lift (lasts_note _)).bind fun _ =>
    heval body hbody inner

/-- The elements are read once, before the first iteration. -/
private theorem calm_evalEachLoop {collection body : Node} (hcollection : P collection)
    (hbody : P body) (item : String) (scope : ScopeRef) :
    Calm (operations.evalEachLoop eval item collection body scope) := by
  refine (heval collection hcollection scope).onValue fun v => ?_
  split
  · refine (calm_lift (lasts_read _)).bind fun elements => calm_eachBody (fun v => ?_) _ _
    exact (calm_newIteration body _ scope).bind fun inner => heval body hbody inner
  · exact calm_lift (lasts_fail _)

/-- The right operand is evaluated only if the left one does not decide. -/
private theorem calm_evalLogical {left right : Node} (hleft : P left) (hright : P right)
    (op : String) (scope : ScopeRef) : Calm (operations.evalLogical eval op left right scope) := by
  refine (heval left hleft scope).onValue fun a => ?_
  split
  · split
    · exact calm_value _
    · refine (heval right hright scope).onValue fun b => ?_
      split
      · exact calm_value _
      · exact calm_lift (lasts_fail _)
  · exact calm_lift (lasts_fail _)

private theorem calm_evalBinary {left right : Node} (hleft : P left) (hright : P right)
    (op : String) (scope : ScopeRef) : Calm (operations.evalBinary eval op left right scope) := by
  unfold Operations.evalBinary
  split
  · exact calm_evalLogical heval hleft hright op scope
  · exact (heval left hleft scope).onValue fun a => (heval right hright scope).onValue fun b =>
      (calm_ofExcept (onlyScriptErrors_applyOperator op a b)).bind calm_value

include hparts in
/-- **A tree is calm** if its parts are and it is no call. -/
theorem calm_evalNode {call : Value → List Value → Recorded Value} {node : Node}
    (hnode : node.isCall = false) (hstatements : ∀ c ∈ node.statements, P c)
    (hoperands : ∀ c ∈ node.operands, P c) (scope : ScopeRef) :
    Calm (operations.evalNode eval call node scope) := by
  cases node with
  | absent | program => exact calm_lift (lasts_malformed _)
  | literal v kind =>
    simp only [Operations.evalNode]
    split
    · exact calm_value _
    · exact calm_lift (lasts_malformed _)
  | ident name => exact calm_lift_value (lasts_lookup scope name)
  | spaceMember space name => exact calm_lift_value (lasts_lookupMember scope space name)
  | array elements =>
    exact (calm_evalAll heval hoperands scope).onValue fun _ =>
      calm_lift_value ((lasts_add _).map _)
  | object entries =>
    exact (calm_evalEntries heval hoperands scope .empty).onValue fun _ =>
      calm_lift_value ((lasts_add _).map _)
  | template parts =>
    exact (calm_evalParts heval (fun n hn => hoperands n (Node.mem_template_operands hn)) scope
      "").onValue fun _ => calm_value _
  | varDecl name n isMutable =>
    exact (heval n (hoperands n (by simp [Node.operands])) scope).onValue fun _ =>
      (calm_declare _ _ _ _).bind fun _ => (calm_lift (lasts_note _)).bind fun _ => calm_value _
  | assign name n =>
    exact (heval n (hoperands n (by simp [Node.operands])) scope).onValue fun _ =>
      (calm_lift (lasts_assign _ _ _)).bind fun _ => calm_value _
  | output n =>
    exact (heval n (hoperands n (by simp [Node.operands])) scope).onValue fun _ =>
      (calm_lift (lasts_emit _)).bind fun _ => calm_value _
  | ret n =>
    exact (heval n (hoperands n (by simp [Node.operands])) scope).onValue fun _ => calm_pure _
  | member target name =>
    exact (heval target (hoperands target (by simp [Node.operands])) scope).onValue fun v =>
      calm_lift_value (lasts_memberValue v name)
  | index target position =>
    exact (heval target (hoperands target (by simp [Node.operands])) scope).onValue fun v =>
      (heval position (hoperands position (by simp [Node.operands])) scope).onValue fun i =>
        calm_lift_value (lasts_indexValue v i)
  | call callee args => cases hnode
  | block statements =>
    exact (calm_lift (lasts_add _)).bind fun inner => calm_evalBlock hparts heval hstatements inner
  | functionExpr name params body => exact (calm_makeFunction _ _ _ _).bind calm_value
  | functionDecl name params body =>
    refine (calm_lift (lasts_read _)).bind fun declared => ?_
    split
    · exact calm_value _
    · exact (calm_declareFunction _ _ _ _).bind fun _ => calm_value _
  | spaceDecl name members =>
    refine (calm_lift (lasts_read _)).bind fun declared => ?_
    split
    · exact calm_value _
    · exact (calm_declareSpace _ _ _).bind fun inner =>
        (calm_initSpace hparts heval _ _ hstatements).bind fun _ => calm_value _
  | conditional branches otherwise =>
    rw [Node.operands, List.forall_mem_cons] at hoperands
    exact calm_evalBranches heval hoperands.2 hoperands.1 scope
  | selection subject arms otherwise =>
    rw [Node.operands, List.forall_mem_cons, List.forall_mem_cons] at hoperands
    obtain ⟨hsubject, hotherwise, harms⟩ := hoperands
    exact (heval subject hsubject scope).onValue fun v =>
      calm_evalArms heval harms hotherwise scope v
  | countLoop counter count body =>
    exact calm_evalCountLoop heval (hoperands count (by simp [Node.operands]))
      (hoperands body (by simp [Node.operands])) counter scope
  | eachLoop item collection body =>
    exact calm_evalEachLoop heval (hoperands collection (by simp [Node.operands]))
      (hoperands body (by simp [Node.operands])) item scope
  | binary op left right =>
    exact calm_evalBinary heval (hoperands left (by simp [Node.operands]))
      (hoperands right (by simp [Node.operands])) op scope

end Constructs

end Recording

end Sigil
