import Mathlib.Order.Nat
import Sigil.Session

/-!
# Bounds on the nesting

Evaluation is bounded by the nesting that it is allowed. A bound does not change what an evaluation
does, it only ends it early: with a larger bound an evaluation does the same unless it ran out of
the smaller one (`approx_within`). So a computation either runs out for every bound, which is what
it means not to terminate, or it ends with one result for all bounds from some bound on
(`Eval.ranOut_or_ends`).
-/

namespace Sigil

namespace Eval

variable {α β γ : Type}

/-- A result that says that the nesting which was allowed is used up. -/
def RanOut : EStateM.Result Stop World α → Prop
  | .error .outOfFuel _ => True
  | _ => False

/-- Running out is one reason to stop, whatever the world is then. -/
private theorem ranOut_iff {r : EStateM.Result Stop World α} :
    RanOut r ↔ ∃ w, r = .error .outOfFuel w := by
  constructor
  · intro h
    cases r with
    | ok => exact h.elim
    | error stop w =>
      cases stop with
      | outOfFuel => exact ⟨w, rfl⟩
      | _ => exact h.elim
  · rintro ⟨w, rfl⟩
    trivial

/-- A computation **ends** with a result if it has this result for all bounds on the nesting from
some bound on, and the result is not that the nesting is used up. -/
def Ends (x : Nat → Eval α) (w : World) (r : EStateM.Result Stop World α) : Prop :=
  ¬ RanOut r ∧ ∃ least, ∀ fuel ≥ least, x fuel w = r

/-- A computation **approximates** another one if the other does the same wherever it does not run
out. -/
def Approx (x y : Eval α) : Prop :=
  ∀ w, RanOut (x w) ∨ x w = y w

/-! ### Approximations of parts -/

theorem Approx.refl (x : Eval α) : Approx x x :=
  fun _ => .inr rfl

/-- A computation that runs out at once approximates everything. -/
private theorem approx_outOfFuel (y : Eval α) : Approx (throw .outOfFuel) y :=
  fun _ => .inl trivial

/-- Sequences are approximated part by part: if the first part runs out, so does the sequence. -/
theorem Approx.bind {x y : Eval α} {f g : α → Eval β} (hx : Approx x y)
    (hf : ∀ a, Approx (f a) (g a)) : Approx (x >>= f) (y >>= g) := by
  intro w
  change RanOut (EStateM.bind x f w) ∨ EStateM.bind x f w = EStateM.bind y g w
  unfold EStateM.bind
  rcases hx w with hout | heq
  · obtain ⟨w', hout⟩ := ranOut_iff.1 hout
    rw [hout]
    exact .inl trivial
  · rw [heq]
    cases y w with
    | ok a w' => exact hf a w'
    | error stop w' => exact .inr rfl

/-- After the same computation, approximations stay approximations. -/
private theorem Approx.after {x : Eval α} {f g : α → Eval β} (h : ∀ a, Approx (f a) (g a)) :
    Approx (x >>= f) (x >>= g) :=
  (Approx.refl x).bind h

/-- A signal is handed on, however large the bound is. -/
theorem Approx.onValue {x y : Eval (Flow α)} {k l : α → Eval (Flow β)} (hx : Approx x y)
    (hk : ∀ a, Approx (k a) (l a)) : Approx (Eval.onValue x k) (Eval.onValue y l) :=
  hx.bind fun
    | .value a => hk a
    | .signal _ => .refl _

/-- The trace file is closed also by a computation that has run out. -/
private theorem Approx.closingFile {x y : Eval α} (h : Approx x y) :
    Approx (closingFile x) (closingFile y) := by
  intro w
  unfold Eval.closingFile
  rcases h w with hout | heq
  · obtain ⟨w', hout⟩ := ranOut_iff.1 hout
    rw [hout]
    exact .inl trivial
  · exact .inr (by rw [heq])

private theorem approx_mapM {f g : γ → Eval α} (h : ∀ x, Approx (f x) (g x)) (xs : List γ) :
    Approx (xs.mapM f) (xs.mapM g) := by
  induction xs with
  | nil => exact .refl _
  | cons x xs ih =>
    rw [List.mapM_cons, List.mapM_cons]
    exact (h x).bind fun _ => ih.bind fun _ => .refl _

private theorem approx_forM {f g : γ → Eval PUnit} (h : ∀ x, Approx (f x) (g x)) (xs : List γ) :
    Approx (xs.forM f) (xs.forM g) := by
  induction xs with
  | nil => exact .refl _
  | cons x xs ih => exact (h x).bind fun _ => ih

private theorem approx_foldlM {f g : α → γ → Eval α} (h : ∀ a x, Approx (f a x) (g a x)) (start : α)
    (xs : List γ) : Approx (xs.foldlM f start) (xs.foldlM g start) := by
  induction xs generalizing start with
  | nil => exact .refl _
  | cons x xs ih =>
    rw [List.foldlM_cons, List.foldlM_cons]
    exact (h start x).bind fun a => ih a

/-- The elements that pass a test, which is done for each of them. -/
private theorem approx_filterM {f g : γ → Eval Bool} (h : ∀ x, Approx (f x) (g x)) (xs : List γ) :
    Approx (xs.filterM f) (xs.filterM g) := by
  -- the elements kept so far are collected in reverse
  have hauxiliary (kept : List γ) : Approx (xs.filterAuxM f kept) (xs.filterAuxM g kept) := by
    induction xs generalizing kept with
    | nil => exact .refl _
    | cons x xs ih => exact (h x).bind fun _ => ih _
  exact (hauxiliary []).bind fun _ => .refl _

end Eval

open Eval

/-! ### Approximations of constructs -/

section Constructs

variable {eval eval' : Evaluator} {call call' : Caller}

/-- Functions of the standard library depend on the bound through the calls that they make. -/
private theorem Native.approx_run (hcall : ∀ f args, Approx (call f args) (call' f args))
    (f : Native) (args : List Value) : Approx (f.run call args) (f.run call' args) := by
  cases f with
  | arrMap =>
    refine Approx.after fun r => .after fun g => .after fun _ => ?_
    exact (approx_mapM (fun item => hcall g [item]) _).bind fun _ => .refl _
  | arrFilter =>
    refine Approx.after fun r => .after fun g => .after fun _ => ?_
    exact (approx_filterM (fun item => (hcall g [item]).bind fun _ => .refl _) _).bind fun _ =>
      .refl _
  | arrReduce =>
    refine Approx.after fun r => .after fun g => .after fun _ => ?_
    dsimp only
    split
    · exact approx_foldlM (fun acc item => hcall g [acc, item]) _ _
    · exact .refl _
    · exact approx_foldlM (fun acc item => hcall g [acc, item]) _ _
  -- no other function of the standard library calls anything
  | _ => exact .refl _

variable (heval : ∀ n scope, Approx (eval n scope) (eval' n scope))
include heval

/-- The constants of a namespace, whose values are evaluated in order. -/
private theorem approx_initSpace (name : String) (inner : ScopeRef) (members : List Node) :
    Approx (initSpace eval name inner members) (initSpace eval' name inner members) := by
  induction members with
  | nil => exact .refl _
  | cons member members ih =>
    cases member with
    | varDecl constant value isMutable =>
      exact (heval value inner).bind fun _ => .after fun _ => .after fun _ => ih
    | _ => exact ih

/-- Declarations themselves evaluate nothing; only the constants of namespaces do. -/
private theorem approx_hoist (statements : List Node) (scope : ScopeRef) :
    Approx (hoist eval statements scope) (hoist eval' statements scope) :=
  .after fun _ => approx_forM (fun _ => approx_initSpace heval _ _ _) _

/-- Statements in order, up to the first signal. -/
private theorem approx_evalStatements (scope : ScopeRef) (last : Value) (statements : List Node) :
    Approx (evalStatements eval scope last statements)
      (evalStatements eval' scope last statements) := by
  induction statements generalizing last with
  | nil => exact .refl _
  | cons statement rest ih => exact (heval statement scope).onValue fun v => ih v

/-- A block is approximated if the evaluation of its statements is. -/
theorem approx_evalBlock (statements : List Node) (scope : ScopeRef) :
    Approx (evalBlock eval statements scope) (evalBlock eval' statements scope) :=
  (approx_hoist heval statements scope).bind fun _ =>
    approx_evalStatements heval scope .null statements

private theorem approx_evalAll (scope : ScopeRef) (nodes : List Node) :
    Approx (evalAll eval scope nodes) (evalAll eval' scope nodes) := by
  induction nodes with
  | nil => exact .refl _
  | cons node nodes ih => exact (heval node scope).onValue fun _ => ih.onValue fun _ => .refl _

private theorem approx_evalEntries (scope : ScopeRef) (done : Table Value)
    (entries : List (String × Node)) :
    Approx (evalEntries eval scope done entries) (evalEntries eval' scope done entries) := by
  induction entries generalizing done with
  | nil => exact .refl _
  | cons entry rest ih => exact (heval entry.2 scope).onValue fun _ => ih _

/-- The text of a part is taken without evaluating anything. -/
private theorem approx_evalParts (scope : ScopeRef) (done : String) (parts : List (String ⊕ Node)) :
    Approx (evalParts eval scope done parts) (evalParts eval' scope done parts) := by
  induction parts generalizing done with
  | nil => exact .refl _
  | cons part rest ih =>
    cases part with
    | inl s => exact ih _
    | inr n => exact (heval n scope).onValue fun _ => .after fun _ => ih _

/-- An absent tree is null for every bound. -/
private theorem approx_evalOptional (n : Node) (scope : ScopeRef) :
    Approx (evalOptional eval n scope) (evalOptional eval' n scope) := by
  unfold evalOptional
  split
  · exact .refl _
  · exact heval n scope

/-- Conditions are evaluated up to the first that holds. -/
private theorem approx_evalBranches (scope : ScopeRef) (otherwise : Node)
    (branches : List (Node × Node)) :
    Approx (evalBranches eval scope otherwise branches)
      (evalBranches eval' scope otherwise branches) := by
  induction branches with
  | nil => exact approx_evalOptional heval otherwise scope
  | cons branch rest ih =>
    refine (heval branch.1 scope).onValue fun v => ?_
    split
    · refine Approx.after fun _ => ?_
      split
      · exact heval branch.2 scope
      · exact ih
    · exact .refl _

/-- Patterns are evaluated up to the first that equals the subject. -/
private theorem approx_evalArms (scope : ScopeRef) (subject : Value) (otherwise : Node)
    (arms : List (Node × Node)) :
    Approx (evalArms eval scope subject otherwise arms)
      (evalArms eval' scope subject otherwise arms) := by
  induction arms with
  | nil => exact approx_evalOptional heval otherwise scope
  | cons arm rest ih =>
    refine (heval arm.1 scope).onValue fun v => ?_
    split
    · exact heval arm.2 scope
    · exact ih

omit heval in
/-- Each iteration is approximated, and their number does not depend on the bound. -/
private theorem approx_repeatBody {body body' : Nat → Eval Result}
    (h : ∀ i, Approx (body i) (body' i)) (remaining next : Nat) (done : Array Value) :
    Approx (repeatBody body remaining next done) (repeatBody body' remaining next done) := by
  induction remaining generalizing next done with
  | zero => exact .refl _
  | succ remaining ih => exact (h next).onValue fun v => ih _ _

omit heval in
/-- Each element has an iteration, and they are fixed before the first. -/
private theorem approx_eachBody {body body' : Value → Eval Result}
    (h : ∀ v, Approx (body v) (body' v)) (items : List Value) (done : Array Value) :
    Approx (eachBody body items done) (eachBody body' items done) := by
  induction items generalizing done with
  | nil => exact .refl _
  | cons item rest ih => exact (h item).onValue fun v => ih _

/-- The count is evaluated once, before the loop. -/
private theorem approx_evalCountLoop (counter : Option String) (count body : Node)
    (scope : ScopeRef) :
    Approx (evalCountLoop eval counter count body scope)
      (evalCountLoop eval' counter count body scope) := by
  refine (heval count scope).onValue fun v => .after fun total => ?_
  refine approx_repeatBody (fun i => .after fun inner => ?_) _ _ _
  cases counter with
  | none => exact Approx.after fun _ => heval body inner
  | some name =>
    exact Approx.after fun _ => .after fun _ => .after fun _ =>
      heval body inner

/-- The collection is evaluated once, before the loop. -/
private theorem approx_evalEachLoop (item : String) (collection body : Node) (scope : ScopeRef) :
    Approx (evalEachLoop eval item collection body scope)
      (evalEachLoop eval' item collection body scope) := by
  refine (heval collection scope).onValue fun v => ?_
  split
  · refine Approx.after fun elements => approx_eachBody (fun v => ?_) _ _
    exact Approx.after fun inner => .after fun _ => heval body inner
  · exact .refl _

private theorem approx_evalBinary (op : String) (left right : Node) (scope : ScopeRef) :
    Approx (evalBinary eval op left right scope) (evalBinary eval' op left right scope) := by
  unfold evalBinary
  split
  · refine (heval left scope).onValue fun v => ?_
    split
    · split
      · exact .refl _
      · exact (heval right scope).onValue fun v => .refl _
    · exact .refl _
  · exact (heval left scope).onValue fun _ => (heval right scope).onValue fun _ => .refl _

/-- A call evaluates the body of the function. -/
private theorem approx_callClosure (params : List String) (body : Node) (scope : ScopeRef)
    (name : Option String) (args : List Value) :
    Approx (callClosure eval params body scope name args)
      (callClosure eval' params body scope name args) := by
  refine Approx.after fun inner => .after fun _ => .after fun _ => ?_
  split
  · exact (approx_evalBlock heval _ inner).bind fun _ => .refl _
  · exact .refl _

variable (hcall : ∀ f args, Approx (call f args) (call' f args))
include hcall

/-- What is called is looked up first, which evaluates nothing. -/
private theorem approx_callValue (f : Value) (args : List Value) :
    Approx (callValue eval call f args) (callValue eval' call' f args) := by
  unfold callValue
  split
  · refine Approx.after fun function? => ?_
    split
    · exact approx_callClosure heval _ _ _ _ _
    · exact Approx.after fun _ => Native.approx_run hcall _ _
    · exact .refl _
  · exact .refl _

/-- **A tree is approximated if its parts and its calls are.** -/
private theorem approx_evalNode (node : Node) (scope : ScopeRef) :
    Approx (evalNode eval call node scope) (evalNode eval' call' node scope) := by
  cases node with
  | array elements => exact (approx_evalAll heval scope elements).onValue fun _ => .refl _
  | object entries => exact (approx_evalEntries heval scope .empty entries).onValue fun _ => .refl _
  | template parts => exact (approx_evalParts heval scope "" parts).onValue fun _ => .refl _
  | varDecl _ n _ | assign _ n | output n | ret n | member n _ =>
    exact (heval n scope).onValue fun _ => .refl _
  | index target position =>
    exact (heval target scope).onValue fun _ => (heval position scope).onValue fun _ => .refl _
  | call callee args =>
    exact (heval callee scope).onValue fun f => (approx_evalAll heval scope args).onValue fun vs =>
      (hcall f vs).bind fun _ => .refl _
  | block statements =>
    exact Approx.after fun inner => approx_evalBlock heval statements inner
  | spaceDecl name members =>
    refine Approx.after fun declared => ?_
    split
    · exact .refl _
    · exact Approx.after fun inner =>
        (approx_initSpace heval name inner members).bind fun _ => .refl _
  | conditional branches otherwise => exact approx_evalBranches heval scope otherwise branches
  | selection subject arms otherwise =>
    exact (heval subject scope).onValue fun v => approx_evalArms heval scope v otherwise arms
  | countLoop counter count body => exact approx_evalCountLoop heval counter count body scope
  | eachLoop item collection body => exact approx_evalEachLoop heval item collection body scope
  | binary op left right => exact approx_evalBinary heval op left right scope
  -- all other trees have no parts that are evaluated
  | _ => exact .refl _

end Constructs

/-! ### Larger bounds -/

/-- **A larger bound changes nothing but that less runs out.** -/
theorem approx_within (fuel : Nat) :
    (∀ n scope, Approx (evalWithin fuel n scope) (evalWithin (fuel + 1) n scope)) ∧
      ∀ f args, Approx (callWithin fuel f args) (callWithin (fuel + 1) f args) := by
  induction fuel with
  | zero =>
    refine ⟨fun n scope => ?_, fun f args => ?_⟩
    · rw [evalWithin]
      exact approx_outOfFuel _
    · rw [callWithin]
      exact approx_outOfFuel _
  | succ fuel ih =>
    refine ⟨fun n scope => ?_, fun f args => ?_⟩
    · rw [evalWithin, evalWithin]
      exact approx_evalNode ih.1 ih.2 n scope
    · rw [callWithin, callWithin]
      exact approx_callValue ih.1 ih.2 f args

/-- A program with a larger bound does the same unless it ran out of the smaller one. -/
theorem approx_runProgram (fuel : Nat) (program : Node) (scope : ScopeRef) :
    Approx (runProgram fuel program scope) (runProgram (fuel + 1) program scope) := by
  refine Approx.after fun _ => ?_
  split
  · refine Approx.after fun _ => Approx.closingFile ?_
    exact (approx_evalBlock (approx_within fuel).1 _ scope).bind fun _ => .refl _
  · exact .refl _

/-- A computation that does not run out ends with what it comes to, if it approximates itself with a
larger bound. -/
theorem Eval.ends_of_not_ranOut {α : Type} {x : Nat → Eval α}
    (h : ∀ fuel, Approx (x fuel) (x (fuel + 1))) {w : World} {least : Nat}
    (hleast : ¬ RanOut (x least w)) : Ends x w (x least w) := by
  refine ⟨hleast, least, fun fuel hle => ?_⟩
  -- every larger bound gives the same, step by step
  induction fuel, hle using Nat.le_induction with
  | base => rfl
  | succ fuel _ ih =>
    rcases h fuel w with hout | heq
    · rw [ih] at hout
      exact absurd hout hleast
    · rw [← heq, ih]

/-- **A computation runs out for every bound or it ends**, if it approximates itself with a larger
bound. -/
theorem Eval.ranOut_or_ends {α : Type} {x : Nat → Eval α}
    (h : ∀ fuel, Approx (x fuel) (x (fuel + 1))) (w : World) :
    (∀ fuel, RanOut (x fuel w)) ∨ ∃ r, Ends x w r := by
  by_cases hout : ∀ fuel, RanOut (x fuel w)
  · exact .inl hout
  · obtain ⟨least, hleast⟩ := not_forall.1 hout
    exact .inr ⟨_, ends_of_not_ranOut h hleast⟩

end Sigil
