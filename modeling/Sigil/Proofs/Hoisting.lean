import Sigil.Proofs.Change

/-!
# Hoisting

A block declares its functions and namespaces before it evaluates its statements, and when their
turn comes they are there already: nothing that is evaluated in between can take a name out of a
scope. So a block does what it would do if these declarations came first and were then left out
(`evalBlock_eq_hoist_then_rest`).

Evaluation asks whether the name of a declaration is in the scope, not whether the declaration has
been hoisted. The proof follows that question: hoisting leaves every declaration of the block
declared (`declares_of_hoist`), every later store has it declared (`Store.Reaches.declares`), and a
declaration that is declared does nothing (`evalNode_of_declares`).
-/

namespace Sigil

open Eval

/-- Whether a statement is declared before its block is evaluated: a function or a namespace. -/
def Node.isHoisted : Node → Bool
  | .functionDecl .. | .spaceDecl .. => true
  | _ => false

/-- What a block comes to if its statements that are not hoisted come to `v`: a hoisted statement at
the end gives null. -/
def blockValue (statements : List Node) (v : Value) : Value :=
  if statements.getLast?.any Node.isHoisted then .null else v

private theorem blockValue_cons_of_ne_nil (statement : Node) {rest : List Node} (h : rest ≠ [])
    (v : Value) : blockValue (statement :: rest) v = blockValue rest v := by
  obtain ⟨next, rest, rfl⟩ := List.exists_cons_of_ne_nil h
  rw [blockValue, List.getLast?_cons_cons, blockValue]

private theorem blockValue_cons_of_not_isHoisted {statement : Node} (h : ¬ statement.isHoisted)
    (rest : List Node) (v : Value) : blockValue (statement :: rest) v = blockValue rest v := by
  by_cases hrest : rest = []
  · simp [blockValue, hrest, h]
  · exact blockValue_cons_of_ne_nil statement hrest v

/-! ### Declared statements -/

namespace Store

variable {opened : ScopeRef → Prop} {s s' : Store} {r : ScopeRef} {name : String}

/-- The name of a function or namespace declaration is in the scope. -/
def Declares (s : Store) (r : ScopeRef) : Node → Prop
  | .functionDecl name _ _ => (s.ownCell? r name).isSome
  | .spaceDecl name _ => (s.ownSpace? r name).isSome
  | _ => True

/-- What is declared stays declared. -/
theorem Reaches.declares (h : s.Reaches opened s') {n : Node} (hn : s.Declares r n) :
    s'.Declares r n := by
  cases n with
  | functionDecl => exact h.ownCell?_isSome hn
  | spaceDecl => exact h.ownSpace?_isSome hn
  | _ => trivial

private theorem ownCell?_define_isSome (value : Value) (isMutable : Bool)
    (hr : (s.scope? r).isSome) :
    ((s.define r name value isMutable).ownCell? r name).isSome := by
  obtain ⟨scope, hscope⟩ := Option.isSome_iff_exists.1 hr
  simp [ownCell?, scope?_define, hscope, Table.get?_insert]

private theorem ownSpace?_defineSpace_isSome (space : ScopeRef) (hr : (s.scope? r).isSome) :
    ((s.defineSpace r name space).ownSpace? r name).isSome := by
  obtain ⟨scope, hscope⟩ := Option.isSome_iff_exists.1 hr
  simp [ownSpace?, scope?_defineSpace, hscope, Table.get?_insert]

end Store

open Store

/-! ### The declarations of a block -/

section Declarations

variable {scope : ScopeRef} {w w' : World}

private theorem declares_of_declareFunction {name : String} {params : List String} {body : Node}
    (hscope : (w.store.scope? scope).isSome)
    (hrun : declareFunction name params body scope w = .ok () w') :
    w'.store.Declares scope (.functionDecl name params body) := by
  obtain ⟨f, w₁, hnew, hrun⟩ := exists_of_bind_eq_ok hrun
  obtain ⟨_, w₂, hdefine, hnote⟩ := exists_of_bind_eq_ok hrun
  have hscope₁ := (Law.evolves_of_eq_ok (Law.evolves.of_newFunction _) hnew).scope?_isSome hscope
  refine (Law.evolves_of_eq_ok (Law.evolves.of_note _ rfl) hnote).declares ?_
  cases hdefine
  exact ownCell?_define_isSome f false hscope₁

private theorem declares_of_declareSpace {name : String} {members : List Node} {inner : ScopeRef}
    (hscope : (w.store.scope? scope).isSome)
    (hrun : declareSpace name members scope w = .ok inner w') :
    w'.store.Declares scope (.spaceDecl name members) := by
  obtain ⟨r, w₁, hnew, hrun⟩ := exists_of_bind_eq_ok hrun
  obtain ⟨_, w₂, hmembers, hrun⟩ := exists_of_bind_eq_ok hrun
  obtain ⟨_, w₃, hdefine, hrun⟩ := exists_of_bind_eq_ok hrun
  obtain ⟨_, w₄, hnote, hpure⟩ := exists_of_bind_eq_ok hrun
  have hscope₁ := (Law.evolves_of_eq_ok (Law.evolves.of_newScope _) hnew).scope?_isSome hscope
  have hscope₂ := (Law.evolves_of_eq_ok (Law.evolves.obeys_declareMembers trivial members)
    hmembers).scope?_isSome hscope₁
  cases hpure
  refine (Law.evolves_of_eq_ok (Law.evolves.of_note _ rfl) hnote).declares ?_
  cases hdefine
  exact ownSpace?_defineSpace_isSome _ hscope₂

private theorem declares_of_declareAll {statements : List Node} {spaces : List OpenSpace}
    (hscope : (w.store.scope? scope).isSome)
    (hrun : declareAll scope statements w = .ok spaces w') :
    ∀ n ∈ statements, w'.store.Declares scope n := by
  -- a declaration is made where it stands, and the rest of the statements keeps it
  fun_induction declareAll scope statements generalizing w spaces with
  | case1 => exact List.forall_mem_nil _
  | case2 name params body rest ih =>
    obtain ⟨_, w₁, hfirst, hrest⟩ := exists_of_bind_eq_ok hrun
    have hreaches := Law.evolves_of_eq_ok (Law.evolves.obeys_declareFunction _ _ _ trivial) hfirst
    have hreaches' := Law.evolves_of_eq_ok (Law.evolves.holds_declareAll trivial rest) hrest
    exact List.forall_mem_cons.2
      ⟨hreaches'.declares (declares_of_declareFunction hscope hfirst),
        ih (hreaches.scope?_isSome hscope) hrest⟩
  | case3 name members rest ih =>
    obtain ⟨inner, w₁, hfirst, hrun⟩ := exists_of_bind_eq_ok hrun
    obtain ⟨others, w₂, hrest, hpure⟩ := exists_of_bind_eq_ok hrun
    cases hpure
    have hreaches := Law.evolves_of_eq_ok (Law.evolves.holds_declareSpace _ _ trivial) hfirst
    have hreaches' := Law.evolves_of_eq_ok (Law.evolves.holds_declareAll trivial rest) hrest
    exact List.forall_mem_cons.2
      ⟨hreaches'.declares (declares_of_declareSpace hscope hfirst),
        ih (hreaches.scope?_isSome hscope) hrest⟩
  | case4 statement rest hfunction hspace ih =>
    refine List.forall_mem_cons.2 ⟨?_, ih hscope hrun⟩
    cases statement with
    | functionDecl name params body => exact (hfunction name params body rfl).elim
    | spaceDecl name members => exact (hspace name members rfl).elim
    | _ => trivial

/-- Only the statements that are hoisted are declared. -/
private theorem declareAll_filter (statements : List Node) :
    declareAll scope (statements.filter Node.isHoisted) = declareAll scope statements := by
  fun_induction declareAll scope statements with
  | case1 => rfl
  | case2 name params body rest ih => rw [List.filter_cons_of_pos rfl, declareAll, ih]
  | case3 name members rest ih => rw [List.filter_cons_of_pos rfl, declareAll, ih]
  | case4 statement rest hfunction hspace ih =>
    have hstatement : ¬ statement.isHoisted := by
      intro h
      unfold Node.isHoisted at h
      split at h
      · exact hfunction _ _ _ rfl
      · exact hspace _ _ rfl
      · cases h
    rw [List.filter_cons_of_neg hstatement]
    exact ih

theorem hoist_filter (eval : Evaluator) (statements : List Node) :
    hoist eval (statements.filter Node.isHoisted) scope = hoist eval statements scope := by
  rw [hoist, declareAll_filter, hoist]

end Declarations

/-! ### Signals pass by -/

namespace Eval

variable {α β γ : Type} {w w' : World}

theorem onValue_of_eq_value {x : Eval (Flow α)} {k : α → Eval (Flow β)} {a : α}
    (h : x w = .ok (.value a) w') : onValue x k w = k a w' := by
  simp only [onValue, Bind.bind, EStateM.bind, h]

theorem onValue_congr {x : Eval (Flow α)} {k l : α → Eval (Flow β)}
    (h : ∀ a w', x w = .ok (.value a) w' → k a w' = l a w') : onValue x k w = onValue x l w := by
  refine bind_congr_ok fun flow w' hrun => ?_
  cases flow with
  | value a => exact h a w' hrun
  | signal v => rfl

private theorem onValue_onValue (x : Eval (Flow α)) (k : α → Eval (Flow β))
    (l : β → Eval (Flow γ)) :
    onValue (onValue x k) l = onValue x fun a => onValue (k a) l := by
  funext w
  simp only [onValue, Bind.bind, EStateM.bind]
  cases x w with
  | ok flow w' => cases flow <;> rfl
  | error stop w' => rfl

end Eval

/-! ### The statements of a block -/

section Statements

variable {eval : Evaluator} {scope : ScopeRef} {w w' : World}

/-- A declaration whose name is in the scope does nothing. -/
theorem evalNode_of_declares {call : Caller} {n : Node} (hn : n.isHoisted)
    (hdeclares : w.store.Declares scope n) :
    evalNode eval call n scope w = .ok (.value .null) w := by
  cases n with
  | functionDecl name params body =>
    simp only [Declares] at hdeclares
    simp only [evalNode, declares, Bind.bind, EStateM.bind, Eval.read, hdeclares]
    rfl
  | spaceDecl name members =>
    simp only [Declares] at hdeclares
    simp only [evalNode, declaresSpace, Bind.bind, EStateM.bind, Eval.read, hdeclares]
    rfl
  | _ => cases hn

variable (heval : ∀ n scope, Law.evolves.Obeys (eval n scope))
include heval

/-- After hoisting, all declarations of the block are declared. -/
theorem declares_of_hoist {statements : List Node} (hscope : (w.store.scope? scope).isSome)
    (hrun : hoist eval statements scope w = .ok () w') :
    ∀ n ∈ statements, w'.store.Declares scope n := by
  intro n hn
  obtain ⟨spaces, w₁, hdeclare, hinit⟩ := exists_of_bind_eq_ok hrun
  have hobeys : Law.evolves.Obeys
      (spaces.forM fun space => initSpace eval space.name space.scope space.members) :=
    ContainerLaw.obeys_forM fun space _ => Law.obeys_initSpace (fun n r _ => heval n r) _ trivial _
  exact (Law.evolves_of_eq_ok hobeys hinit).declares (declares_of_declareAll hscope hdeclare n hn)

variable (hskip : ∀ n w, n.isHoisted → w.store.Declares scope n →
  eval n scope w = .ok (.value .null) w)
include hskip

/-- **Declared statements can be left out.** They do nothing when their turn comes, whatever has
been evaluated before; only what a block ends with tells whether they were there. -/
theorem evalStatements_eq_rest {statements : List Node} {last last' : Value}
    (hdeclares : ∀ n ∈ statements, w.store.Declares scope n)
    (hlast : statements = [] → last = last') :
    evalStatements eval scope last statements w =
      onValue (evalStatements eval scope last' (statements.filter (!·.isHoisted)))
        (fun v => value (blockValue statements v)) w := by
  -- the two sides agree on the value so far as soon as a statement that is not hoisted has come, so
  -- they may differ at the start unless there are no statements at all
  induction statements generalizing last last' w with
  | nil =>
    rw [hlast rfl]
    rfl
  | cons statement rest ih =>
    rw [List.forall_mem_cons] at hdeclares
    rw [evalStatements]
    by_cases hstatement : statement.isHoisted
    · rw [List.filter_cons_of_neg (by simp [hstatement])]
      rw [onValue_of_eq_value (hskip statement w hstatement hdeclares.1)]
      by_cases hrest : rest = []
      · -- a declaration at the end gives null on the one side and `blockValue` does on the other
        subst hrest
        simp only [blockValue, List.getLast?_singleton, Option.any_some, hstatement]
        rfl
      · simp only [blockValue_cons_of_ne_nil statement hrest]
        exact ih hdeclares.2 fun hnil => absurd hnil hrest
    · rw [List.filter_cons_of_pos (by simp [hstatement]), evalStatements]
      simp only [blockValue_cons_of_not_isHoisted hstatement]
      rw [onValue_onValue]
      refine onValue_congr fun v w₁ hrun => ?_
      have hreaches := Law.evolves_of_eq_ok (heval statement scope) hrun
      exact ih (fun n hn => hreaches.declares (hdeclares.2 n hn)) fun _ => rfl

end Statements

/-! ### Blocks -/

private theorem evolves_evalWithin (fuel : Nat) (n : Node) (scope : ScopeRef) :
    Law.evolves.Obeys (evalWithin fuel n scope) :=
  (Law.evolves.obeys_within fuel).1 n scope (.inl trivial)

private theorem evalWithin_of_declares (fuel : Nat) {n : Node} {scope : ScopeRef} {w : World}
    (hn : n.isHoisted) (hdeclares : w.store.Declares scope n) :
    evalWithin (fuel + 1) n scope w = .ok (.value .null) w := by
  rw [evalWithin]
  exact evalNode_of_declares hn hdeclares

/-- **Blocks in normal form.** In a scope that exists, a block does the same to the world, with the
same signal or error, as its functions and namespaces hoisted and then the rest of its statements
one after another; and it has the same value, unless a declaration stands at its end. For when the
turn of a declaration comes, whatever has been evaluated before it, it gives null and does
nothing. -/
theorem evalBlock_eq_hoist_then_rest (fuel : Nat) (statements : List Node) {scope : ScopeRef}
    {w : World} (hscope : (w.store.scope? scope).isSome) :
    evalBlock (evalWithin (fuel + 1)) statements scope w =
      (do
        hoist (evalWithin (fuel + 1)) (statements.filter Node.isHoisted) scope
        onValue
          (evalStatements (evalWithin (fuel + 1)) scope .null
            (statements.filter (!·.isHoisted)))
          fun v => value (blockValue statements v)) w ∧
    ∀ before n after, statements = before ++ n :: after → n.isHoisted →
      ∀ v w', (do
          hoist (evalWithin (fuel + 1)) statements scope
          evalStatements (evalWithin (fuel + 1)) scope .null before) w = .ok (.value v) w' →
        evalWithin (fuel + 1) n scope w' = .ok (.value .null) w' := by
  have heval := evolves_evalWithin (fuel + 1)
  constructor
  · rw [hoist_filter, evalBlock]
    refine bind_congr_ok fun _ w₁ hhoist => ?_
    have hdeclares := declares_of_hoist heval hscope hhoist
    exact evalStatements_eq_rest heval (fun n w => evalWithin_of_declares fuel) hdeclares
      fun _ => rfl
  · intro before n after hstatements hn v w' hrun
    obtain ⟨_, w₁, hhoist, hbefore⟩ := exists_of_bind_eq_ok hrun
    have hreaches := Law.evolves_of_eq_ok
      (Law.obeys_evalStatements (fun n r _ => heval n r) trivial .null before) hbefore
    have hmem : n ∈ statements := by simp [hstatements]
    exact evalWithin_of_declares fuel hn
      (hreaches.declares (declares_of_hoist heval hscope hhoist n hmem))

/-- A block that calls a function before its declaration, declares the name of the function once
more as a variable, and ends with a second declaration of the function. -/
theorem evalBlock_eq_hoist_then_rest_redeclared :
    let first := Node.functionDecl "f" [] (.block [.text "1"])
    let second := Node.functionDecl "f" [] (.block [.text "2"])
    let rest := [Node.output (.call (.ident "f") []), .varDecl "f" .nothing true]
    let w : World := ⟨(Store.empty.newScope none).2, #[], .fresh 0 none⟩
    (w.store.scope? ⟨0⟩).isSome ∧
    evalBlock (evalWithin 9) (first :: rest ++ [second]) ⟨0⟩ w =
      (do
        hoist (evalWithin 9) [first, second] ⟨0⟩
        onValue (evalStatements (evalWithin 9) ⟨0⟩ .null rest) fun _ => value .null) w ∧
    ∃ w',
      (do
        hoist (evalWithin 9) (first :: rest ++ [second]) ⟨0⟩
        evalStatements (evalWithin 9) ⟨0⟩ .null (first :: rest)) w = .ok (.value .null) w' ∧
      evalWithin 9 second ⟨0⟩ w' = .ok (.value .null) w' := by
  intro first second rest w
  have hblock := evalBlock_eq_hoist_then_rest 8 (first :: rest ++ [second])
    (show (w.store.scope? ⟨0⟩).isSome from rfl)
  exact ⟨rfl, hblock.1, _, rfl, hblock.2 (first :: rest) second [] rfl rfl _ _ rfl⟩

end Sigil
