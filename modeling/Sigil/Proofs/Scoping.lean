import Sigil.Proofs.Change
import Sigil.Proofs.Grammar.Items
import Sigil.Proofs.Surface.Printer

/-!
# Expressions and the scopes around them

In a scoped tree, declarations, assignments and output statements stand in sequences of statements
only, and the bodies of functions are blocks. All trees of program texts are scoped
(`scoped_of_parseProgram`).

Blocks, loops, calls and functions with names declare names, but each in a scope that it makes
itself. So evaluating an expression leaves all scopes that were there before exactly as they were,
and of their variables only the values of mutable ones change (`scope_eq_of_scoped`). The functions
in the store may be any: a call evaluates their bodies in new scopes.
-/

namespace Sigil

open Eval
open Printer (isDeclaration)

/-! ### Scoped trees -/

namespace Node

/-- The body of a function is a block. -/
def HasBlockBody : Node → Prop
  | .functionDecl _ _ body | .functionExpr _ _ body => ∃ statements, body = .block statements
  | _ => True

/-- **Scoped trees**: declarations, assignments and output statements stand only where statements
do, and the bodies of functions are blocks. -/
inductive Scoped : Node → Prop
  | intro {n : Node} : n.HasBlockBody → (∀ c ∈ n.statements, Scoped c) →
      (∀ c ∈ n.operands, Scoped c) → (∀ c ∈ n.operands, isDeclaration c = false) → Scoped n

theorem Scoped.of_statements {n : Node} (hbody : n.HasBlockBody)
    (hstatements : ∀ c ∈ n.statements, c.Scoped) (hoperands : n.operands = []) : n.Scoped := by
  refine .intro hbody hstatements ?_ ?_
  · rw [hoperands]
    exact List.forall_mem_nil _
  · rw [hoperands]
    exact List.forall_mem_nil _

private theorem declaresName_eq_false {n : Node} (h : isDeclaration n = false) :
    n.declaresName = false := by
  cases n with
  | varDecl | functionDecl | spaceDecl => cases h
  | _ => rfl

/-- A scoped tree that is not a declaration declares no names in its own scope. -/
theorem Scoped.quiet {n : Node} (h : n.Scoped) (hn : isDeclaration n = false) : n.Quiet := by
  induction h with
  | intro _ _ _ hoperands _ ih =>
    exact .intro (declaresName_eq_false hn) fun c hc => ih c hc (hoperands c hc)

end Node

/-! ### Statements in the grammar -/

/-- The rules that derive statements, declarations among them. -/
def Rule.isStatement : Rule → Bool
  | .statement | .constantDecl | .variableDecl | .assignment | .output | .functionDecl
  | .spaceDecl | .spaceMember => true
  | _ => false

/-- The labels of sequences of statements. -/
def Label.takesStatements : Label → Bool
  | .program | .body | .spaceDecl | .block => true
  | _ => false

/-- The labels of declarations. -/
def Label.declares : Label → Bool
  | .constantDecl | .variableDecl | .assignment | .output | .functionDecl | .spaceDecl => true
  | _ => false

namespace Ebnf

mutual

/-- Whether no rule for statements stands in a right-hand side. -/
def isPlain : Ebnf → Bool
  | .mark _ | .token _ => true
  | .rule r => !r.isStatement
  | .seq parts => arePlain parts
  | .either a b => a.isPlain && b.isPlain
  | .optional a | .many a | .some a => a.isPlain

/-- Whether no rule for statements stands in any of some right-hand sides. -/
def arePlain : List Ebnf → Bool
  | [] => true
  | e :: es => e.isPlain && arePlain es

end

private theorem isPlain_of_arePlain {e : Ebnf} {es : List Ebnf} (h : arePlain es) (he : e ∈ es) :
    e.isPlain := by
  induction es with
  | nil => cases he
  | cons first rest ih =>
    rw [arePlain, Bool.and_eq_true] at h
    rcases List.mem_cons.1 he with rfl | he
    · exact h.1
    · exact ih h.2 he

private theorem isPlain_of_mem_parts {e a : Ebnf} (h : e.isPlain) (ha : a ∈ e.parts) :
    a.isPlain := by
  cases e with
  | mark | token | rule => cases ha
  | seq parts => exact isPlain_of_arePlain h ha
  | either =>
    rw [isPlain, Bool.and_eq_true] at h
    simp only [parts, List.mem_cons, List.not_mem_nil, or_false] at ha
    rcases ha with rfl | rfl
    · exact h.1
    · exact h.2
  | optional | many | some =>
    obtain rfl := List.mem_singleton.1 ha
    exact h

end Ebnf

section Grammar

variable {r : Rule} {label : Label} {e : Ebnf}

/-- **Statements stand in sequences of statements.** Only the productions of these mention a rule
for statements, apart from the rules for statements themselves, and only the latter make
declarations. -/
theorem statements_of_mem_grammar (r : Rule) :
    ∀ p ∈ grammar r, (r.isStatement || p.1.all fun label => !label.declares) ∧
      (p.1.elim r.isStatement Label.takesStatements || p.2.isPlain) := by
  cases r <;> decide

private theorem declares_eq_false (h : (some label, e) ∈ grammar r) (hr : r.isStatement = false) :
    label.declares = false := by
  simpa [hr] using (statements_of_mem_grammar r _ h).1

private theorem isPlain_of_made (h : (some label, e) ∈ grammar r)
    (hlabel : label.takesStatements = false) :
    e.isPlain := by
  simpa [hlabel] using (statements_of_mem_grammar r _ h).2

private theorem isPlain_of_passed (h : (none, e) ∈ grammar r) (hr : r.isStatement = false) :
    e.isPlain := by
  simpa [hr] using (statements_of_mem_grammar r _ h).2

end Grammar

/-! ### The trees in items -/

/-- The trees in an item. The body of a function is a block. -/
def Item.nodes : Item → List Node
  | .token _ | .names _ => []
  | .parts ps => ps.filterMap Sum.getRight?
  | .node n | .fallback n | .entry _ n | .whole n => [n]
  | .body ns => [.block ns]
  | .args ns => ns
  | .clause c b => [c, b]
  | .arms clauses otherwise => otherwise :: Node.pairParts clauses

/-- A tree that a label has put together from given trees. -/
structure PutTogether (label : Label) (given : List Node) (n : Node) : Prop where
  hasBlockBody : n.HasBlockBody
  statements_mem : ∀ c ∈ n.statements, c ∈ given
  operands_mem : ∀ c ∈ n.operands, c ∈ given ∨ c = .absent
  operands_eq_nil : label.takesStatements → n.operands = []
  isDeclaration_eq : isDeclaration n = label.declares

section Produce

variable {items : List Item}

private theorem PutTogether.of_statements {label : Label} {given : List Node} {n : Node}
    (hbody : n.HasBlockBody) (hstatements : ∀ c ∈ n.statements, c ∈ given)
    (hoperands : n.operands = []) (hlabel : isDeclaration n = label.declares) :
    PutTogether label given n := by
  refine ⟨hbody, hstatements, ?_, fun _ => hoperands, hlabel⟩
  rw [hoperands]
  exact List.forall_mem_nil _

private theorem PutTogether.of_operands {label : Label} {given : List Node} {n : Node}
    (hbody : n.HasBlockBody) (hstatements : n.statements = [])
    (hoperands : ∀ c ∈ n.operands, c ∈ given ∨ c = .absent)
    (htakes : label.takesStatements = false) (hlabel : isDeclaration n = label.declares) :
    PutTogether label given n := by
  refine ⟨hbody, ?_, hoperands, fun h => ?_, hlabel⟩
  · rw [hstatements]
    exact List.forall_mem_nil _
  · rw [htakes] at h
    cases h

private theorem mem_nodes_of_mapM_node? {ns : List Node} (h : items.mapM Item.node? = some ns)
    {n : Node} (hn : n ∈ ns) : n ∈ items.flatMap Item.nodes :=
  List.mem_flatMap.2 ⟨.node n, node_mem_of_mapM h hn, by simp [Item.nodes]⟩

private theorem mem_nodes_of_clauses? {clauses : List (Node × Node)} {otherwise : Node}
    (h : clauses? items = some (clauses, otherwise)) {n : Node}
    (hn : n ∈ otherwise :: Node.pairParts clauses) :
    n ∈ items.flatMap Item.nodes ∨ n = .absent := by
  obtain ⟨hclauses, hotherwise⟩ := mem_of_clauses? h
  rcases List.mem_cons.1 hn with rfl | hn
  · by_cases hne : n = .absent
    · exact .inr hne
    · exact .inl (List.mem_flatMap.2 ⟨_, hotherwise hne, by simp [Item.nodes]⟩)
  · obtain ⟨clause, hclause, hn⟩ := List.mem_flatMap.1 hn
    exact .inl (List.mem_flatMap.2 ⟨_, hclauses clause hclause, hn⟩)

/-- **The trees in what a label makes** are among those in its items, or put together from them. -/
theorem putTogether_of_makes {label : Label} {item : Item} (h : Makes label items item) :
    ∀ n ∈ item.nodes, n ∈ items.flatMap Item.nodes ∧ label.takesStatements = false ∨
      PutTogether label (items.flatMap Item.nodes) n := by
  intro n hn
  cases h with
  | params | sign => cases hn
  | soleExpression | branch | otherwise | arm | defaultArm | objectMember =>
    exact .inl ⟨by simpa [Item.nodes] using hn, rfl⟩
  | arguments hargs => exact .inl ⟨mem_nodes_of_mapM_node? hargs hn, rfl⟩
  -- these take statements, and have no operands
  | program hnodes | body hnodes | block hnodes | spaceDecl hnodes =>
    obtain rfl := List.mem_singleton.1 hn
    exact .inr (.of_statements trivial (fun c hc => mem_nodes_of_mapM_node? hnodes hc) rfl rfl)
  | array helements =>
    obtain rfl := List.mem_singleton.1 hn
    refine .inr (.of_operands trivial rfl (fun c hc => .inl ?_) rfl rfl)
    exact mem_nodes_of_mapM_node? helements hc
  | object hentries =>
    obtain rfl := List.mem_singleton.1 hn
    refine .inr (.of_operands trivial rfl (fun c hc => .inl ?_) rfl rfl)
    obtain ⟨entry, hentry, rfl⟩ := List.mem_map.1 hc
    exact List.mem_flatMap.2 ⟨_, entry_mem_of_mapM hentries hentry, by simp [Item.nodes]⟩
  | arms harms =>
    rcases mem_nodes_of_clauses? harms hn with hmem | rfl
    · exact .inl ⟨hmem, rfl⟩
    · -- without a default there is an absent tree in its place
      exact .inr (.of_statements trivial (List.forall_mem_nil _) rfl rfl)
  | conditional hbranches =>
    obtain rfl := List.mem_singleton.1 hn
    refine .inr (.of_operands trivial rfl (fun c hc => ?_) rfl rfl)
    have hclauses := mem_nodes_of_clauses? hbranches (n := c)
    simp only [Node.operands, Node.pairParts, List.flatMap_cons, List.mem_cons, List.mem_append,
      List.not_mem_nil, or_false, Item.nodes] at hc hclauses ⊢
    grind
  | functionDecl | functionExpr =>
    obtain rfl := List.mem_singleton.1 hn
    refine .inr (.of_operands ⟨_, rfl⟩ rfl (fun c hc => .inl ?_) rfl rfl)
    simpa [Node.operands, Item.nodes] using hc
  | constantDecl | variableDecl | assignment | output | selection | countLoop | countLoop_counter
  | eachLoop | result | call | index | member | template | binary =>
    obtain rfl := List.mem_singleton.1 hn
    refine .inr (.of_operands trivial rfl (fun c hc => .inl ?_) rfl rfl)
    simpa [Node.operands, Item.nodes] using hc
  | number | string | yes | no | nothing | ident | spaceRef =>
    obtain rfl := List.mem_singleton.1 hn
    exact .inr (.of_statements trivial (List.forall_mem_nil _) rfl rfl)

end Produce

/-! ### Trees of texts -/

private theorem scoped_absent : Node.Scoped .absent :=
  .of_statements trivial (List.forall_mem_nil _) rfl

/-- **To be scoped is hereditary**, where a tree is no declaration unless a rule for statements has
derived it. -/
theorem hereditary_scoped :
    Hereditary (fun n => n.Scoped ∧ isDeclaration n = false) fun e item =>
      ∀ n ∈ item.nodes, n.Scoped ∧ (e.isPlain → isDeclaration n = false) where
  token _ _ := List.forall_mem_nil _
  template hparts := by
    intro n hn
    obtain ⟨part, hpart, heq⟩ := List.mem_filterMap.1 hn
    obtain rfl := Sum.getRight?_eq_some_iff.1 heq
    exact ⟨(hparts n hpart).1, fun _ => (hparts n hpart).2⟩
  made := by
    intro r label e items item hmem hitems hproduce n hn
    have hgiven : ∀ c ∈ items.flatMap Item.nodes,
        c.Scoped ∧ (e.isPlain → isDeclaration c = false) := by
      intro c hc
      obtain ⟨i, hi, hc⟩ := List.mem_flatMap.1 hc
      exact hitems i hi c hc
    rcases putTogether_of_makes (makes_of_produce hproduce) n hn with ⟨hmem', hlabel⟩ | hnew
    · obtain ⟨hscoped, hplain⟩ := hgiven n hmem'
      exact ⟨hscoped, fun _ => hplain (isPlain_of_made hmem hlabel)⟩
    · refine ⟨.intro hnew.hasBlockBody (fun c hc => (hgiven c (hnew.statements_mem c hc)).1)
        (fun c hc => ?_) (fun c hc => ?_), fun hr => ?_⟩
      · rcases hnew.operands_mem c hc with hc | rfl
        · exact (hgiven c hc).1
        · exact scoped_absent
      · rcases hnew.operands_mem c hc with hc' | rfl
        · -- a label that takes statements puts together trees without operands
          refine (hgiven c hc').2 (isPlain_of_made hmem ?_)
          by_contra hlabel
          rw [hnew.operands_eq_nil (by simpa using hlabel)] at hc
          cases hc
        · rfl
      · rw [hnew.isDeclaration_eq]
        exact declares_eq_false hmem (by simpa [Ebnf.isPlain] using hr)
  passed := by
    intro r e item hmem hitem n hn
    obtain ⟨hscoped, hplain⟩ := hitem n hn
    exact ⟨hscoped, fun hr => hplain (isPlain_of_passed hmem (by simpa [Ebnf.isPlain] using hr))⟩
  part ha hitem n hn :=
    ⟨(hitem n hn).1, fun he => (hitem n hn).2 (Ebnf.isPlain_of_mem_parts he ha)⟩
  tail := by
    intro e es item hitem n hn
    refine ⟨(hitem n hn).1, fun he => (hitem n hn).2 ?_⟩
    rw [Ebnf.isPlain, Ebnf.arePlain, Bool.and_eq_true] at he
    exact he.2
  embeds hitem := ⟨(hitem _ List.mem_cons_self).1, (hitem _ List.mem_cons_self).2 rfl⟩

/-- The tree of a program text is scoped. -/
theorem scoped_of_parseProgram {text : String} {program : Node}
    (h : parseProgram text = .ok program) : program.Scoped := by
  obtain ⟨body, rfl, hbody⟩ := hereditary_scoped.of_parseProgram h
  exact .of_statements trivial (fun c hc => (hbody c hc c List.mem_cons_self).1) rfl

/-! ### Evaluation -/

/-- **Expressions never touch the scopes around them.** However the evaluation of a scoped tree that
is no declaration ends, each scope that was there before has the same names for the same cells, the
same namespaces and the same parent; and of the cells that were there before only those of mutable
variables may have other values. All trees of program texts are scoped. -/
theorem scope_eq_of_scoped :
    (∀ text program, parseProgram text = .ok program → program.Scoped) ∧
    ∀ (fuel : Nat) (n : Node) (scope : ScopeRef) (w : World), n.Scoped → isDeclaration n = false →
      (∀ r old, w.store.scope? r = some old →
        (storeAfter (evalWithin fuel n scope w)).scope? r = some old) ∧
      ∀ r old, w.store.cell? r = some old →
        ∃ new, (storeAfter (evalWithin fuel n scope w)).cell? r = some new ∧
          new.isMutable = old.isMutable ∧ (old.isMutable = false → new.value = old.value) := by
  refine ⟨fun text program => scoped_of_parseProgram, fun fuel n scope w hscoped hn => ?_⟩
  -- the scopes that are opened are those that are not there yet
  have hchanges :=
    ((Law.changes fun r => w.store.scopes.size ≤ r.index).obeys_within fuel).1 n scope
      (.inr (hscoped.quiet hn))
  have hreaches := hchanges.reaches w fun _ hr => hr
  constructor
  · intro r old hold
    obtain ⟨new, hnew, -, heq⟩ := hreaches.exists_scope hold
    have hlt : r.index < w.store.scopes.size := (Array.getElem?_eq_some_iff.1 hold).1
    rw [hnew, heq (Nat.not_le.2 hlt)]
  · intro r old hold
    obtain ⟨new, hnew, hextends⟩ := hreaches.exists_cell hold
    exact ⟨new, hnew, hextends.isMutable_eq, hextends.value_eq⟩

/-- A block that declares a name of the scope around it once more and assigns to another. -/
theorem scope_eq_of_scoped_block :
    let n : Node := .block [.varDecl "x" .nothing false, .assign "y" (.ident "x")]
    let s := (Store.empty.newScope none).2.define ⟨0⟩ "x" (.bool true) false
    let w : World := ⟨s.define ⟨0⟩ "y" (.bool false) true, #[], .fresh 0 none⟩
    (parseProgram "x" = .ok (.program [.ident "x"]) ∧ (Node.program [.ident "x"]).Scoped) ∧
    (n.Scoped ∧ isDeclaration n = false) ∧
    (∀ r old, w.store.scope? r = some old →
      (storeAfter (evalWithin 9 n ⟨0⟩ w)).scope? r = some old) ∧
    ∀ r old, w.store.cell? r = some old →
      ∃ new, (storeAfter (evalWithin 9 n ⟨0⟩ w)).cell? r = some new ∧
        new.isMutable = old.isMutable ∧ (old.isMutable = false → new.value = old.value) := by
  intro n s w
  have hparse : parseProgram "x" = .ok (.program [.ident "x"]) := by
    have hplace : (Cursor.start "x".toList).skipLayout = ⟨[], ['x']⟩ :=
      Cursor.skipLayout_of_none rfl
    rw [parseProgram, Reading.readText,
      Reading.read_of_lexeme? (l := ⟨.name, ['x']⟩)
        (by rw [hplace]; exact List.cons_ne_nil _ _) (by rw [hplace]; decide) rfl rfl,
      Reading.read_of_end (by rw [hplace]; simp [Cursor.advance])]
    rfl
  have hleaf {c : Node} (hbody : c.HasBlockBody) (hstatements : c.statements = [])
      (hoperands : c.operands = []) : c.Scoped :=
    .of_statements hbody (hstatements ▸ List.forall_mem_nil _) hoperands
  have hdeclaration : (Node.varDecl "x" .nothing false).Scoped :=
    .intro trivial (List.forall_mem_nil _) (List.forall_mem_singleton.2 (hleaf trivial rfl rfl))
      (List.forall_mem_singleton.2 rfl)
  have hassignment : (Node.assign "y" (.ident "x")).Scoped :=
    .intro trivial (List.forall_mem_nil _) (List.forall_mem_singleton.2 (hleaf trivial rfl rfl))
      (List.forall_mem_singleton.2 rfl)
  have hn : n.Scoped := by
    refine .of_statements trivial ?_ rfl
    exact List.forall_mem_cons.2 ⟨hdeclaration, List.forall_mem_singleton.2 hassignment⟩
  exact ⟨⟨hparse, scope_eq_of_scoped.1 _ _ hparse⟩, ⟨hn, rfl⟩,
    scope_eq_of_scoped.2 9 n ⟨0⟩ w hn rfl⟩

end Sigil
