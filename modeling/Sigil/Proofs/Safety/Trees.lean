import Sigil.Eval.Operator
import Sigil.Proofs.Grammar.Items

/-!
# Trees that can be evaluated

A tree that comes from a stored document may be malformed: a part may be missing, a literal may hold
a value that its kind does not have, the body of a function may not be a block. `Node.Evaluable`
are the trees that are not malformed anywhere, and every tree of a program text is one of them. The
proof follows the derivation of the text: what each label of the grammar makes of evaluable parts is
evaluable (`evaluable_of_produce`), so to be evaluable is hereditary.
-/

namespace Sigil

/-- **Trees that can be evaluated**: no part is missing but that of a conditional or a selection
that is left otherwise, every literal has a value, the body of each function is a block, and there
is no program inside. -/
inductive Node.Evaluable : Node → Prop
  | literal {v kind : Json} {value : Value} :
      literalValue v kind = .ok value → Evaluable (.literal v kind)
  | array {elements : List Node} : (∀ n ∈ elements, Evaluable n) → Evaluable (.array elements)
  | object {entries : List (String × Node)} :
      (∀ entry ∈ entries, Evaluable entry.2) → Evaluable (.object entries)
  | template {parts : List (String ⊕ Node)} :
      (∀ n, .inr n ∈ parts → Evaluable n) → Evaluable (.template parts)
  | ident {name : String} : Evaluable (.ident name)
  | varDecl {name : String} {value : Node} {isMutable : Bool} :
      Evaluable value → Evaluable (.varDecl name value isMutable)
  | assign {name : String} {value : Node} : Evaluable value → Evaluable (.assign name value)
  | member {target : Node} {name : String} : Evaluable target → Evaluable (.member target name)
  | index {target position : Node} :
      Evaluable target → Evaluable position → Evaluable (.index target position)
  | spaceMember {space member : String} : Evaluable (.spaceMember space member)
  | call {callee : Node} {args : List Node} :
      Evaluable callee → (∀ n ∈ args, Evaluable n) → Evaluable (.call callee args)
  | block {statements : List Node} : (∀ n ∈ statements, Evaluable n) → Evaluable (.block statements)
  | functionDecl {name : String} {params : List String} {statements : List Node} :
      (∀ n ∈ statements, Evaluable n) → Evaluable (.functionDecl name params (.block statements))
  | functionExpr {name : Option String} {params : List String} {statements : List Node} :
      (∀ n ∈ statements, Evaluable n) → Evaluable (.functionExpr name params (.block statements))
  | spaceDecl {name : String} {members : List Node} :
      (∀ n ∈ members, Evaluable n) → Evaluable (.spaceDecl name members)
  | conditional {branches : List (Node × Node)} {otherwise : Node} :
      (∀ branch ∈ branches, Evaluable branch.1) → (∀ branch ∈ branches, Evaluable branch.2) →
        (otherwise ≠ .absent → Evaluable otherwise) → Evaluable (.conditional branches otherwise)
  | selection {subject : Node} {arms : List (Node × Node)} {otherwise : Node} :
      Evaluable subject → (∀ arm ∈ arms, Evaluable arm.1) → (∀ arm ∈ arms, Evaluable arm.2) →
        (otherwise ≠ .absent → Evaluable otherwise) → Evaluable (.selection subject arms otherwise)
  | countLoop {counter : Option String} {count body : Node} :
      Evaluable count → Evaluable body → Evaluable (.countLoop counter count body)
  | eachLoop {item : String} {collection body : Node} :
      Evaluable collection → Evaluable body → Evaluable (.eachLoop item collection body)
  | ret {value : Node} : Evaluable value → Evaluable (.ret value)
  | output {value : Node} : Evaluable value → Evaluable (.output value)
  | binary {op : String} {left right : Node} :
      Evaluable left → Evaluable right → Evaluable (.binary op left right)

namespace Node

/-- The clauses of a conditional or of a selection can be evaluated. -/
structure EvaluableClauses (clauses : List (Node × Node)) (otherwise : Node) : Prop where
  /-- The conditions or patterns. -/
  condition : ∀ clause ∈ clauses, Evaluable clause.1
  /-- The bodies. -/
  body : ∀ clause ∈ clauses, Evaluable clause.2
  /-- What is left otherwise. -/
  otherwise : otherwise ≠ .absent → Evaluable otherwise

theorem evaluableClauses_cons {condition body otherwise : Node} {clauses : List (Node × Node)} :
    EvaluableClauses ((condition, body) :: clauses) otherwise ↔
      (condition.Evaluable ∧ body.Evaluable) ∧ EvaluableClauses clauses otherwise := by
  constructor
  · intro h
    exact ⟨⟨h.condition (condition, body) (by simp), h.body (condition, body) (by simp)⟩,
      fun c hc => h.condition c (by simp [hc]), fun c hc => h.body c (by simp [hc]), h.otherwise⟩
  · rintro ⟨⟨hcondition, hbody⟩, h⟩
    exact ⟨by simpa [hcondition] using h.condition, by simpa [hbody] using h.body, h.otherwise⟩

private theorem evaluable_number (x : Float) : Evaluable (.number x) :=
  .literal (show literalValue (.float x) (.str "num") = .ok (.num x) from rfl)

private theorem evaluable_text (s : String) : Evaluable (.text s) :=
  .literal (show literalValue (.str s) (.str "str") = .ok (.str s) from rfl)

private theorem evaluable_truth (b : Bool) : Evaluable (.truth b) :=
  .literal (show literalValue (.bool b) (.str "bool") = .ok (.bool b) from rfl)

private theorem evaluable_nothing : Evaluable .nothing :=
  .literal (show literalValue .null (.str "null") = .ok .null from rfl)

end Node

/-- All trees in an item can be evaluated; a whole program is a list of such trees. -/
def Item.Evaluable : Item → Prop
  | .token _ | .names _ => True
  | .parts ps => ∀ n, .inr n ∈ ps → n.Evaluable
  | .node n => n.Evaluable
  | .body ns | .args ns => ∀ n ∈ ns, n.Evaluable
  | .clause c b => c.Evaluable ∧ b.Evaluable
  | .fallback b => b.Evaluable
  | .arms clauses otherwise => Node.EvaluableClauses clauses otherwise
  | .entry _ n => n.Evaluable
  | .whole n => n.Evaluable ∨ ∃ statements, n = .program statements ∧ ∀ s ∈ statements, s.Evaluable

/-! ### What labels make of evaluable items -/

section Produce

variable {items : List Item}

private theorem evaluable_of_mapM_node? {ns : List Node} (hitems : ∀ item ∈ items, item.Evaluable)
    (h : items.mapM Item.node? = some ns) : ∀ n ∈ ns, n.Evaluable :=
  fun _ hn => hitems _ (node_mem_of_mapM h hn)

private theorem evaluable_of_mapM_member? {entries : List (String × Node)}
    (hitems : ∀ item ∈ items, item.Evaluable) (h : items.mapM Item.member? = some entries) :
    ∀ entry ∈ entries, entry.2.Evaluable :=
  fun _ hentry => hitems _ (entry_mem_of_mapM h hentry)

private theorem evaluable_of_clauses? {clauses : List (Node × Node)} {otherwise : Node}
    (hitems : ∀ item ∈ items, item.Evaluable) (h : clauses? items = some (clauses, otherwise)) :
    Node.EvaluableClauses clauses otherwise := by
  obtain ⟨hclauses, hotherwise⟩ := mem_of_clauses? h
  exact ⟨fun clause hclause => (hitems _ (hclauses clause hclause)).1,
    fun clause hclause => (hitems _ (hclauses clause hclause)).2,
    fun hne => hitems _ (hotherwise hne)⟩

/-- **What a label makes of evaluable items is evaluable.** -/
theorem evaluable_of_produce {label : Label} {item : Item}
    (hitems : ∀ item ∈ items, item.Evaluable) (h : produce label items = some item) :
    item.Evaluable := by
  have hnode {e : Node} (hmem : Item.node e ∈ items) : e.Evaluable := hitems (.node e) hmem
  cases makes_of_produce h with
  | program hbody => exact .inr ⟨_, rfl, evaluable_of_mapM_node? hitems hbody⟩
  | soleExpression => exact .inl (hnode (by simp))
  | constantDecl | variableDecl => exact .varDecl (hnode (by simp))
  | assignment => exact .assign (hnode (by simp))
  | output => exact .output (hnode (by simp))
  | @functionDecl _ _ body => exact .functionDecl (hitems (.body body) (by simp))
  | params | sign => trivial
  | body hnodes | arguments hnodes => exact evaluable_of_mapM_node? hitems hnodes
  | spaceDecl hmembers =>
    rw [List.forall_mem_cons] at hitems
    exact .spaceDecl (evaluable_of_mapM_node? hitems.2 hmembers)
  | @conditional condition body _ _ _ hbranches =>
    have hrest := evaluable_of_clauses? (fun item hmem => hitems item (by simp [hmem])) hbranches
    have hall := Node.evaluableClauses_cons.2
      ⟨⟨hnode (e := condition) (by simp), hnode (e := body) (by simp)⟩, hrest⟩
    exact .conditional hall.condition hall.body hall.otherwise
  | branch | arm => exact ⟨hnode (by simp), hnode (by simp)⟩
  | @otherwise body | @defaultArm body => exact hnode (e := body) (by simp)
  | @selection _ otherwise arms =>
    have harms := hitems (.arms arms otherwise) (by simp)
    exact .selection (hnode (by simp)) harms.condition harms.body harms.otherwise
  | arms harms => exact evaluable_of_clauses? hitems harms
  | countLoop | countLoop_counter => exact .countLoop (hnode (by simp)) (hnode (by simp))
  | eachLoop => exact .eachLoop (hnode (by simp)) (hnode (by simp))
  | result => exact .ret (hnode (by simp))
  | @functionExpr _ body => exact .functionExpr (hitems (.body body) (by simp))
  | @call _ args => exact .call (hnode (by simp)) (hitems (.args args) (by simp))
  | index => exact .index (hnode (by simp)) (hnode (by simp))
  | member => exact .member (hnode (by simp))
  | number => exact Node.evaluable_number _
  | string => exact Node.evaluable_text _
  | @template parts => exact .template (hitems (.parts parts) (by simp))
  | yes | no => exact Node.evaluable_truth _
  | nothing => exact Node.evaluable_nothing
  | ident => exact .ident
  | spaceRef => exact .spaceMember
  | array helements => exact .array (evaluable_of_mapM_node? hitems helements)
  | object hentries => exact .object (evaluable_of_mapM_member? hitems hentries)
  | @objectMember _ value => exact hnode (e := value) (by simp)
  | block hstatements => exact .block (evaluable_of_mapM_node? hitems hstatements)
  | binary => exact .binary (hnode (by simp)) (hnode (by simp))

end Produce

/-! ### Trees of texts -/

/-- **To be evaluable is hereditary.** -/
theorem hereditary_evaluable : Hereditary Node.Evaluable fun _ item => item.Evaluable where
  token _ _ := trivial
  template hparts := hparts
  made _ hitems hproduce := evaluable_of_produce hitems hproduce
  passed _ hitem := hitem
  part _ hitem := hitem
  tail hitem := hitem
  embeds hitem := hitem

/-- **The tree of a program text is a program, and all its statements can be evaluated.** -/
theorem evaluable_of_parseProgram {text : String} {program : Node}
    (h : parseProgram text = .ok program) :
    ∃ body, program = .program body ∧ ∀ s ∈ body, s.Evaluable :=
  hereditary_evaluable.of_parseProgram h

end Sigil
