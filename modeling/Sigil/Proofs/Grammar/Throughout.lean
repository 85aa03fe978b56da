import Sigil.Proofs.Grammar.Items
import Sigil.Proofs.Parts

/-!
# Properties throughout a tree

A property holds *throughout* a tree if the tree and all its parts have it, at every depth
(`Node.Throughout`). What a label of the grammar makes of items has the property throughout if these
items have it and the one new tree has it as well (`throughout_of_makes`). So for a fact about all
trees in a program only the trees that the labels make are looked at.
-/

namespace Sigil

namespace Node

/-- **A property that holds throughout a tree**: of the tree and of its parts, at every depth. -/
inductive Throughout (P : Node → Prop) : Node → Prop
  | intro {n : Node} : P n → (∀ c ∈ n.statements, Throughout P c) →
      (∀ c ∈ n.operands, Throughout P c) → Throughout P n

namespace Throughout

variable {P Q : Node → Prop} {n : Node}

/-- A tree without statements. -/
theorem of_operands (hn : P n) (hstatements : n.statements = [])
    (h : ∀ c ∈ n.operands, c.Throughout P) : n.Throughout P :=
  .intro hn (hstatements ▸ List.forall_mem_nil _) h

theorem and (h : n.Throughout P) (h' : n.Throughout Q) : n.Throughout fun n => P n ∧ Q n := by
  induction h with
  | intro hn _ _ ihstatements ihoperands =>
    cases h' with
    | intro hn' hstatements hoperands =>
      exact .intro ⟨hn, hn'⟩ (fun c hc => ihstatements c hc (hstatements c hc))
        fun c hc => ihoperands c hc (hoperands c hc)

end Throughout

private theorem forall_mem_pairParts {P : Node → Prop} {pairs : List (Node × Node)}
    (h : ∀ pair ∈ pairs, P pair.1 ∧ P pair.2) : ∀ c ∈ pairParts pairs, P c := by
  intro c hc
  obtain ⟨pair, hpair, hc⟩ := List.mem_flatMap.1 hc
  simp only [List.mem_cons, List.not_mem_nil, or_false] at hc
  rcases hc with rfl | rfl
  · exact (h pair hpair).1
  · exact (h pair hpair).2

end Node

open Node

variable {P : Node → Prop}

/-- A property holds throughout all trees in an item. -/
def Item.Throughout (P : Node → Prop) : Item → Prop
  | .token _ | .names _ => True
  | .parts ps => ∀ n, .inr n ∈ ps → n.Throughout P
  | .node n | .fallback n | .entry _ n | .whole n => n.Throughout P
  | .body ns | .args ns => ∀ n ∈ ns, n.Throughout P
  | .clause c b => c.Throughout P ∧ b.Throughout P
  | .arms clauses otherwise =>
    otherwise.Throughout P ∧ ∀ clause ∈ clauses, clause.1.Throughout P ∧ clause.2.Throughout P

/-- A property of the trees that stand where there is no label for them: of blocks, of whole
programs and of absent trees. -/
structure Node.Unlabelled (P : Node → Prop) : Prop where
  absent : P .absent
  block : ∀ statements, P (.block statements)
  program : ∀ body, P (.program body)

private theorem throughout_of_clauses? (hP : Unlabelled P) {items : List Item}
    {clauses : List (Node × Node)} {otherwise : Node}
    (hitems : ∀ item ∈ items, item.Throughout P)
    (h : clauses? items = some (clauses, otherwise)) :
    otherwise.Throughout P ∧
      ∀ clause ∈ clauses, clause.1.Throughout P ∧ clause.2.Throughout P := by
  obtain ⟨hclauses, hotherwise⟩ := mem_of_clauses? h
  refine ⟨?_, fun clause hclause => hitems _ (hclauses clause hclause)⟩
  by_cases habsent : otherwise = .absent
  · subst habsent
    exact .of_operands hP.absent rfl (List.forall_mem_nil _)
  · exact hitems _ (hotherwise habsent)

/-- **What labels make.** A property holds throughout if it holds throughout the parts and of the
new tree. -/
theorem throughout_of_makes (hP : Unlabelled P) {label : Label} {items : List Item} {item : Item}
    (h : Makes label items item) (hitems : ∀ item ∈ items, item.Throughout P)
    (hmade : ∀ n, item = .node n → P n) : item.Throughout P := by
  have hnode {e : Node} (hmem : Item.node e ∈ items) : e.Throughout P := hitems (.node e) hmem
  -- a body comes as a list of statements and becomes a block in the tree
  have hblock {body : List Node} (hmem : Item.body body ∈ items) :
      (Node.block body).Throughout P :=
    .intro (hP.block body) (hitems (.body body) hmem) (List.forall_mem_nil _)
  cases h with
  | program hbody =>
    exact .intro (hP.program _) (fun n hn => hnode (node_mem_of_mapM hbody hn))
      (List.forall_mem_nil _)
  | block hbody =>
    exact .intro (hP.block _) (fun n hn => hnode (node_mem_of_mapM hbody hn))
      (List.forall_mem_nil _)
  | soleExpression => exact hnode (by simp)
  | constantDecl | variableDecl | assignment | output | result | member =>
    exact .of_operands (hmade _ rfl) rfl (List.forall_mem_singleton.2 (hnode (by simp)))
  | functionDecl | functionExpr =>
    exact .of_operands (hmade _ rfl) rfl (List.forall_mem_singleton.2 (hblock (by simp)))
  | params | sign => trivial
  | body hnodes | arguments hnodes => exact fun n hn => hnode (node_mem_of_mapM hnodes hn)
  | spaceDecl hmembers =>
    exact .intro (hmade _ rfl)
      (fun n hn => hnode (List.mem_cons_of_mem _ (node_mem_of_mapM hmembers hn)))
      (List.forall_mem_nil _)
  | @conditional condition body _ _ _ hbranches =>
    obtain ⟨hotherwise, hrest⟩ :=
      throughout_of_clauses? hP (fun item hmem => hitems item (by simp [hmem])) hbranches
    refine .of_operands (hmade _ rfl) rfl
      (List.forall_mem_cons.2 ⟨hotherwise, forall_mem_pairParts ?_⟩)
    exact List.forall_mem_cons.2 ⟨⟨hnode (by simp), hnode (by simp)⟩, hrest⟩
  | branch | arm => exact ⟨hnode (by simp), hnode (by simp)⟩
  | @otherwise body | @defaultArm body | @objectMember _ body => exact hnode (e := body) (by simp)
  | @selection subject otherwise arms =>
    obtain ⟨hotherwise, harms⟩ := hitems (.arms arms otherwise) (by simp)
    exact .of_operands (hmade _ rfl) rfl (List.forall_mem_cons.2 ⟨hnode (by simp),
      List.forall_mem_cons.2 ⟨hotherwise, forall_mem_pairParts harms⟩⟩)
  | arms harms => exact throughout_of_clauses? hP hitems harms
  | countLoop | countLoop_counter | eachLoop | index | binary =>
    exact .of_operands (hmade _ rfl) rfl (List.forall_mem_cons.2 ⟨hnode (by simp),
      List.forall_mem_singleton.2 (hnode (by simp))⟩)
  | @call callee args =>
    exact .of_operands (hmade _ rfl) rfl
      (List.forall_mem_cons.2 ⟨hnode (by simp), hitems (.args args) (by simp)⟩)
  | number | string | yes | no | nothing | ident | spaceRef =>
    exact .of_operands (hmade _ rfl) rfl (List.forall_mem_nil _)
  | @template parts =>
    refine .of_operands (hmade _ rfl) rfl fun n hn => ?_
    obtain ⟨part, hpart, hright⟩ := List.mem_filterMap.1 hn
    cases part <;> cases hright
    exact hitems (.parts parts) (by simp) n hpart
  | array helements =>
    exact .of_operands (hmade _ rfl) rfl fun n hn => hnode (node_mem_of_mapM helements hn)
  | object hentries =>
    refine .of_operands (hmade _ rfl) rfl fun n hn => ?_
    obtain ⟨entry, hentry, rfl⟩ := List.mem_map.1 hn
    exact hitems _ (entry_mem_of_mapM hentries hentry)

end Sigil
