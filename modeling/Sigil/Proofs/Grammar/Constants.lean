import Sigil.Proofs.Grammar.Throughout

/-!
# Namespaces of program texts hold constants

The grammar has functions and constants as the members of a namespace, no mutable variables. So in
the tree of a program text no namespace declares a mutable variable, at whatever depth it stands
(`constantSpaces_of_parseProgram`).
-/

namespace Sigil

namespace Node

/-- Whether a tree declares a mutable variable. -/
def isMutableDecl : Node → Bool
  | .varDecl _ _ isMutable => isMutable
  | _ => false

/-- A namespace has no mutable variable among its members; all other trees are admitted. -/
def HoldsConstants (n : Node) : Prop :=
  ∀ name members, n = .spaceDecl name members → ∀ c ∈ members, c.isMutableDecl = false

/-- **Trees whose namespaces hold constants**, at every depth. -/
abbrev ConstantSpaces : Node → Prop :=
  Throughout HoldsConstants

private theorem unlabelled_holdsConstants : Unlabelled HoldsConstants where
  absent _ _ := nofun
  block _ _ _ := nofun
  program _ _ _ := nofun

end Node

open Node

/-! ### What namespaces are derived from -/

/-- Right-hand sides that no mutable variable is derived from. -/
inductive Ebnf.Constant : Ebnf → Prop
  | mark (t : Terminal) : Constant (.mark t)
  | token (t : Terminal) : Constant (.token t)
  | rule {r : Rule} : r ∈ [.functionDecl, .constantDecl, .spaceMember] → Constant (.rule r)
  | seq {es : List Ebnf} : (∀ e ∈ es, Constant e) → Constant (.seq es)
  | many {a : Ebnf} : Constant a → Constant (.many a)

private theorem Ebnf.Constant.part {e a : Ebnf} (h : e.Constant) (ha : a ∈ e.parts) :
    a.Constant := by
  cases h with
  | seq hes => exact hes a ha
  | many ha' =>
    obtain rfl := List.mem_singleton.1 ha
    exact ha'
  | _ => cases ha

/-- The members of a namespace are derived from constants and functions. -/
private theorem constant_of_mem_grammar_spaceDecl {e : Ebnf}
    (h : (some .spaceDecl, e) ∈ grammar .spaceDecl) : e.Constant := by
  cases List.mem_singleton.1 h
  refine .seq fun e he => ?_
  simp only [List.mem_cons, List.not_mem_nil, or_false] at he
  rcases he with rfl | rfl | rfl | rfl | rfl
  · exact .mark _
  · exact .token _
  · exact .mark _
  · exact .many (.rule (by simp))
  · exact .mark _

/-- An item with constants in its namespaces, and no mutable variable if it is derived from where
there is none. -/
structure Item.Constant (e : Ebnf) (item : Item) : Prop where
  spaces : item.Throughout HoldsConstants
  decl : e.Constant → ∀ n, item = .node n → n.isMutableDecl = false

private theorem hereditary_constant : Hereditary Node.ConstantSpaces Item.Constant where
  token _ _ := ⟨trivial, fun _ _ h => by cases h⟩
  template hparts := ⟨hparts, fun _ _ h => by cases h⟩
  made {r label e items item} hmem hitems hproduce := by
    have hmakes := makes_of_produce hproduce
    refine ⟨throughout_of_makes unlabelled_holdsConstants hmakes
      (fun i hi => (hitems i hi).spaces) ?_, ?_⟩
    · -- a namespace gets its members from items that are no mutable variables
      rintro n rfl name members rfl c hc
      obtain rfl : label = .spaceDecl := by cases hmakes; rfl
      have hr : r = .spaceDecl := by
        revert hmem
        cases r <;> simp [grammar]
      subst hr
      cases hmakes with
      | spaceDecl hmembers =>
        have hitem := hitems _ (List.mem_cons_of_mem _ (node_mem_of_mapM hmembers hc))
        exact hitem.decl (constant_of_mem_grammar_spaceDecl hmem) c rfl
    · rintro (_ | _ | hr) n rfl
      simp only [List.mem_cons, List.not_mem_nil, or_false] at hr
      rcases hr with rfl | rfl | rfl
      · cases List.mem_singleton.1 hmem
        cases hmakes
        rfl
      · cases List.mem_singleton.1 hmem
        cases hmakes
        rfl
      · simp [grammar] at hmem
  passed {r e item} hmem hitem := by
    refine ⟨hitem.spaces, ?_⟩
    rintro (_ | _ | hr) n hn
    refine hitem.decl ?_ n hn
    simp only [List.mem_cons, List.not_mem_nil, or_false] at hr
    rcases hr with rfl | rfl | rfl
    · simp [grammar] at hmem
    · simp [grammar] at hmem
    · simp only [grammar, List.mem_cons, Prod.mk.injEq, true_and, List.not_mem_nil,
        or_false] at hmem
      rcases hmem with rfl | rfl <;> exact .rule (by simp)
  part ha hitem := ⟨hitem.spaces, fun he => hitem.decl (he.part ha)⟩
  tail hitem := ⟨hitem.spaces, fun he => hitem.decl (by
    cases he with
    | seq hes => exact .seq fun e' he' => hes e' (List.mem_cons_of_mem _ he'))⟩
  embeds hitem := hitem.spaces

/-- **In the tree of a program text namespaces hold constants.** -/
theorem constantSpaces_of_parseProgram {text : String} {program : Node}
    (h : parseProgram text = .ok program) : program.ConstantSpaces := by
  obtain ⟨body, rfl, hbody⟩ := hereditary_constant.of_parseProgram h
  exact .intro (unlabelled_holdsConstants.program body) (fun n hn => (hbody n hn).spaces)
    (List.forall_mem_nil _)

end Sigil
