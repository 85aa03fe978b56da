import Sigil.Syntax.Node

/-!
# Parts of trees

The parts of a tree are the trees that it is put together from. `Node.statements` are those that
stand in a sequence of statements, `Node.operands` all others. What holds of a tree whenever it
holds of all its parts holds of every tree (`Node.induction_parts`).
-/

namespace Sigil

namespace Node

/-- The parts of a tree that stand in a sequence of statements: in a program, in a block or among
the members of a namespace. -/
def statements : Node → List Node
  | .program body => body
  | .block body => body
  | .spaceDecl _ members => members
  | _ => []

/-- The parts of pairs of trees. -/
def pairParts (pairs : List (Node × Node)) : List Node :=
  pairs.flatMap fun pair => [pair.1, pair.2]

/-- The parts of a tree that stand anywhere else. -/
def operands : Node → List Node
  | .array elements => elements
  | .object entries => entries.map Prod.snd
  | .template parts => parts.filterMap Sum.getRight?
  | .varDecl _ value _ | .assign _ value | .ret value | .output value => [value]
  | .member target _ => [target]
  | .index target position => [target, position]
  | .call callee args => callee :: args
  | .functionDecl _ _ body | .functionExpr _ _ body => [body]
  | .conditional branches otherwise => otherwise :: pairParts branches
  | .selection subject arms otherwise => subject :: otherwise :: pairParts arms
  | .countLoop _ count body => [count, body]
  | .eachLoop _ collection body => [collection, body]
  | .binary _ left right => [left, right]
  | _ => []

theorem fst_mem_pairParts {pairs : List (Node × Node)} {pair : Node × Node} (h : pair ∈ pairs) :
    pair.1 ∈ pairParts pairs :=
  List.mem_flatMap.2 ⟨pair, h, by simp⟩

theorem snd_mem_pairParts {pairs : List (Node × Node)} {pair : Node × Node} (h : pair ∈ pairs) :
    pair.2 ∈ pairParts pairs :=
  List.mem_flatMap.2 ⟨pair, h, by simp⟩

theorem mem_template_operands {parts : List (String ⊕ Node)} {n : Node} (h : .inr n ∈ parts) :
    n ∈ operands (.template parts) :=
  List.mem_filterMap.2 ⟨.inr n, h, rfl⟩

/-! ### Induction on parts -/

private theorem sizeOf_lt_of_mem_pairParts {pairs : List (Node × Node)} {c : Node}
    (h : c ∈ pairParts pairs) : sizeOf c < sizeOf pairs := by
  obtain ⟨⟨a, b⟩, hmem, hc⟩ := List.mem_flatMap.1 h
  have hpair := List.sizeOf_lt_of_mem hmem
  simp only [List.mem_cons, List.not_mem_nil, or_false] at hc
  rcases hc with rfl | rfl <;> simp at hpair <;> omega

theorem sizeOf_lt_of_mem_statements {n c : Node} (h : c ∈ n.statements) :
    sizeOf c < sizeOf n := by
  cases n with
  | program body | block body | spaceDecl _ body =>
    have := List.sizeOf_lt_of_mem (show c ∈ body from h)
    simp
    omega
  | _ => cases h

theorem sizeOf_lt_of_mem_operands {n c : Node} (h : c ∈ n.operands) : sizeOf c < sizeOf n := by
  cases n with
  | array elements =>
    have := List.sizeOf_lt_of_mem (show c ∈ elements from h)
    simp +arith
    omega
  | object entries =>
    obtain ⟨⟨key, n⟩, hmem, rfl⟩ := List.mem_map.1 h
    have := List.sizeOf_lt_of_mem hmem
    simp +arith at this ⊢
    omega
  | template parts =>
    obtain ⟨part, hmem, hpart⟩ := List.mem_filterMap.1 h
    have := List.sizeOf_lt_of_mem hmem
    cases part <;> cases hpart
    simp +arith at this ⊢
    omega
  | call callee args =>
    rcases List.mem_cons.1 h with rfl | h
    · simp +arith
    · have := List.sizeOf_lt_of_mem h
      simp +arith
      omega
  | conditional branches otherwise =>
    rcases List.mem_cons.1 h with rfl | h
    · simp +arith
    · have := sizeOf_lt_of_mem_pairParts h
      simp +arith
      omega
  | selection subject arms otherwise =>
    rcases List.mem_cons.1 h with rfl | h
    · simp +arith
    · rcases List.mem_cons.1 h with rfl | h
      · simp +arith
      · have := sizeOf_lt_of_mem_pairParts h
        simp +arith
        omega
  | varDecl | assign | ret | output | member | functionDecl | functionExpr =>
    obtain rfl := List.mem_singleton.1 h
    simp +arith
  | index | countLoop | eachLoop | binary =>
    simp only [operands, List.mem_cons, List.not_mem_nil, or_false] at h
    rcases h with rfl | rfl <;> simp +arith
  | absent | program | literal | ident | spaceMember | block | spaceDecl => cases h

/-- **Induction on parts.** -/
@[elab_as_elim]
theorem induction_parts {P : Node → Prop}
    (step : ∀ n, (∀ c ∈ n.statements, P c) → (∀ c ∈ n.operands, P c) → P n) (n : Node) : P n :=
  step n (fun c _ => induction_parts step c) (fun c _ => induction_parts step c)
termination_by sizeOf n
decreasing_by
  · exact sizeOf_lt_of_mem_statements ‹_›
  · exact sizeOf_lt_of_mem_operands ‹_›

end Node

end Sigil
