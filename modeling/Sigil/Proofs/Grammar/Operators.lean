import Sigil.Proofs.Grammar.Spelling

/-!
# Chains of operators

Between parentheses the reader collects a chain of operands and signs and folds it at the end, one
pass for each rank of operators. The grammar has a left-recursive rule for each rank instead. Here
the two are brought together: `Chain.join` turns a chain of constructs of one rank into a chain of
constructs of the next, and after all passes a single disjunction is left
(`SpellsGroup.spells_closeGroup`).
-/

namespace Sigil

variable {E : List Char → Tree → Prop}

/-- The tokens spell the sign of an operator. -/
def SpellsSign (E : List Char → Tree → Prop) (op : String) (ws : List Lexeme) : Prop :=
  ∃ t : Terminal, t.operator? = some op ∧ Spells E (.token t) ws [.token op]

private theorem Spells.oneOf {t u : Terminal} {rest : List Terminal} {ws : List Lexeme}
    {items : List Item} (h : Spells E (.token t) ws items) (hmem : t ∈ u :: rest) :
    Spells E (Ebnf.oneOf u rest) ws items := by
  induction rest generalizing u with
  | nil =>
    obtain rfl := List.mem_singleton.1 hmem
    exact h
  | cons v rest ih =>
    rcases List.mem_cons.1 hmem with rfl | hmem
    · exact h.left
    · exact (ih hmem).right

/-! ### The rank of a sign -/

/-- The ranks of operators, the tightest first: the rule of the constructs that a rank joins, the
rule of what comes out, and the rule of its signs. -/
structure Rank where
  /-- The constructs between two signs. -/
  lower : Rule
  /-- The constructs that are joined so far, and the result. -/
  upper : Rule
  /-- The signs. -/
  signs : Rule
  /-- Which operators belong to the rank. -/
  holds : String → Bool
  /-- A single construct is a result. -/
  passes : (none, .rule lower) ∈ grammar upper
  /-- A result, a sign and a construct are a result. -/
  joins : (some .binary, .seq [.rule upper, .rule signs, .rule lower]) ∈ grammar upper
  /-- The terminals of the signs. -/
  first : Terminal
  /-- The other terminals. -/
  others : List Terminal
  /-- The rule of the signs lists just these. -/
  signs_eq : grammar signs = [(some .sign, Ebnf.oneOf first others)]
  /-- The operators of the rank are spelled by these terminals. -/
  mem_of_holds : ∀ t op, t.operator? = some op → holds op = true → t ∈ first :: others

namespace Rank

/-- Products. -/
def product : Rank where
  lower := .expression
  upper := .product
  signs := .productSign
  holds := isProductOp
  passes := by simp [grammar]
  joins := by simp [grammar]
  first := .star
  others := [.slash, .percent]
  signs_eq := rfl
  mem_of_holds t op hop := by cases t <;> cases hop <;> decide

/-- Sums. -/
def sum : Rank where
  lower := .product
  upper := .sum
  signs := .sumSign
  holds := isSumOp
  passes := by simp [grammar]
  joins := by simp [grammar]
  first := .plus
  others := [.minus]
  signs_eq := rfl
  mem_of_holds t op hop := by cases t <;> cases hop <;> decide

/-- Comparisons. -/
def comparison : Rank where
  lower := .sum
  upper := .comparison
  signs := .comparisonSign
  holds := isComparisonOp
  passes := by simp [grammar]
  joins := by simp [grammar]
  first := .equal
  others := [.notEqual, .less, .greater, .lessEqual, .greaterEqual]
  signs_eq := rfl
  mem_of_holds t op hop := by cases t <;> cases hop <;> decide

/-- Conjunctions. -/
def conjunction : Rank where
  lower := .comparison
  upper := .conjunction
  signs := .andSign
  holds := isConjunctionOp
  passes := by simp [grammar]
  joins := by simp [grammar]
  first := .ampersand
  others := []
  signs_eq := rfl
  mem_of_holds t op hop := by cases t <;> cases hop <;> decide

/-- Disjunctions. -/
def disjunction : Rank where
  lower := .conjunction
  upper := .disjunction
  signs := .orSign
  holds := isDisjunctionOp
  passes := by simp [grammar]
  joins := by simp [grammar]
  first := .bar
  others := []
  signs_eq := rfl
  mem_of_holds t op hop := by cases t <;> cases hop <;> decide

variable (rank : Rank)

private theorem spells_signs {op : String} {ws : List Lexeme} (hop : rank.holds op = true)
    (h : SpellsSign E op ws) : Spells E (.rule rank.signs) ws [.token op] := by
  obtain ⟨t, ht, h⟩ := h
  exact (h.oneOf (rank.mem_of_holds t op ht hop)).made .sign (by simp [rank.signs_eq]) rfl

private theorem spells_upper_of_lower {ts : List Lexeme} {item : Item}
    (h : Spells E (.rule rank.lower) ts [item]) : Spells E (.rule rank.upper) ts [item] :=
  h.passed rank.passes

private theorem spells_binary {ts us vs : List Lexeme} {op : String} {left right : Node}
    (hop : rank.holds op = true) (hleft : Spells E (.rule rank.upper) ts [.node left])
    (hsign : SpellsSign E op us) (hright : Spells E (.rule rank.lower) vs [.node right]) :
    Spells E (.rule rank.upper) (ts ++ us ++ vs) [.node (.binary op left right)] :=
  ((hleft.single.snoc (rank.spells_signs hop hsign)).snoc hright).made .binary rank.joins
    rfl

end Rank

/-! ### Folding a chain -/

/-- The tokens of the operands after the first, each after the sign of an operator that has not been
folded yet. -/
inductive SpellsTail (E : List Char → Tree → Prop) (r : Rule) (open? : String → Bool) :
    List (String × Node) → List Lexeme → Prop
  | nil : SpellsTail E r open? [] []
  | cons {op : String} {next : Node} {rest : List (String × Node)} {us vs ws : List Lexeme} :
      SpellsSign E op us → open? op = true → Spells E (.rule r) vs [.node next] →
        SpellsTail E r open? rest ws → SpellsTail E r open? ((op, next) :: rest) (us ++ vs ++ ws)

/-- The tokens of a chain of operands. -/
def SpellsChain (E : List Char → Tree → Prop) (r : Rule) (open? : String → Bool) (c : Chain)
    (ts : List Lexeme) : Prop :=
  ∃ us vs, ts = us ++ vs ∧ Spells E (.rule r) us [.node c.first] ∧ SpellsTail E r open? c.rest vs

/-- **One pass.** Folding the operators of a rank leaves a chain of the next rank with the same
tokens, in which these operators do not occur. -/
theorem Rank.spellsChain_join (rank : Rank) {open? : String → Bool} {first : Node}
    {rest : List (String × Node)} {us vs : List Lexeme}
    (hfirst : Spells E (.rule rank.upper) us [.node first])
    (hrest : SpellsTail E rank.lower open? rest vs) :
    SpellsChain E rank.upper (fun op => open? op && !rank.holds op)
      (Chain.join rank.holds first rest) (us ++ vs) := by
  induction rest generalizing first us vs with
  | nil =>
    cases hrest
    exact ⟨us, [], rfl, hfirst, .nil⟩
  | cons entry rest ih =>
    cases hrest with
    | @cons op next _ us' vs' ws' hsign hopen hnext hrest =>
      rw [Chain.join]
      split
      · rename_i hop
        have := ih (rank.spells_binary hop hfirst hsign hnext) hrest
        simpa only [List.append_assoc] using this
      · rename_i hop
        obtain ⟨xs, ys, hts, hlater, htail⟩ := ih (rank.spells_upper_of_lower hnext) hrest
        refine ⟨us, us' ++ xs ++ ys, ?_, hfirst, .cons hsign (by simp [hopen, hop]) hlater htail⟩
        simp only [List.append_assoc] at hts ⊢
        rw [hts]

/-- One pass over a chain. -/
theorem SpellsChain.join {c : Chain} {ts : List Lexeme} {open? : String → Bool} (rank : Rank)
    (h : SpellsChain E rank.lower open? c ts) :
    SpellsChain E rank.upper (fun op => open? op && !rank.holds op)
      (Chain.join rank.holds c.first c.rest) ts := by
  obtain ⟨us, vs, rfl, hfirst, hrest⟩ := h
  exact rank.spellsChain_join (rank.spells_upper_of_lower hfirst) hrest

/-- A chain with no operator left to fold is one operand. -/
private theorem SpellsTail.eq_nil {r : Rule} {open? : String → Bool} {rest : List (String × Node)}
    {ts : List Lexeme} (h : SpellsTail E r open? rest ts)
    (hopen : ∀ t op, Terminal.operator? t = some op → open? op = false) : ts = [] := by
  cases h with
  | nil => rfl
  | cons hsign hop _ _ =>
    obtain ⟨t, ht, -⟩ := hsign
    rw [hopen t _ ht] at hop
    cases hop

/-- **All passes.** A chain of expressions is a disjunction, because every sign has a rank. -/
theorem SpellsChain.spells_toNode {c : Chain} {ts : List Lexeme}
    (h : SpellsChain E .expression (fun _ => true) c ts) :
    Spells E (.rule .disjunction) ts [.node c.toNode] := by
  obtain ⟨us, vs, rfl, hfirst, hrest⟩ :=
    ((((SpellsChain.join .product h).join .sum).join .comparison).join .conjunction).join
      .disjunction
  have hvs : vs = [] := hrest.eq_nil fun t op ht => by
    cases t <;> cases ht <;> decide
  rw [hvs, List.append_nil]
  exact hfirst

/-! ### The chain of a group -/

/-- The tokens of the operands so far, each with the operator after it, last first. -/
inductive SpellsGroup (E : List Char → Tree → Prop) : List (Node × String) → List Lexeme → Prop
  | nil : SpellsGroup E [] []
  | cons {operand : Node} {op : String} {chain : List (Node × String)} {ts us vs : List Lexeme} :
      SpellsGroup E chain ts → Spells E (.rule .expression) us [.node operand] →
        SpellsSign E op vs → SpellsGroup E ((operand, op) :: chain) (ts ++ us ++ vs)

private theorem SpellsGroup.regroup {chain : List (Node × String)} {ts us vs : List Lexeme}
    {next : Node} {rest : List (String × Node)} (hchain : SpellsGroup E chain ts)
    (hnext : Spells E (.rule .expression) us [.node next])
    (hrest : SpellsTail E .expression (fun _ => true) rest vs) :
    SpellsChain E .expression (fun _ => true)
      (Reading.finishExpression.closeGroup.regroup chain next rest) (ts ++ us ++ vs) := by
  induction hchain generalizing next rest us vs with
  | nil => exact ⟨us, vs, rfl, hnext, hrest⟩
  | cons _ hoperand hsign ih =>
    rw [Reading.finishExpression.closeGroup.regroup]
    have := ih hoperand (.cons hsign rfl hnext hrest)
    simpa only [List.append_assoc] using this

/-- **The fold of a group is the disjunction that the grammar derives.** -/
theorem SpellsGroup.spells_closeGroup {chain : List (Node × String)} {ts us : List Lexeme}
    {last : Node} (hchain : SpellsGroup E chain ts)
    (hlast : Spells E (.rule .expression) us [.node last]) :
    Spells E (.rule .disjunction) (ts ++ us)
      [.node (Reading.finishExpression.closeGroup chain last)] := by
  have := (hchain.regroup hlast .nil).spells_toNode
  rwa [List.append_nil] at this

end Sigil
