import Sigil.Proofs.Surface.RoundTrip

/-!
# Precedence of operators between parentheses

A `Formula` is a tree of operations over names and numbers. `Formula.write` writes it between
operands and operators with single blanks, with parentheses around an operand only where the
operand would fall apart otherwise, and with as many more pairs as one likes around any part.
`parseExpression_formula` says that all these texts are read as the same tree.

Between two parentheses the reader collects a chain of operands. `Spreads d n first rest` says that
the chain is the tree `n` laid out flat, with operators that the first `d` passes of `Chain.toNode`
join; that these passes rebuild the tree is `Spreads.passes_eq`.
-/

namespace Sigil

/-! ### Formulas -/

/-- How loosely an operator binds: products bind tightest, then sums, comparisons, the conjunction
and, loosest of all, the disjunction. -/
def looseness : String → Nat
  | "|" => 4
  | "&" => 3
  | "=" | "!=" | "<" | ">" | "<=" | ">=" => 2
  | "+" | "-" => 1
  | _ => 0

/-- A tree of operations over names and numbers without sign and fraction. -/
inductive Formula where
  /-- A name. -/
  | name (x : VarName)
  /-- A number, given by its digits. -/
  | number (digits : { ds : List Char // IsDigits ds })
  /-- An operation. -/
  | binary (op : { op : String // op ∈ operators }) (left right : Formula)

/-- The place of an operand. -/
inductive Side where
  /-- Before the operator. -/
  | left
  /-- After the operator. -/
  | right

namespace Formula

/-- The syntax tree of a formula. -/
def toNode : Formula → Node
  | name x => .ident x
  | number digits => .number (numberToken digits)
  | binary op left right => .binary op left.toNode right.toNode

/-- How loosely a formula is held together. A single operand is tighter than every operation. -/
def rank : Formula → Nat
  | binary op _ _ => looseness op + 1
  | _ => 0

/-- A text in so many pairs of parentheses. -/
def wrap : Nat → List Char → List Char
  | 0, text => text
  | n + 1, text => '(' :: (wrap n text ++ [')'])

/-- An operand, in parentheses if it is held together more loosely than it may be at its place. -/
def operand (bound : Nat) (f : Formula) (text : List Char) : List Char :=
  wrap (if f.rank ≤ bound then 0 else 1) text

/-- **The text of a formula.** A left operand stands in parentheses only if its operator binds
weaker than that of the operation, a right operand only if it binds weaker or equally. Besides, the
part at each place stands in `extra` more pairs of parentheses; a place is a path from the whole
formula. -/
def write : Formula → (extra : List Side → Nat) → List Char
  | name x, extra => wrap (extra []) x.1.toList
  | number digits, extra => wrap (extra []) digits
  | binary op left right, extra =>
    wrap (extra []) <|
      operand (looseness op + 1) left (left.write fun path => extra (.left :: path)) ++
        ' ' :: (op.1.toList ++
          ' ' :: operand (looseness op) right (right.write fun path => extra (.right :: path)))

end Formula

/-! ### Passes over a chain -/

namespace Chain

/-- The operators that are joined by each pass, the tightest first. -/
def joined : Nat → String → Bool
  | 0 => isProductOp
  | 1 => isSumOp
  | 2 => isComparisonOp
  | 3 => isConjunctionOp
  | _ => isDisjunctionOp

/-- A chain after its first passes. -/
def passes : Nat → Chain → Chain
  | 0, c => c
  | d + 1, c => join (joined d) (passes d c).first (passes d c).rest

private theorem toNode_eq (c : Chain) : c.toNode = (passes 5 c).first :=
  rfl

private theorem joined_eq {op : String} (hop : op ∈ operators) {d : Nat} (hd : d < 5) :
    joined d op = decide (looseness op = d) := by
  have hall : ∀ op ∈ operators, ∀ d < 5, joined d op = decide (looseness op = d) := by decide
  exact hall op hop d hd

private theorem looseness_lt {op : String} (hop : op ∈ operators) : looseness op < 5 := by
  have hall : ∀ op ∈ operators, looseness op < 5 := by decide
  exact hall op hop

variable {rank : String → Bool} {first next left : Node} {op : String}
  {xs ys : List (String × Node)}

/-- A chain that is joined to one operand is joined to it also where more follows. -/
private theorem join_append (h : join rank first xs = ⟨left, []⟩) :
    join rank first (xs ++ ys) = join rank left ys := by
  induction xs generalizing first with
  | nil =>
    cases h
    rfl
  | cons x xs ih =>
    obtain ⟨op, next⟩ := x
    by_cases hop : rank op = true
    · rw [join, if_pos hop] at h
      rw [List.cons_append, join, if_pos hop, ih h]
    · simp [join, hop] at h

/-- An operator of another rank keeps the chains on its two sides apart. -/
private theorem join_append_cons (hop : rank op = false) :
    join rank first (xs ++ (op, next) :: ys) =
      ⟨(join rank first xs).first, (join rank first xs).rest ++
        (op, (join rank next ys).first) :: (join rank next ys).rest⟩ := by
  induction xs generalizing first with
  | nil => simp [join, hop]
  | cons x xs ih =>
    obtain ⟨op', next'⟩ := x
    by_cases hop' : rank op' = true <;> simp [join, hop', ih]

private theorem passes_append_cons {d : Nat} (hop : ∀ e < d, joined e op = false) :
    passes d ⟨first, xs ++ (op, next) :: ys⟩ =
      ⟨(passes d ⟨first, xs⟩).first, (passes d ⟨first, xs⟩).rest ++
        (op, (passes d ⟨next, ys⟩).first) :: (passes d ⟨next, ys⟩).rest⟩ := by
  induction d with
  | zero => rfl
  | succ d ih =>
    rw [passes, ih fun e he => hop e (by omega)]
    exact join_append_cons (hop d (by omega))

/-- Nothing is left to do for the later passes once one operand is left. -/
private theorem passes_of_le {c : Chain} {n : Node} {d e : Nat} (h : passes d c = ⟨n, []⟩)
    (hde : d ≤ e) :
    passes e c = ⟨n, []⟩ := by
  induction hde with
  | refl => exact h
  | step _ ih =>
    rw [passes, ih]
    rfl

end Chain

/-- **A tree is spread out** as a chain, with operators that the first `d` passes join: an operand
is a chain by itself, and the chain of an operation is that of its left operand, the operator and
the chain of its right operand. To the right there are only tighter operators. -/
inductive Spreads : Nat → Node → Node → List (String × Node) → Prop
  | operand {d : Nat} {n : Node} : Spreads d n n []
  | binary {d : Nat} {op : String} {left right first next : Node} {xs ys : List (String × Node)} :
      op ∈ operators → looseness op < d → Spreads (looseness op + 1) left first xs →
        Spreads (looseness op) right next ys →
          Spreads d (.binary op left right) first (xs ++ (op, next) :: ys)

namespace Spreads

variable {d e : Nat} {n first : Node} {rest : List (String × Node)}

theorem mono (h : Spreads d n first rest) (hde : d ≤ e) : Spreads e n first rest := by
  cases h with
  | operand => exact .operand
  | binary hop hlt hleft hright => exact .binary hop (by omega) hleft hright

/-- **The passes rebuild the tree.** -/
theorem passes_eq (h : Spreads d n first rest) : Chain.passes d ⟨first, rest⟩ = ⟨n, []⟩ := by
  induction h with
  | @operand d n => exact Chain.passes_of_le (d := 0) rfl (Nat.zero_le d)
  | @binary d op left right first next xs ys hop hlt _ _ ihleft ihright =>
    have hfive := Chain.looseness_lt hop
    have hapart : ∀ e < looseness op, Chain.joined e op = false := by
      intro e he
      rw [Chain.joined_eq hop (by omega), decide_eq_false_iff_not]
      omega
    have hrank : Chain.joined (looseness op) op = true := by
      rw [Chain.joined_eq hop hfive, decide_eq_true_eq]
    refine Chain.passes_of_le (d := looseness op + 1) ?_ hlt
    rw [Chain.passes, Chain.passes_append_cons hapart, ihright]
    rw [Chain.join_append ihleft]
    simp [Chain.join, hrank]

private theorem toNode_eq (h : Spreads d n first rest) (hd : d ≤ 5) :
    Chain.toNode ⟨first, rest⟩ = n := by
  rw [Chain.toNode_eq, Chain.passes_of_le h.passes_eq hd]

end Spreads

/-! ### The chain that the reader collects -/

/-- The operands and operators so far and the last operand, after a chain that is read on from
others. -/
def extend (chain : List (Node × String)) (first : Node) :
    List (String × Node) → List (Node × String) × Node
  | [] => (chain, first)
  | (op, next) :: rest => extend ((first, op) :: chain) next rest

private theorem extend_append_cons (chain : List (Node × String)) (first next : Node) (op : String)
    (xs ys : List (String × Node)) :
    extend chain first (xs ++ (op, next) :: ys) =
      extend (((extend chain first xs).2, op) :: (extend chain first xs).1) next ys := by
  induction xs generalizing chain first with
  | nil => rfl
  | cons x xs ih => exact ih _ _

private theorem regroup_extend (chain : List (Node × String)) (first : Node)
    (xs rest : List (String × Node)) :
    Reading.finishExpression.closeGroup.regroup (extend chain first xs).1 (extend chain first xs).2
        rest =
      Reading.finishExpression.closeGroup.regroup chain first (xs ++ rest) := by
  induction xs generalizing chain first with
  | nil => rfl
  | cons x xs ih => exact ih _ _

/-- A group is closed with the tree of its chain. -/
private theorem closeGroup_extend (first : Node) (xs : List (String × Node)) :
    Reading.finishExpression.closeGroup (extend [] first xs).1 (extend [] first xs).2 =
      Chain.toNode ⟨first, xs⟩ := by
  rw [Reading.finishExpression.closeGroup, regroup_extend, List.append_nil]
  rfl

/-! ### Reading a formula -/

section Reading

variable {readExpr : ExprReader} {text text' : List Char} {first next n : Node}
  {xs ys : List (String × Node)}

/-- **A text is read as a chain** of operands, inside a group and where what follows delimits it. -/
def ReadsChain (readExpr : ExprReader) (text : List Char) (first : Node)
    (xs : List (String × Node)) : Prop :=
  ∀ chain p before after, Delimits after →
    Passes readExpr ⟨.expressionStart, .group chain :: p⟩ before text after
      ⟨.operand (extend chain first xs).2, .group (extend chain first xs).1 :: p⟩

/-- An opening parenthesis where an expression starts. -/
private theorem passes_leftParen (p : List Pending) (before after : List Char) :
    Passes readExpr ⟨.expressionStart, p⟩ before ['('] after
      ⟨.expressionStart, .group [] :: p⟩ := by
  have htoken : TokenAt readExpr (.expression []) before ⟨.leftParen, ['(']⟩ after .absent :=
    ⟨Cursor.skipLayout_of_none rfl, nofun, rfl, rfl⟩
  exact .token (l := ⟨.leftParen, ['(']⟩) htoken rfl

/-- A closing parenthesis after an operand. -/
private theorem passes_rightParen (chain : List (Node × String)) (e : Node) (p : List Pending)
    (before after : List Char) :
    Passes readExpr ⟨.operand e, .group chain :: p⟩ before [')'] after
      ⟨.operand (Reading.finishExpression.closeGroup chain e), p⟩ := by
  have htoken : TokenAt readExpr .afterOperand before ⟨.rightParen, [')']⟩ after .absent :=
    ⟨Cursor.skipLayout_of_none rfl, nofun, rfl, rfl⟩
  exact .token (l := ⟨.rightParen, [')']⟩) htoken rfl

/-- A chain in parentheses is read as its tree. -/
private theorem ReadsChain.group (h : ReadsChain readExpr text first xs) (p : List Pending)
    (before after : List Char) :
    Passes readExpr ⟨.expressionStart, p⟩ before ('(' :: (text ++ [')'])) after
      ⟨.operand (Chain.toNode ⟨first, xs⟩), p⟩ := by
  have hopen : Passes readExpr _ before ['('] ((text ++ [')']) ++ after) _ :=
    passes_leftParen p before _
  have hinside := h [] p ('(' :: before) ([')'] ++ after) (.of_mem (by decide) after)
  have hclose : Passes readExpr _ (text.reverse ++ '(' :: before) [')'] after _ :=
    passes_rightParen (extend [] first xs).1 (extend [] first xs).2 p _ after
  rw [closeGroup_extend] at hclose
  exact hopen.trans (hinside.trans hclose)

/-- A chain in parentheses is a single operand of the chain around it. -/
private theorem ReadsChain.parens (h : ReadsChain readExpr text first xs)
    (htree : Chain.toNode ⟨first, xs⟩ = n) :
    ReadsChain readExpr ('(' :: (text ++ [')'])) n [] := by
  subst htree
  exact fun chain p before after _ => h.group (.group chain :: p) before after

/-- And so it is in more than one pair of parentheses. -/
private theorem ReadsChain.wrap (h : ReadsChain readExpr text first xs)
    (htree : Chain.toNode ⟨first, xs⟩ = n) (k : Nat) :
    ReadsChain readExpr (Formula.wrap (k + 1) text) n [] := by
  induction k with
  | zero => exact h.parens htree
  | succ k ih => exact ih.parens rfl

/-- An operator joins two chains. -/
private theorem ReadsChain.binary {op : String} (hop : op ∈ operators)
    (h : ReadsChain readExpr text first xs) (h' : ReadsChain readExpr text' next ys) :
    ReadsChain readExpr (text ++ ' ' :: (op.toList ++ ' ' :: text')) first
      (xs ++ (op, next) :: ys) := by
  intro chain p before after hafter
  obtain ⟨t, ht, hsign, hne⟩ := exists_sign_of_operator hop
  have hword : op.toList ++ [' '] = t.word := by rw [Terminal.word, hsign]
  have hleft := h chain p before (' ' :: (op.toList ++ ' ' :: text') ++ after) (.blank _)
  have hoperator : Passes readExpr _ (' ' :: (text.reverse ++ before)) t.word (text' ++ after) _ :=
    .of_walks ((Leads.operator ht (extend chain first xs).2 (extend chain first xs).1 p).walks hne)
      (by simp [Apart])
  have hright := h' (((extend chain first xs).2, op) :: (extend chain first xs).1) p
    (t.word.reverse ++ ' ' :: (text.reverse ++ before)) after hafter
  rw [← extend_append_cons] at hright
  have hjoined : Passes readExpr _ _ (t.word ++ text') after _ := hoperator.trans hright
  have hrest := hjoined.blank
  rw [← hword, List.append_assoc] at hrest
  exact hleft.trans hrest

end Reading

namespace Formula

variable {readExpr : ExprReader}

/-- A text is read as a chain that a tree is spread out in. -/
def ReadsSpread (readExpr : ExprReader) (d : Nat) (text : List Char) (n : Node) : Prop :=
  ∃ first xs, ReadsChain readExpr text first xs ∧ Spreads d n first xs

/-- In parentheses it is a single operand. -/
private theorem ReadsSpread.wrap {d e : Nat} {text : List Char} {n : Node}
    (h : ReadsSpread readExpr d text n) (hd : d ≤ 5) {k : Nat} (hk : k = 0 → d ≤ e) :
    ReadsSpread readExpr e (wrap k text) n := by
  obtain ⟨first, xs, hchain, hspread⟩ := h
  cases k with
  | zero => exact ⟨first, xs, hchain, hspread.mono (hk rfl)⟩
  | succ k => exact ⟨n, [], hchain.wrap (hspread.toNode_eq hd) k, .operand⟩

private theorem rank_le (f : Formula) : f.rank ≤ 5 := by
  cases f with
  | binary op left right => exact Chain.looseness_lt op.2
  | _ => exact Nat.zero_le 5

private theorem ReadsSpread.operand {bound : Nat} {f : Formula} {text : List Char}
    (h : ReadsSpread readExpr f.rank text f.toNode) :
    ReadsSpread readExpr bound (f.operand bound text) f.toNode := by
  refine h.wrap f.rank_le fun hzero => ?_
  by_contra hlt
  simp [hlt] at hzero

/-- **The text of a formula is read as a chain that spreads it out**, with the redundant parentheses
or without. -/
theorem readsSpread_write (f : Formula) (extra : List Side → Nat) :
    ReadsSpread readExpr f.rank (f.write extra) f.toNode := by
  induction f generalizing extra with
  | name x =>
    have hchain : ReadsChain readExpr x.1.toList (.ident x) [] :=
      fun chain p before after hafter => .name x.2 rfl rfl hafter
    exact ReadsSpread.wrap (d := 0) ⟨_, _, hchain, .operand⟩ (by omega) fun _ => le_rfl
  | number digits =>
    have hchain : ReadsChain readExpr digits (.number (numberToken digits)) [] :=
      fun chain p before after hafter => .number (.inr digits.2) _ hafter
    exact ReadsSpread.wrap (d := 0) ⟨_, _, hchain, .operand⟩ (by omega) fun _ => le_rfl
  | binary op left right ihleft ihright =>
    obtain ⟨first, xs, hleft, hspread⟩ := (ihleft fun path => extra (.left :: path)).operand
    obtain ⟨next, ys, hright, hspread'⟩ := (ihright fun path => extra (.right :: path)).operand
    exact ReadsSpread.wrap (d := looseness op + 1)
      ⟨_, _, hleft.binary op.2 hright, .binary op.2 (Nat.lt_succ_self _) hspread hspread'⟩
      (Chain.looseness_lt op.2) fun _ => le_rfl

/-- The text of a formula without redundant parentheses. -/
def text (f : Formula) : List Char :=
  f.write fun _ => 0

-- a difference that is subtracted stands in parentheses, and so does a difference that is a factor
example :
    let x := name ⟨"x", by decide⟩
    let minus := binary ⟨"-", by decide⟩
    let times := binary ⟨"*", by decide⟩
    text (minus (times (minus x (minus x x)) x) x) = "(x - (x - x)) * x - x".toList := by
  decide

end Formula

/-- **Precedence and associativity.** Between parentheses a formula that is written with as few
parentheses as possible is read as its tree, and so it is with any number of redundant parentheses
around any of its parts. -/
theorem parseExpression_formula (f : Formula) :
    parseExpression (String.ofList ('(' :: (f.text ++ [')']))) = .ok f.toNode ∧
      ∀ extra,
        parseExpression (String.ofList ('(' :: (f.write extra ++ [')']))) = .ok f.toNode := by
  have hread : ∀ extra,
      parseExpression (String.ofList ('(' :: (f.write extra ++ [')']))) = .ok f.toNode := by
    intro extra
    obtain ⟨first, xs, hchain, hspread⟩ := f.readsSpread_write extra
    have hpasses : Passes readEmbedded ⟨.expressionStart, [.expression]⟩ [] _ [] _ :=
      hchain.group [.expression] [] []
    rw [hspread.toNode_eq f.rank_le] at hpasses
    rw [parseExpression, String.toList_ofList]
    exact hpasses.readText rfl
  exact ⟨hread _, hread⟩

end Sigil
