import Sigil.Syntax.Node

/-!
# Precedence of operators

Between parentheses operands and operators alternate. The chain is folded into a tree by one pass
for each rank of operators, from the tightest to the loosest; each pass joins the neighbours of the
operators of its rank from left to right.
-/

namespace Sigil

/-- The operators that bind tightest. -/
def isProductOp (op : String) : Bool :=
  op == "*" || op == "/" || op == "%"

/-- The operators of sums. -/
def isSumOp (op : String) : Bool :=
  op == "+" || op == "-"

/-- The comparisons. -/
def isComparisonOp (op : String) : Bool :=
  op == "=" || op == "!=" || op == "<" || op == ">" || op == "<=" || op == ">="

/-- The conjunction. -/
def isConjunctionOp (op : String) : Bool :=
  op == "&"

/-- The disjunction, which binds loosest. -/
def isDisjunctionOp (op : String) : Bool :=
  op == "|"

/-- A chain of operands with an operator before each but the first. -/
structure Chain where
  /-- The first operand. -/
  first : Node
  /-- The other operands, each with the operator before it. -/
  rest : List (String × Node)

namespace Chain

/-- Joins the neighbours of all operators of one rank, from left to right. -/
def join (rank : String → Bool) (first : Node) : List (String × Node) → Chain
  | [] => ⟨first, []⟩
  | (op, next) :: rest =>
    if rank op then join rank (.binary op first next) rest
    else
      let later := join rank next rest
      ⟨first, (op, later.first) :: later.rest⟩

/-- The tree of a chain. After the passes of all ranks one operand is left. -/
def toNode (c : Chain) : Node :=
  let products := join isProductOp c.first c.rest
  let sums := join isSumOp products.first products.rest
  let comparisons := join isComparisonOp sums.first sums.rest
  let conjunctions := join isConjunctionOp comparisons.first comparisons.rest
  (join isDisjunctionOp conjunctions.first conjunctions.rest).first

end Chain

end Sigil
