import Sigil.Proofs.Grammar.Operators

/-!
# What the reader has read

Each construct that is begun stands for the tokens of a production up to the place where it waits,
and so does the point where the reader is. `Reading.Spelt` says that the tokens read so far are
those of the constructs on the stack, from the outermost to the innermost, and of the point. What a
construct gives once it is complete has to fit where the construct below it waits; so a namespace
gets declarations only, and the start rule stands at the bottom.
-/

namespace Sigil

variable (E : List Char → Tree → Prop)

/-! ### What may stand where -/

/-- A construct of one rule may stand where one of another rule is expected. -/
def Rule.Fits (a b : Rule) : Prop :=
  a = b ∨ (none, Ebnf.rule a) ∈ grammar b

/-- The rule of the function with a head. -/
def FunctionHead.gives : FunctionHead → Rule
  | .declared .. => .functionDecl
  | .anonymous _ => .expression

namespace Pending

/-- What a construct waits for. -/
def wants : Pending → Rule
  | .program _ | .block _ | .body .. | .braces _ => .statement
  | .space .. => .spaceMember
  | _ => .expression

/-- What a construct is once it is complete. -/
def gives : Pending → Rule
  | .program _ => .program
  | .expression => .soleExpression
  | .body head _ => head.gives
  | .space .. => .spaceDecl
  | .constant _ => .constantDecl
  | .variableValue _ => .variableDecl
  | .assignment _ => .assignment
  | .output => .output
  | _ => .expression

end Pending

/-- What is being read at a point. -/
def Point.gives : Point → Rule
  | .programStart | .bodyStart | .statementName _ | .functionStart .optional => .statement
  | .spaceStart => .spaceMember
  | .constantName | .constantSign _ => .constantDecl
  | .variableName | .variableSign _ => .variableDecl
  | .spaceName | .spaceOpen _ | .spaceClosed _ => .spaceDecl
  | .functionStart .required | .paramsOpen _ | .declared _ => .functionDecl
  | .params name _ | .afterParam name _ => if name.isSome then .functionDecl else .expression
  | .bodyOpen head => head.gives
  | _ => .expression

/-! ### Parts of productions -/

open Ebnf hiding some

/-- The head of a conditional: its branches so far, last first. -/
def SpellsBranches (branches : List (Node × Node)) (ts : List Lexeme) : Prop :=
  ∃ condition body more, branches.reverse = (condition, body) :: more ∧
    Spells E (seq [mark .question, rule .expression, rule .expression, many (rule .branch)]) ts
      (.node condition :: .node body :: more.map Item.ofClause)

/-- The condition before the body of the next branch. -/
def SpellsCondition (branches : List (Node × Node)) (condition : Node) (ts : List Lexeme) : Prop :=
  branches = [] ∧ Spells E (seq [mark .question, rule .expression]) ts [.node condition] ∨
    ∃ us vs, ts = us ++ vs ∧ SpellsBranches E branches us ∧
      Spells E (seq [mark .dotQuestion, rule .expression]) vs [.node condition]

/-- What stands before braces: the subject of what may be a selection, or nothing. -/
def SpellsSubject : Option Node → List Lexeme → Prop
  | none, ts => ts = []
  | some subject, ts =>
    Spells E (seq [mark .question, rule .expression]) ts [.node subject]

/-- A selection up to its arms so far, last first. -/
def SpellsArms (subject : Node) (arms : List (Node × Node)) (ts : List Lexeme) : Prop :=
  ∃ us vs, ts = us ++ vs ∧
    Spells E (seq [mark .question, rule .expression, mark .leftBrace]) us [.node subject] ∧
    (arms = [] ∧ vs = [] ∨ Spells E (.some (rule .arm)) vs (arms.reverse.map Item.ofClause))

/-- An object up to its members so far, last first. -/
def SpellsMembers (entries : List (String × Node)) (ts : List Lexeme) : Prop :=
  Spells E (seq [mark .leftBrace, members]) ts (entries.reverse.map Item.ofEntry)

/-- A function up to its parameters. -/
def SpellsOpening : Option String → List Lexeme → Prop
  | some name, ts => Spells E (seq [mark .atSign, token .name, mark .leftParen]) ts [.token name]
  | none, ts => Spells E (seq [mark .atSign, mark .leftParen]) ts []

/-- A function up to its body. -/
def FunctionHead.Spelt : FunctionHead → List Lexeme → Prop
  | .declared name params, ts =>
    Spells E (seq [mark .atSign, token .name, mark .leftParen, rule .params, mark .rightParen]) ts
      [.token name, .names params]
  | .anonymous params, ts =>
    Spells E (seq [mark .atSign, mark .leftParen, rule .params, mark .rightParen]) ts
      [.names params]

/-- The name of the counter of a loop, if it has one. -/
def counterPart : Ebnf :=
  optional (seq [mark .hash, token .name, mark .comma])

/-! ### The stack and the point -/

/-- **The tokens of a construct that is begun.** -/
def Pending.Spelt : Pending → List Lexeme → Prop
  | .program done, ts => Spells E (many (rule .statement)) ts (done.reverse.map .node)
  | .expression, ts => ts = []
  | .block done, ts =>
    Spells E (seq [mark .leftBrace, .some (rule .statement)]) ts (done.reverse.map .node)
  | .body head done, ts => ∃ us vs, ts = us ++ vs ∧ head.Spelt E us ∧
      Spells E (seq [mark .leftBrace, many (rule .statement)]) vs (done.reverse.map .node)
  | .space name members, ts =>
    Spells E (seq [mark .colonColon, token .name, mark .leftBrace, many (rule .spaceMember)]) ts
      (.token name :: members.reverse.map .node)
  | .constant name, ts => Spells E (seq [mark .hash, token .name, mark .equal]) ts [.token name]
  | .variableValue name, ts =>
    Spells E (seq [mark .dollar, token .name, mark .leftArrow]) ts [.token name]
  | .assignment name, ts => Spells E (seq [token .name, mark .leftArrow]) ts [.token name]
  | .output, ts => Spells E (seq [mark .outputSign]) ts []
  | .result, ts => Spells E (seq [mark .returnSign]) ts []
  | .condition, ts => Spells E (seq [mark .question]) ts []
  | .branchCondition branches, ts => ∃ us vs, ts = us ++ vs ∧ SpellsBranches E branches us ∧
      Spells E (seq [mark .dotQuestion]) vs []
  | .branchBody branches c, ts => SpellsCondition E branches c ts
  | .otherwise branches, ts => ∃ us vs, ts = us ++ vs ∧ SpellsBranches E branches us ∧
      Spells E (seq [mark .dot]) vs []
  | .braces subject, ts => ∃ us vs, ts = us ++ vs ∧ SpellsSubject E subject us ∧
      Spells E (mark .leftBrace) vs []
  | .pattern subject arms, ts => SpellsArms E subject arms ts
  | .armBody subject arms p, ts => ∃ us vs, ts = us ++ vs ∧ SpellsArms E subject arms us ∧
      Spells E (seq [rule .expression, mark .doubleArrow]) vs [.node p]
  | .defaultBody subject arms, ts => ∃ us vs, ts = us ++ vs ∧ SpellsArms E subject arms us ∧
      Spells E (seq [mark .star, mark .doubleArrow]) vs []
  | .memberValue entries key, ts => ∃ us vs, ts = us ++ vs ∧ SpellsMembers E entries us ∧
      Spells E (seq [either (token .name) (token .objectKey), mark .colon]) vs [.token key]
  | .count counter, ts =>
    Spells E (seq [mark .tilde, counterPart]) ts (counter.toList.map Item.token)
  | .countBody counter n, ts =>
    Spells E (seq [mark .tilde, counterPart, rule .expression]) ts
      (counter.toList.map Item.token ++ [.node n])
  | .collection item, ts =>
    Spells E (seq [mark .tildeTilde, mark .hash, token .name, mark .comma]) ts [.token item]
  | .collectionBody item c, ts =>
    Spells E (seq [mark .tildeTilde, mark .hash, token .name, mark .comma, rule .expression]) ts
      [.token item, .node c]
  | .group chain, ts => ∃ us vs, ts = us ++ vs ∧ Spells E (seq [mark .leftParen]) us [] ∧
      SpellsGroup E chain vs
  | .arguments callee done, ts => ∃ us vs, ts = us ++ vs ∧
      Spells E (seq [rule .operand, mark .callOpen]) us [.node callee] ∧
      Spells E expressions vs (done.reverse.map .node)
  | .elements done, ts =>
    Spells E (seq [mark .leftBracket, expressions]) ts (done.reverse.map .node)
  | .position target, ts => Spells E (seq [rule .operand, mark .indexOpen]) ts [.node target]

/-- **The tokens of what is being read at a point.** -/
def Point.Spelt : Point → List Lexeme → Prop
  | .programStart, _ | .accepted _, _ => False
  | .bodyStart, ts | .spaceStart, ts | .expressionStart, ts | .elementsStart, ts
  | .argumentsStart, ts | .afterComma, ts => ts = []
  | .bracesStart subject, ts => ∃ us vs, ts = us ++ vs ∧ SpellsSubject E subject us ∧
      Spells E (mark .leftBrace) vs []
  | .firstName name subject, ts => ∃ us vs ws, ts = us ++ vs ++ ws ∧ SpellsSubject E subject us ∧
      Spells E (mark .leftBrace) vs [] ∧ Spells E (token .name) ws [.token name]
  | .statementName name, ts => Spells E (token .name) ts [.token name]
  | .operand value, ts => Spells E (rule .operand) ts [.node value]
  | .closed value, ts => Spells E (rule .expression) ts [.node value]
  | .declared statement, ts => Spells E (rule .functionDecl) ts [.node statement]
  | .spaceClosed statement, ts => Spells E (rule .spaceDecl) ts [.node statement]
  | .loopStart, ts => Spells E (seq [mark .tilde]) ts []
  | .counterName, ts => ∃ us vs, ts = us ++ vs ∧ Spells E (seq [mark .tilde]) us [] ∧
      Spells E (seq [mark .hash]) vs []
  | .counterComma name, ts => ∃ us vs, ts = us ++ vs ∧ Spells E (seq [mark .tilde]) us [] ∧
      Spells E (seq [mark .hash, token .name]) vs [.token name]
  | .eachStart, ts => Spells E (seq [mark .tildeTilde]) ts []
  | .itemName, ts => Spells E (seq [mark .tildeTilde, mark .hash]) ts []
  | .itemComma name, ts =>
    Spells E (seq [mark .tildeTilde, mark .hash, token .name]) ts [.token name]
  | .constantName, ts => Spells E (seq [mark .hash]) ts []
  | .constantSign name, ts => Spells E (seq [mark .hash, token .name]) ts [.token name]
  | .variableName, ts => Spells E (seq [mark .dollar]) ts []
  | .variableSign name, ts => Spells E (seq [mark .dollar, token .name]) ts [.token name]
  | .spaceName, ts => Spells E (seq [mark .colonColon]) ts []
  | .spaceOpen name, ts => Spells E (seq [mark .colonColon, token .name]) ts [.token name]
  | .functionStart _, ts => Spells E (seq [mark .atSign]) ts []
  | .paramsOpen name, ts => Spells E (seq [mark .atSign, token .name]) ts [.token name]
  | .params name done, ts => ∃ us vs, ts = us ++ vs ∧ SpellsOpening E name us ∧
      Spells E parameters vs (done.reverse.map Item.token)
  | .afterParam name done, ts => ∃ last before us vs ws, done = last :: before ∧
      ts = us ++ vs ++ ws ∧ SpellsOpening E name us ∧
      Spells E parameters vs (before.reverse.map Item.token) ∧
      Spells E (token .name) ws [.token last]
  | .bodyOpen head, ts => head.Spelt E ts
  | .propertyName target, ts => Spells E (seq [rule .operand, mark .memberDot]) ts [.node target]
  | .keyColon entries key, ts => ∃ us vs, ts = us ++ vs ∧ SpellsMembers E entries us ∧
      Spells E (either (token .name) (token .objectKey)) vs [.token key]
  | .membersNext entries, ts => SpellsMembers E entries ts
  | .defaultArrow subject arms, ts => ∃ us vs, ts = us ++ vs ∧ SpellsArms E subject arms us ∧
      Spells E (seq [mark .star]) vs []

variable (start : Rule)

/-- **The tokens of a stack** that waits for a construct of the rule `hole`. -/
def SpellsStack : Rule → List Pending → List Lexeme → Prop
  | hole, [], ts => hole = start ∧ ts = []
  | hole, p :: pending, ts => hole = p.wants ∧ ∃ below us vs, ts = us ++ vs ∧
      SpellsStack below pending us ∧ p.gives.Fits below ∧ p.Spelt E vs

/-- **The tokens that the reader has read** when it is in a state. -/
def Reading.Spelt (r : Reading) (ts : List Lexeme) : Prop :=
  match r.point with
  | .programStart => start = .program ∧ r.pending = [.program []] ∧ ts = []
  | .accepted tree => Spells E (rule start) ts [.whole tree]
  | point => ∃ hole us vs, ts = us ++ vs ∧ SpellsStack E start hole r.pending us ∧
      point.gives.Fits hole ∧ point.Spelt E vs

/-- The tokens of a token as the reader takes it: the end of the text has none. -/
structure Token.Spelt (t : Token) (ts : List Lexeme) : Prop where
  /-- At the end of the text there is no token. -/
  nil : t.terminal = .endOfText → ts = []
  /-- Elsewhere there is one, with the text of the token. -/
  single : t.terminal ≠ .endOfText → ts = [⟨t.terminal, t.text.toList⟩]
  /-- A sign of an operator is written as the operator. -/
  operator : ∀ op, t.terminal.operator? = some op → t.text = op
  /-- A token that is an expression by itself spells its tree. -/
  atom : t.terminal.isAtom = true → Spells E (rule .atom) ts [.node t.leaf]

end Sigil
