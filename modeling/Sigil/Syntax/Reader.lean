import Sigil.Syntax.Lexeme
import Sigil.Syntax.Precedence

/-!
# Building trees token by token

The reader takes one token at a time. Its state has two parts: the `Point` says what has just been
read and hence what may come next, and a stack of `Pending` constructs holds everything that is
begun and waits for an expression or a statement to be completed. `Reading.step` is the whole
grammar: it answers the next state, or nothing if the token cannot continue the text.

A completed expression is handed down the stack by `finishExpression`, together with the token that
showed it to be complete. So a clause of a conditional goes to the innermost conditional that is
still open.
-/

namespace Sigil

/-- The head of a function whose body is being read. -/
inductive FunctionHead where
  /-- A declaration with its name. -/
  | declared (name : String) (params : List String)
  /-- A function expression. -/
  | anonymous (params : List String)
  deriving Repr

/-- The function with the given head and body. -/
def FunctionHead.toNode (head : FunctionHead) (body : List Node) : Node :=
  match head with
  | .declared name params => .functionDecl name params (.block body)
  | .anonymous params => .functionExpr none params (.block body)

/-- A construct that is begun and waits for an expression or a statement. Lists of parts are kept
with the last part first. -/
inductive Pending where
  /-- The program, with its statements so far. -/
  | program (done : List Node)
  /-- A text that is one expression. -/
  | expression
  /-- A block, with its statements so far. -/
  | block (done : List Node)
  /-- A function body, with its statements so far. -/
  | body (head : FunctionHead) (done : List Node)
  /-- A namespace, with its members so far. -/
  | space (name : String) (members : List Node)
  /-- The value of a constant. -/
  | constant (name : String)
  /-- The value of a mutable variable. -/
  | variableValue (name : String)
  /-- The value of an assignment. -/
  | assignment (name : String)
  /-- The value of an output statement. -/
  | output
  /-- The value of an early return. -/
  | result
  /-- The first condition of a conditional, or the subject of a selection. -/
  | condition
  /-- The condition of a further branch. -/
  | branchCondition (branches : List (Node × Node))
  /-- The body of a branch. -/
  | branchBody (branches : List (Node × Node)) (condition : Node)
  /-- The body of the last clause of a conditional. -/
  | otherwise (branches : List (Node × Node))
  /-- The first expression between braces that may still be a block, an object or, with a subject, a
  selection. -/
  | braces (subject : Option Node)
  /-- The pattern of an arm of a selection. -/
  | pattern (subject : Node) (arms : List (Node × Node))
  /-- The body of an arm of a selection. -/
  | armBody (subject : Node) (arms : List (Node × Node)) (pattern : Node)
  /-- The body of the default arm of a selection. -/
  | defaultBody (subject : Node) (arms : List (Node × Node))
  /-- The value of an object member. -/
  | memberValue (entries : List (String × Node)) (key : String)
  /-- The count of a loop. -/
  | count (counter : Option String)
  /-- The body of a counted loop. -/
  | countBody (counter : Option String) (count : Node)
  /-- The array of a loop over an array. -/
  | collection (item : String)
  /-- The body of a loop over an array. -/
  | collectionBody (item : String) (collection : Node)
  /-- The next operand between parentheses, after the operands and operators so far. -/
  | group (chain : List (Node × String))
  /-- The next argument of a call. -/
  | arguments (callee : Node) (done : List Node)
  /-- The next element of an array literal. -/
  | elements (done : List Node)
  /-- The position of an index. -/
  | position (target : Node)
  deriving Repr

/-- Whether a function that is begun may have, must have or cannot have a name. -/
inductive Naming where
  /-- Where a statement stands: a declaration or a function expression. -/
  | optional
  /-- Inside a namespace: a declaration. -/
  | required
  /-- Where an expression stands: a function expression. -/
  | forbidden
  deriving DecidableEq, Repr

/-- What has just been read, and hence what may come next. -/
inductive Point where
  /-- The start of a program. -/
  | programStart
  /-- The start of a function body. -/
  | bodyStart
  /-- The start of a block or an object, or with a subject also of a selection. -/
  | bracesStart (subject : Option Node)
  /-- A name right after the opening brace of a block, an object or a selection. -/
  | firstName (name : String) (subject : Option Node)
  /-- A name at the start of a statement. -/
  | statementName (name : String)
  /-- An operand, which an opener may extend. -/
  | operand (value : Node)
  /-- An expression closed by the brace of a function body or of a selection. -/
  | closed (value : Node)
  /-- A function declaration, closed by the brace of its body. -/
  | declared (statement : Node)
  /-- A namespace, closed by its brace. -/
  | spaceClosed (statement : Node)
  /-- A place where an expression must start. -/
  | expressionStart
  /-- The start of an array literal. -/
  | elementsStart
  /-- The start of the arguments of a call. -/
  | argumentsStart
  /-- After a comma between elements or arguments. -/
  | afterComma
  /-- After the sign of a counted loop. -/
  | loopStart
  /-- Before the name of a loop counter. -/
  | counterName
  /-- Before the comma after a loop counter. -/
  | counterComma (name : String)
  /-- After the sign of a loop over an array. -/
  | eachStart
  /-- Before the name of a loop item. -/
  | itemName
  /-- Before the comma after a loop item. -/
  | itemComma (name : String)
  /-- Before the name of a constant. -/
  | constantName
  /-- Before the sign after the name of a constant. -/
  | constantSign (name : String)
  /-- Before the name of a mutable variable. -/
  | variableName
  /-- Before the sign after the name of a mutable variable. -/
  | variableSign (name : String)
  /-- Before the name of a namespace. -/
  | spaceName
  /-- Before the opening brace of a namespace. -/
  | spaceOpen (name : String)
  /-- The start of the members of a namespace. -/
  | spaceStart
  /-- After the sign of a function. -/
  | functionStart (naming : Naming)
  /-- Before the parameter list of a declaration. -/
  | paramsOpen (name : String)
  /-- In a parameter list, before a name or the end; the parameters so far, last first. -/
  | params (name : Option String) (done : List String)
  /-- In a parameter list, after a name. -/
  | afterParam (name : Option String) (done : List String)
  /-- Before the opening brace of a function body. -/
  | bodyOpen (head : FunctionHead)
  /-- Before the name of a property. -/
  | propertyName (target : Node)
  /-- Before the colon after the key of an object member. -/
  | keyColon (entries : List (String × Node)) (key : String)
  /-- After a separator between object members. -/
  | membersNext (entries : List (String × Node))
  /-- Before the arrow of the default arm of a selection. -/
  | defaultArrow (subject : Node) (arms : List (Node × Node))
  /-- The text is complete. -/
  | accepted (tree : Node)
  deriving Repr

/-- The classes of tokens that are looked for at a point. -/
def Point.expect : Point → Expect
  | .programStart => .statement []
  | .bodyStart => .statement [.rightBrace]
  | .bracesStart none => .statement [.objectKey, .rightBrace]
  | .bracesStart (some _) => .statement [.objectKey, .rightBrace, .star]
  | .firstName .. =>
    .statement [.colon, .leftArrow, .doubleArrow, .callOpen, .indexOpen, .memberDot, .rightBrace]
  | .statementName _ => .statement [.leftArrow, .callOpen, .indexOpen, .memberDot, .rightBrace]
  | .operand _ => .afterOperand
  | .closed _ | .declared _ => .afterBody
  | .spaceClosed _ => .statement [.rightBrace]
  | .expressionStart => .expression []
  | .elementsStart => .expression [.rightBracket]
  | .argumentsStart => .expression [.rightParen]
  | .afterComma => .expression [.rightParen, .rightBracket]
  | .loopStart => .expression [.hash]
  | .counterName | .itemName | .constantName | .variableName | .spaceName | .propertyName _ =>
    .only [.name]
  | .counterComma _ | .itemComma _ => .only [.comma]
  | .eachStart => .only [.hash]
  | .constantSign _ => .only [.equal]
  | .variableSign _ => .only [.leftArrow]
  | .spaceOpen _ | .bodyOpen _ => .only [.leftBrace]
  | .spaceStart => .only [.hash, .atSign, .rightBrace]
  | .functionStart .optional => .only [.leftParen, .name]
  | .functionStart .required => .only [.name]
  | .functionStart .forbidden => .only [.leftParen]
  | .paramsOpen _ => .only [.leftParen]
  | .params .. => .only [.rightParen, .name]
  | .afterParam .. => .only [.rightParen, .comma, .name]
  | .keyColon .. => .only [.colon]
  | .membersNext _ => .only [.name, .objectKey, .rightBrace]
  | .defaultArrow .. => .only [.doubleArrow]
  | .accepted _ => .only []

/-- A token as the reader takes it: its class, its text, and the tree it stands for if it is an
expression by itself. -/
structure Token where
  /-- The class of the token. -/
  terminal : Terminal
  /-- The characters of the token. -/
  text : String
  /-- The tree of a token that is an expression by itself. -/
  leaf : Node

/-- The state of the reader. -/
structure Reading where
  /-- What has just been read. -/
  point : Point
  /-- The constructs that are begun, innermost first. -/
  pending : List Pending

namespace Reading

/-- The constructs around braces that turn out to be no selection: with a subject they are the body
of the first branch of a conditional. -/
def around (subject : Option Node) (pending : List Pending) : List Pending :=
  match subject with
  | none => pending
  | some condition => .branchBody [] condition :: pending

/-- Starts an expression with a token. -/
def beginExpression (t : Token) (pending : List Pending) : Option Reading :=
  if t.terminal.isAtom then some ⟨.operand t.leaf, pending⟩
  else
    match t.terminal with
    | .leftBracket => some ⟨.elementsStart, .elements [] :: pending⟩
    | .leftBrace => some ⟨.bracesStart none, pending⟩
    | .leftParen => some ⟨.expressionStart, .group [] :: pending⟩
    | .question => some ⟨.expressionStart, .condition :: pending⟩
    | .tilde => some ⟨.loopStart, pending⟩
    | .tildeTilde => some ⟨.eachStart, pending⟩
    | .returnSign => some ⟨.expressionStart, .result :: pending⟩
    | .atSign => some ⟨.functionStart .forbidden, pending⟩
    | _ => none

/-- Starts a statement with a token. -/
def beginStatement (t : Token) (pending : List Pending) : Option Reading :=
  match t.terminal with
  | .hash => some ⟨.constantName, pending⟩
  | .dollar => some ⟨.variableName, pending⟩
  | .colonColon => some ⟨.spaceName, pending⟩
  | .outputSign => some ⟨.expressionStart, .output :: pending⟩
  | .atSign => some ⟨.functionStart .optional, pending⟩
  | .name => some ⟨.statementName t.text, pending⟩
  | _ => beginExpression t pending

/-- Starts a member of a namespace with a token, or ends the namespace. -/
def beginMember (t : Token) (name : String) (members : List Node) (pending : List Pending) :
    Option Reading :=
  match t.terminal with
  | .hash => some ⟨.constantName, .space name members :: pending⟩
  | .atSign => some ⟨.functionStart .required, .space name members :: pending⟩
  | .rightBrace => some ⟨.spaceClosed (.spaceDecl name members.reverse), pending⟩
  | _ => none

/-- Ends a function body. -/
def closeBody (head : FunctionHead) (done : List Node) (pending : List Pending) : Reading :=
  match head with
  | .declared .. => ⟨.declared (head.toNode done.reverse), pending⟩
  | .anonymous _ => ⟨.closed (head.toNode done.reverse), pending⟩

/-- Hands a completed statement to the construct it stands in, with the token that follows it. -/
def finishStatement (s : Node) (pending : List Pending) (t : Token) : Option Reading :=
  match pending with
  | .program done :: rest =>
    if t.terminal = .endOfText then some ⟨.accepted (.program (s :: done).reverse), rest⟩
    else beginStatement t (.program (s :: done) :: rest)
  | .block done :: rest =>
    if t.terminal = .rightBrace then some ⟨.operand (.block (s :: done).reverse), rest⟩
    else beginStatement t (.block (s :: done) :: rest)
  | .braces subject :: rest =>
    if t.terminal = .rightBrace then some ⟨.operand (.block [s]), around subject rest⟩
    else beginStatement t (.block [s] :: around subject rest)
  | .body head done :: rest =>
    if t.terminal = .rightBrace then some (closeBody head (s :: done) rest)
    else beginStatement t (.body head (s :: done) :: rest)
  | .space name members :: rest => beginMember t name (s :: members) rest
  | _ => none

/-- Hands a completed expression to the construct that waits for it, with the token that follows
it. -/
def finishExpression (e : Node) (pending : List Pending) (t : Token) : Option Reading :=
  match pending with
  | [] => none
  | .expression :: rest =>
    if t.terminal = .endOfText then some ⟨.accepted e, rest⟩ else none
  | .constant name :: rest => finishStatement (.varDecl name e false) rest t
  | .variableValue name :: rest => finishStatement (.varDecl name e true) rest t
  | .assignment name :: rest => finishStatement (.assign name e) rest t
  | .output :: rest => finishStatement (.output e) rest t
  | .result :: rest => finishExpression (.ret e) rest t
  | .condition :: rest =>
    if t.terminal = .leftBrace then some ⟨.bracesStart (some e), rest⟩
    else beginExpression t (.branchBody [] e :: rest)
  | .branchCondition branches :: rest => beginExpression t (.branchBody branches e :: rest)
  | .branchBody branches condition :: rest =>
    let branches := (condition, e) :: branches
    match t.terminal with
    | .dotQuestion => some ⟨.expressionStart, .branchCondition branches :: rest⟩
    | .dot => some ⟨.expressionStart, .otherwise branches :: rest⟩
    | _ => finishExpression (.conditional branches.reverse .absent) rest t
  | .otherwise branches :: rest => finishExpression (.conditional branches.reverse e) rest t
  | .braces (some subject) :: rest =>
    if t.terminal = .doubleArrow then some ⟨.expressionStart, .armBody subject [] e :: rest⟩
    else finishStatement e (.braces (some subject) :: rest) t
  | .pattern subject arms :: rest =>
    if t.terminal = .doubleArrow then some ⟨.expressionStart, .armBody subject arms e :: rest⟩
    else none
  | .armBody subject arms pattern :: rest =>
    let arms := (pattern, e) :: arms
    match t.terminal with
    | .rightBrace => some ⟨.closed (.selection subject arms.reverse .absent), rest⟩
    | .star => some ⟨.defaultArrow subject arms, rest⟩
    | _ => beginExpression t (.pattern subject arms :: rest)
  | .defaultBody subject arms :: rest =>
    if t.terminal = .rightBrace then some ⟨.closed (.selection subject arms.reverse e), rest⟩
    else none
  | .memberValue entries key :: rest =>
    let entries := (key, e) :: entries
    match t.terminal with
    | .comma | .semicolon => some ⟨.membersNext entries, rest⟩
    | .rightBrace => some ⟨.operand (.object entries.reverse), rest⟩
    | .name | .objectKey => some ⟨.keyColon entries t.text, rest⟩
    | _ => none
  | .count counter :: rest => beginExpression t (.countBody counter e :: rest)
  | .countBody counter count :: rest => finishExpression (.countLoop counter count e) rest t
  | .collection item :: rest => beginExpression t (.collectionBody item e :: rest)
  | .collectionBody item collection :: rest =>
    finishExpression (.eachLoop item collection e) rest t
  | .group chain :: rest =>
    if t.terminal = .rightParen then some ⟨.operand (closeGroup chain e), rest⟩
    else t.terminal.operator?.map fun op => ⟨.expressionStart, .group ((e, op) :: chain) :: rest⟩
  | .arguments callee done :: rest =>
    match t.terminal with
    | .comma => some ⟨.afterComma, .arguments callee (e :: done) :: rest⟩
    | .rightParen => some ⟨.operand (.call callee (e :: done).reverse), rest⟩
    | _ => beginExpression t (.arguments callee (e :: done) :: rest)
  | .elements done :: rest =>
    match t.terminal with
    | .comma => some ⟨.afterComma, .elements (e :: done) :: rest⟩
    | .rightBracket => some ⟨.operand (.array (e :: done).reverse), rest⟩
    | _ => beginExpression t (.elements (e :: done) :: rest)
  | .position target :: rest =>
    if t.terminal = .rightBracket then some ⟨.operand (.index target e), rest⟩ else none
  | pending => finishStatement e pending t
where
  /-- The tree of a chain of operands between parentheses, given its last operand and the operands
  before it, each with the operator after it, last first. -/
  closeGroup (chain : List (Node × String)) (last : Node) : Node :=
    let rec regroup : List (Node × String) → Node → List (String × Node) → Chain
      | [], first, rest => ⟨first, rest⟩
      | (operand, op) :: chain, next, rest => regroup chain operand ((op, next) :: rest)
    (regroup chain last []).toNode

/-- Extends an operand by an opener, or hands it on as a completed expression. -/
def afterOperand (e : Node) (pending : List Pending) (t : Token) : Option Reading :=
  match t.terminal with
  | .callOpen => some ⟨.argumentsStart, .arguments e [] :: pending⟩
  | .indexOpen => some ⟨.expressionStart, .position e :: pending⟩
  | .memberDot => some ⟨.propertyName e, pending⟩
  | _ => finishExpression e pending t

/-- Ends a list of elements or arguments after a comma, or starts the next of them. -/
def afterComma (pending : List Pending) (t : Token) : Option Reading :=
  match pending, t.terminal with
  | .elements done :: rest, .rightBracket => some ⟨.operand (.array done.reverse), rest⟩
  | .arguments callee done :: rest, .rightParen => some ⟨.operand (.call callee done.reverse), rest⟩
  | pending, _ => beginExpression t pending

/-- The state after one more token, or nothing if the token cannot follow. -/
def step (r : Reading) (t : Token) : Option Reading :=
  let pending := r.pending
  match r.point with
  | .programStart =>
    if t.terminal = .endOfText then some ⟨.accepted (.program []), pending⟩
    else beginStatement t pending
  | .bodyStart =>
    match pending, t.terminal with
    | .body head done :: rest, .rightBrace => some (closeBody head done rest)
    | pending, _ => beginStatement t pending
  | .bracesStart subject =>
    match t.terminal, subject with
    | .rightBrace, _ => some ⟨.operand (.object []), around subject pending⟩
    | .objectKey, _ => some ⟨.keyColon [] t.text, around subject pending⟩
    | .name, _ => some ⟨.firstName t.text subject, pending⟩
    | .star, some subject => some ⟨.defaultArrow subject [], pending⟩
    | _, _ => beginStatement t (.braces subject :: pending)
  | .firstName name subject =>
    match t.terminal with
    | .colon => some ⟨.expressionStart, .memberValue [] name :: around subject pending⟩
    | .leftArrow => some ⟨.expressionStart, .assignment name :: .braces subject :: pending⟩
    | _ => afterOperand (.ident name) (.braces subject :: pending) t
  | .statementName name =>
    if t.terminal = .leftArrow then some ⟨.expressionStart, .assignment name :: pending⟩
    else afterOperand (.ident name) pending t
  | .operand value => afterOperand value pending t
  | .closed value => finishExpression value pending t
  | .declared statement | .spaceClosed statement => finishStatement statement pending t
  | .expressionStart => beginExpression t pending
  | .elementsStart => afterComma pending t
  | .argumentsStart => afterComma pending t
  | .afterComma => afterComma pending t
  | .loopStart =>
    if t.terminal = .hash then some ⟨.counterName, pending⟩
    else beginExpression t (.count none :: pending)
  | .counterName => next .name (.counterComma t.text) pending
  | .counterComma name => next .comma .expressionStart (.count (some name) :: pending)
  | .eachStart => next .hash .itemName pending
  | .itemName => next .name (.itemComma t.text) pending
  | .itemComma name => next .comma .expressionStart (.collection name :: pending)
  | .constantName => next .name (.constantSign t.text) pending
  | .constantSign name => next .equal .expressionStart (.constant name :: pending)
  | .variableName => next .name (.variableSign t.text) pending
  | .variableSign name => next .leftArrow .expressionStart (.variableValue name :: pending)
  | .spaceName => next .name (.spaceOpen t.text) pending
  | .spaceOpen name => next .leftBrace .spaceStart (.space name [] :: pending)
  | .spaceStart =>
    match pending with
    | .space name members :: rest => beginMember t name members rest
    | _ => none
  | .functionStart naming =>
    match t.terminal with
    | .name => if naming = .forbidden then none else some ⟨.paramsOpen t.text, pending⟩
    | .leftParen => if naming = .required then none else some ⟨.params none [], pending⟩
    | _ => none
  | .paramsOpen name => next .leftParen (.params (some name) []) pending
  | .params name done =>
    match t.terminal with
    | .name => some ⟨.afterParam name (t.text :: done), pending⟩
    | .rightParen => some ⟨.bodyOpen (head name done), pending⟩
    | _ => none
  | .afterParam name done =>
    match t.terminal with
    | .comma => some ⟨.params name done, pending⟩
    | .name => some ⟨.afterParam name (t.text :: done), pending⟩
    | .rightParen => some ⟨.bodyOpen (head name done), pending⟩
    | _ => none
  | .bodyOpen head => next .leftBrace .bodyStart (.body head [] :: pending)
  | .propertyName target => next .name (.operand (.member target t.text)) pending
  | .keyColon entries key => next .colon .expressionStart (.memberValue entries key :: pending)
  | .membersNext entries =>
    match t.terminal with
    | .name | .objectKey => some ⟨.keyColon entries t.text, pending⟩
    | .rightBrace => some ⟨.operand (.object entries.reverse), pending⟩
    | _ => none
  | .defaultArrow subject arms =>
    next .doubleArrow .expressionStart (.defaultBody subject arms :: pending)
  | .accepted _ => none
where
  /-- Goes on to a point if the token is of the one class that may follow. -/
  next (terminal : Terminal) (point : Point) (pending : List Pending) : Option Reading :=
    if t.terminal = terminal then some ⟨point, pending⟩ else none
  /-- The head of a function with the given name and parameters, last parameter first. -/
  head (name : Option String) (done : List String) : FunctionHead :=
    match name with
    | some name => .declared name done.reverse
    | none => .anonymous done.reverse

/-- The reader at the start of a program. -/
def program : Reading :=
  ⟨.programStart, [.program []]⟩

/-- The reader at the start of a text that is one expression. -/
def expression : Reading :=
  ⟨.expressionStart, [.expression]⟩

end Reading

end Sigil
