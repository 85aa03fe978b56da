import Sigil.Proofs.Grammar.Token
import Sigil.Syntax.Parse

/-!
# The grammar

`grammar` lists the productions of the language, rule by rule. A `Tree` is a derivation with its
marks left out: a node is labelled with the production it was made by, and a leaf is a token, which
for a template comes with the derivations of its embedded expressions. `Derives` says which tokens
a tree is derived from, and `Tree.image` gives the syntax tree that it stands for, `produce` says
what each label makes of its parts.

`Reads start text tree` is the specification of reading: the text is cut into tokens, the tree is a
derivation of these from the start rule, and each expression embedded in a template is read in turn.
-/

namespace Sigil

/-! ### Rules and productions -/

/-- The rules of the grammar. -/
inductive Rule where
  | program | soleExpression
  | statement | constantDecl | variableDecl | assignment | output
  | functionDecl | params | body | spaceDecl | spaceMember
  | expression | conditional | branch | otherwise
  | selection | arms | arm | defaultArm
  | countLoop | eachLoop | result | functionExpr
  | operand | arguments | atom | array | object | objectMember | block
  | disjunction | conjunction | comparison | sum | product
  | orSign | andSign | comparisonSign | sumSign | productSign
  deriving DecidableEq, Repr

/-- The labels of derivations. Two productions have the same label if they build the same tree. -/
inductive Label where
  | program | soleExpression
  | constantDecl | variableDecl | assignment | output
  | functionDecl | params | body | spaceDecl
  | conditional | branch | otherwise
  | selection | arms | arm | defaultArm
  | countLoop | eachLoop | result | functionExpr
  | call | arguments | index | member
  | number | string | template | yes | no | nothing | ident | spaceRef
  | array | object | objectMember | block
  | binary | sign
  deriving DecidableEq, Repr

/-- The right-hand sides of productions. -/
inductive Ebnf where
  /-- A token that leaves no trace in the derivation. -/
  | mark (t : Terminal)
  /-- A token that is kept. -/
  | token (t : Terminal)
  /-- What a rule derives. -/
  | rule (r : Rule)
  /-- One part after the other. -/
  | seq (parts : List Ebnf)
  /-- One of two. -/
  | either (a b : Ebnf)
  /-- At most once. -/
  | optional (a : Ebnf)
  /-- Any number of times. -/
  | many (a : Ebnf)
  /-- At least once. -/
  | some (a : Ebnf)

namespace Ebnf

/-- Expressions one after the other, each of which a comma may follow. -/
def expressions : Ebnf :=
  .many (.seq [.rule .expression, .optional (.mark .comma)])

/-- Parameters one after the other, each of which a comma may follow. -/
def parameters : Ebnf :=
  .many (.seq [.token .name, .optional (.mark .comma)])

/-- Object members one after the other, each of which a separator may follow. -/
def members : Ebnf :=
  .many (.seq [.rule .objectMember, .optional (.either (.mark .comma) (.mark .semicolon))])

/-- A sign between two operands. -/
def oneOf : Terminal → List Terminal → Ebnf
  | t, [] => .token t
  | t, u :: rest => .either (.token t) (oneOf u rest)

end Ebnf

open Ebnf in
/-- **The productions of each rule**, with the label of the derivations that they make. A production
without a label has one part that is not a mark, and hands on the derivation of that part. -/
def grammar : Rule → List (Option Label × Ebnf)
  | .program => [(some .program, many (rule .statement))]
  | .soleExpression => [(some .soleExpression, rule .expression)]
  | .statement =>
    [(none, rule .constantDecl), (none, rule .variableDecl), (none, rule .assignment),
      (none, rule .functionDecl), (none, rule .spaceDecl), (none, rule .output),
      (none, rule .expression)]
  | .constantDecl =>
    [(some .constantDecl, seq [mark .hash, token .name, mark .equal, rule .expression])]
  | .variableDecl =>
    [(some .variableDecl, seq [mark .dollar, token .name, mark .leftArrow, rule .expression])]
  | .assignment => [(some .assignment, seq [token .name, mark .leftArrow, rule .expression])]
  | .output => [(some .output, seq [mark .outputSign, rule .expression])]
  | .functionDecl =>
    [(some .functionDecl, seq [mark .atSign, token .name, mark .leftParen, rule .params,
      mark .rightParen, rule .body])]
  | .params => [(some .params, parameters)]
  | .body => [(some .body, seq [mark .leftBrace, many (rule .statement), mark .rightBrace])]
  | .spaceDecl =>
    [(some .spaceDecl, seq [mark .colonColon, token .name, mark .leftBrace,
      many (rule .spaceMember), mark .rightBrace])]
  | .spaceMember => [(none, rule .functionDecl), (none, rule .constantDecl)]
  | .expression =>
    [(none, rule .conditional), (none, rule .selection), (none, rule .countLoop),
      (none, rule .eachLoop), (none, rule .result), (none, rule .functionExpr),
      (none, rule .operand)]
  | .conditional =>
    [(some .conditional, seq [mark .question, rule .expression, rule .expression,
      many (rule .branch), optional (rule .otherwise)])]
  | .branch => [(some .branch, seq [mark .dotQuestion, rule .expression, rule .expression])]
  | .otherwise => [(some .otherwise, seq [mark .dot, rule .expression])]
  | .selection =>
    [(some .selection, seq [mark .question, rule .expression, mark .leftBrace, rule .arms,
      mark .rightBrace])]
  | .arms =>
    [(some .arms, seq [some (rule .arm), optional (rule .defaultArm)]),
      (some .arms, rule .defaultArm)]
  | .arm => [(some .arm, seq [rule .expression, mark .doubleArrow, rule .expression])]
  | .defaultArm => [(some .defaultArm, seq [mark .star, mark .doubleArrow, rule .expression])]
  | .countLoop =>
    [(some .countLoop, seq [mark .tilde, optional (seq [mark .hash, token .name, mark .comma]),
      rule .expression, rule .expression])]
  | .eachLoop =>
    [(some .eachLoop, seq [mark .tildeTilde, mark .hash, token .name, mark .comma,
      rule .expression, rule .expression])]
  | .result => [(some .result, seq [mark .returnSign, rule .expression])]
  | .functionExpr =>
    [(some .functionExpr, seq [mark .atSign, mark .leftParen, rule .params, mark .rightParen,
      rule .body])]
  | .operand =>
    [(none, rule .atom),
      (some .call, seq [rule .operand, mark .callOpen, rule .arguments, mark .rightParen]),
      (some .index, seq [rule .operand, mark .indexOpen, rule .expression, mark .rightBracket]),
      (some .member, seq [rule .operand, mark .memberDot, token .name])]
  | .arguments => [(some .arguments, expressions)]
  | .atom =>
    [(some .number, token .number), (some .string, token .string),
      (some .template, token .template), (some .yes, mark .yes), (some .yes, mark .plus),
      (some .no, mark .no), (some .no, mark .minus), (some .nothing, mark .underscore),
      (some .ident, token .name), (some .spaceRef, token .spaceRef), (none, rule .array),
      (none, rule .object), (none, rule .block),
      (none, seq [mark .leftParen, rule .disjunction, mark .rightParen])]
  | .array => [(some .array, seq [mark .leftBracket, expressions, mark .rightBracket])]
  | .object => [(some .object, seq [mark .leftBrace, members, mark .rightBrace])]
  | .objectMember =>
    [(some .objectMember, seq [either (token .name) (token .objectKey), mark .colon,
      rule .expression])]
  | .block => [(some .block, seq [mark .leftBrace, some (rule .statement), mark .rightBrace])]
  | .disjunction =>
    [(none, rule .conjunction),
      (some .binary, seq [rule .disjunction, rule .orSign, rule .conjunction])]
  | .conjunction =>
    [(none, rule .comparison),
      (some .binary, seq [rule .conjunction, rule .andSign, rule .comparison])]
  | .comparison =>
    [(none, rule .sum), (some .binary, seq [rule .comparison, rule .comparisonSign, rule .sum])]
  | .sum => [(none, rule .product), (some .binary, seq [rule .sum, rule .sumSign, rule .product])]
  | .product =>
    [(none, rule .expression),
      (some .binary, seq [rule .product, rule .productSign, rule .expression])]
  | .orSign => [(some .sign, token .bar)]
  | .andSign => [(some .sign, token .ampersand)]
  | .comparisonSign =>
    [(some .sign, oneOf .equal [.notEqual, .less, .greater, .lessEqual, .greaterEqual])]
  | .sumSign => [(some .sign, oneOf .plus [.minus])]
  | .productSign => [(some .sign, oneOf .star [.slash, .percent])]

/-! ### Derivations -/

/-- A derivation without its marks. -/
inductive Tree where
  /-- A token. One that is a template has its parts: literal texts and embedded expressions. -/
  | leaf (token : Lexeme) (parts : List (List Char ⊕ Tree))
  /-- What a labelled production makes of the derivations of its parts. -/
  | node (label : Label) (children : List Tree)

/-! ### Templates -/

/-- The text of an embedded expression: its braces are balanced, where braces inside quoted texts do
not count. -/
inductive Balanced : List Char → Prop
  | nil : Balanced []
  | plain {c : Char} {rest : List Char} :
      c ≠ '\x7b' → c ≠ '\x7d' → c ≠ '"' → Balanced rest → Balanced (c :: rest)
  | braces {inside rest : List Char} :
      Balanced inside → Balanced rest → Balanced ('\x7b' :: (inside ++ '\x7d' :: rest))
  | quoted {body rest : List Char} :
      QuotedBody (fun _ => True) body → Balanced rest → Balanced ('"' :: (body ++ '"' :: rest))

/-- The literal text that a piece of a template stands for: a backslash stands for the character
after it, and an opening brace needs one. -/
inductive Unescapes : List Char → List Char → Prop
  | nil : Unescapes [] []
  | escape {c : Char} {raw text : List Char} :
      Unescapes raw text → Unescapes ('\\' :: c :: raw) (c :: text)
  | plain {c : Char} {raw text : List Char} :
      c ≠ '\\' → c ≠ '\x7b' → Unescapes raw text → Unescapes (c :: raw) (c :: text)

/-- Literal text as a part of a template. There are no empty parts. -/
def textPart (text : List Char) : List (List Char ⊕ Tree) :=
  if text = [] then [] else [.inl text]

/-- The inside of a template and its parts, where `E` relates the text of an embedded expression to
its derivation. Only a backslash that ends the template stands for itself. -/
inductive TemplateParts (E : List Char → Tree → Prop) :
    List Char → List (List Char ⊕ Tree) → Prop
  | text {raw text : List Char} : Unescapes raw text → TemplateParts E raw (textPart text)
  | backslash {raw text : List Char} :
      Unescapes raw text → TemplateParts E (raw ++ ['\\']) (textPart (text ++ ['\\']))
  | embedded {raw text source rest : List Char} {tree : Tree} {parts : List (List Char ⊕ Tree)} :
      Unescapes raw text → Balanced source → E source tree → TemplateParts E rest parts →
        TemplateParts E (raw ++ '\x7b' :: (source ++ '\x7d' :: rest))
          (textPart text ++ .inr tree :: parts)

/-! ### Derivations from tokens -/

/-- **Derivations**: the tokens that a right-hand side stands for, with the derivations of its
parts. `E` relates the text of an expression embedded in a template to its derivation. -/
inductive Derives (E : List Char → Tree → Prop) : Ebnf → List Lexeme → List Tree → Prop
  | mark {l : Lexeme} : Derives E (.mark l.terminal) [l] []
  | token {l : Lexeme} : l.terminal ≠ .template → Derives E (.token l.terminal) [l] [.leaf l []]
  | template {body : List Char} {parts : List (List Char ⊕ Tree)} :
      TemplateParts E body parts →
        Derives E (.token .template) [⟨.template, '`' :: (body ++ ['`'])⟩]
          [.leaf ⟨.template, '`' :: (body ++ ['`'])⟩ parts]
  | made {r : Rule} {label : Label} {e : Ebnf} {ts : List Lexeme} {cs : List Tree} :
      (some label, e) ∈ grammar r → Derives E e ts cs → Derives E (.rule r) ts [.node label cs]
  | passed {r : Rule} {e : Ebnf} {ts : List Lexeme} {c : Tree} :
      (none, e) ∈ grammar r → Derives E e ts [c] → Derives E (.rule r) ts [c]
  | nil : Derives E (.seq []) [] []
  | cons {e : Ebnf} {es : List Ebnf} {ts us : List Lexeme} {cs ds : List Tree} :
      Derives E e ts cs → Derives E (.seq es) us ds →
        Derives E (.seq (e :: es)) (ts ++ us) (cs ++ ds)
  | left {a b : Ebnf} {ts : List Lexeme} {cs : List Tree} :
      Derives E a ts cs → Derives E (.either a b) ts cs
  | right {a b : Ebnf} {ts : List Lexeme} {cs : List Tree} :
      Derives E b ts cs → Derives E (.either a b) ts cs
  | absent {a : Ebnf} : Derives E (.optional a) [] []
  | present {a : Ebnf} {ts : List Lexeme} {cs : List Tree} :
      Derives E a ts cs → Derives E (.optional a) ts cs
  | none {a : Ebnf} : Derives E (.many a) [] []
  | more {a : Ebnf} {ts us : List Lexeme} {cs ds : List Tree} :
      Derives E (.many a) ts cs → Derives E a us ds → Derives E (.many a) (ts ++ us) (cs ++ ds)
  | one {a : Ebnf} {ts : List Lexeme} {cs : List Tree} :
      Derives E a ts cs → Derives E (.some a) ts cs
  | another {a : Ebnf} {ts us : List Lexeme} {cs ds : List Tree} :
      Derives E (.some a) ts cs → Derives E a us ds → Derives E (.some a) (ts ++ us) (cs ++ ds)

/-- **Reading by the grammar**: the whole text is cut into tokens, and these have the given
derivation from the start rule. The expressions embedded in its templates are read in the same way,
each as one expression. -/
inductive Reads : Rule → List Char → Tree → Prop
  | of_cut {start : Rule} {text : List Char} {tokens : List Lexeme} {tree : Tree} :
      Cut [] text tokens →
        Derives (Reads .soleExpression) (.rule start) tokens [tree] → Reads start text tree

/-! ### The syntax tree of a derivation -/

/-- What a derivation stands for. -/
inductive Item where
  /-- A token. -/
  | token (text : String)
  /-- The parts of a template. -/
  | parts (parts : List (String ⊕ Node))
  /-- A statement or an expression. -/
  | node (n : Node)
  /-- The parameters of a function. -/
  | names (names : List String)
  /-- The body of a function. -/
  | body (statements : List Node)
  /-- The arguments of a call. -/
  | args (args : List Node)
  /-- A branch of a conditional or an arm of a selection. -/
  | clause (condition body : Node)
  /-- The last clause of a conditional or the default arm of a selection. -/
  | fallback (body : Node)
  /-- The arms of a selection, with the body of the default arm. -/
  | arms (arms : List (Node × Node)) (otherwise : Node)
  /-- A member of an object. -/
  | entry (key : String) (value : Node)
  /-- The whole text. -/
  | whole (tree : Node)

namespace Item

/-- The statement or expression that an item is. -/
def node? : Item → Option Node
  | .node n => some n
  | _ => none

/-- The name that an item is. -/
def name? : Item → Option String
  | .token text => some text
  | _ => none

/-- The object member that an item is. -/
def member? : Item → Option (String × Node)
  | .entry key value => some (key, value)
  | _ => none

end Item

/-- The clauses that some items are, and the body of the last if that has no condition. -/
def clauses? : List Item → Option (List (Node × Node) × Node)
  | [] => some ([], .absent)
  | [.fallback body] => some ([], body)
  | .clause condition body :: items =>
    (clauses? items).map fun (clauses, otherwise) => ((condition, body) :: clauses, otherwise)
  | _ => none

/-- **What a labelled production makes** of the items of its parts. -/
def produce : Label → List Item → Option Item
  | .program, items => (items.mapM Item.node?).map fun body => .whole (.program body)
  | .soleExpression, [.node e] => some (.whole e)
  | .constantDecl, [.token name, .node e] => some (.node (.varDecl name e false))
  | .variableDecl, [.token name, .node e] => some (.node (.varDecl name e true))
  | .assignment, [.token name, .node e] => some (.node (.assign name e))
  | .output, [.node e] => some (.node (.output e))
  | .functionDecl, [.token name, .names params, .body body] =>
    some (.node (.functionDecl name params (.block body)))
  | .params, items => (items.mapM Item.name?).map .names
  | .body, items => (items.mapM Item.node?).map .body
  | .spaceDecl, .token name :: items =>
    (items.mapM Item.node?).map fun members => .node (.spaceDecl name members)
  | .conditional, .node condition :: .node body :: items =>
    (clauses? items).map fun (branches, otherwise) =>
      .node (.conditional ((condition, body) :: branches) otherwise)
  | .branch, [.node condition, .node body] => some (.clause condition body)
  | .otherwise, [.node body] => some (.fallback body)
  | .selection, [.node subject, .arms arms otherwise] =>
    some (.node (.selection subject arms otherwise))
  | .arms, items => (clauses? items).map fun (arms, otherwise) => .arms arms otherwise
  | .arm, [.node pattern, .node body] => some (.clause pattern body)
  | .defaultArm, [.node body] => some (.fallback body)
  | .countLoop, [.node count, .node body] => some (.node (.countLoop none count body))
  | .countLoop, [.token counter, .node count, .node body] =>
    some (.node (.countLoop counter count body))
  | .eachLoop, [.token item, .node collection, .node body] =>
    some (.node (.eachLoop item collection body))
  | .result, [.node e] => some (.node (.ret e))
  | .functionExpr, [.names params, .body body] =>
    some (.node (.functionExpr none params (.block body)))
  | .call, [.node callee, .args args] => some (.node (.call callee args))
  | .arguments, items => (items.mapM Item.node?).map .args
  | .index, [.node target, .node position] => some (.node (.index target position))
  | .member, [.node target, .token name] => some (.node (.member target name))
  | .number, [.token text] => some (.node (.number (numberToken text.toList)))
  | .string, [.token text] => some (.node (.text (String.ofList (unescape (inner text.toList)))))
  | .template, [.parts parts] => some (.node (.template parts))
  | .yes, [] => some (.node (.truth true))
  | .no, [] => some (.node (.truth false))
  | .nothing, [] => some (.node .nothing)
  | .ident, [.token name] => some (.node (.ident name))
  | .spaceRef, [.token text] => some (.node (spaceRefNode text.toList))
  | .array, items => (items.mapM Item.node?).map fun elements => .node (.array elements)
  | .object, items => (items.mapM Item.member?).map fun entries => .node (.object entries)
  | .objectMember, [.token key, .node value] => some (.entry key value)
  | .block, items => (items.mapM Item.node?).map fun statements => .node (.block statements)
  | .binary, [.node left, .token op, .node right] =>
    some (.node (.binary op left right))
  | .sign, [.token text] => some (.token text)
  | _, _ => none

namespace Tree

mutual

/-- **The item that a derivation stands for**, if each production gets the items it can take. -/
def image : Tree → Option Item
  | .leaf token parts =>
    if token.terminal = .template then (partImages parts).map .parts
    else some (.token (String.ofList token.text))
  | .node label children => (images children).bind (produce label)

/-- The items that some derivations stand for. -/
def images : List Tree → Option (List Item)
  | [] => some []
  | t :: ts => t.image.bind fun item => (images ts).map (item :: ·)

/-- The parts of a template: an embedded expression stands for its syntax tree. -/
def partImages : List (List Char ⊕ Tree) → Option (List (String ⊕ Node))
  | [] => some []
  | .inl text :: parts => (partImages parts).map (.inl (String.ofList text) :: ·)
  | .inr t :: parts =>
    match t.image with
    | some (.whole e) => (partImages parts).map (.inr e :: ·)
    | _ => none

end

end Tree

end Sigil
