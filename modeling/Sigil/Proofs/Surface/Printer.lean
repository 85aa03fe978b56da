import Sigil.Proofs.Surface.Word

/-!
# Writing programs down

`Printer.program` writes a program as a text. Every expression stands in parentheses, every token is
followed by a blank, and the only tokens without a blank between them are a closing parenthesis and
the opener of a call, an index or a property behind it. `Surface` tells the trees that can be
written down: those that the grammar can build at all.

Numbers are written by a function that the printer is given, `numeral`.
-/

namespace Sigil

namespace Printer

/-! ### Texts -/

/-- Puts a backslash before each special character. -/
def escape (special : Char → Bool) (cs : List Char) : List Char :=
  cs.flatMap fun c => if special c then ['\\', c] else [c]

/-- The characters that are escaped in a quoted text. -/
def isSpecialQuoted (c : Char) : Bool :=
  c == '"' || c == '\\'

/-- The characters that are escaped in the literal text of a template. -/
def isSpecialTemplate (c : Char) : Bool :=
  c == '\\' || c == '\x7b'

/-- An expression in parentheses. -/
def group (inside : List Char) : List Char :=
  Terminal.leftParen.word ++ inside ++ Terminal.rightParen.word

/-- Names one after the other. -/
def names (xs : List String) : List Char :=
  xs.flatMap nameWord

/-- Trees that stand as statements without parentheses. -/
def isDeclaration : Node → Bool
  | .varDecl .. | .assign .. | .output _ | .functionDecl .. | .spaceDecl .. => true
  | _ => false

/-- A tree where a statement stands, given its text. -/
def statement (n : Node) (text : List Char) : List Char :=
  if isDeclaration n then text else group text

/-- A clause that is left out if its tree is. -/
def clause (n : Node) (text : List Char) : List Char :=
  match n with
  | .absent => []
  | _ => text

/-- The name of the counter of a loop. -/
def counter : Option String → List Char
  | none => []
  | some name => Terminal.hash.word ++ nameWord name ++ Terminal.comma.word

variable (numeral : Float → List Char)

/-- A literal. -/
def literal : Json → List Char
  | .float x => numeral x ++ [' ']
  | .str s => '"' :: (escape isSpecialQuoted s.toList ++ ['"']) ++ [' ']
  | .bool true => ['y', 'e', 's', ' ']
  | .bool false => ['n', 'o', ' ']
  | _ => ['_', ' ']

mutual

/-- **The text of a tree**: of an expression as it stands between parentheses, of a declaration as
it stands. -/
def node : Node → List Char
  | .absent => []
  | .program body => statements body
  | .literal value _ => literal numeral value
  | .array elements =>
    Terminal.leftBracket.word ++ groups elements ++ Terminal.rightBracket.word
  | .object entries => Terminal.leftBrace.word ++ members entries ++ Terminal.rightBrace.word
  | .template ps => '`' :: (parts ps ++ ['`']) ++ [' ']
  | .ident name => nameWord name
  | .varDecl name value false =>
    Terminal.hash.word ++ nameWord name ++ Terminal.equal.word ++ group (node value)
  | .varDecl name value true =>
    Terminal.dollar.word ++ nameWord name ++ Terminal.leftArrow.word ++ group (node value)
  | .assign name value => nameWord name ++ Terminal.leftArrow.word ++ group (node value)
  | .member target name =>
    Terminal.leftParen.word ++ node target ++ [')', '.', ' '] ++ nameWord name
  | .index target position =>
    Terminal.leftParen.word ++ node target ++ [')', '[', ' '] ++ group (node position) ++
      Terminal.rightBracket.word
  | .spaceMember space member => space.toList ++ ':' :: member.toList ++ [' ']
  | .call callee args =>
    Terminal.leftParen.word ++ node callee ++ [')', '(', ' '] ++ groups args ++
      Terminal.rightParen.word
  | .block body => Terminal.leftBrace.word ++ statements body ++ Terminal.rightBrace.word
  | .functionDecl name params body =>
    Terminal.atSign.word ++ nameWord name ++ group (names params) ++ node body
  | .functionExpr _ params body => Terminal.atSign.word ++ group (names params) ++ node body
  | .spaceDecl name decls =>
    Terminal.colonColon.word ++ nameWord name ++ Terminal.leftBrace.word ++ statements decls ++
      Terminal.rightBrace.word
  | .conditional clauses otherwise =>
    branches .question clauses ++ clause otherwise (Terminal.dot.word ++ group (node otherwise))
  | .selection subject clauses otherwise =>
    Terminal.question.word ++ group (node subject) ++ Terminal.leftBrace.word ++ arms clauses ++
      clause otherwise
        (Terminal.star.word ++ Terminal.doubleArrow.word ++ group (node otherwise)) ++
      Terminal.rightBrace.word
  | .countLoop name count body =>
    Terminal.tilde.word ++ counter name ++ group (node count) ++ group (node body)
  | .eachLoop item collection body =>
    Terminal.tildeTilde.word ++ counter (some item) ++ group (node collection) ++ group (node body)
  | .ret value => Terminal.returnSign.word ++ group (node value)
  | .output value => Terminal.outputSign.word ++ group (node value)
  | .binary op left right => group (node left) ++ nameWord op ++ group (node right)

/-- Statements one after the other. -/
def statements : List Node → List Char
  | [] => []
  | n :: ns => statement n (node n) ++ statements ns

/-- Expressions one after the other. -/
def groups : List Node → List Char
  | [] => []
  | n :: ns => group (node n) ++ groups ns

/-- Object members one after the other. -/
def members : List (String × Node) → List Char
  | [] => []
  | (key, n) :: rest =>
    nameWord key ++ Terminal.colon.word ++ group (node n) ++ Terminal.comma.word ++ members rest

/-- Branches of a conditional, the first of them after the given sign. -/
def branches (sign : Terminal) : List (Node × Node) → List Char
  | [] => []
  | (condition, body) :: rest =>
    sign.word ++ group (node condition) ++ group (node body) ++ branches .dotQuestion rest

/-- Arms of a selection. -/
def arms : List (Node × Node) → List Char
  | [] => []
  | (pattern, body) :: rest =>
    group (node pattern) ++ Terminal.doubleArrow.word ++ group (node body) ++ arms rest

/-- Parts of a template. -/
def parts : List (String ⊕ Node) → List Char
  | [] => []
  | .inl text :: rest => escape isSpecialTemplate text.toList ++ parts rest
  | .inr n :: rest => '\x7b' :: (group (node n) ++ '\x7d' :: parts rest)

end

end Printer

/-! ### The trees of the grammar -/

/-- Where a tree stands. -/
inductive Role where
  /-- Where an expression is expected. -/
  | expression
  /-- Where a statement is expected. -/
  | statement
  /-- Among the members of a namespace. -/
  | member
  deriving DecidableEq, Repr

/-- The operators of the grammar. -/
def operators : List String :=
  ["|", "&", "=", "!=", "<", ">", "<=", ">=", "+", "-", "*", "/", "%"]

/-- The literal texts of a template: none is empty, none holds a backquote, and no two are next to
each other. -/
def TextsApart : List (String ⊕ Node) → Prop
  | [] => True
  | .inl text :: rest =>
    text ≠ "" ∧ '`' ∉ text.toList ∧ (∀ next, rest.head? ≠ some (.inl next)) ∧ TextsApart rest
  | .inr _ :: rest => TextsApart rest

/-- **The surface trees**, by where they stand and by whether they stand inside a template. There is
no template inside a template. -/
inductive Surface : Bool → Role → Node → Prop
  | number {inside : Bool} {x : List Char} :
      IsNumeral x → Surface inside .expression (.number (numberToken x))
  | text {inside : Bool} {s : String} :
      (inside = true → '`' ∉ s.toList) → Surface inside .expression (.text s)
  | truth {inside b : Bool} : Surface inside .expression (.truth b)
  | nothing {inside : Bool} : Surface inside .expression .nothing
  | array {inside : Bool} {elements : List Node} :
      (∀ e ∈ elements, Surface inside .expression e) → Surface inside .expression (.array elements)
  | object {inside : Bool} {entries : List (String × Node)} :
      (∀ entry ∈ entries, IsVarName entry.1) →
        (∀ entry ∈ entries, Surface inside .expression entry.2) →
          Surface inside .expression (.object entries)
  | template {parts : List (String ⊕ Node)} :
      TextsApart parts → (∀ e, .inr e ∈ parts → Surface true .expression e) →
        Surface false .expression (.template parts)
  | ident {inside : Bool} {name : String} :
      IsVarName name → Surface inside .expression (.ident name)
  | spaceMember {inside : Bool} {space member : String} :
      IsVarName space → IsVarName member → Surface inside .expression (.spaceMember space member)
  | member {inside : Bool} {target : Node} {name : String} :
      Surface inside .expression target → IsVarName name →
        Surface inside .expression (.member target name)
  | index {inside : Bool} {target position : Node} :
      Surface inside .expression target → Surface inside .expression position →
        Surface inside .expression (.index target position)
  | call {inside : Bool} {callee : Node} {args : List Node} :
      Surface inside .expression callee → (∀ e ∈ args, Surface inside .expression e) →
        Surface inside .expression (.call callee args)
  | block {inside : Bool} {body : List Node} :
      body ≠ [] → (∀ s ∈ body, Surface inside .statement s) →
        Surface inside .expression (.block body)
  | functionExpr {inside : Bool} {params : List String} {body : List Node} :
      (∀ name ∈ params, IsVarName name) → (∀ s ∈ body, Surface inside .statement s) →
        Surface inside .expression (.functionExpr none params (.block body))
  | conditional {inside : Bool} {clauses : List (Node × Node)} {otherwise : Node} :
      clauses ≠ [] → (∀ c ∈ clauses, Surface inside .expression c.1) →
        (∀ c ∈ clauses, Surface inside .expression c.2) →
          (otherwise ≠ .absent → Surface inside .expression otherwise) →
            Surface inside .expression (.conditional clauses otherwise)
  | selection {inside : Bool} {subject : Node} {clauses : List (Node × Node)} {otherwise : Node} :
      Surface inside .expression subject → (clauses = [] → otherwise ≠ .absent) →
        (∀ c ∈ clauses, Surface inside .expression c.1) →
          (∀ c ∈ clauses, Surface inside .expression c.2) →
            (otherwise ≠ .absent → Surface inside .expression otherwise) →
              Surface inside .expression (.selection subject clauses otherwise)
  | countLoop {inside : Bool} {counter : Option String} {count body : Node} :
      (∀ name ∈ counter, IsVarName name) → Surface inside .expression count →
        Surface inside .expression body → Surface inside .expression (.countLoop counter count body)
  | eachLoop {inside : Bool} {item : String} {collection body : Node} :
      IsVarName item → Surface inside .expression collection → Surface inside .expression body →
        Surface inside .expression (.eachLoop item collection body)
  | ret {inside : Bool} {value : Node} :
      Surface inside .expression value → Surface inside .expression (.ret value)
  | binary {inside : Bool} {op : String} {left right : Node} :
      op ∈ operators → Surface inside .expression left → Surface inside .expression right →
        Surface inside .expression (.binary op left right)
  | expression {inside : Bool} {e : Node} :
      Surface inside .expression e → Surface inside .statement e
  | constant {inside : Bool} {role : Role} {name : String} {value : Node} :
      role ≠ .expression → IsVarName name → Surface inside .expression value →
        Surface inside role (.varDecl name value false)
  | mutable {inside : Bool} {name : String} {value : Node} :
      IsVarName name → Surface inside .expression value →
        Surface inside .statement (.varDecl name value true)
  | assign {inside : Bool} {name : String} {value : Node} :
      IsVarName name → Surface inside .expression value →
        Surface inside .statement (.assign name value)
  | output {inside : Bool} {value : Node} :
      Surface inside .expression value → Surface inside .statement (.output value)
  | functionDecl {inside : Bool} {role : Role} {name : String} {params : List String}
        {body : List Node} :
      role ≠ .expression → IsVarName name → (∀ x ∈ params, IsVarName x) →
        (∀ s ∈ body, Surface inside .statement s) →
          Surface inside role (.functionDecl name params (.block body))
  | spaceDecl {inside : Bool} {name : String} {members : List Node} :
      IsVarName name → (∀ m ∈ members, Surface inside .member m) →
        Surface inside .statement (.spaceDecl name members)

/-- A way of writing numbers that keeps their values. -/
def WritesNumbers (numeral : Float → List Char) : Prop :=
  ∀ x, IsNumeral x →
    IsNumeral (numeral (numberToken x)) ∧ numberToken (numeral (numberToken x)) = numberToken x

/-- **A program that can be written down.** -/
def IsSurfaceProgram (program : Node) : Prop :=
  ∃ body, program = .program body ∧ ∀ s ∈ body, Surface false .statement s

end Sigil
