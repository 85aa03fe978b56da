/-!
# Terminals and reading contexts

A `Terminal` is a class of tokens. Which classes are looked for at a place of the text depends on
what has just been read there: an `Expect` describes such a set of classes, and `Expect.admits`
tells its members. Outside these sets a class is invisible, so that for instance `a:b` is one token
where an expression may start and three where the name of an object member must stand.
-/

namespace Sigil

/-- The classes of tokens. -/
inductive Terminal where
  /-- A name that is the key of an object member, told by what follows it. -/
  | objectKey
  /-- A member of a namespace, `Space:member`. -/
  | spaceRef
  /-- An opening parenthesis that touches the operand before it: a call. -/
  | callOpen
  /-- An opening bracket that touches the operand before it: an index. -/
  | indexOpen
  /-- A dot that touches the operand before it: a property. -/
  | memberDot
  /-- A name. -/
  | name
  /-- A number. -/
  | number
  /-- A quoted text. -/
  | string
  /-- A template. -/
  | template
  /-- The word `yes`. -/
  | yes
  /-- The word `no`. -/
  | no
  /-- The word `_`. -/
  | underscore
  /-- The sign `<-`. -/
  | leftArrow
  /-- The sign `<:`. -/
  | outputSign
  /-- The sign `::`. -/
  | colonColon
  /-- The sign `.?`. -/
  | dotQuestion
  /-- The sign `=>`. -/
  | doubleArrow
  /-- The sign `~~`. -/
  | tildeTilde
  /-- The sign `<<`. -/
  | returnSign
  /-- The sign `!=`. -/
  | notEqual
  /-- The sign `<=`. -/
  | lessEqual
  /-- The sign `>=`. -/
  | greaterEqual
  /-- The sign `#`. -/
  | hash
  /-- The sign `$`. -/
  | dollar
  /-- The sign `@`. -/
  | atSign
  /-- The sign `?`. -/
  | question
  /-- The sign `~`. -/
  | tilde
  /-- The sign `.`. -/
  | dot
  /-- The sign `,`. -/
  | comma
  /-- The sign `;`. -/
  | semicolon
  /-- The sign `:`. -/
  | colon
  /-- The sign `(`. -/
  | leftParen
  /-- The sign `)`. -/
  | rightParen
  /-- The sign `[`. -/
  | leftBracket
  /-- The sign `]`. -/
  | rightBracket
  /-- An opening brace. -/
  | leftBrace
  /-- A closing brace. -/
  | rightBrace
  /-- The sign `=`. -/
  | equal
  /-- The sign `<`. -/
  | less
  /-- The sign `>`. -/
  | greater
  /-- The sign `+`. -/
  | plus
  /-- The sign `-`. -/
  | minus
  /-- The sign `*`. -/
  | star
  /-- The sign `/`. -/
  | slash
  /-- The sign `%`. -/
  | percent
  /-- The sign `&`. -/
  | ampersand
  /-- The sign `|`. -/
  | bar
  /-- The end of the text. -/
  | endOfText
  deriving DecidableEq, Repr, Inhabited

namespace Terminal

/-- The characters of a sign. The other classes have no fixed spelling. -/
def sign : Terminal → List Char
  | leftArrow => ['<', '-']
  | outputSign => ['<', ':']
  | colonColon => [':', ':']
  | dotQuestion => ['.', '?']
  | doubleArrow => ['=', '>']
  | tildeTilde => ['~', '~']
  | returnSign => ['<', '<']
  | notEqual => ['!', '=']
  | lessEqual => ['<', '=']
  | greaterEqual => ['>', '=']
  | hash => ['#']
  | dollar => ['$']
  | atSign => ['@']
  | question => ['?']
  | tilde => ['~']
  | dot => ['.']
  | comma => [',']
  | semicolon => [';']
  | colon => [':']
  | leftParen => ['(']
  | rightParen => [')']
  | leftBracket => ['[']
  | rightBracket => [']']
  | leftBrace => ['\x7b']
  | rightBrace => ['\x7d']
  | equal => ['=']
  | less => ['<']
  | greater => ['>']
  | plus => ['+']
  | minus => ['-']
  | star => ['*']
  | slash => ['/']
  | percent => ['%']
  | ampersand => ['&']
  | bar => ['|']
  | _ => []

/-- The order in which the classes are looked for; the first that matches wins. The words `yes`,
`no` and `_` are names that are told apart afterwards. -/
def order : List Terminal :=
  [objectKey, spaceRef, callOpen, indexOpen, memberDot, name, number, string, template,
    leftArrow, outputSign, colonColon, dotQuestion, doubleArrow, tildeTilde, returnSign, notEqual,
    lessEqual, greaterEqual, hash, dollar, atSign, question, tilde, dot, comma, semicolon, colon,
    leftParen, rightParen, leftBracket, rightBracket, leftBrace, rightBrace, equal, less, greater,
    plus, minus, star, slash, percent, ampersand, bar]

/-- The operator that a sign denotes between two operands. -/
def operator? : Terminal → Option String
  | bar => some "|"
  | ampersand => some "&"
  | equal => some "="
  | notEqual => some "!="
  | less => some "<"
  | greater => some ">"
  | lessEqual => some "<="
  | greaterEqual => some ">="
  | plus => some "+"
  | minus => some "-"
  | star => some "*"
  | slash => some "/"
  | percent => some "%"
  | _ => none

/-- The tokens that are expressions by themselves. The signs `+` and `-` are truth values there. -/
def isAtom : Terminal → Bool
  | number | string | template | yes | no | underscore | plus | minus | name | spaceRef => true
  | _ => false

/-- The tokens an expression may start with. -/
def startsExpression (t : Terminal) : Bool :=
  t.isAtom || match t with
    | leftBracket | leftBrace | leftParen | question | tilde | tildeTilde | returnSign | atSign =>
      true
    | _ => false

/-- The tokens a statement may start with. -/
def startsStatement (t : Terminal) : Bool :=
  t.startsExpression || match t with
    | hash | dollar | colonColon | outputSign => true
    | _ => false

/-- The openers that extend an operand they touch. -/
def isPostfixOpener : Terminal → Bool
  | callOpen | indexOpen | memberDot => true
  | _ => false

end Terminal

/-- The classes of tokens that are looked for at a place of the text. -/
inductive Expect where
  /-- Just these. -/
  | only (terminals : List Terminal)
  /-- The tokens an expression may start with, and these. -/
  | expression (others : List Terminal)
  /-- The tokens a statement may start with, and these. -/
  | statement (others : List Terminal)
  /-- After an operand: all but `:` and `<-`, also what cannot follow at this place. -/
  | afterOperand
  /-- After the closing brace of a function body or of a selection: as after an operand, but the
  openers that extend an operand are not looked for. -/
  | afterBody
  deriving DecidableEq, Repr

/-- Whether a class of tokens is looked for. -/
def Expect.admits : Expect → Terminal → Bool
  | .only ts, t => ts.contains t
  | .expression ts, t => t.startsExpression || ts.contains t
  | .statement ts, t => t.startsStatement || ts.contains t
  | .afterOperand, t => t != .colon && t != .leftArrow
  | .afterBody, t => t != .colon && t != .leftArrow && !t.isPostfixOpener

end Sigil
