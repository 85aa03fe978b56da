import Sigil.Decimal.Reading
import Sigil.Syntax.Reader
import Sigil.Syntax.Template

/-!
# From text to trees

`parseProgram` and `parseExpression` read a text, a sequence of Unicode scalar values, token by
token. An error is reported at the first token or character that cannot continue the text, and at
the end of the text at the last token before it. The embedded expressions of templates are read in
their own right once the text around them has turned out to be well-formed; the first of them that
fails is the error.
-/

namespace Sigil

/-- Why a text is not a program. -/
inductive SyntaxError where
  /-- The text cannot go on at this place. -/
  | unexpected (line column : Nat)
  /-- An embedded expression of a template is not closed. -/
  | unterminatedTemplate
  deriving DecidableEq, Repr

/-- The message of an error. -/
def SyntaxError.message : SyntaxError → String
  | .unexpected line column =>
    "unexpected input at line " ++ line.repr ++ ", column " ++ column.repr
  | .unterminatedTemplate => "unterminated template expression"

/-- Reads the text of an embedded expression. -/
abbrev ExprReader := List Char → Except SyntaxError Node

/-- The parts of a template with the given body. -/
def templateNode (readExpr : ExprReader) (body : List Char) : Except SyntaxError Node := do
  match Segment.split? body with
  | none => throw .unterminatedTemplate
  | some segments =>
    let parts ← segments.mapM fun
      | .text s => pure (Sum.inl (String.ofList s))
      | .expr s => return Sum.inr (← readExpr s)
    return .template parts

/-- The characters of a text without the first and the last. -/
def inner (text : List Char) : List Char :=
  (text.drop 1).dropLast

/-- The namespace and the member that a namespace member names. -/
def spaceRefNode (text : List Char) : Node :=
  .spaceMember (String.ofList (text.takeWhile (· != ':')))
    (String.ofList ((text.dropWhile (· != ':')).drop 1))

/-- The tree of a token that is an expression by itself. -/
def leafNode (readExpr : ExprReader) (l : Lexeme) : Except SyntaxError Node :=
  match l.terminal with
  | .number => .ok (.number (numberToken l.text))
  | .string => .ok (.text (String.ofList (unescape (inner l.text))))
  | .template => templateNode readExpr (inner l.text)
  | .yes | .plus => .ok (.truth true)
  | .no | .minus => .ok (.truth false)
  | .underscore => .ok .nothing
  | .name => .ok (.ident (String.ofList l.text))
  | .spaceRef => .ok (spaceRefNode l.text)
  | _ => .ok .absent

/-- The token that stands for the end of the text. -/
def endToken : Token :=
  ⟨.endOfText, "", .absent⟩

/-- The error at a place. -/
def Cursor.unexpected (c : Cursor) : SyntaxError :=
  .unexpected c.line c.column

/-- The tree of a text that ends here, or the error there. -/
def Reading.finish (r : Reading) (last : Cursor) (fault : Option SyntaxError) :
    Except SyntaxError Node :=
  match r.step endToken, fault with
  | some ⟨.accepted tree, _⟩, none => .ok tree
  | some ⟨.accepted _, _⟩, some e => .error e
  | _, _ => .error last.unexpected

/-- Reads the text from a place on. `last` is the place of the token before, and `fault` the first
error in an embedded expression so far. -/
def Reading.read (readExpr : ExprReader) (r : Reading) (c last : Cursor)
    (fault : Option SyntaxError) : Except SyntaxError Node :=
  let place := c.skipLayout
  if _h : place.after = [] then r.finish last fault
  else
    match _hl : place.lexeme? r.point.expect with
    | none => .error place.unexpected
    | some l =>
      let leaf := leafNode readExpr l
      match r.step ⟨l.terminal, String.ofList l.text, leaf.toOption.getD .absent⟩ with
      | none => .error place.unexpected
      | some r =>
        let fault := match leaf with
          | .ok _ => fault
          | .error e => some (fault.getD e)
        r.read readExpr (place.advance l.text.length) place fault
termination_by c.after.length
decreasing_by
  have hpos := Cursor.length_lexeme? _h _hl
  have hle := c.length_skipLayout_le
  have hlen : 0 < c.skipLayout.after.length := List.length_pos_iff.2 _h
  simp only [Cursor.after_advance, List.length_drop]
  omega

/-- Reads a whole text, starting from a state of the reader. -/
def Reading.readText (readExpr : ExprReader) (r : Reading) (text : List Char) :
    Except SyntaxError Node :=
  r.read readExpr (.start text) (.start text) none

/-- Reads the text of an embedded expression. It holds no backquote, because the template around it
ends at the first one, so there are no templates to read in it. -/
def readEmbedded : ExprReader :=
  Reading.expression.readText fun _ => .error .unterminatedTemplate

/-- The tree of a program text. -/
def parseProgram (text : String) : Except SyntaxError Node :=
  Reading.program.readText readEmbedded text.toList

/-- The tree of a text that is one expression. -/
def parseExpression (text : String) : Except SyntaxError Node :=
  Reading.expression.readText readEmbedded text.toList

end Sigil
