import Sigil.Decimal.Reading
import Sigil.Json.Basic
import Sigil.Text.Quoted

/-!
# Reading JSON

A document is first cut into tokens, which are the punctuation and the values without parts; then
the tokens are taken one by one with a stack of the arrays and objects that are open. Besides the
standard the reader knows the numbers `NaN`, `Infinity` and `-Infinity`, and of two fields with one
name the later gives the value.
-/

namespace Sigil

namespace Json

/-- Why a text is not a JSON document. -/
inductive ReadError where
  /-- The text is not well-formed. -/
  | malformed
  /-- A whole number has more digits than are read. -/
  | overlong
  deriving DecidableEq, Repr

/-- A token of a document. -/
inductive Piece where
  /-- An opening bracket. -/
  | openArr
  /-- A closing bracket. -/
  | closeArr
  /-- An opening brace. -/
  | openObj
  /-- A closing brace. -/
  | closeObj
  /-- A comma. -/
  | comma
  /-- A colon. -/
  | colon
  /-- A value without parts. -/
  | scalar (value : Json)
  /-- A whole number that is too long. -/
  | overlong
  /-- Something that is no token. -/
  | broken

/-! ### Tokens -/

/-- The longest whole number that is read, in digits. -/
def maxDigits : Nat :=
  4300

/-- White space between the tokens of a document. -/
def isSpace (c : Char) : Bool :=
  c == ' ' || c == '\t' || c == '\n' || c == '\r'

/-- The digits of the whole part of a number, which starts with zero only if it is zero. -/
def wholeDigits : List Char → List Char
  | '0' :: _ => ['0']
  | cs => cs.takeWhile Char.isDigit

/-- The fraction of a number, with its point. -/
def fractionText : List Char → List Char
  | '.' :: rest =>
    let ds := rest.takeWhile Char.isDigit
    if ds.isEmpty then [] else '.' :: ds
  | _ => []

/-- The exponent of a number, with its mark and sign. -/
def exponentText : List Char → List Char
  | e :: rest =>
    if e == 'e' || e == 'E' then
      let sign := match rest with
        | '-' :: _ => ['-']
        | '+' :: _ => ['+']
        | _ => []
      let ds := (rest.drop sign.length).takeWhile Char.isDigit
      if ds.isEmpty then [] else e :: sign ++ ds
    else []
  | [] => []

/-- A number after its sign: its value and what follows it. -/
def number? (negative : Bool) (cs : List Char) : Option (Piece × List Char) :=
  let whole := wholeDigits cs
  if whole.isEmpty then none
  else
    let rest := cs.drop whole.length
    let fraction := fractionText rest
    let rest := rest.drop fraction.length
    let exponent := exponentText rest
    let rest := rest.drop exponent.length
    if fraction.isEmpty && exponent.isEmpty then
      if maxDigits < whole.length then some (.overlong, rest)
      else
        let n : Int := Text.decimalValue whole
        some (.scalar (.int (if negative then -n else n)), rest)
    else
      let scale := (NumericText.exponent? exponent).getD 0
      let d := Decimal.ofDigits whole (fraction.drop 1) scale
      some (.scalar (.float (d.toFloat negative)), rest)

/-- The words of a document and the values they stand for. -/
def words : List (List Char × Json) :=
  [("null".toList, .null), ("true".toList, .bool true), ("false".toList, .bool false),
    ("NaN".toList, .float (Float.ofBits 0x7ff8000000000000)),
    ("Infinity".toList, .float (Float.ofBits 0x7ff0000000000000)),
    ("-Infinity".toList, .float (Float.ofBits 0xfff0000000000000))]

/-- The word at the start of a text, and what follows it. -/
def word? (cs : List Char) : Option (Piece × List Char) :=
  words.findSome? fun (spelling, value) =>
    if spelling.isPrefixOf cs then some (.scalar value, cs.drop spelling.length) else none

/-- The token at the start of a text that does not start with white space, and what follows it. -/
def piece (cs : List Char) : Piece × List Char :=
  match cs with
  | '[' :: rest => (.openArr, rest)
  | ']' :: rest => (.closeArr, rest)
  | '\x7b' :: rest => (.openObj, rest)
  | '\x7d' :: rest => (.closeObj, rest)
  | ',' :: rest => (.comma, rest)
  | ':' :: rest => (.colon, rest)
  | '"' :: rest =>
    match Quoted.decode? rest with
    | some (text, rest) => (.scalar (.str (String.ofList text)), rest)
    | none => (.broken, [])
  | _ =>
    let number := match cs with
      | '-' :: rest => number? true rest
      | _ => number? false cs
    ((word? cs).or number).getD (.broken, [])

/-- The tokens of a text. Every token takes at least one character, so as many steps as the text has
characters are enough. -/
def pieces : Nat → List Char → List Piece
  | 0, _ => []
  | steps + 1, cs =>
    match cs.dropWhile isSpace with
    | [] => []
    | cs =>
      let (p, rest) := piece cs
      p :: pieces steps rest

/-! ### Values -/

/-- An array or object that is open, with its parts so far, the last first. -/
inductive Open where
  /-- An array. -/
  | arr (items : List Json)
  /-- An object, with the name of the field whose value comes next. -/
  | obj (fields : List (String × Json)) (name : String)

/-- What may come next in a document. -/
inductive State where
  /-- A value. -/
  | value
  /-- A value or the end of the array that has just been opened. -/
  | valueOrClose
  /-- The name of a field, in an object with these fields. -/
  | fieldName (fields : List (String × Json))
  /-- The name of a field or the end of the object that has just been opened. -/
  | fieldNameOrClose
  /-- The colon after the name of a field. -/
  | fieldColon (fields : List (String × Json)) (name : String)
  /-- A value is complete. -/
  | complete (value : Json)

/-- Takes the tokens one by one. -/
def assemble : State → List Open → List Piece → Except ReadError Json
  | .complete v, [], [] => .ok v
  | .complete v, .arr items :: rest, .comma :: ps => assemble .value (.arr (v :: items) :: rest) ps
  | .complete v, .arr items :: rest, .closeArr :: ps =>
    assemble (.complete (.arr (v :: items).reverse)) rest ps
  | .complete v, .obj fields name :: rest, .comma :: ps =>
    assemble (.fieldName (putField name v fields)) rest ps
  | .complete v, .obj fields name :: rest, .closeObj :: ps =>
    assemble (.complete (.obj (putField name v fields))) rest ps
  | .valueOrClose, .arr items :: rest, .closeArr :: ps =>
    assemble (.complete (.arr items.reverse)) rest ps
  | .fieldName fields, stack, .scalar (.str name) :: ps =>
    assemble (.fieldColon fields name) stack ps
  | .fieldNameOrClose, stack, .scalar (.str name) :: ps =>
    assemble (.fieldColon [] name) stack ps
  | .fieldNameOrClose, stack, .closeObj :: ps => assemble (.complete (.obj [])) stack ps
  | .fieldColon fields name, stack, .colon :: ps => assemble .value (.obj fields name :: stack) ps
  | .value, stack, p :: ps => begin stack p ps
  | .valueOrClose, stack, p :: ps => begin stack p ps
  | _, _, _ => .error .malformed
where
  /-- Takes the first token of a value. -/
  begin (stack : List Open) (p : Piece) (ps : List Piece) : Except ReadError Json :=
    match p with
    | .scalar v => assemble (.complete v) stack ps
    | .openArr => assemble .valueOrClose (.arr [] :: stack) ps
    | .openObj => assemble .fieldNameOrClose stack ps
    | .overlong => .error .overlong
    | _ => .error .malformed

/-- Reads a document. -/
def parse (text : String) : Except ReadError Json :=
  let cs := text.toList
  assemble .value [] (pieces cs.length cs)

end Json

end Sigil
