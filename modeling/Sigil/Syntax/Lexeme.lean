import Sigil.Syntax.Cursor
import Sigil.Syntax.Terminal

/-!
# Tokens in a text

`lexeme?` finds the token that starts at a place, looking only for the classes that are expected
there. The classes are tried in a fixed order and the first that matches is taken, even if another
would match more characters. A match is given by the number of characters after the first one, so a
token is never empty.
-/

namespace Sigil

namespace Lexeme

/-- The characters a name starts with. -/
def isNameStart (c : Char) : Bool :=
  c.isAlpha || c == '_'

/-- The characters of a name after the first. -/
def isNameChar (c : Char) : Bool :=
  c.isAlphanum || c == '_'

/-- The characters that an opener has to touch to extend an operand. Only ASCII characters end a
token that an opener can touch, so no other letters matter. -/
def endsOperand (c : Char) : Bool :=
  isNameChar c || c == ')' || c == ']'

/-- A name: the number of its characters after the first. -/
def nameTail? : List Char → Option Nat
  | [] => none
  | c :: rest => if isNameStart c then some (rest.takeWhile isNameChar).length else none

/-- The text after the name that starts it, if there is one. -/
def afterName? (cs : List Char) : Option (List Char) :=
  (nameTail? cs).map fun n => cs.drop (n + 1)

/-- A namespace member: a name, a colon, a name. -/
def spaceRefTail? (cs : List Char) : Option Nat := do
  let n ← nameTail? cs
  match cs.drop (n + 1) with
  | ':' :: rest =>
    let m ← nameTail? rest
    return n + m + 2
  | _ => none

/-- What follows the value of a member written as a bare name: a separator or the closing brace, or
white space and the key of the next member. -/
def endsBareMember (cs : List Char) : Bool :=
  match cs.dropWhile Text.isBlank with
  | ',' :: _ | ';' :: _ | '\x7d' :: _ => true
  | rest =>
    cs.head?.any Text.isBlank && match afterName? rest with
      | some (':' :: ':' :: _) => false
      | some (':' :: _) => true
      | _ => false

/-- An object key whose value is a bare name: a name, followed by a colon, a name and what may end
such a member. Without this look-ahead the two names would be a namespace member. -/
def objectKeyTail? (cs : List Char) : Option Nat := do
  let n ← nameTail? cs
  match cs.drop (n + 1) with
  | ':' :: rest =>
    let after ← afterName? rest
    if endsBareMember after then some n else none
  | _ => none

/-- A number: digits, and digits after a point. -/
def numberTail? : List Char → Option Nat
  | [] => none
  | c :: rest =>
    if c.isDigit then
      let whole := (rest.takeWhile Char.isDigit).length
      match rest.drop whole with
      | '.' :: more =>
        let fraction := (more.takeWhile Char.isDigit).length
        some (if fraction = 0 then whole else whole + 1 + fraction)
      | _ => some whole
    else none

/-- The characters of a quoted text up to and including its closing quote. A backslash takes the
next character with it, which cannot be a line feed. -/
def quoteEnd? : List Char → Option Nat
  | '"' :: _ => some 1
  | '\\' :: c :: rest => if c = '\n' then none else (quoteEnd? rest).map (· + 2)
  | '\\' :: [] => none
  | _ :: rest => (quoteEnd? rest).map (· + 1)
  | [] => none

/-- A quoted text. -/
def stringTail? : List Char → Option Nat
  | '"' :: rest => quoteEnd? rest
  | _ => none

/-- A template: everything between two backquotes. -/
def templateTail? : List Char → Option Nat
  | '`' :: rest =>
    let body := (rest.takeWhile (· != '`')).length
    if body < rest.length then some (body + 1) else none
  | _ => none

/-- An opener that touches an operand. -/
def openerTail? (opener : Char) (before cs : List Char) : Option Nat :=
  if cs.head? = some opener && before.head?.any endsOperand then some 0 else none

end Lexeme

open Lexeme in
/-- The number of characters after the first of a token of the given class that starts at a place,
given the characters before the place, nearest first, and those after it. -/
def Terminal.tail? (t : Terminal) (before after : List Char) : Option Nat :=
  match t with
  | .objectKey => objectKeyTail? after
  | .spaceRef => spaceRefTail? after
  | .callOpen => openerTail? '(' before after
  | .indexOpen => openerTail? '[' before after
  | .memberDot => openerTail? '.' before after
  | .name | .yes | .no | .underscore => nameTail? after
  | .number => numberTail? after
  | .string => stringTail? after
  | .template => templateTail? after
  | .endOfText => none
  | sign => if sign.sign.isPrefixOf after then some (sign.sign.length - 1) else none

/-- A name that spells a word of the language is that word wherever the word is expected. -/
def Expect.classify (expect : Expect) (t : Terminal) (text : List Char) : Terminal :=
  if t = .name then
    if text = ['y', 'e', 's'] && expect.admits .yes then .yes
    else if text = ['n', 'o'] && expect.admits .no then .no
    else if text = ['_'] && expect.admits .underscore then .underscore
    else t
  else t

/-- A token: its class and its characters. -/
structure Lexeme where
  /-- The class of the token. -/
  terminal : Terminal
  /-- The characters of the token. -/
  text : List Char
  deriving Repr, DecidableEq

/-- The token that starts at a place: of the expected classes, the first in order that matches. -/
def Cursor.lexeme? (c : Cursor) (expect : Expect) : Option Lexeme :=
  (Terminal.order.filter expect.admits).findSome? fun t =>
    (t.tail? c.before c.after).map fun n =>
      let text := c.after.take (n + 1)
      ⟨expect.classify t text, text⟩

/-- A token is never empty. -/
theorem Cursor.length_lexeme? {c : Cursor} {expect : Expect} {l : Lexeme} (hc : c.after ≠ [])
    (h : c.lexeme? expect = some l) : 0 < l.text.length := by
  obtain ⟨t, -, ht⟩ := List.exists_of_findSome?_eq_some h
  obtain ⟨n, -, rfl⟩ := Option.map_eq_some_iff.1 ht
  have := List.length_pos_iff.2 hc
  simp only [List.length_take]
  omega

end Sigil
