/-!
# Quoted text

The quoted form of a text in JSON documents and in the text of nested values: the quote, the
backslash and the control characters are written as escapes, everything else as it is.
`Quoted.decode?` reads all escapes of JSON, also those that `Quoted.encode` never writes.

Texts consist of Unicode scalar values here and everywhere, so no text holds a surrogate: an escape
that stands for one, without its partner, is read as the replacement character.
-/

namespace Sigil.Quoted

/-- A digit of a hexadecimal number. -/
def hexDigit (n : Nat) : Char :=
  Nat.digitChar (n % 16)

/-- The written form of one character. -/
def encodeChar (c : Char) : List Char :=
  match c with
  | '"' => ['\\', '"']
  | '\\' => ['\\', '\\']
  | '\n' => ['\\', 'n']
  | '\r' => ['\\', 'r']
  | '\t' => ['\\', 't']
  | '\x08' => ['\\', 'b']
  | '\x0c' => ['\\', 'f']
  | c =>
    if c.toNat < 0x20 then
      ['\\', 'u', '0', '0', hexDigit (c.toNat / 16), hexDigit c.toNat]
    else [c]

/-- The quoted form of a text. -/
def encode (s : List Char) : List Char :=
  '"' :: (s.flatMap encodeChar ++ ['"'])

/-- The value of a hexadecimal digit. -/
def hexValue? (c : Char) : Option Nat :=
  if c.isDigit then some (c.toNat - '0'.toNat)
  else if 'a' ≤ c ∧ c ≤ 'f' then some (c.toNat - 'a'.toNat + 10)
  else if 'A' ≤ c ∧ c ≤ 'F' then some (c.toNat - 'A'.toNat + 10)
  else none

/-- The value of four hexadecimal digits. -/
def hexValue4? (a b c d : Char) : Option Nat := do
  return 4096 * (← hexValue? a) + 256 * (← hexValue? b) + 16 * (← hexValue? c) + (← hexValue? d)

/-- The character that a one-character escape stands for. -/
def simpleEscape? : Char → Option Char
  | '"' => some '"'
  | '\\' => some '\\'
  | '/' => some '/'
  | 'b' => some '\x08'
  | 'f' => some '\x0c'
  | 'n' => some '\n'
  | 'r' => some '\r'
  | 't' => some '\t'
  | _ => none

/-- The character of a code unit that stands alone. A surrogate without its partner is no scalar
value and cannot be kept in a text; the replacement character stands for it. -/
def unitChar (unit : Nat) : Char :=
  if 0xd800 ≤ unit ∧ unit < 0xe000 then '�' else Char.ofNat unit

/-- The character of a pair of surrogates. -/
def pairChar (high low : Nat) : Char :=
  Char.ofNat (0x10000 + (high - 0xd800) * 0x400 + (low - 0xdc00))

/-- Reads a quoted text after its opening quote: the text and what follows its closing quote, or
nothing if it is not well-formed. -/
def decode? : List Char → Option (List Char × List Char)
  | [] => none
  | '"' :: rest => some ([], rest)
  | '\\' :: 'u' :: a :: b :: c :: d :: '\\' :: 'u' :: e :: f :: g :: h :: rest =>
    match hexValue4? a b c d, hexValue4? e f g h with
    | some high, some low =>
      if 0xd800 ≤ high ∧ high < 0xdc00 ∧ 0xdc00 ≤ low ∧ low < 0xe000 then
        add (pairChar high low) (decode? rest)
      else add (unitChar high) (decode? ('\\' :: 'u' :: e :: f :: g :: h :: rest))
    | some unit, none => add (unitChar unit) (decode? ('\\' :: 'u' :: e :: f :: g :: h :: rest))
    | none, _ => none
  | '\\' :: 'u' :: a :: b :: c :: d :: rest =>
    match hexValue4? a b c d with
    | some unit => add (unitChar unit) (decode? rest)
    | none => none
  | '\\' :: c :: rest =>
    match simpleEscape? c with
    | some c => add c (decode? rest)
    | none => none
  | '\\' :: [] => none
  | c :: rest => if c.toNat < 0x20 then none else add c (decode? rest)
where
  /-- Puts a character in front of the text. -/
  add (c : Char) : Option (List Char × List Char) → Option (List Char × List Char) :=
    Option.map fun (text, rest) => (c :: text, rest)

end Sigil.Quoted
