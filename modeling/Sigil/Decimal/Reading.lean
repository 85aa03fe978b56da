import Sigil.Decimal.Shortest
import Sigil.Text.Blank
import Sigil.Text.Digit

/-!
# Reading decimal texts

`Decimal.toFloat` is the double nearest to a decimal. On top of it stand two readers: one for the
number tokens of a program, which are digits with an optional fraction, and one for numeric text in
a wide sense (`numericText?`), with a sign, an exponent, grouping underscores and the names of the
infinities and of NaN.
-/

namespace Sigil

namespace Decimal

/-- The double nearest to the decimal. Exponents far outside the range of doubles are answered
without forming the power of ten: `10 ^ 400` is beyond the largest double and `10 ^ (-400)` below
half of the smallest. -/
def toFloat (negative : Bool) (d : Decimal) : Float :=
  let top : Int := d.exponent + digitCount d.digits
  if d.digits = 0 ∨ top < -400 then Binary.nearest negative 0 1
  else if 400 < top then Binary.nearest negative (Nat.pow 2 1100) 1
  else
    match d.exponent with
    | .ofNat e => Binary.nearest negative (d.digits * Nat.pow 10 e) 1
    | .negSucc e => Binary.nearest negative d.digits (Nat.pow 10 (e + 1))

/-- The decimal with the digits `whole` before the point and `fraction` after it, scaled by a power
of ten. -/
def ofDigits (whole fraction : List Char) (scale : Int) : Decimal :=
  ⟨Text.decimalValue (whole ++ fraction), scale - fraction.length⟩

end Decimal

/-- The double that a number token stands for: digits, and digits after a point. -/
def numberToken (text : List Char) : Float :=
  let whole := text.takeWhile (· != '.')
  let fraction := (text.dropWhile (· != '.')).drop 1
  Decimal.toFloat false (.ofDigits whole fraction 0)

namespace NumericText

/-- Drops underscores, each of which has to stand between two digits. -/
def ungroup? : Option Char → List Char → Option (List Char)
  | _, [] => some []
  | before, '_' :: rest =>
    let digitBefore := before.any Char.isDigit
    let digitAfter := rest.head?.any Char.isDigit
    if digitBefore && digitAfter then ungroup? (some '_') rest else none
  | _, c :: rest => (ungroup? (some c) rest).map (c :: ·)

/-- Any digit as the ASCII digit of its value. -/
def foldDigit (c : Char) : Char :=
  match Text.digitValue? c with
  | some v => Char.ofNat ('0'.toNat + v)
  | none => c

/-- The text without padding at its two ends. -/
def trim (cs : List Char) : List Char :=
  ((cs.dropWhile Text.isPadding).reverse.dropWhile Text.isPadding).reverse

/-- The sign in front of a text, and what follows it. -/
def sign : List Char → Bool × List Char
  | '-' :: rest => (true, rest)
  | '+' :: rest => (false, rest)
  | rest => (false, rest)

/-- The exponent after the digits: nothing, or `e` with a signed whole number. -/
def exponent? : List Char → Option Int
  | [] => some 0
  | e :: rest =>
    if e == 'e' || e == 'E' then
      let (negative, ds) := sign rest
      if !ds.isEmpty && ds.all Char.isDigit then
        let n : Int := Text.decimalValue ds
        some (if negative then -n else n)
      else none
    else none

/-- An unsigned decimal: digits with at most one point among them, at least one digit, and an
optional exponent. -/
def decimal? (cs : List Char) : Option Decimal :=
  let whole := cs.takeWhile Char.isDigit
  let afterWhole := cs.dropWhile Char.isDigit
  let (fraction, rest) := match afterWhole with
    | '.' :: more => (more.takeWhile Char.isDigit, more.dropWhile Char.isDigit)
    | more => ([], more)
  if whole.isEmpty && fraction.isEmpty then none
  else (exponent? rest).map (Decimal.ofDigits whole fraction)

end NumericText

open NumericText in
/-- The double that a numeric text stands for: white space around it is ignored, digits of any
script and underscores between digits are admitted, and so are `inf`, `infinity` and `nan` in any
case. -/
def numericText? (text : String) : Option Float :=
  let (negative, body) := sign (trim (text.toList.map foldDigit))
  let word := String.ofList (body.map Char.toLower)
  if word == "inf" || word == "infinity" then
    some (Binary.nearest negative (Nat.pow 2 1100) 1)
  else if word == "nan" then
    some (Float.ofBits 0x7ff8000000000000)
  else
    ((ungroup? none body).bind decimal?).map (Decimal.toFloat negative)

end Sigil
