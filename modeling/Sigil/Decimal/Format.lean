import Sigil.Decimal.Shortest

/-!
# Formats of doubles

A `NumberFormat` collects the decisions of a number format; `NumberFormat.write` turns a double into
text by the shortest digits laid out as the format says. `exact` keeps every double apart and is the
format of stored trees, and `plain` is the format in which scripts see their numbers: there a whole
number below `10 ^ 21` is written in full, without a fraction and without a negative zero.
-/

namespace Sigil

/-- The decisions of a number format that are not settled by the digits. -/
structure NumberFormat where
  /-- Whole numbers of smaller magnitude are written in full, without a fraction and with the sign
  of zero dropped. -/
  wholeBelow : Nat
  /-- The text of NaN. -/
  nan : String
  /-- The text of positive infinity. -/
  infinity : String

namespace NumberFormat

/-- The format that keeps all doubles apart, as lists of numbers on a wire have it. -/
def exact : NumberFormat :=
  { wholeBelow := 0, nan := "nan", infinity := "inf" }

/-- The format of stored trees: as `exact`, with the infinities spelled out. -/
def stored : NumberFormat :=
  { wholeBelow := 0, nan := "NaN", infinity := "Infinity" }

/-- The format of numbers in script output and messages. -/
def plain : NumberFormat :=
  { wholeBelow := Nat.pow 10 21, nan := "NaN", infinity := "Infinity" }

/-- The decimal digits of `n`. -/
def digits (n : Nat) : List Char :=
  Nat.toDigits 10 n

/-- The exponent of a scientific notation, with its sign and at least two digits. -/
def exponentText (e : Int) : List Char :=
  let ds := digits e.natAbs
  (if e < 0 then '-' else '+') :: (if ds.length < 2 then '0' :: ds else ds)

/-- Positional with at least one decimal if the leading digit has an exponent from `-4` to `15`,
scientific otherwise. -/
def layout (d : Decimal) : List Char :=
  let ds := digits d.digits
  let lead : Int := d.exponent + ds.length - 1
  if -4 ≤ lead ∧ lead < 16 then
    if lead < 0 then
      '0' :: '.' :: (List.replicate (-lead - 1).toNat '0' ++ ds)
    else
      let whole := lead.toNat + 1
      if ds.length ≤ whole then ds ++ List.replicate (whole - ds.length) '0' ++ ['.', '0']
      else ds.take whole ++ '.' :: ds.drop whole
  else
    let fraction := ds.drop 1
    ds.take 1 ++ (if fraction.isEmpty then [] else '.' :: fraction) ++ 'e' :: exponentText lead

/-- The text of `x` in the given format. -/
def write (format : NumberFormat) (x : Float) : String :=
  match Binary.ofFloat x with
  | none =>
    if isInfinite x then
      if Binary.signBit x then "-" ++ format.infinity else format.infinity
    else format.nan
  | some b =>
    match b.toInt? with
    | some n =>
      if n.natAbs < format.wholeBelow then
        String.ofList ((if n < 0 then ['-'] else []) ++ digits n.natAbs)
      else finite b
    | none => finite b
where
  /-- The shortest digits of a finite double with its sign. -/
  finite (b : Binary) : String :=
    let body := if b.mantissa = 0 then ['0', '.', '0'] else layout (.shortest b.mantissa b.exponent)
    String.ofList (if b.negative then '-' :: body else body)

end NumberFormat

end Sigil
