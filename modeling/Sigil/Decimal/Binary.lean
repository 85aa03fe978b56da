/-!
# Doubles as exact binary fractions

A finite double is `± m · 2 ^ q` with a natural `m < 2 ^ 53`. `Binary.ofFloat` reads the three
parts off the sixty-four bits, and `Binary.nearest` goes the other way for an arbitrary quotient of
naturals: it rounds to the nearest double, ties to the even significand. Whole numbers, remainders
and decimal texts are all computed on these parts in exact natural arithmetic.
-/

namespace Sigil

/-- A finite double taken apart: its value is `mantissa · 2 ^ exponent`, negated if `negative`. -/
structure Binary where
  /-- The sign bit, kept also for zero. -/
  negative : Bool
  /-- The significand, a natural below `2 ^ 53`. -/
  mantissa : Nat
  /-- The power of two it is scaled by, at least `-1074`. -/
  exponent : Int
  deriving DecidableEq, Repr

namespace Binary

/-- The bits that follow the sign, as one natural. -/
def magnitudeBits (x : Float) : Nat :=
  x.toBits.toNat % Nat.pow 2 63

/-- Whether the sign bit of `x` is set. -/
def signBit (x : Float) : Bool :=
  Nat.pow 2 63 ≤ x.toBits.toNat

/-- The bits of positive infinity. Larger magnitudes are the NaNs. -/
def infinityBits : Nat :=
  0x7ff * Nat.pow 2 52

/-- The parts of a finite double, or nothing for an infinity or a NaN. -/
def ofFloat (x : Float) : Option Binary :=
  let bits := magnitudeBits x
  if infinityBits ≤ bits then
    none
  else if bits < Nat.pow 2 52 then
    some ⟨signBit x, bits, -1074⟩
  else
    some ⟨signBit x, Nat.pow 2 52 + bits % Nat.pow 2 52, (bits / Nat.pow 2 52 : Nat) - 1075⟩

/-- The value of the parts, without its sign, as a quotient of naturals. -/
def magnitude (b : Binary) : Nat × Nat :=
  match b.exponent with
  | .ofNat e => (b.mantissa * Nat.pow 2 e, 1)
  | .negSucc e => (b.mantissa, Nat.pow 2 (e + 1))

/-- The whole number that `b` is, or nothing if it has a fractional part. -/
def toInt? (b : Binary) : Option Int :=
  let (num, den) := b.magnitude
  if num % den = 0 then
    some (if b.negative then -(num / den : Nat) else (num / den : Nat))
  else
    none

/-! ### Rounding a quotient to a double -/

/-- The quotient `num / den` rounded to a natural, ties to the even one. -/
def roundDiv (num den : Nat) : Nat :=
  let quotient := num / den
  let twice := 2 * (num % den)
  if twice < den then quotient
  else if den < twice then quotient + 1
  else quotient + quotient % 2

/-- The quotient `num / den` divided by `2 ^ exponent`, rounded to a natural. -/
def roundScaled (num den : Nat) : Int → Nat
  | .ofNat e => roundDiv num (den * Nat.pow 2 e)
  | .negSucc e => roundDiv (num * Nat.pow 2 (e + 1)) den

/-- The power of two of the last place of the double nearest to `num / den`. The logarithms give it
up to one, and the comparison with `2 ^ 52` settles which of the two it is. -/
def lastPlace (num den : Nat) : Int :=
  let guess : Int := (num.log2 : Int) - den.log2 - 52
  let small : Bool := match guess with
    | .ofNat e => num < den * Nat.pow 2 (52 + e)
    | .negSucc e => num * Nat.pow 2 (e + 1) < den * Nat.pow 2 52
  max (-1074) (if small then guess - 1 else guess)

/-- The bits of the double nearest to `num / den`. A significand that rounds up to the next power of
two carries into the exponent field by itself, and a carry out of it is an infinity. -/
def nearestBits (num den : Nat) : Nat :=
  if num = 0 ∨ den = 0 then 0
  else
    let place := lastPlace num den
    min infinityBits ((place + 1074).toNat * Nat.pow 2 52 + roundScaled num den place)

/-- The double nearest to `num / den`, ties to the even significand, with the given sign. -/
def nearest (negative : Bool) (num den : Nat) : Float :=
  Float.ofBits (UInt64.ofNat ((if negative then Nat.pow 2 63 else 0) + nearestBits num den))

end Binary

/-- The whole number that a double is, or nothing if it is fractional, infinite or a NaN. -/
def wholeNumber? (x : Float) : Option Int :=
  (Binary.ofFloat x).bind Binary.toInt?

/-- Whether `x` is infinite. -/
def isInfinite (x : Float) : Bool :=
  Binary.magnitudeBits x = Binary.infinityBits

/-- The double nearest to a whole number, or nothing if the number lies beyond all doubles. -/
def floatOfInt? (n : Int) : Option Float :=
  if Binary.infinityBits ≤ Binary.nearestBits n.natAbs 1 then none
  else some (Binary.nearest (n < 0) n.natAbs 1)

end Sigil
