import Sigil.Decimal.Binary

/-!
# The fewest digits that read back

A decimal text of a double is good when reading it gives the same double, that is, when it lies in
the interval of reals that round to that double. `Decimal.shortest` finds a good decimal with the
fewest digits, and among those the one nearest to the value: for one digit, two digits and so on it
looks at the two neighbours of the value on the grid of that many digits. Seventeen digits always
suffice.
-/

namespace Sigil

/-- The decimal `digits · 10 ^ exponent`. -/
structure Decimal where
  /-- The significant digits as a natural. -/
  digits : Nat
  /-- The power of ten of the last digit. -/
  exponent : Int
  deriving DecidableEq, Repr

namespace Decimal

/-- The number of decimal digits of `n`, one for zero. -/
def digitCount (n : Nat) : Nat :=
  (Nat.toDigits 10 n).length

/-- The exponent of the leading decimal digit of the positive quotient `num / den`. -/
def leadingExponent (num den : Nat) : Int :=
  if den ≤ num then (digitCount (num / den) : Int) - 1
  else
    let least := (den + num - 1) / num
    Int.negOfNat (if least ≤ 1 then 0 else digitCount (least - 1))

/-- The quotient `num / den` divided by `10 ^ e`, as a quotient of naturals. -/
def scaleDown (num den : Nat) : Int → Nat × Nat
  | .ofNat e => (num, den * Nat.pow 10 e)
  | .negSucc e => (num * Nat.pow 10 (e + 1), den)

/-- The reals that round to a given double: four times its value and four times the two ends of the
interval, over one denominator. -/
structure Interval where
  /-- Four times the value. -/
  value : Nat
  /-- Four times the lower end. -/
  low : Nat
  /-- Four times the upper end. -/
  high : Nat
  /-- The common denominator. -/
  den : Nat
  /-- Whether the ends themselves round to the double, which is so for an even significand. -/
  closed : Bool

/-- The interval of reals that round to `m · 2 ^ q`. Below a power of two the doubles lie twice as
dense, so the lower end is nearer there. -/
def interval (m : Nat) (q : Int) : Interval :=
  let below := if m = Nat.pow 2 52 ∧ -1074 < q then 1 else 2
  let scale := match q with
    | .ofNat e => Nat.pow 2 e
    | .negSucc _ => 1
  let den := match q with
    | .ofNat _ => 1
    | .negSucc e => Nat.pow 2 (e + 1)
  { value := 4 * m * scale, low := (4 * m - below) * scale, high := (4 * m + 2) * scale, den,
    closed := m % 2 = 0 }

/-- Whether the decimal `d · 10 ^ e` lies in the interval. -/
def Interval.contains (i : Interval) (d : Nat) (e : Int) : Bool :=
  let (n, k) : Nat × Nat := match e with
    | .ofNat e => (d * Nat.pow 10 e, 1)
    | .negSucc e => (d, Nat.pow 10 (e + 1))
  let lhs := 4 * n * i.den
  if i.closed then i.low * k ≤ lhs && lhs ≤ i.high * k
  else i.low * k < lhs && lhs < i.high * k

/-- The good decimal with last digit at `10 ^ e`, if the grid of that step has one: of the two
neighbours of the value the nearer that lies in the interval, and the even one of two equally
near. -/
def Interval.onGrid? (i : Interval) (e : Int) : Option Nat :=
  let (num, den) := scaleDown i.value (4 * i.den) e
  let lower := num / den
  let twice := 2 * (num % den)
  let lowerFirst := twice < den || (twice = den && lower % 2 = 0)
  let (first, second) := if lowerFirst then (lower, lower + 1) else (lower + 1, lower)
  if i.contains first e then some first
  else if i.contains second e then some second
  else none

/-- Divides out trailing zeros, at most `fuel` of them. -/
def trimZeros : Nat → Decimal → Decimal
  | 0, d => d
  | fuel + 1, d =>
    if d.digits % 10 = 0 ∧ d.digits ≠ 0 then trimZeros fuel ⟨d.digits / 10, d.exponent + 1⟩ else d

/-- The digits that read back to `m · 2 ^ q` for a positive `m`: as few as possible, and of those
the nearest to the value. -/
def shortest (m : Nat) (q : Int) : Decimal :=
  let i := interval m q
  let lead := leadingExponent i.value (4 * i.den)
  let found := (List.range 17).findSome? fun (n : Nat) =>
    (i.onGrid? (lead - n)).map fun d => Decimal.mk d (lead - n)
  trimZeros 18 (found.getD ⟨0, 0⟩)

end Decimal

end Sigil
