import Sigil.Decimal.Binary

/-!
# Operations that not all numbers have

Whole parts, quotients and remainders of doubles, and the double of a whole number. None of these
has a result everywhere: infinities and NaN have no whole part, nothing is divided by zero, and some
whole numbers lie beyond all doubles. An operation outside of its domain is a `Fault`, which no
script can cause: whoever uses one of them looks first whether it has a result.
-/

namespace Sigil

/-- Why an operation has no result. -/
inductive Fault where
  /-- An infinity has no whole part. -/
  | infinite
  /-- NaN has no whole part. -/
  | notANumber
  /-- A whole number lies beyond all doubles. -/
  | tooLarge
  /-- Nothing is divided by zero. -/
  | zeroDivisor
  /-- An infinity leaves no remainder, and nothing leaves one by zero. -/
  | noRemainder
  /-- There is nothing at this place of a list. -/
  | noSuchPlace
  deriving DecidableEq, Repr

/-- What has to be there. -/
def required {α : Type} (fault : Fault) : Option α → Except Fault α
  | some a => .ok a
  | none => .error fault

/-! ### Whole parts -/

namespace Binary

/-- A natural with the sign of `b`. -/
def signed (b : Binary) (n : Nat) : Int :=
  if b.negative then -n else n

/-- The whole part of `b`, towards zero. -/
def truncate (b : Binary) : Int :=
  let (num, den) := b.magnitude
  b.signed (num / den)

/-- The greatest whole number not above `b`. -/
def floor (b : Binary) : Int :=
  let (num, den) := b.magnitude
  b.signed (if b.negative then (num + den - 1) / den else num / den)

/-- The least whole number not below `b`. -/
def ceil (b : Binary) : Int :=
  let (num, den) := b.magnitude
  b.signed (if b.negative then num / den else (num + den - 1) / den)

end Binary

/-- Whether a double is neither an infinity nor NaN. -/
def isFinite (x : Float) : Bool :=
  (Binary.ofFloat x).isSome

/-- Whether a double is a whole number. -/
def isWhole (x : Float) : Bool :=
  (wholeNumber? x).isSome

/-- A whole part of a finite double. -/
def wholePart (part : Binary → Int) (x : Float) : Except Fault Int :=
  match Binary.ofFloat x with
  | some b => .ok (part b)
  | none => .error (if isInfinite x then .infinite else .notANumber)

/-- The double nearest to a whole number. -/
def doubleOf (n : Int) : Except Fault Float :=
  required .tooLarge (floatOfInt? n)

/-- A whole part of a double as a double again. The doubles that have none are left as they are. -/
def integral (part : Float → Except Fault Int) (x : Float) : Except Fault Float :=
  if isFinite x then part x >>= doubleOf else .ok x

/-! ### Quotients and remainders -/

/-- Whether a double is one of the two zeros. -/
def isZero (x : Float) : Bool :=
  Binary.magnitudeBits x = 0

/-- Not a number. -/
def notANumber : Float :=
  Float.ofBits 0x7ff8000000000000

/-- The quotient of two doubles. -/
def quotient (x y : Float) : Except Fault Float :=
  if isZero y then .error .zeroDivisor else .ok (x / y)

/-- The remainder of `x` by `y` with the sign of `x`. A remainder is always representable, so no
rounding happens. An infinite divisor leaves `x` as it is, and NaN has the remainder NaN. -/
def remainder (x y : Float) : Except Fault Float :=
  match Binary.ofFloat x, Binary.ofFloat y with
  | some a, some b =>
    let (n, d) := a.magnitude
    let (n', d') := b.magnitude
    if isZero y then .error .noRemainder
    else .ok (Binary.nearest a.negative ((n * d') % (n' * d)) (d * d'))
  | some _, none => .ok (if isInfinite y then x else y)
  | none, other =>
    if isInfinite x && (other.isSome || isInfinite y) then .error .noRemainder
    else .ok notANumber

end Sigil
