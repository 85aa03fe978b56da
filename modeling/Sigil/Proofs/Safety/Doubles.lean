import Mathlib.Tactic.Linarith
import Sigil.Decimal.Partial

/-!
# Finite doubles

Two facts about the largest doubles. A whole number that is not above the largest double has a
double nearest to it (`doubleOf_eq_ok`), and one half more than a finite double is a finite double
(`isFinite_add_half`): at the top the half is lost in rounding. Both say that rounding does not
carry into the exponent of the infinities. And one about signs: a whole double is below zero just if
it is a negative number (`lt_zero_iff_of_wholeNumber?`).
-/

namespace Sigil

namespace Binary

/-! ### The parts of a finite double -/

/-- The bounds of the parts of a finite double. -/
private theorem bounds_of_ofFloat {x : Float} {b : Binary} (h : ofFloat x = some b) :
    b.mantissa < Nat.pow 2 53 ∧ -1074 ≤ b.exponent ∧ b.exponent ≤ 971 := by
  simp only [ofFloat, infinityBits, Nat.pow_eq, Nat.reducePow, Nat.reduceMul] at h ⊢
  split at h
  · cases h
  · split at h
    · cases h
      refine ⟨?_, ?_, ?_⟩ <;> dsimp only <;> omega
    · cases h
      refine ⟨?_, ?_, ?_⟩ <;> dsimp only <;> omega

/-- The power of two of the last place of the largest double. It is kept from being computed with,
because two to this power is a very long number. -/
@[irreducible]
def topPlace : Nat :=
  971

private theorem topPlace_eq : topPlace = 971 := by
  rw [topPlace]

/-- The largest finite double. -/
def largest : Nat :=
  (2 ^ 53 - 1) * 2 ^ topPlace

/-- The numerator of the magnitude of a finite double is not above the largest double, and the
denominator is positive. -/
theorem magnitude_le {x : Float} {b : Binary} (h : ofFloat x = some b) :
    b.magnitude.1 ≤ largest ∧ 0 < b.magnitude.2 := by
  obtain ⟨hmantissa, -, hexponent⟩ := bounds_of_ofFloat h
  have hmantissa : b.mantissa ≤ 2 ^ 53 - 1 := Nat.le_sub_one_of_lt hmantissa
  unfold magnitude largest
  split
  · rename_i e he
    rw [he, ← Nat.cast_ofNat, ← topPlace_eq] at hexponent
    have hpow : 2 ^ e ≤ 2 ^ topPlace := Nat.pow_le_pow_right (by decide) (Int.ofNat_le.1 hexponent)
    exact ⟨Nat.mul_le_mul hmantissa hpow, Nat.one_pos⟩
  · exact ⟨hmantissa.trans (Nat.le_mul_of_pos_right _ (Nat.pow_pos (by decide))),
      Nat.pow_pos (by decide)⟩

end Binary

/-! ### Doubles of whole numbers -/

namespace Binary

/-- Rounding a quotient does not go beyond a bound that is whole. -/
private theorem roundDiv_le {num den q : Nat} (hden : 0 < den) (h : num ≤ q * den) :
    roundDiv num den ≤ q := by
  have hdiv : num / den ≤ q := Nat.div_le_of_le_mul (by rwa [Nat.mul_comm])
  rcases Nat.lt_or_eq_of_le hdiv with hlt | heq
  · unfold roundDiv
    grind
  · -- at the bound itself there is nothing left to round
    have hmod : num % den = 0 := by
      have := Nat.div_add_mod num den
      rw [heq, Nat.mul_comm] at this
      omega
    simp [roundDiv, hmod, heq, hden]

/-- The last place of a natural number. -/
private theorem lastPlace_one {n : Nat} (hn : n ≠ 0) : lastPlace n 1 = (n.log2 : Int) - 52 := by
  have hle := Nat.log2_self_le hn
  unfold lastPlace
  simp only [show Nat.log2 1 = 0 from rfl]
  generalize hguess : (n.log2 : Int) - (0 : Nat) - 52 = guess
  -- the guess is exact, because a natural is not below the power of two of its logarithm
  cases guess with
  | ofNat e =>
    have he : 52 + e = n.log2 := by
      have : (n.log2 : Int) - (0 : Nat) - 52 = (e : Int) := hguess
      omega
    have hsmall : ¬ n < 1 * Nat.pow 2 (52 + e) := by
      rw [he, Nat.one_mul]
      exact Nat.not_lt.2 hle
    simp only [hsmall, decide_false, Bool.false_eq_true, if_false]
    have : (Int.ofNat e) = (n.log2 : Int) - 52 := by simp; omega
    omega
  | negSucc e =>
    have he : e + 1 + n.log2 = 52 := by omega
    have hsmall : ¬ n * Nat.pow 2 (e + 1) < 1 * Nat.pow 2 52 := by
      have : Nat.pow 2 52 = 2 ^ n.log2 * Nat.pow 2 (e + 1) := by
        rw [Nat.pow_eq, Nat.pow_eq, ← Nat.pow_add, ← he, Nat.add_comm]
      rw [Nat.one_mul, this]
      exact Nat.not_lt.2 (Nat.mul_le_mul_right _ hle)
    simp only [hsmall, decide_false, Bool.false_eq_true, if_false]
    omega

private theorem largest_lt : largest < 2 ^ (53 + topPlace) := by
  rw [Nat.pow_add]
  exact Nat.mul_lt_mul_of_pos_right (by decide) (Nat.pow_pos (by decide))

/-- The significand of a natural that is not above the largest double. It may be rounded up to the
next power of two, but not in the last place of the largest double. -/
private theorem roundScaled_le {n : Nat} (h : n ≤ largest) :
    roundScaled n 1 ((n.log2 : Int) - 52) ≤ 2 ^ 53 - (if n.log2 = 1023 then 1 else 0) := by
  have hlog := Nat.lt_log2_self (n := n)
  generalize hL : n.log2 = L at *
  rcases Nat.lt_or_ge L 52 with hsmall | hlarge
  · -- the last place is behind the point: the natural is scaled up and nothing is rounded
    obtain ⟨e, he⟩ : ∃ e, e + 1 + L = 52 := ⟨51 - L, by omega⟩
    have hplace : (L : Int) - 52 = .negSucc e := by omega
    have hne : L ≠ 1023 := by omega
    have hpow : 2 ^ (L + 1) * 2 ^ (e + 1) = 2 ^ 53 := by
      rw [← Nat.pow_add]
      congr 1
      omega
    rw [hplace, roundScaled]
    refine roundDiv_le Nat.one_pos ?_
    simp only [hne, if_false, Nat.pow_eq]
    have := Nat.mul_le_mul_right (2 ^ (e + 1)) hlog.le
    omega
  · obtain ⟨e, rfl⟩ : ∃ e, L = 52 + e := ⟨L - 52, by omega⟩
    have hplace : ((52 + e : Nat) : Int) - 52 = .ofNat e := by simp
    rw [hplace, roundScaled]
    refine roundDiv_le (Nat.mul_pos Nat.one_pos (Nat.pow_pos (by decide))) ?_
    rw [Nat.one_mul]
    split
    · -- in the last place of the largest double its significand is the bound
      obtain rfl : e = topPlace := by
        have := topPlace_eq
        omega
      exact h
    · have hpow : 2 ^ (52 + e + 1) = 2 ^ 53 * 2 ^ e := by
        rw [← Nat.pow_add]
        congr 1
        omega
      rw [Nat.sub_zero, Nat.pow_eq, ← hpow]
      exact hlog.le

/-- A natural that is not above the largest double rounds to a finite double. -/
theorem nearestBits_lt {n : Nat} (h : n ≤ largest) : nearestBits n 1 < infinityBits := by
  by_cases hn : n = 0
  · subst hn
    decide
  · have htop : n.log2 < 53 + topPlace := (Nat.log2_lt hn).2 (h.trans_lt largest_lt)
    rw [topPlace_eq] at htop
    have hscaled := roundScaled_le h
    have hplace : ((n.log2 : Int) - 52 + 1074).toNat = n.log2 + 1022 := by omega
    have hbits : (n.log2 + 1022) * 2 ^ 52 + roundScaled n 1 ((n.log2 : Int) - 52) <
        0x7ff * 2 ^ 52 := by
      -- a carry goes into the exponent, and only the largest exponent has no room for it
      split at hscaled <;> omega
    simp only [nearestBits, hn, false_or, Nat.one_ne_zero, if_false, lastPlace_one hn, hplace]
    exact (Nat.min_le_right _ _).trans_lt hbits

end Binary

/-- **A whole number that is not above the largest double has a double.** -/
theorem doubleOf_eq_ok {n : Int} (h : n.natAbs ≤ Binary.largest) : ∃ x, doubleOf n = .ok x := by
  have hbits := Binary.nearestBits_lt h
  refine ⟨Binary.nearest (n < 0) n.natAbs 1, ?_⟩
  rw [doubleOf, floatOfInt?, if_neg (Nat.not_le.2 hbits), required]

/-! ### Rounding a significand -/

open Float.Model UnpackedFloat

/-- The bits that are shifted out of a significand: what is left is not above the quotient, and if
the last of them is set then it is at least one half below it. -/
private theorem shiftRight_bounds (mantissa n : Nat) :
    let shifted := (⟨mantissa, false, false⟩ : ExtendedMantissa) >>> n
    shifted.mantissa * 2 ^ n ≤ mantissa ∧
      (shifted.roundBit = true → (2 * shifted.mantissa + 1) * 2 ^ n ≤ 2 * mantissa) := by
  induction n with
  | zero => simp [HShiftRight.hShiftRight, Nat.repeat]
  | succ n ih =>
    have hstep : (⟨mantissa, false, false⟩ : ExtendedMantissa) >>> (n + 1) =
        ((⟨mantissa, false, false⟩ : ExtendedMantissa) >>> n).shiftRightOne := rfl
    rw [hstep]
    generalize (⟨mantissa, false, false⟩ : ExtendedMantissa) >>> n = shifted at ih
    obtain ⟨hle, -⟩ := ih
    have hmod := Nat.div_add_mod shifted.mantissa 2
    simp only [ExtendedMantissa.shiftRightOne, bne_iff_ne, ne_eq, Nat.pow_succ]
    refine ⟨?_, fun hodd => ?_⟩
    · have : shifted.mantissa / 2 * 2 ≤ shifted.mantissa := Nat.div_mul_le_self _ _
      nlinarith [Nat.pow_pos (n := n) (show 0 < 2 by decide)]
    · have : 2 * (shifted.mantissa / 2) + 1 = shifted.mantissa := by omega
      rw [this]
      linarith

/-- Rounding to the nearest does not go beyond a bound that is less than one half above. -/
private theorem roundedMantissa_le {mantissa n q : Nat} (h : 2 * mantissa < (2 * q + 1) * 2 ^ n) :
    ((⟨mantissa, false, false⟩ : ExtendedMantissa) >>> n).roundedMantissa ≤ q := by
  obtain ⟨hle, hround⟩ := shiftRight_bounds mantissa n
  generalize (⟨mantissa, false, false⟩ : ExtendedMantissa) >>> n = shifted at *
  obtain ⟨m, roundBit, stickyBit⟩ := shifted
  cases roundBit with
  | false =>
    have hm : m ≤ q := by
      by_contra hlt
      have := Nat.mul_le_mul_right (2 ^ n) (show 2 * q + 2 ≤ 2 * m by omega)
      dsimp only at hle
      nlinarith [Nat.pow_pos (n := n) (show 0 < 2 by decide)]
    cases stickyBit <;> exact hm
  | true =>
    have hm : m + 1 ≤ q := by
      have hround := hround rfl
      have := lt_of_mul_lt_mul_right (hround.trans_lt h) (Nat.zero_le _)
      dsimp only at this
      omega
    cases stickyBit with
    | false =>
      change m + m % 2 ≤ q
      omega
    | true => exact hm

/-- An unpacked number that is packed into a finite double. -/
def IsSmall : UnpackedFloat → Prop
  | .zero _ => True
  | .finite _ _ e _ => e ≤ Binary.topPlace
  | _ => False

private theorem isSmall_of_exponent {mantissa : Nat} {e : Int} (sign : Sign)
    (he : e ≤ Binary.topPlace) :
    IsSmall (if h : mantissa = 0 then .zero sign
      else .finite sign mantissa e (Nat.pos_of_ne_zero h)) := by
  by_cases h : mantissa = 0
  · rw [dif_pos h]
    trivial
  · rw [dif_neg h]
    exact he

private theorem targetExponent_eq (e : Int) :
    Format.binary64.targetExponent e = max (e - 53) (-1074) :=
  rfl

/-- A significand that is less than one half in the last place above the largest double does not
carry over to the exponent of the infinities. -/
private theorem isSmall_roundWithAccuracy {mantissa : Nat} {e : Int} (sign : Sign)
    (hne : mantissa ≠ 0) (he : e ≤ Binary.topPlace)
    (h : 2 * mantissa < (2 * (2 ^ 53 - 1) + 1) * 2 ^ (Binary.topPlace - e).toNat) :
    IsSmall (roundWithAccuracy Format.binary64 sign mantissa e .exact) := by
  have htop := Binary.topPlace_eq
  have hlog : mantissa.log2 < 53 + (Binary.topPlace - e).toNat := by
    rw [Nat.log2_lt hne, Nat.pow_add]
    generalize 2 ^ (Binary.topPlace - e).toNat = scale at *
    omega
  have hself := Nat.lt_log2_self (n := mantissa)
  dsimp only [roundWithAccuracy, shiftToTargetExponent, shiftToExponent,
    ExtendedMantissa.ofMantissaAndAccuracy, targetExponent_eq, totalExponent]
  refine isSmall_of_exponent sign ?_
  generalize hshift : (max ((mantissa.log2 : Int) + 1 + e - 53) (-1074) - e).toNat = shift
  have hplace : e + shift ≤ Binary.topPlace := by omega
  -- the significand after the first rounding, which may be the next power of two
  have hrounded : ((⟨mantissa, false, false⟩ : ExtendedMantissa) >>> shift).roundedMantissa <
      2 ^ (if e + shift = Binary.topPlace then 53 else 54) := by
    split
    · have hshift : (Binary.topPlace - e).toNat = shift := by omega
      rw [hshift] at h
      exact Nat.lt_of_le_pred (by decide) (roundedMantissa_le h)
    · have hpow : mantissa < 2 ^ 53 * 2 ^ shift := by
        rw [← Nat.pow_add]
        exact hself.trans_le (Nat.pow_le_pow_right (by decide) (by omega))
      have hbound : 2 * mantissa < (2 * 2 ^ 53 + 1) * 2 ^ shift := by
        generalize 2 ^ shift = scale at hpow
        omega
      exact (roundedMantissa_le hbound).trans_lt (by decide)
  generalize ((⟨mantissa, false, false⟩ : ExtendedMantissa) >>> shift).roundedMantissa = rounded
    at hrounded
  have hlog' : rounded.log2 < if e + shift = Binary.topPlace then 53 else 54 := by
    rcases Nat.eq_zero_or_pos rounded with rfl | hpos
    · split <;> decide
    · exact (Nat.log2_lt (by omega)).2 hrounded
  split at hlog' <;> omega

/-- The same for the rounding that first makes the significand long enough. -/
private theorem isSmall_round {mantissa : Nat} {e : Int} (sign : Sign) (hne : mantissa ≠ 0)
    (he : e ≤ Binary.topPlace)
    (h : 2 * mantissa < (2 * (2 ^ 53 - 1) + 1) * 2 ^ (Binary.topPlace - e).toNat) :
    IsSmall (UnpackedFloat.round Format.binary64 sign mantissa e) := by
  simp only [UnpackedFloat.round, decreaseExponent]
  generalize (e - Format.binary64.targetExponent (totalExponent mantissa e)).toNat = shift
  have hscale : (Binary.topPlace - (e - shift)).toNat = (Binary.topPlace - e).toNat + shift := by
    omega
  refine isSmall_roundWithAccuracy sign (by simpa [Nat.shiftLeft_eq] using hne) (by omega) ?_
  rw [hscale, Nat.pow_add, Nat.shiftLeft_eq, ← Nat.mul_assoc, ← Nat.mul_assoc]
  exact Nat.mul_lt_mul_of_pos_right h (Nat.pow_pos (by decide))

/-! ### Packing and unpacking -/

theorem isFinite_iff {x : Float} :
    isFinite x = true ↔ Binary.magnitudeBits x < Binary.infinityBits := by
  simp only [isFinite, Binary.ofFloat]
  split
  · rename_i hle
    simpa using hle
  · rename_i hlt
    refine ⟨fun _ => Nat.not_le.1 hlt, fun _ => ?_⟩
    split <;> rfl

private theorem magnitude_packComponents (sign : Sign) (exponent : BitVec 11)
    (mantissa : BitVec 52) :
    (packComponents Format.binary64 sign exponent mantissa).toNat % 2 ^ 63 =
      exponent.toNat * 2 ^ 52 + mantissa.toNat := by
  have he := exponent.isLt
  have hm := mantissa.isLt
  change ((sign.toBitVec ++ exponent : BitVec 12) ++ mantissa).toNat % 2 ^ 63 = _
  rw [BitVec.toNat_append, BitVec.toNat_append, ← Nat.shiftLeft_add_eq_or_of_lt he,
    ← Nat.shiftLeft_add_eq_or_of_lt hm]
  simp only [Nat.shiftLeft_eq]
  omega

/-- A small number is packed into a finite double. -/
private theorem isFinite_pack {u : UnpackedFloat} (h : IsSmall u) : isFinite ⟨pack u⟩ = true := by
  have hcomponents (sign : Sign) (exponent : BitVec 11) (mantissa : BitVec 52)
      (hlt : exponent.toNat < 2047) :
      (packComponents Format.binary64 sign exponent mantissa).toNat % Nat.pow 2 63 <
        2047 * Nat.pow 2 52 := by
    have := magnitude_packComponents sign exponent mantissa
    have := mantissa.isLt
    simp only [Nat.pow_eq]
    omega
  rw [isFinite_iff]
  change (UnpackedFloat.pack Format.binary64 u).toNat % Nat.pow 2 63 < 2047 * Nat.pow 2 52
  cases u with
  | zero sign => exact hcomponents sign 0 0 (by decide)
  | finite sign mantissa e hpos =>
    have he : e ≤ Binary.topPlace := h
    have htop := Binary.topPlace_eq
    have hbiased : (e + (1023 : Nat) + (52 : Nat)).toNat < 2047 := by omega
    have hfield : (BitVec.ofNat 11 (e + (1023 : Nat) + (52 : Nat)).toNat).toNat < 2047 := by
      rw [BitVec.toNat_ofNat]
      omega
    unfold UnpackedFloat.pack
    dsimp only
    split
    · rename_i hlarge
      change 2 ^ 11 ≤ (e + (1023 : Nat) + (52 : Nat)).toNat + 1 at hlarge
      omega
    · split
      · exact hcomponents sign _ _ hfield
      · exact hcomponents sign 0 _ (by decide)
  | infinity _ => exact h.elim
  | notANumber => exact h.elim

/-! ### The fields of a double -/

private theorem toNat_unpackExponent (bits : BitVec 64) :
    (@unpackExponent Format.binary64 bits).toNat = bits.toNat % 2 ^ 63 / 2 ^ 52 := by
  change (BitVec.extractLsb 62 52 bits).toNat = _
  rw [BitVec.extractLsb_toNat, Nat.shiftRight_eq_div_pow]
  omega

private theorem toNat_unpackMantissa (bits : BitVec 64) :
    (@unpackMantissa Format.binary64 bits).toNat = bits.toNat % 2 ^ 52 := by
  change (BitVec.extractLsb 51 0 bits).toNat = _
  rw [BitVec.extractLsb_toNat, Nat.shiftRight_zero]

/-- The sign is negative if the first bit is set. -/
private theorem ofBitVec_unpackSign (bits : BitVec 64) :
    Sign.ofBitVec (@unpackSign Format.binary64 bits) = .negative ↔ 2 ^ 63 ≤ bits.toNat := by
  have hsign : (@unpackSign Format.binary64 bits).toNat = bits.toNat / 2 ^ 63 := by
    change (BitVec.extractLsb 63 63 bits).toNat = _
    rw [BitVec.extractLsb_toNat, Nat.shiftRight_eq_div_pow]
    have hbits : bits.toNat < 2 ^ 64 := bits.isLt
    omega
  unfold Sign.ofBitVec
  split
  · rename_i heq
    rw [heq] at hsign
    change 0 = _ at hsign
    simp only [reduceCtorEq, false_iff]
    omega
  · rename_i hne
    simp only [true_iff]
    by_contra hlt
    refine hne (BitVec.eq_of_toNat_eq ?_)
    rw [hsign]
    change _ = 0
    omega

/-- Zero or a small number with a significand of at most 53 bits. -/
def IsShort : UnpackedFloat → Prop
  | .zero _ => True
  | .finite _ mantissa e _ => mantissa < 2 ^ 53 ∧ e ≤ Binary.topPlace
  | _ => False

/-- A finite double is unpacked into zero or a number with a significand of 53 bits. -/
private theorem isShort_unpack {x : Float} (h : isFinite x = true) : IsShort x.toModel.unpack := by
  have htop := Binary.topPlace_eq
  rw [isFinite_iff] at h
  change x.toModel.toBits.toBitVec.toNat % Nat.pow 2 63 < 2047 * Nat.pow 2 52 at h
  change IsShort (UnpackedFloat.unpack Format.binary64 x.toModel.toBits.toBitVec)
  generalize x.toModel.toBits.toBitVec = bits at h
  have hexponent : (@unpackExponent Format.binary64 bits).toNat < 2047 := by
    rw [toNat_unpackExponent]
    simp only [Nat.pow_eq] at h
    omega
  unfold UnpackedFloat.unpack
  dsimp only
  generalize @unpackExponent Format.binary64 bits = exponent at hexponent
  -- all bits of the exponent are set for the infinities and NaN only
  rw [if_neg (fun heq => by rw [heq] at hexponent; exact absurd hexponent (by decide))]
  by_cases hzero : exponent = 0#11
  · rw [if_pos hzero, hzero]
    by_cases hmantissa : @unpackMantissa Format.binary64 bits = 0#52
    · rw [dif_pos hmantissa]
      trivial
    · rw [dif_neg hmantissa]
      refine ⟨(BitVec.isLt _).trans (by decide), ?_⟩
      change (0 : Int) - ((1023 : Nat) + (52 : Nat)) + 1 ≤ Binary.topPlace
      omega
  · rw [if_neg hzero]
    refine ⟨BitVec.isLt _, ?_⟩
    change (exponent.toNat : Int) - ((1023 : Nat) + (52 : Nat)) ≤ Binary.topPlace
    omega

/-! ### One half more -/

private theorem unpack_half :
    (0.5 : Float).toModel.unpack = .finite .positive (2 ^ 52) (-53) (by decide) :=
  rfl

private theorem isSmall_normalize {mantissa e : Int} (he : e ≤ Binary.topPlace)
    (h : 2 * mantissa.natAbs < (2 * (2 ^ 53 - 1) + 1) * 2 ^ (Binary.topPlace - e).toNat) :
    IsSmall (UnpackedFloat.normalize Format.binary64 mantissa e .positive) := by
  unfold UnpackedFloat.normalize
  split
  · rename_i hlt
    have hlt := Int.compare_eq_lt.1 hlt
    refine isSmall_round .negative (by omega) he ?_
    rwa [show (-mantissa).toNat = mantissa.natAbs by omega]
  · trivial
  · rename_i hgt
    have hgt := Int.compare_eq_gt.1 hgt
    refine isSmall_round .positive (by omega) he ?_
    rwa [show mantissa.toNat = mantissa.natAbs by omega]

/-- **One half more than a finite double is a finite double.** -/
theorem isFinite_add_half {x : Float} (h : isFinite x = true) : isFinite (x + 0.5) = true := by
  change isFinite ⟨pack (UnpackedFloat.add Format.binary64 x.toModel.unpack
    (0.5 : Float).toModel.unpack)⟩ = true
  have htop := Binary.topPlace_eq
  refine isFinite_pack ?_
  rw [unpack_half]
  have hshort := isShort_unpack h
  generalize x.toModel.unpack = u at hshort
  cases u with
  | zero sign =>
    change (-53 : Int) ≤ Binary.topPlace
    omega
  | finite sign mantissa e hpos =>
    obtain ⟨hmantissa, he⟩ := hshort
    refine isSmall_normalize (by omega) ?_
    have habs (n k : Nat) : (sign.apply n + k).natAbs ≤ n + k := by
      cases sign with
      | negative =>
        change (-(n : Int) + k).natAbs ≤ n + k
        omega
      | positive =>
        change ((n : Int) + k).natAbs ≤ n + k
        omega
    -- the two significands in the smaller of the two last places
    have hself : mantissa <<< (e - min e (-53)).toNat ≤
        (2 ^ 53 - 1) * 2 ^ (Binary.topPlace - min e (-53)).toNat := by
      rw [Nat.shiftLeft_eq]
      exact Nat.mul_le_mul (by omega) (Nat.pow_le_pow_right (by decide) (by omega))
    have hhalf : 2 * (2 ^ 52 <<< (-53 - min e (-53)).toNat) <
        2 ^ (Binary.topPlace - min e (-53)).toNat := by
      rw [Nat.shiftLeft_eq, ← Nat.pow_add, ← Nat.pow_succ']
      exact Nat.pow_lt_pow_right (by decide) (by omega)
    change 2 * (sign.apply (mantissa <<< (e - min e (-53)).toNat : Nat) +
      ((2 ^ 52 <<< (-53 - min e (-53)).toNat : Nat) : Int)).natAbs < _
    calc 2 * (sign.apply (mantissa <<< (e - min e (-53)).toNat : Nat) +
          ((2 ^ 52 <<< (-53 - min e (-53)).toNat : Nat) : Int)).natAbs
        ≤ 2 * (mantissa <<< (e - min e (-53)).toNat + 2 ^ 52 <<< (-53 - min e (-53)).toNat) :=
          Nat.mul_le_mul_left 2 (habs _ _)
      _ < (2 * (2 ^ 53 - 1) + 1) * 2 ^ (Binary.topPlace - min e (-53)).toNat := by
          generalize 2 ^ (Binary.topPlace - min e (-53)).toNat = scale at *
          omega
  | infinity _ => exact hshort.elim
  | notANumber => exact hshort.elim

/-! ### The sign of a whole number -/

private theorem unpack_zero : (0 : Float).toModel.unpack = .zero .positive :=
  rfl

/-- A number is below zero if it has the negative sign. -/
private theorem finite_lt_zero_iff (sign : Sign) (mantissa : Nat) (e : Int) (hpos : 0 < mantissa) :
    (UnpackedFloat.finite sign mantissa e hpos).lt (.zero .positive) = true ↔ sign = .negative := by
  cases sign with
  | negative => exact iff_of_true rfl rfl
  | positive =>
    refine iff_of_false (fun hlt => ?_) (fun heq => ?_)
    · cases hlt
    · cases heq

/-- A finite double is negative if its sign is set, unless it is a zero. -/
private theorem lt_zero_iff {x : Float} (h : isFinite x = true) :
    x < 0 ↔ Binary.signBit x = true ∧ Binary.magnitudeBits x ≠ 0 := by
  rw [isFinite_iff] at h
  change x.toModel.toBits.toBitVec.toNat % Nat.pow 2 63 < 2047 * Nat.pow 2 52 at h
  change decide (x.toModel.unpack.lt (0 : Float).toModel.unpack = true) = true ↔
    decide (Nat.pow 2 63 ≤ x.toModel.toBits.toBitVec.toNat) = true ∧
      x.toModel.toBits.toBitVec.toNat % Nat.pow 2 63 ≠ 0
  rw [unpack_zero, decide_eq_true_iff, decide_eq_true_iff]
  change (UnpackedFloat.unpack Format.binary64 x.toModel.toBits.toBitVec).lt _ = true ↔ _
  generalize x.toModel.toBits.toBitVec = bits at h
  have hexponent := toNat_unpackExponent bits
  have hmantissa := toNat_unpackMantissa bits
  simp only [Nat.pow_eq] at h ⊢
  unfold UnpackedFloat.unpack
  dsimp only
  generalize @unpackExponent Format.binary64 bits = exponent at hexponent
  rw [if_neg (fun heq => by rw [heq] at hexponent; change 2047 = _ at hexponent; omega)]
  -- the exponent is not the largest one; if it is zero, the mantissa tells zeros from subnormals
  by_cases hzero : exponent = 0#11
  · rw [if_pos hzero]
    rw [hzero] at hexponent
    change 0 = _ at hexponent
    by_cases hnone : @unpackMantissa Format.binary64 bits = 0#52
    · rw [dif_pos hnone]
      rw [hnone] at hmantissa
      change 0 = _ at hmantissa
      refine iff_of_false (fun hlt => ?_) (by omega)
      cases Sign.ofBitVec (@unpackSign Format.binary64 bits) <;> cases hlt
    · rw [dif_neg hnone, finite_lt_zero_iff, ofBitVec_unpackSign]
      have hne : (@unpackMantissa Format.binary64 bits).toNat ≠ 0 :=
        fun heq => hnone (BitVec.eq_of_toNat_eq heq)
      omega
  · rw [if_neg hzero, finite_lt_zero_iff, ofBitVec_unpackSign]
    have hne : exponent.toNat ≠ 0 := fun heq => hzero (BitVec.eq_of_toNat_eq heq)
    omega

/-- The sign and the zeros among the parts of a finite double. -/
private theorem Binary.sign_of_ofFloat {x : Float} {b : Binary} (h : ofFloat x = some b) :
    b.negative = signBit x ∧ (b.mantissa = 0 ↔ magnitudeBits x = 0) := by
  simp only [ofFloat, infinityBits, Nat.pow_eq, Nat.reducePow, Nat.reduceMul] at h
  split at h
  · cases h
  · split at h
    · cases h
      exact ⟨rfl, Iff.rfl⟩
    · cases h
      refine ⟨rfl, ?_⟩
      dsimp only
      omega

private theorem Binary.magnitude_eq_zero_iff (b : Binary) : b.magnitude.1 = 0 ↔ b.mantissa = 0 := by
  unfold magnitude
  split
  · simp
  · rfl

/-- A whole double is negative if it is a negative number. -/
theorem lt_zero_iff_of_wholeNumber? {x : Float} {n : Int} (h : wholeNumber? x = some n) :
    x < 0 ↔ n < 0 := by
  obtain ⟨b, hb, hn⟩ := Option.bind_eq_some_iff.1 h
  obtain ⟨hnegative, hmantissa⟩ := Binary.sign_of_ofFloat hb
  have hpos := (Binary.magnitude_le hb).2
  rw [lt_zero_iff (by rw [isFinite, hb, Option.isSome_some]), ← hnegative, ne_eq, ← hmantissa,
    ← b.magnitude_eq_zero_iff]
  simp only [Binary.toInt?] at hn
  split at hn
  · rename_i hdvd
    have hquotient : b.magnitude.1 / b.magnitude.2 = 0 ↔ b.magnitude.1 = 0 := by
      rw [Nat.div_eq_zero_iff_lt hpos]
      constructor
      · intro hlt
        rwa [Nat.mod_eq_of_lt hlt] at hdvd
      · intro heq
        rwa [heq]
    rw [← hquotient]
    cases hn
    generalize b.magnitude.1 / b.magnitude.2 = quotient
    cases b.negative with
    | false => simp
    | true => simp [Nat.pos_iff_ne_zero]
  · cases hn

/-- A whole double is a whole number that is not above the largest double. -/
theorem natAbs_le_of_wholeNumber? {x : Float} {n : Int} (h : wholeNumber? x = some n) :
    n.natAbs ≤ Binary.largest := by
  obtain ⟨b, hb, hn⟩ := Option.bind_eq_some_iff.1 h
  simp only [Binary.toInt?] at hn
  have hle : b.magnitude.1 / b.magnitude.2 ≤ Binary.largest :=
    (Nat.div_le_self _ _).trans (Binary.magnitude_le hb).1
  split at hn
  · cases hn
    generalize b.magnitude.1 / b.magnitude.2 = quotient at hle ⊢
    cases b.negative <;> simpa using hle
  · cases hn

end Sigil
