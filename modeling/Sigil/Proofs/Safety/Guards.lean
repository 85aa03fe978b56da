import Sigil.Eval.Node
import Sigil.Proofs.Safety.Doubles

/-!
# Operations behind their guards

Whole parts, quotients, remainders and elements of lists do not exist everywhere. Evaluation looks
first whether they do, and here is shown that it looks for the right thing: behind its guard each of
these operations has a result, for every double, the infinities and NaN among them.
-/

namespace Sigil

/-! ### Whole parts -/

/-- A finite double has whole parts. -/
private theorem wholePart_eq_ok {x : Float} (h : isFinite x = true) :
    ∃ b, Binary.ofFloat x = some b ∧ ∀ part, wholePart part x = .ok (part b) := by
  obtain ⟨b, hb⟩ := Option.isSome_iff_exists.1 h
  exact ⟨b, hb, fun part => by simp only [wholePart, hb]⟩

/-- The whole part of a whole number is the number itself. -/
theorem truncate_of_wholeNumber? {x : Float} {n : Int} (h : wholeNumber? x = some n) :
    wholePart Binary.truncate x = .ok n := by
  obtain ⟨b, hb, hn⟩ := Option.bind_eq_some_iff.1 h
  simp only [wholePart, hb, Binary.truncate, Binary.signed]
  simp only [Binary.toInt?] at hn
  split at hn
  · cases hn
    rfl
  · cases hn

namespace Binary

private theorem natAbs_signed (b : Binary) (n : Nat) : (b.signed n).natAbs = n := by
  unfold signed
  split <;> simp

private theorem div_le_of_pos {num den n : Nat} (hden : 0 < den) (h : n ≤ num + den - 1) :
    n / den ≤ num := by
  rcases Nat.eq_zero_or_pos num with rfl | hnum
  · exact Nat.le_of_eq (Nat.div_eq_of_lt (by omega))
  · refine Nat.div_le_of_le_mul (h.trans ?_)
    obtain ⟨num, rfl⟩ := Nat.exists_eq_succ_of_ne_zero hnum.ne'
    rw [Nat.mul_succ]
    have := Nat.le_mul_of_pos_left num hden
    omega

variable {x : Float} {b : Binary}

/-- Without its fraction a finite double is no larger than the largest one. -/
private theorem natAbs_truncate_le (h : ofFloat x = some b) : b.truncate.natAbs ≤ largest := by
  obtain ⟨hnum, -⟩ := magnitude_le h
  rw [truncate, natAbs_signed]
  exact (Nat.div_le_self _ _).trans hnum

private theorem natAbs_floor_le (h : ofFloat x = some b) : b.floor.natAbs ≤ largest := by
  obtain ⟨hnum, hden⟩ := magnitude_le h
  rw [floor, natAbs_signed]
  refine le_trans ?_ hnum
  split
  · exact div_le_of_pos hden le_rfl
  · exact Nat.div_le_self _ _

private theorem natAbs_ceil_le (h : ofFloat x = some b) : b.ceil.natAbs ≤ largest := by
  obtain ⟨hnum, hden⟩ := magnitude_le h
  rw [ceil, natAbs_signed]
  refine le_trans ?_ hnum
  split
  · exact Nat.div_le_self _ _
  · exact div_le_of_pos hden le_rfl

end Binary

/-- **A whole part of any double is a double again**, if the whole parts of finite doubles do not
lie beyond all doubles. -/
theorem integral_eq_ok {part : Float → Except Fault Int}
    (h : ∀ x, isFinite x = true → ∃ n, part x = .ok n ∧ n.natAbs ≤ Binary.largest) (x : Float) :
    ∃ y, integral part x = .ok y := by
  unfold integral
  split
  · rename_i hfinite
    obtain ⟨n, hn, hle⟩ := h x hfinite
    obtain ⟨y, hy⟩ := doubleOf_eq_ok hle
    exact ⟨y, by rw [hn]; exact hy⟩
  · exact ⟨x, rfl⟩

namespace Native

/-- A finite double has a floor that is no larger than the largest double. -/
theorem floor_eq_ok (x : Float) (h : isFinite x = true) :
    ∃ n, floor x = .ok n ∧ n.natAbs ≤ Binary.largest := by
  obtain ⟨b, hb, hpart⟩ := wholePart_eq_ok h
  exact ⟨b.floor, hpart _, Binary.natAbs_floor_le hb⟩

theorem ceil_eq_ok (x : Float) (h : isFinite x = true) :
    ∃ n, ceil x = .ok n ∧ n.natAbs ≤ Binary.largest := by
  obtain ⟨b, hb, hpart⟩ := wholePart_eq_ok h
  exact ⟨b.ceil, hpart _, Binary.natAbs_ceil_le hb⟩

theorem roundHalfUp_eq_ok (x : Float) (h : isFinite x = true) :
    ∃ n, roundHalfUp x = .ok n ∧ n.natAbs ≤ Binary.largest :=
  floor_eq_ok _ (isFinite_add_half h)

end Native

/-! ### Quotients and remainders -/

/-- The bits of a double determine it. -/
theorem eq_of_toBits_eq {x y : Float} (h : x.toBits = y.toBits) : x = y := by
  obtain ⟨⟨bits, _⟩⟩ := x
  obtain ⟨⟨bits', _⟩⟩ := y
  obtain rfl : bits = bits' := h
  rfl

/-- Both zeros equal zero, so a divisor that does not equal zero is neither of them. -/
private theorem eq_zero_of_isZero {y : Float} (h : isZero y = true) : (y == 0) = true := by
  have hbits : y.toBits.toNat % 2 ^ 63 = 0 := of_decide_eq_true h
  have hlt : y.toBits.toNat < 2 ^ 64 := y.toBits.toNat_lt
  have hy : y.toBits = 0 ∨ y.toBits = 0x8000000000000000 := by
    rw [← UInt64.toNat_inj, ← UInt64.toNat_inj]
    change y.toBits.toNat = 0 ∨ y.toBits.toNat = 2 ^ 63
    omega
  rcases hy with hy | hy
  · obtain rfl : y = Float.ofBits 0 := eq_of_toBits_eq hy
    decide
  · obtain rfl : y = Float.ofBits 0x8000000000000000 := eq_of_toBits_eq hy
    decide +kernel

private theorem isZero_eq_false {y : Float} (h : (y == 0) = false) : isZero y = false := by
  rw [Bool.eq_false_iff]
  exact fun hzero => Bool.false_ne_true (h.symm.trans (eq_zero_of_isZero hzero))

/-- Division has a result unless the divisor is zero. -/
private theorem quotient_eq_ok {x y : Float} (h : (y == 0) = false) : ∃ z, quotient x y = .ok z :=
  ⟨x / y, by simp [quotient, isZero_eq_false h]⟩

/-- So has the remainder, if the dividend is not infinite, too. -/
private theorem remainder_eq_ok {x y : Float} (h : (y == 0) = false) (hx : isInfinite x = false) :
    ∃ z, remainder x y = .ok z := by
  unfold remainder
  split
  · exact ⟨_, by simp only [isZero_eq_false h]; rfl⟩
  · exact ⟨_, rfl⟩
  · exact ⟨_, by simp only [hx]; rfl⟩

/-! ### Operators and loop counts -/

/-- If there is no result, then by a mistake of the script. -/
def OnlyScriptErrors {α : Type} (x : Except Stop α) : Prop :=
  ∀ stop, x = .error stop → ∃ e, stop = .script e

theorem onlyScriptErrors_ok {α : Type} (a : α) : OnlyScriptErrors (.ok a) :=
  fun _ h => nomatch h

theorem onlyScriptErrors_error {α : Type} (e : ScriptError) :
    OnlyScriptErrors (.error (.script e) : Except Stop α) := by
  rintro stop ⟨⟩
  exact ⟨e, rfl⟩

/-- Zero divisors are refused, and an infinite dividend of a remainder is answered, before the
operations that fail for them. -/
theorem onlyScriptErrors_applyNumbers (op : String) (x y : Float) :
    OnlyScriptErrors (applyNumbers op x y) := by
  have hguarded {error : ScriptError} {z : Except Fault Float}
      (h : (y == 0) = false → ∃ a, z = .ok a) :
      OnlyScriptErrors
        (if y == 0 then .error (.script error) else (z.mapError Stop.fault).map Value.num) := by
    split
    · exact onlyScriptErrors_error _
    · rename_i hne
      obtain ⟨a, rfl⟩ := h (Bool.eq_false_iff.2 hne)
      exact onlyScriptErrors_ok _
  unfold applyNumbers
  split
  case h_4 => exact hguarded quotient_eq_ok
  case h_5 =>
    by_cases hx : isInfinite x = true
    · simp only [hx, if_true]
      split
      · exact onlyScriptErrors_error _
      · exact onlyScriptErrors_ok _
    · simp only [hx]
      exact hguarded fun h => remainder_eq_ok h (Bool.eq_false_iff.2 hx)
  case h_10 => exact onlyScriptErrors_error _
  all_goals exact onlyScriptErrors_ok _

theorem onlyScriptErrors_applyOperator (op : String) (a b : Value) :
    OnlyScriptErrors (applyOperator op a b) := by
  unfold applyOperator
  split
  · exact onlyScriptErrors_ok _
  · exact onlyScriptErrors_ok _
  · split
    · exact onlyScriptErrors_applyNumbers _ _ _
    · exact onlyScriptErrors_error _

/-- A count is checked before it is taken as a number of iterations. -/
theorem onlyScriptErrors_loopCount (v : Value) : OnlyScriptErrors (loopCount v) := by
  unfold loopCount
  split
  · rename_i x
    split
    · exact onlyScriptErrors_error _
    · rename_i hguard
      obtain ⟨n, hn⟩ : ∃ n, wholeNumber? x = some n := by
        have hwhole : isWhole x = true := by
          simp only [Bool.or_eq_true, not_or, Bool.not_eq_true', Bool.not_eq_false] at hguard
          exact hguard.2
        exact Option.isSome_iff_exists.1 hwhole
      rw [truncate_of_wholeNumber? hn]
      exact onlyScriptErrors_ok _
  · exact onlyScriptErrors_error _

/-- A loop does not run so often that its counter is beyond all doubles. -/
theorem loopCount_le {v : Value} {total : Nat} (h : loopCount v = .ok total) :
    total ≤ Binary.largest := by
  unfold loopCount at h
  split at h
  · rename_i x
    split at h
    · cases h
    · cases hx : Binary.ofFloat x with
      | none => simp [wholePart, hx, Except.mapError, Except.map] at h
      | some b =>
        have htotal : b.truncate.toNat = total := by
          simpa [wholePart, hx, Except.mapError, Except.map] using h
        have := Binary.natAbs_truncate_le hx
        omega
  · cases h

/-- A whole number that is not negative is a count. -/
theorem loopCount_of_wholeNumber? {x : Float} {n : Nat} (h : wholeNumber? x = some (n : Int)) :
    loopCount (.num x) = .ok n := by
  have hlt : ¬ x < 0 := by
    rw [lt_zero_iff_of_wholeNumber? h]
    omega
  simp only [loopCount, isWhole, h, hlt, truncate_of_wholeNumber? h]
  rfl

/-- No other number is a count. -/
theorem loopCount_num_eq_error {x : Float} (h : ∀ n : Nat, wholeNumber? x ≠ some (n : Int)) :
    loopCount (.num x) = .error (.script (.loopRange x)) := by
  cases hx : wholeNumber? x with
  | none => simp [loopCount, isWhole, hx]
  | some n =>
    have hneg : n < 0 := by
      by_contra hle
      refine h n.toNat ?_
      rw [hx, Int.toNat_of_nonneg (by omega)]
    have hlt : x < 0 := (lt_zero_iff_of_wholeNumber? hx).2 hneg
    simp [loopCount, hlt]

/-- Nothing but numbers are counts. -/
theorem loopCount_eq_error {v : Value} (h : v.kind ≠ .num) :
    loopCount v = .error (.script (.loopCount v.kind)) := by
  cases v with
  | num x => exact absurd rfl h
  | _ => rfl

/-! ### Places -/

/-- There is an element at every position of a list. -/
theorem exists_place {α : Type} {x : Float} {items : List α}
    (h : isPosition x items.length = true) :
    ∃ i item, wholePart Binary.truncate x = .ok i ∧ items[(i - 1).toNat]? = some item := by
  unfold isPosition at h
  split at h
  · rename_i i hi
    have hbounds : 1 ≤ i ∧ i ≤ items.length := of_decide_eq_true h
    have hlt : (i - 1).toNat < items.length := by omega
    exact ⟨i, items[(i - 1).toNat], truncate_of_wholeNumber? hi, List.getElem?_eq_getElem hlt⟩
  · cases h

end Sigil
