import Mathlib.Data.List.TakeWhile
import Sigil.Json.Printer
import Sigil.Json.Reader
import Sigil.Proofs.Safety.Guards

/-!
# Tokens of written documents

The tokens of a document are read one by one, and each is read by itself: a quoted text up to its
closing quote (`Quoted.decode?_flatMap`), a number as far as what follows it is no part of a number
(`Json.number?_append`). So the written form of a value without parts is read as one token with this
value (`Json.piece_float`). For finite doubles this rests on the digits, which have to stand for the
double they were made from: `Json.ReadsBack`.
-/

namespace Sigil

/-! ### Quoted text -/

namespace Quoted

/-- The escape of a control character gives its code. -/
private theorem hexValue4?_hexDigit {n : Nat} (h : n < 32) :
    hexValue4? '0' '0' (hexDigit (n / 16)) (hexDigit n) = some n := by
  have hall : ∀ n : Fin 32,
      hexValue4? '0' '0' (hexDigit (n.val / 16)) (hexDigit n.val) = some n.val := by decide
  exact hall ⟨n, h⟩

/-- An escape of a control character is read by itself, even with another escape after it. -/
theorem decode?_unicode {a b c d : Char} {unit : Nat} (h : hexValue4? a b c d = some unit)
    (hunit : unit < 0xd800) (rest : List Char) :
    decode? ('\\' :: 'u' :: a :: b :: c :: d :: rest) =
      decode?.add (unitChar unit) (decode? rest) := by
  by_cases hpair : ∃ e f g h tail, rest = '\\' :: 'u' :: e :: f :: g :: h :: tail
  · -- this is no first half of a pair of surrogates
    obtain ⟨e, f, g, k, tail, rfl⟩ := hpair
    rw [decode?, h]
    cases hexValue4? e f g k with
    | none => rfl
    | some low => exact if_neg fun hhigh => by omega
  · rw [decode?, h]
    intro e f g k tail heq
    exact hpair ⟨e, f, g, k, tail, heq⟩

private theorem unitChar_toNat {c : Char} (h : c.toNat < 0xd800) : unitChar c.toNat = c := by
  rw [unitChar, if_neg fun hunit => by omega, Char.ofNat_toNat]

/-- An escape of one letter is read by itself. -/
theorem decode?_simple {c e : Char} (h : simpleEscape? c = some e) (rest : List Char) :
    decode? ('\\' :: c :: rest) = decode?.add e (decode? rest) := by
  have hc : c ≠ 'u' := by
    rintro rfl
    cases h
  rw [decode?, h]
  · intro _ _ _ _ _ _ _ _ _ heq
    exact absurd heq hc
  · intro _ _ _ _ _ heq
    exact absurd heq hc

/-- **The written form of a character is read as this character.** -/
theorem decode?_encodeChar (c : Char) (rest : List Char) :
    decode? (encodeChar c ++ rest) = decode?.add c (decode? rest) := by
  unfold encodeChar
  split
  case h_8 hquote hbackslash _ _ _ _ _ =>
    split
    case isTrue hcontrol =>
      have hread := decode?_unicode (hexValue4?_hexDigit hcontrol)
        (Nat.lt_trans hcontrol (by decide)) rest
      rwa [unitChar_toNat (Nat.lt_trans hcontrol (by decide))] at hread
    case isFalse hcontrol =>
      rw [List.singleton_append, decode?, if_neg hcontrol]
      all_goals simp_all
  -- the other characters have an escape of one letter
  all_goals exact decode?_simple rfl rest

/-- **A quoted text is read up to its closing quote.** -/
theorem decode?_flatMap (s rest : List Char) :
    decode? (s.flatMap encodeChar ++ '"' :: rest) = some (s, rest) := by
  induction s with
  | nil => rw [List.flatMap_nil, List.nil_append, decode?]
  | cons c s ih =>
    rw [List.flatMap_cons, List.append_assoc, decode?_encodeChar, ih]
    rfl

end Quoted

/-! ### Numbers -/

namespace Json

/-- Whether a character can be part of a number. -/
def isNumberChar (c : Char) : Bool :=
  c.isDigit || c == '.' || c == 'e' || c == 'E' || c == '+' || c == '-'

/-- What follows does not go on with a number. -/
def Delimited (rest : List Char) : Prop :=
  ∀ c tail, rest = c :: tail → isNumberChar c = false

private theorem isPrefix_wholeDigits (cs : List Char) : wholeDigits cs <+: cs := by
  unfold wholeDigits
  split
  · exact ⟨_, rfl⟩
  · exact List.takeWhile_prefix _

private theorem isPrefix_fractionText (cs : List Char) : fractionText cs <+: cs := by
  unfold fractionText
  split
  · dsimp only
    split
    · exact List.nil_prefix
    · exact (List.prefix_cons_inj '.').2 ( List.takeWhile_prefix _)
  · exact List.nil_prefix

/-- The sign in front of the digits of an exponent. -/
def signText : List Char → List Char
  | '-' :: _ => ['-']
  | '+' :: _ => ['+']
  | _ => []

/-- The digits of an exponent after its sign. -/
private def exponentDigits (cs : List Char) : List Char :=
  (cs.drop (signText cs).length).takeWhile Char.isDigit

private theorem exponentText_cons (e : Char) (cs : List Char) :
    exponentText (e :: cs) =
      if e == 'e' || e == 'E' then
        if (exponentDigits cs).isEmpty then [] else e :: signText cs ++ exponentDigits cs
      else [] :=
  rfl

private theorem isPrefix_signText (cs : List Char) : signText cs <+: cs := by
  unfold signText
  split
  · exact ⟨_, rfl⟩
  · exact ⟨_, rfl⟩
  · exact List.nil_prefix

private theorem isPrefix_exponentText (cs : List Char) : exponentText cs <+: cs := by
  cases cs with
  | nil => exact List.nil_prefix
  | cons e cs =>
    rw [exponentText_cons]
    split
    · split
      · exact List.nil_prefix
      · have hcs := List.prefix_iff_eq_append.1 (isPrefix_signText cs)
        have hdigits : signText cs ++ exponentDigits cs <+: cs := by
          nth_rewrite 3 [← hcs]
          exact (List.prefix_append_right_inj _).2 ( List.takeWhile_prefix _)
        exact (List.prefix_cons_inj e).2 hdigits
    · exact List.nil_prefix

section Delimited

variable {rest : List Char} (hrest : Delimited rest)

include hrest

private theorem Delimited.takeWhile_isDigit (cs : List Char) :
    (cs ++ rest).takeWhile Char.isDigit = cs.takeWhile Char.isDigit := by
  induction cs with
  | nil =>
    cases rest with
    | nil => rfl
    | cons c tail =>
      have hc := hrest c tail rfl
      simp only [isNumberChar, Bool.or_eq_false_iff] at hc
      simp [hc.1]
  | cons c cs ih => simp only [List.cons_append, List.takeWhile_cons, ih]

private theorem Delimited.head_ne {c d : Char} {tail : List Char} (h : rest = c :: tail)
    (hd : isNumberChar d = true) : c ≠ d := by
  rintro rfl
  rw [hrest c tail h] at hd
  cases hd

private theorem wholeDigits_append (cs : List Char) :
    wholeDigits (cs ++ rest) = wholeDigits cs := by
  cases cs with
  | cons c cs =>
    by_cases hc : c = '0'
    · subst hc
      rfl
    · have hrun := hrest.takeWhile_isDigit (c :: cs)
      rw [List.cons_append, wholeDigits, wholeDigits]
      · exact hrun
      all_goals simp [hc]
  | nil =>
    have hrun := hrest.takeWhile_isDigit []
    rw [List.nil_append] at hrun ⊢
    rw [wholeDigits, hrun]
    · rfl
    · intro tail h
      exact hrest.head_ne h (by decide) rfl

private theorem fractionText_append (cs : List Char) :
    fractionText (cs ++ rest) = fractionText cs := by
  cases cs with
  | cons c cs =>
    by_cases hc : c = '.'
    · subst hc
      simp only [List.cons_append, fractionText, hrest.takeWhile_isDigit]
    · rw [List.cons_append, fractionText, fractionText]
      all_goals simp [hc]
  | nil =>
    rw [List.nil_append, fractionText, fractionText]
    · exact nofun
    · intro tail h
      exact hrest.head_ne h (by decide) rfl

private theorem signText_append (cs : List Char) : signText (cs ++ rest) = signText cs := by
  cases cs with
  | cons c cs =>
    by_cases hminus : c = '-'
    · subst hminus
      rfl
    · by_cases hplus : c = '+'
      · subst hplus
        rfl
      · rw [List.cons_append, signText, signText]
        all_goals simp [hminus, hplus]
  | nil =>
    rw [List.nil_append, signText, signText]
    · exact nofun
    · exact nofun
    · intro tail h
      exact hrest.head_ne h (by decide) rfl
    · intro tail h
      exact hrest.head_ne h (by decide) rfl

private theorem exponentDigits_append (cs : List Char) :
    exponentDigits (cs ++ rest) = exponentDigits cs := by
  rw [exponentDigits, signText_append hrest,
    List.drop_append_of_le_length (isPrefix_signText cs).length_le, hrest.takeWhile_isDigit]
  rfl

private theorem exponentText_append (cs : List Char) :
    exponentText (cs ++ rest) = exponentText cs := by
  cases cs with
  | cons e cs =>
    rw [List.cons_append, exponentText_cons, exponentText_cons, exponentDigits_append hrest,
      signText_append hrest]
  | nil =>
    cases rest with
    | nil => rfl
    | cons c tail =>
      have he : c ≠ 'e' := hrest.head_ne rfl (by decide)
      have hE : c ≠ 'E' := hrest.head_ne rfl (by decide)
      rw [List.nil_append, exponentText_cons]
      simp [he, hE, exponentText]

/-- **A number is read by itself**, if what follows does not go on with it. -/
theorem number?_append (negative : Bool) (cs : List Char) :
    number? negative (cs ++ rest) =
      (number? negative cs).map fun (p, left) => (p, left ++ rest) := by
  have hdrop (part : List Char → List Char) (hpart : ∀ cs, part cs <+: cs) (cs : List Char) :
      (cs ++ rest).drop (part cs).length = cs.drop (part cs).length ++ rest :=
    List.drop_append_of_le_length (hpart cs).length_le
  simp only [number?, wholeDigits_append hrest, hdrop _ isPrefix_wholeDigits,
    fractionText_append hrest, hdrop _ isPrefix_fractionText, exponentText_append hrest,
    hdrop _ isPrefix_exponentText]
  split
  · rfl
  · split
    · split <;> rfl
    · rfl

end Delimited

/-! ### Characters of numbers -/

theorem isNumberChar_of_isDigit {c : Char} (h : c.isDigit = true) : isNumberChar c = true := by
  simp [isNumberChar, h]

private theorem isDigit_of_mem_wholeDigits {cs : List Char} {c : Char} (h : c ∈ wholeDigits cs) :
    c.isDigit = true := by
  unfold wholeDigits at h
  split at h
  · obtain rfl := List.mem_singleton.1 h
    rfl
  · exact List.mem_takeWhile_imp h

private theorem isNumberChar_of_mem_fractionText {cs : List Char} {c : Char}
    (h : c ∈ fractionText cs) :
    isNumberChar c = true := by
  unfold fractionText at h
  split at h
  · dsimp only at h
    split at h
    · cases h
    · rcases List.mem_cons.1 h with rfl | h
      · rfl
      · exact isNumberChar_of_isDigit (List.mem_takeWhile_imp h)
  · cases h

private theorem isNumberChar_of_mem_signText {cs : List Char} {c : Char} (h : c ∈ signText cs) :
    isNumberChar c = true := by
  unfold signText at h
  split at h
  · obtain rfl := List.mem_singleton.1 h
    rfl
  · obtain rfl := List.mem_singleton.1 h
    rfl
  · cases h

private theorem isNumberChar_of_mem_exponentText {cs : List Char} {c : Char}
    (h : c ∈ exponentText cs) :
    isNumberChar c = true := by
  cases cs with
  | nil => cases h
  | cons e cs =>
    rw [exponentText_cons] at h
    split at h
    case isFalse => cases h
    case isTrue he =>
      split at h
      case isTrue => cases h
      case isFalse =>
        rcases List.mem_append.1 h with h | h
        · rcases List.mem_cons.1 h with rfl | h
          · simp only [Bool.or_eq_true] at he
            simp only [isNumberChar, Bool.or_eq_true]
            tauto
          · exact isNumberChar_of_mem_signText h
        · exact isNumberChar_of_isDigit (List.mem_takeWhile_imp h)

/-- A number that nothing is left of holds only characters of numbers. -/
private theorem isNumberChar_of_number? {negative : Bool} {cs : List Char} {p : Piece}
    (h : number? negative cs = some (p, [])) : ∀ c ∈ cs, isNumberChar c = true := by
  have hcut (part : List Char → List Char) (hpart : ∀ cs, part cs <+: cs) (cs : List Char) :
      part cs ++ cs.drop (part cs).length = cs :=
    List.prefix_iff_eq_append.1 (hpart cs)
  -- what is left after the whole part, after the fraction and after the exponent
  generalize hrest₁ : cs.drop (wholeDigits cs).length = rest₁ at h
  generalize hrest₂ : rest₁.drop (fractionText rest₁).length = rest₂ at h
  have hrest₃ : rest₂.drop (exponentText rest₂).length = [] := by
    simp only [number?, hrest₁, hrest₂] at h
    split at h
    · cases h
    · split at h
      · split at h <;> exact (Prod.ext_iff.1 (Option.some.inj h)).2
      · exact (Prod.ext_iff.1 (Option.some.inj h)).2
  have hcs := hcut wholeDigits isPrefix_wholeDigits cs
  have hcs₁ := hcut fractionText isPrefix_fractionText rest₁
  have hcs₂ := hcut exponentText isPrefix_exponentText rest₂
  rw [hrest₁] at hcs
  rw [hrest₂] at hcs₁
  rw [hrest₃, List.append_nil] at hcs₂
  intro c hc
  rw [← hcs, ← hcs₁, ← hcs₂, List.mem_append, List.mem_append] at hc
  rcases hc with hc | hc | hc
  · exact isNumberChar_of_isDigit (isDigit_of_mem_wholeDigits hc)
  · exact isNumberChar_of_mem_fractionText hc
  · exact isNumberChar_of_mem_exponentText hc

/-! ### Written doubles -/

/-- **A double that is read back**: its written form is one token, which stands for the double. -/
def ReadsBack (x : Float) : Prop :=
  piece (NumberFormat.stored.write x).toList = (.scalar (.float x), [])

/-- The written form of a finite double starts with a digit after its sign. -/
theorem exists_digit_layout (d : Decimal) :
    ∃ c tail, NumberFormat.layout d = c :: tail ∧ c.isDigit = true := by
  obtain ⟨c, ds, hds⟩ := List.exists_cons_of_ne_nil (Nat.toDigits_ne_nil (n := d.digits) (b := 10))
  have hc : c.isDigit = true :=
    Nat.isDigit_of_mem_toDigits (by decide) (Nat.le_refl 10) (hds ▸ List.mem_cons_self)
  unfold NumberFormat.layout NumberFormat.digits
  rw [hds]
  dsimp only
  split
  · split
    · exact ⟨'0', _, rfl, rfl⟩
    · split
      · exact ⟨c, _, rfl, hc⟩
      · exact ⟨c, _, rfl, hc⟩
  · exact ⟨c, _, rfl, hc⟩

private theorem exists_digit_write {x : Float} (h : isFinite x = true) :
    ∃ negative : Bool, ∃ c tail, (NumberFormat.stored.write x).toList =
      (if negative then ['-'] else []) ++ c :: tail ∧ c.isDigit = true := by
  obtain ⟨b, hb⟩ := Option.isSome_iff_exists.1 h
  have hwrite : NumberFormat.stored.write x = NumberFormat.write.finite b := by
    simp only [NumberFormat.write, hb, NumberFormat.stored, Nat.not_lt_zero, if_false]
    split <;> rfl
  have hbody : ∃ c tail, (if b.mantissa = 0 then ['0', '.', '0']
      else NumberFormat.layout (.shortest b.mantissa b.exponent)) = c :: tail ∧
        c.isDigit = true := by
    split
    · exact ⟨'0', _, rfl, rfl⟩
    · exact exists_digit_layout _
  obtain ⟨c, tail, hbody, hc⟩ := hbody
  refine ⟨b.negative, c, tail, ?_, hc⟩
  rw [hwrite, NumberFormat.write.finite, hbody, String.toList_ofList]
  cases b.negative <;> rfl

/-- No word starts with a digit, nor with a minus sign and a digit. -/
private theorem word?_eq_none {c : Char} (hc : c.isDigit = true) (negative : Bool)
    (cs : List Char) :
    word? ((if negative then ['-'] else []) ++ c :: cs) = none := by
  cases negative
  all_goals
    simp only [word?, words]
    simp
    and_intros
  all_goals
    rintro rfl
    exact absurd hc (by decide)

/-- A token that starts with a digit, or with a minus sign and a digit, is a number. -/
private theorem piece_number {c : Char} (hc : c.isDigit = true) (negative : Bool) (cs : List Char) :
    piece ((if negative then ['-'] else []) ++ c :: cs) =
      (number? negative (c :: cs)).getD (.broken, []) := by
  have hword := word?_eq_none hc negative cs
  cases negative with
  | true =>
    change ((word? ('-' :: c :: cs)).or (number? true (c :: cs))).getD (.broken, []) = _
    rw [show word? ('-' :: c :: cs) = none from hword, Option.none_or]
  | false =>
    have hne {d : Char} (hd : d.isDigit = false) : c ≠ d := by
      rintro rfl
      simp [hc] at hd
    have hpiece : piece (c :: cs) =
        ((word? (c :: cs)).or (number? false (c :: cs))).getD (.broken, []) := by
      rw [piece.eq_def]
      split
      case h_8 =>
        split
        case h_1 heq => exact absurd (List.cons.inj heq).1 (hne rfl)
        case h_2 => rfl
      all_goals
        rename_i heq
        exact absurd (List.cons.inj heq).1 (hne rfl)
    rw [show word? (c :: cs) = none from hword, Option.none_or] at hpiece
    exact hpiece

/-- **The written form of a finite double is one token** wherever it stands. -/
theorem piece_finite {x : Float} (hx : isFinite x = true) (h : ReadsBack x) {rest : List Char}
    (hrest : Delimited rest) :
    piece ((NumberFormat.stored.write x).toList ++ rest) = (.scalar (.float x), rest) ∧
      ∀ c ∈ (NumberFormat.stored.write x).toList, isNumberChar c = true := by
  obtain ⟨negative, c, tail, htext, hc⟩ := exists_digit_write hx
  have hnumber : number? negative (c :: tail) = some (.scalar (.float x), []) := by
    rw [ReadsBack, htext, piece_number hc] at h
    cases hn : number? negative (c :: tail) with
    | none => rw [hn] at h; cases h
    | some result => rw [hn] at h; rw [← h]; rfl
  constructor
  · rw [htext, List.append_assoc, List.cons_append, piece_number hc, ← List.cons_append,
      number?_append hrest, hnumber]
    rfl
  · intro d hd
    rw [htext, List.mem_append] at hd
    rcases hd with hd | hd
    · cases negative
      · cases hd
      · obtain rfl := List.mem_singleton.1 hd
        rfl
    · exact isNumberChar_of_number? hnumber d hd

open Float.Model in
/-- There is one NaN. -/
private theorem toBits_of_infinityBits_lt {x : Float}
    (h : Binary.infinityBits < Binary.magnitudeBits x) :
    x.toBits = 0x7ff8000000000000 := by
  have hvalid := x.toModel.valid.eq_packedNaN
  change 0x7ff * Nat.pow 2 52 < x.toModel.toBits.toBitVec.toNat % Nat.pow 2 63 at h
  apply UInt64.eq_of_toBitVec_eq
  change x.toModel.toBits.toBitVec = UnpackedFloat.packedNaN Format.binary64
  generalize x.toModel.toBits.toBitVec = bits at h hvalid
  change BitVec 64 at bits
  have hlt : bits.toNat < 2 ^ 64 := bits.isLt
  simp only [Nat.pow_eq] at h
  apply hvalid
  · apply BitVec.eq_of_toNat_eq
    change (BitVec.extractLsb' 52 11 bits).toNat = 2047
    rw [BitVec.extractLsb'_toNat, Nat.shiftRight_eq_div_pow]
    omega
  · intro hzero
    have hmantissa : (BitVec.extractLsb' 0 52 bits).toNat = 0 := congrArg BitVec.toNat hzero
    rw [BitVec.extractLsb'_toNat, Nat.shiftRight_eq_div_pow] at hmantissa
    omega

/-- A double that is not finite is one of the infinities or NaN. -/
private theorem eq_ofBits_of_not_finite {x : Float} (h : isFinite x = false) :
    x = Float.ofBits 0x7ff8000000000000 ∨ x = Float.ofBits 0x7ff0000000000000 ∨
      x = Float.ofBits 0xfff0000000000000 := by
  have hle : Binary.infinityBits ≤ Binary.magnitudeBits x := by
    rw [← Nat.not_lt, ← isFinite_iff, h]
    exact nofun
  rcases Nat.lt_or_eq_of_le hle with hlt | heq
  · exact .inl (eq_of_toBits_eq (toBits_of_infinityBits_lt hlt))
  · right
    have hbits : x.toBits.toNat < 2 ^ 64 := x.toBits.toNat_lt
    simp only [Binary.infinityBits, Binary.magnitudeBits, Nat.pow_eq] at heq
    have hcases : x.toBits.toNat = 0x7ff0000000000000 ∨ x.toBits.toNat = 0xfff0000000000000 := by
      omega
    exact hcases.imp (fun hx => eq_of_toBits_eq (UInt64.toNat_inj.1 hx))
      fun hx => eq_of_toBits_eq (UInt64.toNat_inj.1 hx)

/-- **The written form of a double is one token** wherever it stands, if the double is read back by
itself where it is finite. The infinities and NaN are words. -/
theorem piece_float {x : Float} (h : isFinite x = true → ReadsBack x) {rest : List Char}
    (hrest : Delimited rest) :
    piece ((NumberFormat.stored.write x).toList ++ rest) = (.scalar (.float x), rest) ∧
      '\r' ∉ (NumberFormat.stored.write x).toList := by
  cases hx : isFinite x with
  | true =>
    obtain ⟨hpiece, hchars⟩ := piece_finite hx (h hx) hrest
    exact ⟨hpiece, fun hmem => by cases hchars _ hmem⟩
  | false =>
    rcases eq_ofBits_of_not_finite hx with rfl | rfl | rfl
    · exact ⟨rfl, by decide⟩
    · exact ⟨rfl, by decide⟩
    · exact ⟨rfl, by decide⟩

end Json

end Sigil
