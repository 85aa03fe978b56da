import Mathlib.Data.List.Forall2
import Sigil.Proofs.Data.Spelling
import Sigil.Proofs.Json.Token

/-!
# The text of data is unambiguous

The text that data have inside of a container tells what they look like: data have the same text
exactly if they have the same structure, where numbers are the same if they are written alike
(`nestedText_eq_iff`).

A text can be read in one way only, even with other text after it (`Value.IsData.readsAlike`). Its
first character tells a quoted text, an array, an object and a word apart. A quoted text ends at its
first quote without a backslash, and a word ends before the first character that is not part of
words, so each part of a text shows where it ends.
-/

namespace Sigil

/-- **Data of the same structure**, in two stores: the same kinds, equal texts, numbers that are
written alike, arrays that are the same element by element, and objects with the same keys in the
same order and the same members. -/
inductive Value.SameData (s s' : Store) : Value → Value → Prop
  | num {x y : Float} : NumberFormat.plain.write x = NumberFormat.plain.write y →
    SameData s s' (.num x) (.num y)
  | str (t : String) : SameData s s' (.str t) (.str t)
  | bool (b : Bool) : SameData s s' (.bool b) (.bool b)
  | null : SameData s s' .null .null
  | arr {r r' : ArrayRef} : (s.items r).toList.length = (s'.items r').toList.length →
    (∀ v v', (v, v') ∈ (s.items r).toList.zip (s'.items r').toList → SameData s s' v v') →
    SameData s s' (.arr r) (.arr r')
  | obj {r r' : ObjectRef} : (s.fields r).keys = (s'.fields r').keys →
    (∀ entry entry', (entry, entry') ∈ (s.fields r).entries.zip (s'.fields r').entries →
      SameData s s' entry.2 entry'.2) →
    SameData s s' (.obj r) (.obj r')

/-! ### Words -/

/-- The characters of names and of numbers. -/
def isWordChar (c : Char) : Bool :=
  Lexeme.isNameChar c || c == '.' || c == '+' || c == '-'

/-- What follows does not go on with the word before it. -/
def WordEnds (rest : List Char) : Prop :=
  ∀ c ∈ rest.head?, isWordChar c = false

private theorem wordEnds_cons {c : Char} (hc : isWordChar c = false) (rest : List Char) :
    WordEnds (c :: rest) := by
  rintro d ⟨⟩
  exact hc

/-- A word ends where its characters end. -/
private theorem append_inj_of_wordEnds {t t' rest rest' : List Char}
    (ht : ∀ c ∈ t, isWordChar c = true) (ht' : ∀ c ∈ t', isWordChar c = true)
    (hrest : WordEnds rest) (hrest' : WordEnds rest') (h : t ++ rest = t' ++ rest') :
    t = t' ∧ rest = rest' := by
  have htake {t rest : List Char} (ht : ∀ c ∈ t, isWordChar c = true) (hrest : WordEnds rest) :
      (t ++ rest).takeWhile isWordChar = t := by
    rw [List.takeWhile_append_of_pos ht]
    cases rest with
    | nil => simp
    | cons c rest => simp [hrest c rfl]
  have heq : t = t' := by
    rw [← htake ht hrest, h, htake ht' hrest']
  subst heq
  exact ⟨rfl, List.append_cancel_left h⟩

private theorem IsName.isWordChar {cs : List Char} (h : IsName cs) :
    ∀ c ∈ cs, isWordChar c = true := by
  cases cs with
  | nil => exact h.elim
  | cons c rest =>
    have hstart : Lexeme.isNameChar c = true := by
      have hc := h.1
      simp only [Lexeme.isNameStart, Lexeme.isNameChar, Char.isAlphanum, Bool.or_eq_true] at hc ⊢
      tauto
    have hall : ∀ d ∈ c :: rest, Lexeme.isNameChar d = true :=
      List.forall_mem_cons.2 ⟨hstart, h.2⟩
    intro d hd
    simp [Sigil.isWordChar, hall d hd]

/-! ### Numbers -/

/-- **The texts of numbers**: one of three words, or digits, points, signs and exponents. -/
def IsNumberText (t : List Char) : Prop :=
  t ∈ ["NaN".toList, "Infinity".toList, "-Infinity".toList] ∨
    t ≠ [] ∧ ∀ c ∈ t, Json.isNumberChar c = true

namespace NumberFormat

private theorem isNumberChar_of_mem_digits {n : Nat} {c : Char} (h : c ∈ digits n) :
    Json.isNumberChar c = true :=
  Json.isNumberChar_of_isDigit (Nat.isDigit_of_mem_toDigits (by decide) (Nat.le_refl 10) h)

private theorem isNumberChar_of_mem_exponentText {e : Int} {c : Char} (h : c ∈ exponentText e) :
    Json.isNumberChar c = true := by
  rcases List.mem_cons.1 h with rfl | h
  · split <;> rfl
  · split at h
    · rcases List.mem_cons.1 h with rfl | h
      · rfl
      · exact isNumberChar_of_mem_digits h
    · exact isNumberChar_of_mem_digits h

private theorem isNumberChar_of_mem_layout {d : Decimal} {c : Char} (h : c ∈ layout d) :
    Json.isNumberChar c = true := by
  have hzeros {n : Nat} (h : c ∈ List.replicate n '0') : Json.isNumberChar c = true := by
    rw [List.eq_of_mem_replicate h]
    rfl
  have htake {n : Nat} (h : c ∈ (digits d.digits).take n) : Json.isNumberChar c = true :=
    isNumberChar_of_mem_digits (List.mem_of_mem_take h)
  have hdrop {n : Nat} (h : c ∈ (digits d.digits).drop n) : Json.isNumberChar c = true :=
    isNumberChar_of_mem_digits (List.mem_of_mem_drop h)
  unfold layout at h
  dsimp only at h
  -- positional with zeros in front, with zeros behind or with a point between, or scientific
  split at h
  · split at h
    · simp only [List.mem_cons, List.mem_append] at h
      rcases h with rfl | rfl | h | h
      · rfl
      · rfl
      · exact hzeros h
      · exact isNumberChar_of_mem_digits h
    · split at h
      · simp only [List.mem_append, List.mem_cons, List.not_mem_nil, or_false] at h
        rcases h with (h | h) | rfl | rfl
        · exact isNumberChar_of_mem_digits h
        · exact hzeros h
        · rfl
        · rfl
      · simp only [List.mem_append, List.mem_cons] at h
        rcases h with h | rfl | h
        · exact htake h
        · rfl
        · exact hdrop h
  · simp only [List.mem_append, List.mem_cons] at h
    rcases h with (h | h) | rfl | h
    · exact htake h
    · split at h
      · cases h
      · rcases List.mem_cons.1 h with rfl | h
        · rfl
        · exact hdrop h
    · rfl
    · exact isNumberChar_of_mem_exponentText h

private theorem isNumberText_finite (b : Binary) : IsNumberText (write.finite b).toList := by
  have hbody : ∃ c tail, (if b.mantissa = 0 then ['0', '.', '0']
      else layout (.shortest b.mantissa b.exponent)) = c :: tail ∧
        ∀ d ∈ c :: tail, Json.isNumberChar d = true := by
    split
    · exact ⟨'0', _, rfl, by decide⟩
    · obtain ⟨c, tail, hlayout, -⟩ := Json.exists_digit_layout (.shortest b.mantissa b.exponent)
      exact ⟨c, tail, hlayout, fun d hd => isNumberChar_of_mem_layout (hlayout ▸ hd)⟩
  obtain ⟨c, tail, hbody, hall⟩ := hbody
  rw [write.finite, hbody, String.toList_ofList]
  right
  split
  · exact ⟨List.cons_ne_nil _ _, List.forall_mem_cons.2 ⟨rfl, hall⟩⟩
  · exact ⟨List.cons_ne_nil _ _, hall⟩

private theorem isNumberText_write (x : Float) : IsNumberText (plain.write x).toList := by
  unfold write
  split
  · left
    split
    · split <;> decide
    · decide
  · rename_i b hb
    split
    · rename_i n hn
      split
      · have hdigits : digits n.natAbs ≠ [] := Nat.toDigits_ne_nil
        rw [String.toList_ofList]
        refine .inr ⟨by simp [hdigits], fun c hc => ?_⟩
        rcases List.mem_append.1 hc with hc | hc
        · split at hc
          · obtain rfl := List.mem_singleton.1 hc
            rfl
          · cases hc
        · exact isNumberChar_of_mem_digits hc
      · exact isNumberText_finite b
    · exact isNumberText_finite b

end NumberFormat

namespace IsNumberText

variable {t : List Char} (h : IsNumberText t)
include h

private theorem isWord : t ≠ [] ∧ ∀ c ∈ t, isWordChar c = true := by
  rcases h with h | ⟨hne, hall⟩
  · simp only [List.mem_cons, List.not_mem_nil, or_false] at h
    rcases h with rfl | rfl | rfl <;> decide
  · refine ⟨hne, fun c hc => ?_⟩
    have hc := hall c hc
    simp only [Json.isNumberChar, isWordChar, Lexeme.isNameChar, Char.isAlphanum, Bool.or_eq_true,
      beq_iff_eq] at hc ⊢
    rcases hc with ((((hdigit | rfl) | rfl) | rfl) | rfl) | rfl
    · exact .inl (.inl (.inl (.inl (.inr hdigit))))
    all_goals decide

/-- No number is written like a truth value or like null. -/
private theorem notMem_words : t ∉ ["yes".toList, "no".toList, "_".toList] := by
  intro ht
  simp only [List.mem_cons, List.not_mem_nil, or_false] at ht
  rcases h with h | ⟨-, hall⟩
  · rcases ht with rfl | rfl | rfl <;> exact absurd h (by decide)
  · rcases ht with rfl | rfl | rfl <;> exact absurd hall (by decide)

end IsNumberText

/-! ### Reading -/

/-- **Texts that are read alike**: if they stand at the start of the same text, and what follows
them does not go on with a word, then they end at the same place, and this is so. -/
def ReadsAlike (P : Prop) (t t' : List Char) : Prop :=
  ∀ rest rest', WordEnds rest → WordEnds rest' → t ++ rest = t' ++ rest' → P ∧ rest = rest'

namespace ReadsAlike

variable {α β : Type} {R : α → β → Prop} {f : α → List Char} {g : β → List Char} {xs : List α}
  {ys : List β} {close : Char} {rest rest' : List Char}

private theorem wordEnds_tails (hword : isWordChar close = false) (ts : List (List Char)) :
    WordEnds ((ts.flatMap fun t => ',' :: ' ' :: t) ++ close :: rest) := by
  cases ts with
  | nil => exact wordEnds_cons hword rest
  | cons t ts => exact wordEnds_cons (by decide) _

/-- Lists that are read from a comma on, up to a closing bracket. -/
private theorem tails (h : ∀ x ∈ xs, ∀ y ∈ ys, ReadsAlike (R x y) (f x) (g y))
    (hword : isWordChar close = false) (hclose : close ≠ ',')
    (heq : ((xs.map f).flatMap fun t => ',' :: ' ' :: t) ++ close :: rest =
      ((ys.map g).flatMap fun t => ',' :: ' ' :: t) ++ close :: rest') :
    List.Forall₂ R xs ys ∧ rest = rest' := by
  induction xs generalizing ys with
  | nil =>
    cases ys with
    | nil => exact ⟨.nil, (List.cons.inj heq).2⟩
    | cons y ys => exact absurd (List.cons.inj heq).1 hclose
  | cons x xs ih =>
    cases ys with
    | nil => exact absurd (List.cons.inj heq).1.symm hclose
    | cons y ys =>
      simp only [List.map_cons, List.flatMap_cons, List.cons_append, List.append_assoc,
        List.cons.injEq, true_and] at heq
      obtain ⟨hxy, heq⟩ := h x List.mem_cons_self y List.mem_cons_self _ _
        (wordEnds_tails hword _) (wordEnds_tails hword _) heq
      obtain ⟨hrest, heq⟩ :=
        ih (fun x hx y hy => h x (List.mem_cons_of_mem _ hx) y (List.mem_cons_of_mem _ hy)) heq
      exact ⟨.cons hxy hrest, heq⟩

/-- Lists that are read up to a closing bracket. No member starts with the bracket, so it can be
told whether there are any. -/
private theorem joined (h : ∀ x ∈ xs, ∀ y ∈ ys, ReadsAlike (R x y) (f x) (g y))
    (hword : isWordChar close = false) (hclose : close ≠ ',')
    (hf : ∀ x ∈ xs, ∃ c tail, f x = c :: tail ∧ c ≠ close)
    (hg : ∀ y ∈ ys, ∃ c tail, g y = c :: tail ∧ c ≠ close)
    (heq : withCommas (xs.map f) ++ close :: rest = withCommas (ys.map g) ++ close :: rest') :
    List.Forall₂ R xs ys ∧ rest = rest' := by
  cases xs with
  | nil =>
    cases ys with
    | nil => exact ⟨.nil, (List.cons.inj heq).2⟩
    | cons y ys =>
      obtain ⟨c, tail, hy, hc⟩ := hg y List.mem_cons_self
      rw [List.map_cons, withCommas, hy] at heq
      exact absurd (List.cons.inj heq).1.symm hc
  | cons x xs =>
    cases ys with
    | nil =>
      obtain ⟨c, tail, hx, hc⟩ := hf x List.mem_cons_self
      rw [List.map_cons, withCommas, hx] at heq
      exact absurd (List.cons.inj heq).1 hc
    | cons y ys =>
      simp only [List.map_cons, withCommas, List.append_assoc] at heq
      obtain ⟨hxy, heq⟩ := h x List.mem_cons_self y List.mem_cons_self _ _
        (wordEnds_tails hword _) (wordEnds_tails hword _) heq
      obtain ⟨hrest, heq⟩ := tails
        (fun x hx y hy => h x (List.mem_cons_of_mem _ hx) y (List.mem_cons_of_mem _ hy))
        hword hclose heq
      exact ⟨.cons hxy hrest, heq⟩

/-- A quoted text is read up to its closing quote. -/
theorem encode (t t' : List Char) : ReadsAlike (t = t') (Quoted.encode t) (Quoted.encode t') := by
  intro rest rest' _ _ heq
  have heq : t.flatMap Quoted.encodeChar ++ '"' :: rest =
      t'.flatMap Quoted.encodeChar ++ '"' :: rest' := by
    simpa [Quoted.encode] using heq
  have hdecode := congrArg Quoted.decode? heq
  rw [Quoted.decode?_flatMap, Quoted.decode?_flatMap] at hdecode
  exact Prod.mk.inj (Option.some.inj hdecode)

end ReadsAlike

/-- The character that the text of a value starts with, if it is no word. -/
def Value.opening : Value → Option Char
  | .str _ => some '"'
  | .arr _ => some '['
  | .obj _ => some '\x7b'
  | _ => none

namespace Value.IsData

variable {s s' : Store} {u v : Value} {rest rest' : List Char}

/-- The first character tells the kinds of values apart. -/
private theorem exists_head (h : v.IsData s) :
    ∃ c tail, s.spelling v = c :: tail ∧ v.opening = if isWordChar c then none else some c := by
  cases h with
  | num x =>
    obtain ⟨hne, hword⟩ := (NumberFormat.isNumberText_write x).isWord
    obtain ⟨c, tail, hspelling⟩ := List.exists_cons_of_ne_nil hne
    refine ⟨c, tail, hspelling, ?_⟩
    rw [hword c (hspelling ▸ List.mem_cons_self)]
    rfl
  | str t => exact ⟨'"', _, s.spelling_str t, rfl⟩
  | bool b =>
    cases b with
    | true => exact ⟨'y', _, s.spelling_bool true, rfl⟩
    | false => exact ⟨'n', _, s.spelling_bool false, rfl⟩
  | null => exact ⟨'_', _, s.spelling_null, rfl⟩
  | arr hitems => exact ⟨'[', _, Store.spelling_arr hitems, rfl⟩
  | obj hkeys hvalues => exact ⟨'\x7b', _, Store.spelling_obj hkeys hvalues, rfl⟩

private theorem opening_eq (hu : u.IsData s) (hv : v.IsData s')
    (h : s.spelling u ++ rest = s'.spelling v ++ rest') : u.opening = v.opening := by
  obtain ⟨c, tail, hspelling, hopening⟩ := hu.exists_head
  obtain ⟨c', tail', hspelling', hopening'⟩ := hv.exists_head
  rw [hspelling, hspelling'] at h
  rw [hopening, hopening', (List.cons.inj h).1]

/-- No text starts with a closing bracket. -/
private theorem exists_head_ne (h : v.IsData s) {close : Char} (hclose : close ∈ [']', '\x7d']) :
    ∃ c tail, s.spelling v = c :: tail ∧ c ≠ close := by
  obtain ⟨c, tail, hspelling, hopening⟩ := h.exists_head
  refine ⟨c, tail, hspelling, ?_⟩
  rintro rfl
  simp only [List.mem_cons, List.not_mem_nil, or_false] at hclose
  rcases hclose with rfl | rfl <;> cases v <;> cases hopening

/-- The text of a number, a truth value or null is a word. -/
private theorem isWordChar_of_mem (h : v.IsData s) (hv : v.opening = none) :
    ∀ c ∈ s.spelling v, isWordChar c = true := by
  cases h with
  | num x => exact (NumberFormat.isNumberText_write x).isWord.2
  | bool b =>
    rw [Store.spelling_bool]
    cases b <;> decide
  | null =>
    rw [Store.spelling_null]
    decide
  | str | arr | obj => cases hv

/-- Words that are the same stand for the same data. -/
private theorem sameData_of_word (hu : u.IsData s) (hv : v.IsData s') (hou : u.opening = none)
    (hov : v.opening = none) (h : s.spelling u = s'.spelling v) : u.SameData s s' v := by
  -- no number is written as one of the words, so only values of one kind can share a spelling
  have hnumber (x : Float) := (NumberFormat.isNumberText_write x).notMem_words
  cases hu with
  | num x =>
    rw [Store.spelling_num] at h
    cases hv with
    | num y => exact .num (String.toList_inj.1 h)
    | bool b =>
      rw [Store.spelling_bool] at h
      exact absurd (by rw [h]; cases b <;> decide) (hnumber x)
    | null => exact absurd (by rw [h, Store.spelling_null]; decide) (hnumber x)
    | str | arr | obj => cases hov
  | bool b =>
    rw [Store.spelling_bool] at h
    cases hv with
    | num y =>
      rw [Store.spelling_num] at h
      exact absurd (by rw [← h]; cases b <;> decide) (hnumber y)
    | bool b' =>
      rw [Store.spelling_bool] at h
      obtain rfl : b = b' := by
        revert h
        cases b <;> cases b' <;> decide
      exact .bool b
    | null =>
      rw [Store.spelling_null] at h
      cases b <;> exact absurd h (by decide)
    | str | arr | obj => cases hov
  | null =>
    rw [Store.spelling_null] at h
    cases hv with
    | num y =>
      rw [Store.spelling_num] at h
      exact absurd (by rw [← h]; decide) (hnumber y)
    | bool b =>
      rw [Store.spelling_bool] at h
      cases b <;> exact absurd h (by decide)
    | null => exact .null
    | str | arr | obj => cases hov
  | str | arr | obj => cases hou

/-- The members of objects are read alike if their values are. -/
private theorem readsAlike_member {entry entry' : String × Value} (hkey : IsName entry.1.toList)
    (hkey' : IsName entry'.1.toList)
    (h : ReadsAlike (entry.2.SameData s s' entry'.2) (s.spelling entry.2) (s'.spelling entry'.2)) :
    ReadsAlike (entry.1 = entry'.1 ∧ entry.2.SameData s s' entry'.2) (s.memberSpelling entry)
      (s'.memberSpelling entry') := by
  intro rest rest' hrest hrest' heq
  simp only [Store.memberSpelling, List.append_assoc, List.cons_append] at heq
  have hcolon : isWordChar ':' = false := by decide
  obtain ⟨hkeys, heq⟩ := append_inj_of_wordEnds hkey.isWordChar hkey'.isWordChar
    (wordEnds_cons hcolon _) (wordEnds_cons hcolon _) heq
  simp only [List.cons.injEq, true_and] at heq
  obtain ⟨hsame, heq⟩ := h rest rest' hrest hrest' heq
  exact ⟨⟨String.toList_inj.1 hkeys, hsame⟩, heq⟩

/-- Arrays are read alike if their elements are. -/
private theorem readsAlike_arr {r r' : ArrayRef} (hr : ∀ v ∈ (s.items r).toList, v.IsData s)
    (hr' : ∀ v ∈ (s'.items r').toList, v.IsData s')
    (h : ∀ u ∈ (s.items r).toList, ∀ v ∈ (s'.items r').toList,
      ReadsAlike (u.SameData s s' v) (s.spelling u) (s'.spelling v)) :
    ReadsAlike ((Value.arr r).SameData s s' (.arr r')) (s.spelling (.arr r))
      (s'.spelling (.arr r')) := by
  intro rest rest' _ _ heq
  have hword : isWordChar ']' = false := by decide
  have hhead : ']' ∈ [']', '\x7d'] := List.mem_cons_self
  rw [Store.spelling_arr hr, Store.spelling_arr hr'] at heq
  simp only [List.cons_append, List.append_assoc, List.cons.injEq, true_and,
    List.nil_append] at heq
  obtain ⟨hall, hrests⟩ := ReadsAlike.joined h hword (by decide)
    (fun u hu => (hr u hu).exists_head_ne hhead) (fun v hv => (hr' v hv).exists_head_ne hhead) heq
  obtain ⟨hlength, hzip⟩ := List.forall₂_iff_zip.1 hall
  exact ⟨.arr hlength fun _ _ => hzip, hrests⟩

/-- The text of a member starts with its key. -/
private theorem exists_head_member {entry : String × Value} (h : IsName entry.1.toList)
    {close : Char} (hclose : isWordChar close = false) :
    ∃ c tail, s.memberSpelling entry = c :: tail ∧ c ≠ close := by
  have hall := h.isWordChar
  rw [Store.memberSpelling]
  cases hkey : entry.1.toList with
  | nil =>
    rw [hkey] at h
    exact h.elim
  | cons c cs =>
    refine ⟨c, _, rfl, ?_⟩
    rintro rfl
    rw [hall c (hkey ▸ List.mem_cons_self)] at hclose
    cases hclose

/-- Objects are read alike if their values are. -/
private theorem readsAlike_obj {r r' : ObjectRef}
    (hkeys : ∀ key ∈ (s.fields r).keys, IsName key.toList)
    (hr : ∀ v ∈ (s.fields r).values, v.IsData s)
    (hkeys' : ∀ key ∈ (s'.fields r').keys, IsName key.toList)
    (hr' : ∀ v ∈ (s'.fields r').values, v.IsData s')
    (h : ∀ u ∈ (s.fields r).values, ∀ v ∈ (s'.fields r').values,
      ReadsAlike (u.SameData s s' v) (s.spelling u) (s'.spelling v)) :
    ReadsAlike ((Value.obj r).SameData s s' (.obj r')) (s.spelling (.obj r))
      (s'.spelling (.obj r')) := by
  intro rest rest' _ _ heq
  have hword : isWordChar '\x7d' = false := by decide
  have hname : ∀ entry ∈ (s.fields r).entries, IsName entry.1.toList :=
    fun entry hentry => hkeys _ (List.mem_map_of_mem hentry)
  have hname' : ∀ entry ∈ (s'.fields r').entries, IsName entry.1.toList :=
    fun entry hentry => hkeys' _ (List.mem_map_of_mem hentry)
  rw [Store.spelling_obj hkeys hr, Store.spelling_obj hkeys' hr'] at heq
  simp only [List.cons_append, List.append_assoc, List.cons.injEq, true_and,
    List.nil_append] at heq
  have hread : ∀ entry ∈ (s.fields r).entries, ∀ entry' ∈ (s'.fields r').entries,
      ReadsAlike (entry.1 = entry'.1 ∧ entry.2.SameData s s' entry'.2) (s.memberSpelling entry)
        (s'.memberSpelling entry') := fun entry hentry entry' hentry' =>
    readsAlike_member (hname entry hentry) (hname' entry' hentry')
      (h entry.2 (List.mem_map_of_mem hentry) entry'.2 (List.mem_map_of_mem hentry'))
  obtain ⟨hall, hrests⟩ := ReadsAlike.joined hread hword (by decide)
    (fun entry hentry => exists_head_member (hname entry hentry) hword)
    (fun entry hentry => exists_head_member (hname' entry hentry) hword) heq
  obtain ⟨-, hzip⟩ := List.forall₂_iff_zip.1 hall
  have hkeysEq : List.Forall₂ Eq (s.fields r).keys (s'.fields r').keys :=
    List.forall₂_map_left_iff.2 (List.forall₂_map_right_iff.2 (hall.imp fun _ _ hentry => hentry.1))
  rw [List.forall₂_eq_eq_eq] at hkeysEq
  exact ⟨.obj hkeysEq fun _ _ hentry => (hzip hentry).2, hrests⟩

/-- **The text of data can be read in one way only.** -/
theorem readsAlike (hu : u.IsData s) (hv : v.IsData s') :
    ReadsAlike (u.SameData s s' v) (s.spelling u) (s'.spelling v) := by
  have hword {u v : Value} (hu : u.IsData s) (hv : v.IsData s') (hou : u.opening = none) :
      ReadsAlike (u.SameData s s' v) (s.spelling u) (s'.spelling v) := by
    intro rest rest' hrest hrest' heq
    have hov := (hu.opening_eq hv heq).symm.trans hou
    obtain ⟨hspelling, hrests⟩ := append_inj_of_wordEnds (hu.isWordChar_of_mem hou)
      (hv.isWordChar_of_mem hov) hrest hrest' heq
    exact ⟨sameData_of_word hu hv hou hov hspelling, hrests⟩
  -- the first character tells which kind the other value is of
  induction hu generalizing v with
  | num x => exact hword (.num x) hv rfl
  | bool b => exact hword (.bool b) hv rfl
  | null => exact hword .null hv rfl
  | str t =>
    intro rest rest' hrest hrest' heq
    have hopening := opening_eq (.str t) hv heq
    cases hv with
    | str t' =>
      rw [Store.spelling_str, Store.spelling_str] at heq
      obtain ⟨htext, hrests⟩ := ReadsAlike.encode _ _ rest rest' hrest hrest' heq
      obtain rfl := String.toList_inj.1 htext
      exact ⟨.str t, hrests⟩
    | _ => cases hopening
  | arr hr ih =>
    intro rest rest' hrest hrest' heq
    have hopening := opening_eq (.arr hr) hv heq
    cases hv with
    | arr hr' =>
      exact readsAlike_arr hr hr' (fun u hu v hv => ih u hu (hr' v hv)) rest rest' hrest hrest' heq
    | _ => cases hopening
  | obj hkeys hr ih =>
    intro rest rest' hrest hrest' heq
    have hopening := opening_eq (.obj hkeys hr) hv heq
    cases hv with
    | obj hkeys' hr' =>
      exact readsAlike_obj hkeys hr hkeys' hr' (fun u hu v hv => ih u hu (hr' v hv)) rest rest'
        hrest hrest' heq
    | _ => cases hopening

end Value.IsData

private theorem map_eq_map_iff_zip {α β γ : Type} {f : α → γ} {g : β → γ} {xs : List α}
    {ys : List β} :
    xs.map f = ys.map g ↔
      xs.length = ys.length ∧ ∀ a b, (a, b) ∈ xs.zip ys → f a = g b := by
  rw [← List.forall₂_eq_eq_eq, List.forall₂_map_left_iff, List.forall₂_map_right_iff,
    List.forall₂_iff_zip]

/-- Data of the same structure have the same text. -/
private theorem Value.SameData.spelling_eq {s s' : Store} {u v : Value} (h : u.SameData s s' v)
    (hu : u.IsData s) (hv : v.IsData s') : s.spelling u = s'.spelling v := by
  induction h with
  | num hxy => rw [Store.spelling_num, Store.spelling_num, hxy]
  | str t => rw [Store.spelling_str, Store.spelling_str]
  | bool b => rw [Store.spelling_bool, Store.spelling_bool]
  | null => rfl
  | arr hlength _ ih =>
    cases hu with
    | arr hr =>
      cases hv with
      | arr hr' =>
        have hitems := map_eq_map_iff_zip.2 ⟨hlength, fun a b hmem =>
          ih a b hmem (hr a (List.of_mem_zip hmem).1) (hr' b (List.of_mem_zip hmem).2)⟩
        rw [Store.spelling_arr hr, Store.spelling_arr hr', hitems]
  | obj hkeysEq _ ih =>
    obtain ⟨hlength, hkey⟩ := map_eq_map_iff_zip.1 hkeysEq
    cases hu with
    | obj hkeys hr =>
      cases hv with
      | obj hkeys' hr' =>
        have hmembers := map_eq_map_iff_zip.2 ⟨hlength, fun a b hmem => by
          have hvalue := ih a b hmem (hr _ (List.mem_map_of_mem (List.of_mem_zip hmem).1))
            (hr' _ (List.mem_map_of_mem (List.of_mem_zip hmem).2))
          show s.memberSpelling a = s'.memberSpelling b
          rw [Store.memberSpelling, Store.memberSpelling, hkey a b hmem, hvalue]⟩
        rw [Store.spelling_obj hkeys hr, Store.spelling_obj hkeys' hr', hmembers]

/-- **The text of data is unambiguous.** Data have the same text inside of a container exactly if
they have the same structure, whatever texts they are made of. -/
theorem nestedText_eq_iff {s s' : Store} {u v : Value} (hu : u.IsData s) (hv : v.IsData s') :
    (s.view u).nestedText = (s'.view v).nestedText ↔ u.SameData s s' v := by
  constructor
  · intro h
    have hspelling : s.spelling u ++ [] = s'.spelling v ++ [] := by
      rw [Store.spelling, Store.spelling, h]
    have hnone : WordEnds [] := fun c hc => by cases hc
    exact (hu.readsAlike hv [] [] hnone hnone hspelling).1
  · intro h
    exact String.toList_inj.1 (h.spelling_eq hu hv)

/-- Two arrays with the text `["\"], [", {k: 0}]`, of which one has a negative zero. -/
theorem nestedText_eq_iff_zero :
    let fields (x : Float) : Table Value := Table.empty.insert "k" (.num x)
    let s (x : Float) : Store := { Store.empty with
      arrays := #[#[.str "\"], [", .obj ⟨0⟩]]
      objects := #[fields x] }
    let u : Value := .arr ⟨0⟩
    (u.IsData (s 0) ∧ u.IsData (s (-0))) ∧
      ((s 0).view u).nestedText = ((s (-0)).view u).nestedText ∧ u.SameData (s 0) (s (-0)) u := by
  intro fields s u
  have hkey : IsName "k".toList := by decide
  have hu (x : Float) : u.IsData (s x) := by
    refine .arr (List.forall_mem_cons.2 ⟨.str _, List.forall_mem_singleton.2 (.obj ?_ ?_)⟩)
    · exact List.forall_mem_singleton.2 hkey
    · exact List.forall_mem_singleton.2 (.num x)
  have htext : ((s 0).view u).nestedText = ((s (-0)).view u).nestedText := by
    decide +kernel
  exact ⟨⟨hu 0, hu (-0)⟩, htext, (nestedText_eq_iff (hu 0) (hu (-0))).1 htext⟩

end Sigil
