import Sigil.Text.Blank

/-!
# Places in a text

A `Cursor` is a text cut in two at a place: the characters before it, nearest first, and the
characters after it. Nothing is lost by moving it, the character just before the place is at hand,
and line and column can be told from it.
-/

namespace Sigil

/-- A text with a place in it. -/
structure Cursor where
  /-- The characters before the place, the nearest first. -/
  before : List Char
  /-- The characters after the place. -/
  after : List Char
  deriving Repr

namespace Cursor

/-- The place before the first character. -/
def start (text : List Char) : Cursor :=
  ⟨[], text⟩

/-- The place `n` characters further on, or the end. -/
def advance : Nat → Cursor → Cursor
  | 0, c => c
  | _ + 1, ⟨before, []⟩ => ⟨before, []⟩
  | n + 1, ⟨before, x :: after⟩ => advance n ⟨x :: before, after⟩

/-- The line of the place, counted from one. Only a line feed starts a line. -/
def line (c : Cursor) : Nat :=
  c.before.count '\n' + 1

/-- The column of the place in its line, counted from one in characters. -/
def column (c : Cursor) : Nat :=
  (c.before.takeWhile (· != '\n')).length + 1

@[simp]
theorem after_advance (n : Nat) (c : Cursor) : (advance n c).after = c.after.drop n := by
  induction n generalizing c with
  | zero => rfl
  | succ n ih =>
    obtain ⟨before, after⟩ := c
    cases after with
    | nil => rfl
    | cons x after => simp [advance, ih]

@[simp]
theorem before_advance (n : Nat) (c : Cursor) :
    (advance n c).before = (c.after.take n).reverse ++ c.before := by
  induction n generalizing c with
  | zero => rfl
  | succ n ih =>
    obtain ⟨before, after⟩ := c
    cases after with
    | nil => rfl
    | cons x after => simp [advance, ih]

/-! ### Layout: white space and comments -/

/-- The characters up to and including the end `*/` of a block comment. -/
def blockEnd? : List Char → Option Nat
  | '*' :: '/' :: _ => some 2
  | _ :: rest => (blockEnd? rest).map (· + 1)
  | [] => none

/-- The number of characters after the first of a piece of layout: a white space character, a line
comment up to the end of its line, or a block comment up to its end. -/
def layoutTail? (first : Char) (rest : List Char) : Option Nat :=
  if Text.isLayout first then some 0
  else if first = '/' then
    match rest with
    | '/' :: more => some ((more.takeWhile (· != '\n')).length + 1)
    | '*' :: more => (blockEnd? more).map (· + 1)
    | _ => none
  else none

/-- The place after all layout that follows. -/
def skipLayout (c : Cursor) : Cursor :=
  match _h : c.after with
  | [] => c
  | first :: rest =>
    match layoutTail? first rest with
    | some n => skipLayout (c.advance (n + 1))
    | none => c
termination_by c.after.length
decreasing_by
  simp only [after_advance, _h, List.drop_succ_cons, List.length_drop, List.length_cons]
  omega

/-- Skipping layout does not add characters. -/
theorem length_skipLayout_le (c : Cursor) : c.skipLayout.after.length ≤ c.after.length := by
  fun_induction skipLayout c with
  | case1 => exact Nat.le_refl _
  | case2 c first rest h n hn ih =>
    refine Nat.le_trans ih ?_
    simp only [after_advance, List.length_drop]
    omega
  | case3 => exact Nat.le_refl _

end Cursor

end Sigil
