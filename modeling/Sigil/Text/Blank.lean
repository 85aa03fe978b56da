/-!
# White space

Three classes of white space matter. `isLayout` is the white space that separates tokens of a
program. `isBlank` is the wider class of all white space characters, which the look-ahead of an
object key admits. `isPadding` is what may stand around a numeric text: white space without the
separators.
-/

namespace Sigil.Text

/-- White space between the tokens of a program: space, tab, line feed, form feed and carriage
return. -/
def isLayout (c : Char) : Bool :=
  c == ' ' || c == '\t' || c == '\n' || c == '\x0c' || c == '\r'

/-- The white space characters beyond ASCII, as closed ranges of code points. -/
def wideBlanks : List (Nat × Nat) :=
  [(0x85, 0x85), (0xa0, 0xa0), (0x1680, 0x1680), (0x2000, 0x200a), (0x2028, 0x2029),
    (0x202f, 0x202f), (0x205f, 0x205f), (0x3000, 0x3000)]

/-- Every white space character, with the separators `U+001C` to `U+001F` among them. -/
def isBlank (c : Char) : Bool :=
  let n := c.toNat
  (9 ≤ n && n ≤ 13) || (28 ≤ n && n ≤ 32) || wideBlanks.any fun (a, b) => a ≤ n && n ≤ b

/-- The white space around a numeric text, without the separators `U+001C` to `U+001F`. -/
def isPadding (c : Char) : Bool :=
  isBlank c && !(28 ≤ c.toNat && c.toNat ≤ 31)

/-- Layout is white space. -/
theorem isBlank_of_isLayout {c : Char} (h : isLayout c = true) : isBlank c = true := by
  simp only [isLayout, Bool.or_eq_true, beq_iff_eq] at h
  rcases h with (((rfl | rfl) | rfl) | rfl) | rfl <;> rfl

end Sigil.Text
