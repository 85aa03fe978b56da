import Sigil.Proofs.Grammar.Token
import Sigil.Proofs.Walk

/-!
# Gaps between tokens

A gap is a piece of layout. It starts with white space or with the slash of a comment, and no token
goes on over such a character: what is found at the start of a text depends only on what stands
before the first gap in it (`nameTail?_append_gap`, `numberTail?_append_gap`,
`isPrefixOf_sign_append_gap`). The one class that looks beyond a gap is that of object keys, and
`objectKeyTail?_append_gap` says when: if a name, a colon and a name stand before it.

The main statement on skipping is `Cursor.skipLayout_eq`: exactly the layout in front of a place is
skipped.
-/

namespace Sigil

open Lexeme

/-! ### Characters that start a gap -/

/-- The characters that layout starts with: white space and the slash of a comment. -/
def gapStarts : List Char :=
  [' ', '\t', '\n', '\x0c', '\r', '/']

/-- What follows is nothing, or it starts with a character that layout may start with. -/
def StartsGap (rest : List Char) : Prop :=
  ∀ c ∈ rest.head?, c ∈ gapStarts

theorem mem_gapStarts_of_isLayout {c : Char} (h : Text.isLayout c = true) : c ∈ gapStarts := by
  simp only [Text.isLayout, Bool.or_eq_true, beq_iff_eq] at h
  rcases h with (((rfl | rfl) | rfl) | rfl) | rfl <;> decide

theorem StartsGap.nil : StartsGap [] :=
  nofun

/-- Layout that is not empty starts a gap. -/
theorem Layout.startsGap {gap rest : List Char} (h : Layout gap rest) (hne : gap ≠ []) :
    StartsGap (gap ++ rest) := by
  intro c hc
  cases h with
  | nil => exact absurd rfl hne
  | blank hblank =>
    cases hc
    exact mem_gapStarts_of_isLayout hblank
  | lineComment =>
    cases hc
    decide
  | blockComment =>
    cases hc
    decide

/-! ### What is found before a gap -/

section BeforeGap

variable {u rest : List Char}

private theorem StartsGap.ne_cons (h : StartsGap rest) {c : Char} (hc : c ∉ gapStarts)
    (more : List Char) :
    rest ≠ c :: more := by
  rintro rfl
  exact hc (h c rfl)

private theorem StartsGap.head_eq_false (h : StartsGap rest) {p : Char → Bool}
    (hp : ∀ c ∈ gapStarts, p c = false) : ∀ c ∈ rest.head?, p c = false :=
  fun c hc => hp c (h c hc)

private theorem takeWhile_append_gap {p : Char → Bool} (hp : ∀ c ∈ gapStarts, p c = false)
    (h : StartsGap rest) (u : List Char) : (u ++ rest).takeWhile p = u.takeWhile p := by
  induction u with
  | nil =>
    rw [List.takeWhile_nil, List.nil_append]
    cases rest with
    | nil => rfl
    | cons c rest => rw [List.takeWhile_cons_of_neg (by simp [h.head_eq_false hp c rfl])]
  | cons c u ih =>
    rw [List.cons_append, List.takeWhile_cons, List.takeWhile_cons, ih]

theorem nameTail?_append_gap (h : StartsGap rest) (u : List Char) :
    nameTail? (u ++ rest) = nameTail? u := by
  cases u with
  | nil =>
    cases rest with
    | nil => rfl
    | cons c rest =>
      have hc : isNameStart c = false := h.head_eq_false (by decide) c rfl
      simp [nameTail?, hc]
  | cons c u =>
    rw [List.cons_append, nameTail?, nameTail?, takeWhile_append_gap (by decide) h]

/-- A name lies within its text. -/
private theorem length_of_nameTail? {cs : List Char} {n : Nat} (h : nameTail? cs = some n) :
    n + 1 ≤ cs.length := by
  obtain ⟨text, after, rfl, hlen, -, -⟩ := nameTail?_eq_some_iff.1 h
  rw [List.length_append]
  omega

theorem spaceRefTail?_append_gap (h : StartsGap rest) (u : List Char) :
    spaceRefTail? (u ++ rest) = spaceRefTail? u := by
  simp only [spaceRefTail?, nameTail?_append_gap h]
  cases hn : nameTail? u with
  | none => rfl
  | some n =>
    simp only [Option.bind_eq_bind, Option.bind_some]
    rw [List.drop_append_of_le_length (length_of_nameTail? hn)]
    cases hdrop : u.drop (n + 1) with
    | nil =>
      have hcolon := h.ne_cons (c := ':') (by decide)
      simp
    | cons c v =>
      by_cases hc : c = ':'
      · subst hc
        simp [nameTail?_append_gap h]
      · simp [hc]

theorem numberTail?_append_gap (h : StartsGap rest) (u : List Char) :
    numberTail? (u ++ rest) = numberTail? u := by
  cases u with
  | nil =>
    cases rest with
    | nil => rfl
    | cons c rest =>
      have hc : c.isDigit = false := h.head_eq_false (by decide) c rfl
      simp [numberTail?, hc]
  | cons c u =>
    have hwhole := takeWhile_append_gap (p := Char.isDigit) (by decide) h
    rw [List.cons_append, numberTail?, numberTail?]
    simp only [hwhole]
    rw [List.drop_append_of_le_length (List.takeWhile_prefix _).length_le]
    cases hdrop : u.drop (u.takeWhile Char.isDigit).length with
    | nil =>
      have hdot := h.ne_cons (c := '.') (by decide)
      simp
    | cons d v =>
      by_cases hd : d = '.'
      · subst hd
        simp [hwhole]
      · simp [hd]

private theorem isPrefixOf_append_gap {xs : List Char} (hxs : ∀ x ∈ xs, x ∉ gapStarts)
    (h : StartsGap rest) (u : List Char) : xs.isPrefixOf (u ++ rest) = xs.isPrefixOf u := by
  induction xs generalizing u with
  | nil => simp
  | cons x xs ih =>
    cases u with
    | nil =>
      cases rest with
      | nil => rfl
      | cons c rest =>
        have hne : x ≠ c := by
          rintro rfl
          exact hxs x List.mem_cons_self (h x rfl)
        simp [List.isPrefixOf, hne]
    | cons c u =>
      simp [List.isPrefixOf, ih fun y hy => hxs y (List.mem_cons_of_mem x hy)]

/-- No sign goes on over a gap after its first character. -/
theorem isPrefixOf_sign_append_gap (t : Terminal) (h : StartsGap rest) (c : Char) (u : List Char) :
    t.sign.isPrefixOf (c :: u ++ rest) = t.sign.isPrefixOf (c :: u) := by
  have hsigns : ∀ x ∈ t.sign.tail, x ∉ gapStarts := by cases t <;> decide
  cases hsign : t.sign with
  | nil => simp
  | cons x xs =>
    rw [hsign, List.tail_cons] at hsigns
    simp [List.isPrefixOf, isPrefixOf_append_gap hsigns h]

end BeforeGap

/-! ### Object keys -/

section Keys

variable {u rest rest' : List Char}

private theorem afterName?_append_gap (h : StartsGap rest) (u : List Char) :
    afterName? (u ++ rest) = (afterName? u).map (· ++ rest) := by
  simp only [afterName?, nameTail?_append_gap h, Option.map_map]
  cases hn : nameTail? u with
  | none => rfl
  | some n =>
    have hle := length_of_nameTail? hn
    simp [List.drop_append_of_le_length hle]

/-- Blanks in front do not matter for the end of a member, as soon as there is one. -/
theorem endsBareMember_append {blanks : List Char} (hne : blanks ≠ [])
    (hblanks : ∀ c ∈ blanks, Text.isBlank c = true) (rest : List Char) :
    endsBareMember (blanks ++ rest) = endsBareMember (' ' :: rest) := by
  have hdrop : (blanks ++ rest).dropWhile Text.isBlank = rest.dropWhile Text.isBlank := by
    rw [List.dropWhile_append_of_pos hblanks]
  have hhead : (blanks ++ rest).head?.any Text.isBlank = true := by
    cases blanks with
    | nil => exact absurd rfl hne
    | cons c blanks => simpa using hblanks c List.mem_cons_self
  have hdrop' : (' ' :: rest).dropWhile Text.isBlank = rest.dropWhile Text.isBlank := by
    rw [List.dropWhile_cons_of_pos (by decide)]
  have hhead' : (' ' :: rest).head?.any Text.isBlank = true := rfl
  rw [endsBareMember, endsBareMember, hdrop, hdrop', hhead, hhead']

/-- Beyond a character that is no blank the end of a member is found before the next gap. -/
theorem endsBareMember_append_gap (h : StartsGap rest) {w : List Char} {d : Char}
    {v : List Char} (hw : w.dropWhile Text.isBlank = d :: v) :
    endsBareMember (w ++ rest) = endsBareMember w := by
  have hdrop : (w ++ rest).dropWhile Text.isBlank = d :: v ++ rest := by
    rw [List.dropWhile_append, hw]
    rfl
  have hhead : (w ++ rest).head? = w.head? := by
    cases w with
    | nil => cases hw
    | cons c w => rfl
  have hname := afterName?_append_gap h (d :: v)
  have hcolon := h.ne_cons (c := ':') (by decide)
  rw [endsBareMember, endsBareMember, hdrop, hw, hhead]
  by_cases hd : d = ',' ∨ d = ';' ∨ d = '\x7d'
  · rcases hd with rfl | rfl | rfl <;> rfl
  · simp only [not_or] at hd
    simp only [List.cons_append] at hname ⊢
    simp only [List.cons.injEq, hd, false_and, imp_self, implies_true, hname]
    cases afterName? (d :: v) with
    | none => rfl
    | some x =>
      match x with
      | [] =>
        cases rest with
        | nil => rfl
        | cons c rest =>
          have hc : c ≠ ':' := fun hc => hcolon rest (by rw [hc])
          simp [hc]
      | [c] => by_cases hc : c = ':' <;> simp [hc]
      | c :: e :: x => by_cases hc : c = ':' <;> by_cases he : e = ':' <;> simp [hc, he]

/-- A slash ends no member, and no white space before it makes it do so. -/
theorem endsBareMember_slash {blanks : List Char} (hblanks : ∀ c ∈ blanks, Text.isBlank c = true)
    (rest : List Char) : endsBareMember (blanks ++ '/' :: rest) = false := by
  have hdrop : (blanks ++ '/' :: rest).dropWhile Text.isBlank = '/' :: rest := by
    rw [List.dropWhile_append_of_pos hblanks, List.dropWhile_cons_of_neg (by decide)]
  have hname : afterName? ('/' :: rest) = none := rfl
  rw [endsBareMember, hdrop]
  simp [hname]

/-- **Object keys before a gap.** Whether a text starts with an object key depends on a gap in it
only if a name, a colon, a name and blanks stand before the gap. -/
theorem objectKeyTail?_append_gap (h : StartsGap rest) (h' : StartsGap rest')
    (hkey : ∀ key value blanks, u = key ++ ':' :: (value ++ blanks) → IsName key → IsName value →
      (∀ c ∈ blanks, Text.isBlank c = true) →
        endsBareMember (blanks ++ rest) = endsBareMember (blanks ++ rest')) :
    objectKeyTail? (u ++ rest) = objectKeyTail? (u ++ rest') := by
  simp only [objectKeyTail?, nameTail?_append_gap h, nameTail?_append_gap h']
  cases hn : nameTail? u with
  | none => rfl
  | some n =>
    obtain ⟨key, after, rfl, hlen, hname, -⟩ := nameTail?_eq_some_iff.1 hn
    simp only [Option.bind_eq_bind, Option.bind_some, List.append_assoc, ← hlen, List.drop_left]
    cases after with
    | nil =>
      have hcolon := h.ne_cons (c := ':') (by decide)
      have hcolon' := h'.ne_cons (c := ':') (by decide)
      simp
    | cons c v =>
      by_cases hc : c = ':'
      · subst hc
        simp only [List.cons_append, afterName?_append_gap h, afterName?_append_gap h']
        cases hv : afterName? v with
        | none => rfl
        | some w =>
          obtain ⟨value, rfl, hvalue, -⟩ := afterName?_eq_some_iff.1 hv
          have hends : endsBareMember (w ++ rest) = endsBareMember (w ++ rest') := by
            cases hw : w.dropWhile Text.isBlank with
            | nil =>
              have hblanks : ∀ c ∈ w, Text.isBlank c = true := by
                simpa [List.dropWhile_eq_nil_iff] using hw
              exact hkey key value w rfl hname hvalue hblanks
            | cons d v => rw [endsBareMember_append_gap h hw, endsBareMember_append_gap h' hw]
          simp [hends]
      · simp [hc]

end Keys

/-! ### Skipping -/

/-- What follows a line comment: nothing, or a line feed. -/
def LineEnds (rest : List Char) : Prop :=
  ∀ c ∈ rest.head?, c = '\n'

namespace Layout

variable {gap gap' rest rest' : List Char}

/-- Layout after layout. -/
theorem append (h : Layout gap (gap' ++ rest)) (h' : Layout gap' rest) :
    Layout (gap ++ gap') rest := by
  generalize hafter : gap' ++ rest = after at h
  induction h with
  | nil => exact h'
  | blank hblank _ ih => exact .blank hblank (ih hafter)
  | @lineComment body gap after hbody hends _ ih =>
    subst hafter
    rw [List.cons_append, List.cons_append, List.append_assoc]
    exact .lineComment hbody (by simpa using hends) (ih rfl)
  | @blockComment body gap after hbody _ ih =>
    rw [List.cons_append, List.cons_append, List.append_assoc]
    exact .blockComment hbody (ih hafter)

/-- Layout depends on what follows it only through the end of a line comment. -/
theorem congr (h : Layout gap rest) (hends : LineEnds rest → LineEnds rest') :
    Layout gap rest' := by
  induction h with
  | nil => exact .nil
  | blank hblank _ ih => exact .blank hblank (ih hends)
  | @lineComment body gap rest hbody hline _ ih =>
    refine .lineComment hbody ?_ (ih hends)
    cases gap with
    | nil => exact hends hline
    | cons c gap => exact hline
  | blockComment hbody _ ih => exact .blockComment hbody (ih hends)

/-- Layout in front of something that is no layout ends with white space or with a slash. -/
theorem exists_last (h : Layout gap rest) (hne : gap ≠ []) (hends : ¬ LineEnds rest) :
    ∃ front c, gap = front ++ [c] ∧ c ∈ gapStarts := by
  induction h with
  | nil => exact absurd rfl hne
  | @blank c gap rest hblank _ ih =>
    by_cases hgap : gap = []
    · exact ⟨[], c, by simp [hgap], mem_gapStarts_of_isLayout hblank⟩
    · obtain ⟨front, d, rfl, hd⟩ := ih hgap hends
      exact ⟨c :: front, d, rfl, hd⟩
  | @lineComment body gap rest hbody hline _ ih =>
    by_cases hgap : gap = []
    · subst hgap
      exact absurd hline hends
    · obtain ⟨front, d, rfl, hd⟩ := ih hgap hends
      exact ⟨'/' :: '/' :: (body ++ front), d, by simp, hd⟩
  | @blockComment body gap rest hbody _ ih =>
    by_cases hgap : gap = []
    · exact ⟨'/' :: '*' :: (body ++ ['*']), '/', by simp [hgap], by decide⟩
    · obtain ⟨front, d, rfl, hd⟩ := ih hgap hends
      exact ⟨'/' :: '*' :: (body ++ '*' :: '/' :: front), d, by simp, hd⟩

end Layout

/-- A comment before the characters that follow it. A line comment goes on to the end of its line
and a block comment to the first `*/`. -/
inductive Comment : List Char → List Char → Prop
  | line {body rest : List Char} :
      '\n' ∉ body → LineEnds rest → Comment ('/' :: '/' :: body) rest
  | block {body rest : List Char} :
      ¬ ['*', '/'] <:+: body ++ ['*'] → Comment ('/' :: '*' :: (body ++ ['*', '/'])) rest

theorem Comment.layout {comment rest : List Char} (h : Comment comment rest) :
    Layout comment rest := by
  cases h with
  | @line body _ hbody hends =>
    have hlayout : Layout ('/' :: '/' :: (body ++ [])) rest := .lineComment hbody hends .nil
    simpa using hlayout
  | block hbody => exact .blockComment hbody .nil

theorem Comment.eq_cons {comment rest : List Char} (h : Comment comment rest) :
    ∃ more, comment = '/' :: more := by
  cases h <;> exact ⟨_, rfl⟩

theorem Comment.ne_nil {comment rest : List Char} (h : Comment comment rest) : comment ≠ [] := by
  cases h <;> simp

/-- No layout starts here. -/
def Settled (rest : List Char) : Prop :=
  ∀ first more, rest = first :: more → Cursor.layoutTail? first more = none

/-- A block comment that ends nowhere earlier ends at its `*/`. -/
private theorem blockEnd?_append {body : List Char} (h : ¬ ['*', '/'] <:+: body ++ ['*'])
    (rest : List Char) :
    Cursor.blockEnd? (body ++ '*' :: '/' :: rest) = some (body.length + 2) := by
  induction body with
  | nil => rfl
  | cons c body ih =>
    rw [List.cons_append, List.infix_cons_iff, not_or] at h
    have hnot : ∀ more, ¬ (c = '*' ∧ body ++ '*' :: '/' :: rest = '/' :: more) := by
      rintro more ⟨rfl, hmore⟩
      cases body with
      | nil => simp at hmore
      | cons d body =>
        simp only [List.cons_append, List.cons.injEq] at hmore
        exact h.1 ⟨body ++ ['*'], by simp [hmore.1]⟩
    rw [List.cons_append]
    unfold Cursor.blockEnd?
    split
    · rename_i heq
      simp only [List.cons.injEq] at heq
      exact absurd heq (hnot _)
    · rename_i heq
      simp only [List.cons.injEq] at heq
      obtain ⟨rfl, rfl⟩ := heq
      rw [ih h.2]
      simp
    · rename_i heq
      cases heq

namespace Cursor

variable {gap rest : List Char}

/-- A line comment is found up to the end of its line. -/
theorem layoutTail?_lineComment {body : List Char} (hbody : '\n' ∉ body) (hends : LineEnds rest) :
    layoutTail? '/' ('/' :: (body ++ rest)) = some (body.length + 1) := by
  have hline : (body ++ rest).takeWhile (· != '\n') = body :=
    takeWhile_append_of_ends (fun c hc => by simpa using ne_of_mem_of_not_mem hc hbody)
      (fun c hc => by simp [hends c hc])
  simp [layoutTail?, Text.isLayout, hline]

/-- A block comment is found up to the first `*/`. -/
theorem layoutTail?_blockComment {body : List Char} (hbody : ¬ ['*', '/'] <:+: body ++ ['*'])
    (rest : List Char) :
    layoutTail? '/' ('*' :: (body ++ '*' :: '/' :: rest)) = some (body.length + 3) := by
  simp [layoutTail?, Text.isLayout, blockEnd?_append hbody]

/-- **The layout in front of a place is skipped.** -/
theorem skipLayout_append (h : Layout gap rest) (before : List Char) :
    skipLayout ⟨before, gap ++ rest⟩ = skipLayout ⟨gap.reverse ++ before, rest⟩ := by
  induction h generalizing before with
  | nil => rfl
  | @blank c gap rest hblank _ ih =>
    have htail : layoutTail? c (gap ++ rest) = some 0 := by simp [layoutTail?, hblank]
    rw [List.cons_append, skipLayout_of_some htail, List.reverse_cons, List.append_assoc]
    exact ih (c :: before)
  | @lineComment body gap rest hbody hends _ ih =>
    have htail := layoutTail?_lineComment hbody hends
    have hadvance := advance_append before ('/' :: '/' :: body) (gap ++ rest)
    simp only [List.length_cons, List.cons_append] at hadvance
    simp only [List.cons_append, List.append_assoc]
    rw [skipLayout_of_some htail, hadvance, ih]
    simp
  | @blockComment body gap rest hbody _ ih =>
    have htail := layoutTail?_blockComment hbody (gap ++ rest)
    have hadvance := advance_append before ('/' :: '*' :: (body ++ ['*', '/'])) (gap ++ rest)
    simp only [List.length_cons, List.cons_append, List.length_append, List.append_assoc,
      List.nil_append, List.length_nil] at hadvance
    simp only [List.cons_append, List.append_assoc]
    rw [skipLayout_of_some htail, hadvance, ih]
    simp

private theorem skipLayout_of_settled (h : Settled rest) (before : List Char) :
    skipLayout ⟨before, rest⟩ = ⟨before, rest⟩ := by
  cases rest with
  | nil => exact skipLayout_nil before
  | cons first rest => exact skipLayout_of_none (h first rest rfl)

/-- After skipping no layout follows. -/
theorem settled_skipLayout (c : Cursor) : Settled c.skipLayout.after := by
  fun_induction skipLayout c with
  | case1 c h =>
    rw [h]
    intro first rest heq
    cases heq
  | case2 c first rest h n hn ih => exact ih
  | case3 c first rest h hnone =>
    rw [h]
    intro first' rest' heq
    cases heq
    exact hnone

/-- The place after the layout in front of a text. -/
theorem skipLayout_eq (h : Layout gap rest) (hrest : Settled rest) (before : List Char) :
    skipLayout ⟨before, gap ++ rest⟩ = ⟨gap.reverse ++ before, rest⟩ := by
  rw [skipLayout_append h, skipLayout_of_settled hrest]

end Cursor

/-! ### The cut that the reader makes -/

/-- A text is cut into tokens **at settled places**: all layout before a token is skipped, so that
no comment starts where a token does. -/
inductive SettledCut : List Char → List Char → List Lexeme → Prop
  | nil {before gap : List Char} : Layout gap [] → SettledCut before gap []
  | cons {before gap after : List Char} {l : Lexeme} {tokens : List Lexeme} :
      Layout gap (l.text ++ after) → Settled (l.text ++ after) →
        l.terminal.Matches (gap.reverse ++ before) l.text after →
          SettledCut (l.text.reverse ++ (gap.reverse ++ before)) after tokens →
            SettledCut before (gap ++ (l.text ++ after)) (l :: tokens)

namespace SettledCut

variable {before text : List Char} {tokens : List Lexeme} {c : Cursor}

theorem cut (h : SettledCut before text tokens) : Cut before text tokens := by
  induction h with
  | nil hlayout => exact .nil hlayout
  | cons hlayout _ hmatches _ ih => exact .cons hlayout hmatches ih

/-- Where only layout follows there are no more tokens. -/
theorem of_end (hend : c.skipLayout.after = []) : SettledCut c.before c.after [] := by
  obtain ⟨gap, hafter, -, hlayout⟩ := c.layout_skipLayout
  rw [hend] at hafter hlayout
  rw [hafter, List.append_nil]
  exact .nil hlayout

/-- The token after the layout comes first. -/
theorem of_lexeme? {expect : Expect} {l : Lexeme} (hl : c.skipLayout.lexeme? expect = some l)
    (h : SettledCut (c.skipLayout.advance l.text.length).before
      (c.skipLayout.advance l.text.length).after tokens) :
    SettledCut c.before c.after (l :: tokens) := by
  obtain ⟨gap, hafter, hbefore, hlayout⟩ := c.layout_skipLayout
  obtain ⟨after, hplace, hmatches⟩ := Cursor.matches_of_lexeme? hl
  have hsettled := c.settled_skipLayout
  rw [hplace] at hafter hlayout hsettled
  simp only [Cursor.before_advance, Cursor.after_advance, hplace, List.take_left,
    List.drop_left, hbefore] at h
  rw [hbefore] at hmatches
  rw [hafter]
  exact .cons hlayout hsettled hmatches h

end SettledCut

/-! ### Passing over layout -/

/-- The reader passes over layout before a text. -/
theorem Passes.layout {readExpr : ExprReader} {r r' : Reading} {before gap text after : List Char}
    (hgap : Layout gap (text ++ after))
    (h : Passes readExpr r (gap.reverse ++ before) text after r') :
    Passes readExpr r before (gap ++ text) after r' := by
  intro last
  obtain ⟨last', hlast'⟩ := h last
  refine ⟨last', ?_⟩
  rw [List.append_assoc, Reading.read_congr (Cursor.skipLayout_append hgap before), hlast',
    List.reverse_append, List.append_assoc]

/-- The reader passes over a token that is found at a place where no layout starts. -/
theorem Passes.found {readExpr : ExprReader} {r r' : Reading} {before after more : List Char}
    {first : Char} {t : Terminal} {leaf : Node}
    (hplace : Cursor.layoutTail? first (more ++ after) = none)
    (hfound : Cursor.lexeme? ⟨before, first :: more ++ after⟩ r.point.expect =
      some ⟨t, first :: more⟩)
    (hleaf : leafNode readExpr ⟨t, first :: more⟩ = .ok leaf)
    (hstep : r.step ⟨t, String.ofList (first :: more), leaf⟩ = some r') :
    Passes readExpr r before (first :: more) after r' :=
  .token (l := ⟨t, first :: more⟩)
    ⟨Cursor.skipLayout_of_none hplace, List.cons_ne_nil _ _, hfound, hleaf⟩ hstep

end Sigil
