import Sigil.Syntax.Parse

/-!
# Runs of the reader

Single steps of `Reading.read` at a known token, and walks: `Walks readExpr r text r'` says that the
reader goes from state `r` to state `r'` over a text that blanks separate from what is before and
after it. Walks compose, so what a text is read as follows from what its words are read as. Where
no blanks separate the tokens, `Passes` says the same of a text between given characters.
-/

namespace Sigil

/-! ### Skipping layout -/

namespace Cursor

variable {before rest : List Char} {first : Char}

@[simp]
theorem skipLayout_nil (before : List Char) : skipLayout ⟨before, []⟩ = ⟨before, []⟩ := by
  rw [skipLayout]

theorem skipLayout_of_none (h : layoutTail? first rest = none) :
    skipLayout ⟨before, first :: rest⟩ = ⟨before, first :: rest⟩ := by
  rw [skipLayout]
  simp [h]

theorem skipLayout_of_some {n : Nat} (h : layoutTail? first rest = some n) :
    skipLayout ⟨before, first :: rest⟩ = skipLayout (advance (n + 1) ⟨before, first :: rest⟩) := by
  rw [skipLayout]
  simp [h]

/-- The place after a text. -/
theorem advance_append (before text rest : List Char) :
    advance text.length ⟨before, text ++ rest⟩ = ⟨text.reverse ++ before, rest⟩ := by
  have hbefore := before_advance text.length ⟨before, text ++ rest⟩
  have hafter := after_advance text.length ⟨before, text ++ rest⟩
  cases hc : advance text.length ⟨before, text ++ rest⟩ with
  | mk b a => simp_all

/-- A blank is skipped. -/
theorem skipLayout_blank (before rest : List Char) :
    skipLayout ⟨before, ' ' :: rest⟩ = skipLayout ⟨' ' :: before, rest⟩ :=
  skipLayout_of_some (n := 0) rfl

end Cursor

/-! ### Single steps -/

namespace Reading

variable {readExpr : ExprReader} {r r' : Reading} {c last : Cursor} {fault : Option SyntaxError}

/-- Reading depends on the place after the layout only. -/
theorem read_congr {d : Cursor} (h : c.skipLayout = d.skipLayout) :
    r.read readExpr c last fault = r.read readExpr d last fault := by
  rw [Reading.read, Reading.read]
  generalize c.skipLayout = place at h
  subst h
  rfl

/-- At the end of the text. -/
theorem read_of_end (h : c.skipLayout.after = []) :
    r.read readExpr c last fault = r.finish last fault := by
  rw [Reading.read]
  simp [h]

/-- At a token. -/
theorem read_of_lexeme? {l : Lexeme} {leaf : Node} (hne : c.skipLayout.after ≠ [])
    (hl : c.skipLayout.lexeme? r.point.expect = some l) (hleaf : leafNode readExpr l = .ok leaf)
    (hstep : r.step ⟨l.terminal, String.ofList l.text, leaf⟩ = some r') :
    r.read readExpr c last fault =
      r'.read readExpr (c.skipLayout.advance l.text.length) c.skipLayout fault := by
  rw [Reading.read]
  simp only [hne, dite_false]
  split
  · rename_i hnone
    rw [hl] at hnone
    cases hnone
  · rename_i l' hl'
    rw [hl] at hl'
    cases hl'
    simp only [hleaf, Except.toOption, Option.getD_some, hstep]

/-- At a token that cannot follow. -/
theorem read_of_step_eq_none {l : Lexeme} (hne : c.skipLayout.after ≠ [])
    (hl : c.skipLayout.lexeme? r.point.expect = some l)
    (hstep : ∀ leaf, r.step ⟨l.terminal, String.ofList l.text, leaf⟩ = none) :
    r.read readExpr c last fault = .error c.skipLayout.unexpected := by
  rw [Reading.read]
  simp only [hne, dite_false]
  split
  · rfl
  · rename_i l' hl'
    rw [hl] at hl'
    cases hl'
    simp only [hstep]

/-- A text is read only if there has been no error in a template. -/
private theorem fault_eq_none {tree : Node} (h : r.read readExpr c last fault = .ok tree) :
    fault = none := by
  fun_induction Reading.read readExpr r c last fault with
  | case1 r c last fault =>
    unfold Reading.finish at h
    split at h
    · rfl
    · cases h
    · cases h
  | case2 => cases h
  | case3 => cases h
  | case4 r c last fault =>
    rename_i leaf _ _ fault' ih
    have hfault : fault' = none := ih h
    cases hleaf : leaf with
    | ok node => simpa [fault', hleaf] using hfault
    | error e => simp [fault', hleaf] at hfault

/-- If the rest of a text is read after a token, there was no error in it: an error in a template
would be the answer at the end. -/
theorem exists_leaf {leaf : Except SyntaxError Node} {tree : Node}
    (h : r.read readExpr c last
      (match leaf with
        | .ok _ => fault
        | .error e => some (fault.getD e)) = .ok tree) : ∃ node, leaf = .ok node := by
  cases leaf with
  | ok node => exact ⟨node, rfl⟩
  | error e => cases fault_eq_none h

end Reading

/-! ### Walks -/

/-- The characters before a place do not touch what follows: there are none, or a blank is the
nearest. -/
def Apart (before : List Char) : Prop :=
  ∀ c ∈ before.head?, c = ' '

/-- **The reader walks** from one state to another over a text that stands apart from what is before
it, and it stands apart from what follows. -/
def Walks (readExpr : ExprReader) (r : Reading) (text : List Char) (r' : Reading) : Prop :=
  ∀ before, Apart before → Apart (text.reverse ++ before) ∧
    ∀ rest last, ∃ last', r.read readExpr ⟨before, text ++ rest⟩ last none =
      r'.read readExpr ⟨text.reverse ++ before, rest⟩ last' none

namespace Walks

variable {readExpr : ExprReader} {r r' r'' : Reading}

theorem nil : Walks readExpr r [] r :=
  fun _ hbefore => ⟨hbefore, fun _ last => ⟨last, rfl⟩⟩

/-- Walks compose. -/
theorem trans {text text' : List Char} (h : Walks readExpr r text r')
    (h' : Walks readExpr r' text' r'') : Walks readExpr r (text ++ text') r'' := by
  intro before hbefore
  obtain ⟨hmiddle, h⟩ := h before hbefore
  obtain ⟨hend, h'⟩ := h' _ hmiddle
  refine ⟨by simpa using hend, fun rest last => ?_⟩
  obtain ⟨last', hlast'⟩ := h (text' ++ rest) last
  obtain ⟨last'', hlast''⟩ := h' rest last'
  refine ⟨last'', ?_⟩
  rw [List.append_assoc, hlast', hlast'', List.reverse_append, List.append_assoc]

end Walks

/-- A token at a place where no layout starts, with its tree. -/
structure TokenAt (readExpr : ExprReader) (expect : Expect) (before : List Char) (l : Lexeme)
    (rest : List Char) (leaf : Node) : Prop where
  /-- No layout starts here. -/
  place : Cursor.skipLayout ⟨before, l.text ++ rest⟩ = ⟨before, l.text ++ rest⟩
  /-- The token is not empty. -/
  ne_nil : l.text ≠ []
  /-- The token is the one that is found here. -/
  found : Cursor.lexeme? ⟨before, l.text ++ rest⟩ expect = some l
  /-- The tree of the token. -/
  leafNode_eq : leafNode readExpr l = .ok leaf

/-- One step at a token. -/
theorem TokenAt.read {readExpr : ExprReader} {r r' : Reading} {before rest : List Char}
    {l : Lexeme} {leaf : Node} (h : TokenAt readExpr r.point.expect before l rest leaf)
    (hstep : r.step ⟨l.terminal, String.ofList l.text, leaf⟩ = some r') (last : Cursor) :
    r.read readExpr ⟨before, l.text ++ rest⟩ last none =
      r'.read readExpr ⟨l.text.reverse ++ before, rest⟩ ⟨before, l.text ++ rest⟩ none := by
  have hne : (Cursor.skipLayout ⟨before, l.text ++ rest⟩).after ≠ [] := by
    rw [h.place]
    simp [h.ne_nil]
  rw [Reading.read_of_lexeme? hne (by rw [h.place]; exact h.found) h.leafNode_eq hstep, h.place,
    Cursor.advance_append]

/-! ### Passages -/

/-- **The reader passes** from one state to another over a text, between the characters before it,
nearest first, and those after it. -/
def Passes (readExpr : ExprReader) (r : Reading) (before text after : List Char) (r' : Reading) :
    Prop :=
  ∀ last, ∃ last', r.read readExpr ⟨before, text ++ after⟩ last none =
    r'.read readExpr ⟨text.reverse ++ before, after⟩ last' none

namespace Passes

variable {readExpr : ExprReader} {r r' r'' : Reading} {before text after : List Char}

theorem nil : Passes readExpr r before [] after r :=
  fun last => ⟨last, rfl⟩

/-- Passages compose. -/
theorem trans {text' : List Char} (h : Passes readExpr r before text (text' ++ after) r')
    (h' : Passes readExpr r' (text.reverse ++ before) text' after r'') :
    Passes readExpr r before (text ++ text') after r'' := by
  intro last
  obtain ⟨last', hlast'⟩ := h last
  obtain ⟨last'', hlast''⟩ := h' last'
  refine ⟨last'', ?_⟩
  rw [List.append_assoc, hlast', hlast'', List.reverse_append, List.append_assoc]

/-- The reader passes over a blank before a text. -/
theorem blank (h : Passes readExpr r (' ' :: before) text after r') :
    Passes readExpr r before (' ' :: text) after r' := by
  intro last
  obtain ⟨last', hlast'⟩ := h last
  refine ⟨last', ?_⟩
  rw [List.cons_append, Reading.read_congr (Cursor.skipLayout_blank _ _), hlast',
    List.reverse_cons, List.append_assoc]
  rfl

/-- A walk is a passage wherever the text stands apart. -/
theorem of_walks (h : Walks readExpr r text r') (hbefore : Apart before) :
    Passes readExpr r before text after r' :=
  (h before hbefore).2 after

/-- The reader passes over a token. -/
theorem token {l : Lexeme} {leaf : Node} (h : TokenAt readExpr r.point.expect before l after leaf)
    (hstep : r.step ⟨l.terminal, String.ofList l.text, leaf⟩ = some r') :
    Passes readExpr r before l.text after r' :=
  fun last => ⟨⟨before, l.text ++ after⟩, h.read hstep last⟩

/-- **A text that the reader passes over to its end** is read as the tree that is accepted there. -/
theorem readText {tree : Node} {p : List Pending} (h : Passes readExpr r [] text [] r')
    (hend : r'.step endToken = some ⟨.accepted tree, p⟩) : r.readText readExpr text = .ok tree := by
  obtain ⟨last, hlast⟩ := h (.start text)
  rw [List.append_nil] at hlast
  rw [Reading.readText, Cursor.start]
  refine hlast.trans ?_
  rw [Reading.read_of_end (by simp)]
  simp [Reading.finish, hend]

end Passes

/-- A walk over one word: a token that is found wherever it stands apart. -/
theorem Walks.of_tokenAt {readExpr : ExprReader} {r r' : Reading} {l : Lexeme} {leaf : Node}
    (h : ∀ before rest, Apart before →
      TokenAt readExpr r.point.expect before l (' ' :: rest) leaf)
    (hstep : r.step ⟨l.terminal, String.ofList l.text, leaf⟩ = some r') :
    Walks readExpr r (l.text ++ [' ']) r' := by
  intro before hbefore
  refine ⟨by simp [Apart], fun rest last => ⟨⟨before, l.text ++ ' ' :: rest⟩, ?_⟩⟩
  have hread := (h before rest hbefore).read hstep last
  simp only [List.append_assoc, List.reverse_append, List.reverse_cons, List.reverse_nil,
    List.nil_append, List.cons_append]
  rw [hread]
  exact Reading.read_congr (Cursor.skipLayout_blank _ _)

end Sigil
