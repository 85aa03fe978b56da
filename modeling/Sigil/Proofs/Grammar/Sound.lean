import Sigil.Proofs.Grammar.Embedding
import Sigil.Proofs.Grammar.Step
import Sigil.Proofs.Layout.Gap

/-!
# Reading is sound for the grammar

Whatever text is read, its tree is that of a derivation. The tokens that the reader finds cut the
text, each of them is a step of the reader, and when the end of the text is accepted the tokens read
so far are a derivation from the start rule. Templates are read one level down by the same reader.
-/

namespace Sigil

variable {E : List Char → Tree → Prop} {readExpr : ExprReader} {start : Rule}

/-! ### Tokens as the reader takes them -/

/-- A sign between operands is written as its operator. -/
private theorem Terminal.Matches.ofList_eq {t : Terminal} {before text after : List Char}
    {op : String} (h : t.Matches before text after) (hop : t.operator? = some op) :
    String.ofList text = op := by
  cases t <;> cases hop <;> cases h <;> rfl

/-- A token that is an expression by itself spells its tree. -/
private theorem spells_atom_of_leafNode
    (hread : ∀ source e, readExpr source = .ok e → ∃ t, E source t ∧ t.image = some (.whole e))
    {l : Lexeme} {before after : List Char} {leaf : Node}
    (hmatches : l.terminal.Matches before l.text after) (hleaf : leafNode readExpr l = .ok leaf)
    (hatom : l.terminal.isAtom = true) : Spells E (.rule .atom) [l] [.node leaf] := by
  obtain ⟨terminal, text⟩ := l
  cases terminal <;> try cases hatom
  case number =>
    cases hleaf
    exact (Spells.token (t := .number) rfl nofun).made .number (by simp [grammar])
      (produce_number text)
  case string =>
    cases hleaf
    exact (Spells.token (t := .string) rfl nofun).made .string (by simp [grammar])
      (produce_string text)
  case template =>
    obtain ⟨body, rfl, -⟩ := hmatches
    have hinner : inner ('`' :: (body ++ ['`'])) = body := by simp [inner]
    refine spells_template hread ?_
    simpa [leafNode, hinner] using hleaf
  case yes | plus =>
    cases hleaf
    exact (Spells.mark rfl).made .yes (by simp [grammar]) rfl
  case no | minus =>
    cases hleaf
    exact (Spells.mark rfl).made .no (by simp [grammar]) rfl
  case underscore =>
    cases hleaf
    exact (Spells.mark rfl).made .nothing (by simp [grammar]) rfl
  case name =>
    cases hleaf
    exact (Spells.token (t := .name) rfl nofun).made .ident (by simp [grammar]) rfl
  case spaceRef =>
    cases hleaf
    exact (Spells.token (t := .spaceRef) rfl nofun).made .spaceRef (by simp [grammar])
      (produce_spaceRef text)

/-- A token that is found spells itself. -/
theorem spelt_of_matches
    (hread : ∀ source e, readExpr source = .ok e → ∃ t, E source t ∧ t.image = some (.whole e))
    {l : Lexeme} {before after : List Char} {leaf : Node}
    (hmatches : l.terminal.Matches before l.text after)
    (hleaf : leafNode readExpr l = .ok leaf) :
    Token.Spelt E ⟨l.terminal, String.ofList l.text, leaf⟩ [l] where
  nil hend := by
    simp only at hend
    rw [hend] at hmatches
    exact hmatches.elim
  single _ := by simp
  operator _ hop := hmatches.ofList_eq hop
  atom hatom := spells_atom_of_leafNode hread hmatches hleaf hatom

/-- The end of the text spells nothing. -/
theorem spelt_endToken : Token.Spelt E endToken [] where
  nil _ := rfl
  single h := absurd rfl h
  operator _ h := by cases h
  atom h := by cases h

/-! ### Whole texts -/

/-- The tree of a text that ends here is that of the tokens read so far. -/
private theorem Reading.spells_of_finish {r : Reading} {last : Cursor} {fault : Option SyntaxError}
    {tree : Node} {ts : List Lexeme} (hr : r.Spelt E start ts)
    (h : r.finish last fault = .ok tree) : Spells E (.rule start) ts [.whole tree] := by
  unfold Reading.finish at h
  split at h
  · rename_i hstep
    cases h
    have := spelt_step hr spelt_endToken hstep
    rwa [List.append_nil] at this
  · cases h
  · cases h

/-- **A run of the reader.** The rest of the text is cut into tokens that complete the
derivation. -/
theorem Reading.spells_of_read
    (hread : ∀ source e, readExpr source = .ok e → ∃ t, E source t ∧ t.image = some (.whole e))
    {r : Reading} {c last : Cursor} {fault : Option SyntaxError} {tree : Node} {ts : List Lexeme}
    (hr : r.Spelt E start ts) (h : r.read readExpr c last fault = .ok tree) :
    ∃ tokens, SettledCut c.before c.after tokens ∧
      Spells E (.rule start) (ts ++ tokens) [.whole tree] := by
  fun_induction Reading.read readExpr r c last fault generalizing ts with
  | case1 r c last fault =>
    rename_i hend
    exact ⟨[], .of_end hend, by simpa using spells_of_finish hr h⟩
  | case2 => cases h
  | case3 => cases h
  | case4 r c last fault =>
    rename_i l hl leaf r' hstep fault' ih
    obtain ⟨node, hleaf⟩ : ∃ node, leaf = .ok node := exists_leaf h
    obtain ⟨after, -, hmatches⟩ := Cursor.matches_of_lexeme? hl
    have hnode : leaf.toOption.getD .absent = node := by rw [hleaf]; rfl
    rw [hnode] at hstep
    obtain ⟨tokens, hcut, hspells⟩ :=
      ih (spelt_step hr (spelt_of_matches hread hmatches hleaf) hstep) h
    exact ⟨l :: tokens, .of_lexeme? hl hcut, by simpa using hspells⟩

/-- The reader at the start of a program has read nothing. -/
theorem Reading.spelt_program : Reading.program.Spelt E .program [] :=
  ⟨rfl, rfl, rfl⟩

/-- The reader at the start of an expression has read nothing. -/
theorem Reading.spelt_expression : Reading.expression.Spelt E .soleExpression [] :=
  spelt_of_waiting .expressionStart
    ⟨rfl, .soleExpression, [], [], rfl, ⟨rfl, rfl⟩, .refl _, rfl⟩ (.refl _) rfl

/-- A text that is read has a derivation, if the embedded expressions that are read have. -/
private theorem Reading.reads_of_readText
    (hread : ∀ source e, readExpr source = .ok e →
      ∃ t, Reads .soleExpression source t ∧ t.image = some (.whole e))
    {r : Reading} {text : List Char} {tree : Node}
    (hr : r.Spelt (Reads .soleExpression) start [])
    (h : r.readText readExpr text = .ok tree) :
    ∃ t, Reads start text t ∧ t.image = some (.whole tree) := by
  obtain ⟨tokens, hcut, trees, hder, himages⟩ := spells_of_read hread hr h
  obtain ⟨t, rfl, himage⟩ := Tree.eq_singleton_of_images himages
  exact ⟨t, .of_cut hcut.cut hder, himage⟩

/-- An embedded expression that is read has a derivation. It holds no template of its own. -/
theorem reads_of_readEmbedded {source : List Char} {e : Node} (h : readEmbedded source = .ok e) :
    ∃ t, Reads .soleExpression source t ∧ t.image = some (.whole e) :=
  Reading.reads_of_readText (fun _ _ h => by cases h) Reading.spelt_expression h

/-- **Soundness.** The tree of a program, or of a text that is one expression, is the image of a
derivation: the text is cut into tokens with only layout between them, the tokens have a derivation
from the start rule, and so have the expressions embedded in templates, level by level. -/
theorem parse_sound :
    (∀ text program, parseProgram text = .ok program →
      ∃ tree, Reads .program text.toList tree ∧ tree.image = some (.whole program)) ∧
    (∀ text e, parseExpression text = .ok e →
      ∃ tree, Reads .soleExpression text.toList tree ∧ tree.image = some (.whole e)) :=
  ⟨fun _ _ h => Reading.reads_of_readText (fun _ _ => reads_of_readEmbedded)
      Reading.spelt_program h,
    fun _ _ h => Reading.reads_of_readText (fun _ _ => reads_of_readEmbedded)
      Reading.spelt_expression h⟩

/-- An output statement with a template is read, and so it has a derivation. -/
theorem parse_sound_template :
    let program : Node := .program [.output (.template [.inl "a", .inr (.ident "x")])]
    parseProgram "<: `a\x7bx\x7d`" = .ok program ∧
      ∃ tree, Reads .program "<: `a\x7bx\x7d`".toList tree ∧
        tree.image = some (.whole program) := by
  intro program
  have hexpr : readEmbedded ['x'] = .ok (.ident "x") := by
    have hplace : (Cursor.start ['x']).skipLayout = ⟨[], ['x']⟩ := Cursor.skipLayout_of_none rfl
    rw [readEmbedded, Reading.readText,
      Reading.read_of_lexeme? (l := ⟨.name, ['x']⟩)
        (by rw [hplace]; exact List.cons_ne_nil _ _) (by rw [hplace]; decide) rfl rfl,
      Reading.read_of_end (by rw [hplace]; simp [Cursor.advance])]
    rfl
  have hparse : parseProgram "<: `a\x7bx\x7d`" = .ok program := by
    have hfirst : (Cursor.start "<: `a\x7bx\x7d`".toList).skipLayout =
        ⟨[], "<: `a\x7bx\x7d`".toList⟩ := Cursor.skipLayout_of_none rfl
    have hlength : (['<', ':'] : List Char).length = 2 := rfl
    have hsecond : (Cursor.advance 2 ⟨[], "<: `a\x7bx\x7d`".toList⟩).skipLayout =
        ⟨[' ', ':', '<'], "`a\x7bx\x7d`".toList⟩ :=
      (Cursor.skipLayout_blank _ _).trans (Cursor.skipLayout_of_none rfl)
    have hleaf : leafNode readEmbedded ⟨.template, "`a\x7bx\x7d`".toList⟩ =
        .ok (.template [.inl "a", .inr (.ident "x")]) := by
      have hsplit : Segment.split? ['a', '\x7b', 'x', '\x7d'] =
          some [.text ['a'], .expr ['x']] := by decide +kernel
      change templateNode readEmbedded ['a', '\x7b', 'x', '\x7d'] = _
      rw [templateNode_eq, hsplit]
      simp [readSegment, hexpr]
    rw [parseProgram, Reading.readText,
      Reading.read_of_lexeme? (l := ⟨.outputSign, ['<', ':']⟩)
        (by rw [hfirst]; exact List.cons_ne_nil _ _) (by rw [hfirst]; decide) rfl rfl, hfirst,
      Reading.read_of_lexeme? (l := ⟨.template, "`a\x7bx\x7d`".toList⟩)
        (by rw [hlength, hsecond]; exact List.cons_ne_nil _ _)
        (by rw [hlength, hsecond]; decide) hleaf rfl,
      Reading.read_of_end (by rw [hlength, hsecond]; simp [Cursor.advance])]
    rfl
  exact ⟨hparse, parse_sound.1 _ _ hparse⟩

end Sigil
