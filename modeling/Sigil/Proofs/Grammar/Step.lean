import Sigil.Proofs.Grammar.Stack

/-!
# One step of the reader

The reader takes one token, and the tokens read so far are again those of its stack and its point
(`Reading.spelt_step`). The lemmas follow the functions of the reader: one for each production that
is completed, and one for each function that starts, continues or finishes a construct.
-/

namespace Sigil

open Ebnf hiding some

variable {E : List Char → Tree → Prop} {start hole : Rule} {pending : List Pending}
  {ts us vs ws : List Lexeme} {t : Token} {r : Reading}

/-! ### What fits -/

theorem Rule.Fits.refl (a : Rule) : a.Fits a :=
  .inl rfl

/-- What no other rule hands on fits only where it is expected itself. -/
theorem Rule.Fits.eq {a b : Rule} (h : a.Fits b)
    (ha : a ∈ [.program, .soleExpression, .statement, .spaceMember]) : b = a := by
  rcases h with rfl | h
  · rfl
  · simp only [List.mem_cons, List.not_mem_nil, or_false] at ha
    rcases ha with rfl | rfl | rfl | rfl <;> cases b <;> simp [grammar] at h

private theorem Spells.fit {a b : Rule} {item : Item} (h : Spells E (rule a) ts [item])
    (hfit : a.Fits b) : Spells E (rule b) ts [item] := by
  rcases hfit with rfl | hmem
  · exact h
  · exact h.passed hmem

/-- What is a statement. -/
private theorem Rule.fits_statement {a : Rule}
    (h : a ∈ [.constantDecl, .variableDecl, .assignment, .functionDecl, .spaceDecl, .output,
      .expression]) : a.Fits .statement := by
  refine .inr ?_
  simpa [grammar] using h

/-- What is a member of a namespace. -/
private theorem Rule.fits_spaceMember {a : Rule} (h : a ∈ [.functionDecl, .constantDecl]) :
    a.Fits .spaceMember := by
  refine .inr ?_
  simpa [grammar] using h

/-! ### Tokens -/

namespace Token.Spelt

variable {x : Terminal}

private theorem mark (h : t.Spelt E ws) (hx : t.terminal = x) (hend : x ≠ .endOfText) :
    Spells E (mark x) ws [] := by
  rw [h.single (hx ▸ hend)]
  exact Spells.mark hx

private theorem token (h : t.Spelt E ws) (hx : t.terminal = x) (hend : x ≠ .endOfText)
    (htemplate : x ≠ .template) : Spells E (token x) ws [.token t.text] := by
  rw [h.single (hx ▸ hend)]
  simpa using Spells.token (l := ⟨t.terminal, t.text.toList⟩) hx htemplate

private theorem name (h : t.Spelt E ws) (hx : t.terminal = .name) :
    Spells E (Ebnf.token .name) ws [.token t.text] :=
  h.token hx nofun nofun

private theorem sign {op : String} (h : t.Spelt E ws) (hop : t.terminal.operator? = some op) :
    SpellsSign E op ws := by
  have hx : t.terminal ≠ .endOfText := by
    rintro heq
    rw [heq] at hop
    cases hop
  have htemplate : t.terminal ≠ .template := by
    rintro heq
    rw [heq] at hop
    cases hop
  refine ⟨t.terminal, hop, ?_⟩
  rw [← h.operator op hop]
  exact h.token rfl hx htemplate

end Token.Spelt

/-! ### Stacks and states -/

/-- A construct is begun. -/
private theorem SpellsStack.push (h : SpellsStack E start hole pending us) (p : Pending)
    (hfit : p.gives.Fits hole) (hp : p.Spelt E vs) :
    SpellsStack E start p.wants (p :: pending) (us ++ vs) :=
  ⟨rfl, hole, us, vs, rfl, h, hfit, hp⟩

/-- The state at a point. -/
private theorem Reading.spelt_of_point (point : Point) (h : SpellsStack E start hole pending us)
    (hfit : point.gives.Fits hole) (hpoint : point.Spelt E vs) :
    Reading.Spelt E start ⟨point, pending⟩ (us ++ vs) := by
  cases point
  case programStart => exact hpoint.elim
  case accepted => exact hpoint.elim
  all_goals exact ⟨hole, us, vs, rfl, h, hfit, hpoint⟩

/-- The state at a point where nothing of the next construct has been read. -/
theorem Reading.spelt_of_waiting (point : Point) (h : SpellsStack E start hole pending us)
    (hfit : point.gives.Fits hole) (hpoint : point.Spelt E []) :
    Reading.Spelt E start ⟨point, pending⟩ us := by
  rw [← us.append_nil]
  exact spelt_of_point point h hfit hpoint

/-- The state after the beginning of a construct that waits for an expression. -/
private theorem Reading.spelt_of_begun (p : Pending) (h : SpellsStack E start hole pending us)
    (hfit : p.gives.Fits hole) (hp : p.Spelt E vs) (hwants : p.wants = .expression) :
    Reading.Spelt E start ⟨.expressionStart, p :: pending⟩ (us ++ vs) :=
  spelt_of_waiting .expressionStart (h.push p hfit hp) (.inl hwants.symm) rfl

/-- Below the construct of the start rule there is nothing. -/
private theorem SpellsStack.bottom (h : SpellsStack E start hole pending us)
    (hhole : hole = .program ∨ hole = .soleExpression) : hole = start ∧ us = [] := by
  cases pending with
  | nil => exact h
  | cons p pending =>
    obtain ⟨rfl, -⟩ := h
    cases p <;> simp [Pending.wants] at hhole

/-! ### Productions -/

private theorem Spells.snoc_nil {es : List Ebnf} {e : Ebnf} {items : List Item}
    (h : Spells E (seq es) ts items) (he : Spells E e [] []) :
    Spells E (seq (es ++ [e])) ts items := by
  simpa using h.snoc he

private theorem Spells.operand_of_atom {item : Item} (h : Spells E (rule .atom) ts [item]) :
    Spells E (rule .operand) ts [item] :=
  h.passed (by simp [grammar])

private theorem Spells.expression_of_operand {item : Item}
    (h : Spells E (rule .operand) ts [item]) :
    Spells E (rule .expression) ts [item] :=
  h.passed (by simp [grammar])

private theorem Spells.operand_of_name {name : String}
    (h : Spells E (.token .name) ts [.token name]) :
    Spells E (rule .operand) ts [.node (.ident name)] :=
  (h.made .ident (by simp [grammar]) rfl).operand_of_atom

/-- The body of a branch completes the branch. -/
private theorem SpellsCondition.body {branches : List (Node × Node)} {condition body : Node}
    (h : SpellsCondition E branches condition us)
    (hbody : Spells E (rule .expression) vs [.node body]) :
    SpellsBranches E ((condition, body) :: branches) (us ++ vs) := by
  rcases h with ⟨rfl, h⟩ | ⟨us, ws, rfl, ⟨first, body', more, hbranches, hhead⟩, hcondition⟩
  · exact ⟨condition, body, [], rfl, (h.snoc hbody).snoc_nil (.none _)⟩
  · have hbranch : Spells E (rule .branch) (ws ++ vs) [.clause condition body] :=
      (hcondition.snoc hbody).made .branch (by simp [grammar]) rfl
    refine ⟨first, body', more ++ [(condition, body)], by simp [hbranches], ?_⟩
    have := hhead.extend [mark .question, rule .expression, rule .expression]
      fun _ _ h => h.more hbranch
    simpa [Item.ofClause] using this

/-- A conditional without a last clause. -/
private theorem SpellsBranches.close {branches : List (Node × Node)}
    (h : SpellsBranches E branches us) :
    Spells E (rule .expression) us [.node (.conditional branches.reverse .absent)] := by
  obtain ⟨condition, body, more, hbranches, h⟩ := h
  have : Spells E (rule .conditional) us [.node (.conditional branches.reverse .absent)] :=
    (h.snoc_nil (.absent (rule .otherwise))).made .conditional (by simp [grammar])
      (by rw [hbranches, produce_conditional])
  exact this.passed (by simp [grammar])

/-- A conditional with a last clause. -/
private theorem SpellsBranches.close_otherwise {branches : List (Node × Node)} {body : Node}
    (h : SpellsBranches E branches us) (hdot : Spells E (seq [mark .dot]) vs [])
    (hbody : Spells E (rule .expression) ws [.node body]) :
    Spells E (rule .expression) (us ++ (vs ++ ws))
      [.node (.conditional branches.reverse body)] := by
  obtain ⟨condition, first, more, hbranches, h⟩ := h
  have hlast : Spells E (rule .otherwise) (vs ++ ws) [.fallback body] :=
    (hdot.snoc hbody).made .otherwise (by simp [grammar]) rfl
  have : Spells E (rule .conditional) (us ++ (vs ++ ws))
      [.node (.conditional branches.reverse body)] :=
    (h.snoc hlast.present).made .conditional (by simp [grammar])
      (by rw [hbranches, ← produce_conditional_otherwise]; rfl)
  exact this.passed (by simp [grammar])

section Selection

variable {subject pattern body : Node} {arms : List (Node × Node)}

/-- The body of an arm completes the arm. -/
private theorem SpellsArms.snoc (h : SpellsArms E subject arms us)
    (hpattern : Spells E (seq [rule .expression, mark .doubleArrow]) vs [.node pattern])
    (hbody : Spells E (rule .expression) ws [.node body]) :
    SpellsArms E subject ((pattern, body) :: arms) (us ++ (vs ++ ws)) := by
  have harm : Spells E (rule .arm) (vs ++ ws) [.clause pattern body] :=
    (hpattern.snoc hbody).made .arm (by simp [grammar]) rfl
  obtain ⟨us, xs, rfl, hhead, ⟨rfl, rfl⟩ | harms⟩ := h
  · exact ⟨us, vs ++ ws, by simp, hhead, .inr harm.one⟩
  · refine ⟨us, xs ++ (vs ++ ws), by simp, hhead, .inr ?_⟩
    simpa [Item.ofClause] using harms.another harm

private theorem spells_selection {otherwise : Node}
    (hhead : Spells E (seq [mark .question, rule .expression, mark .leftBrace]) us [.node subject])
    (harms : Spells E (rule .arms) vs [.arms arms otherwise])
    (hbrace : Spells E (mark .rightBrace) ws []) :
    Spells E (rule .expression) (us ++ vs ++ ws)
      [.node (.selection subject arms otherwise)] := by
  have : Spells E (rule .selection) (us ++ vs ++ ws)
      [.node (.selection subject arms otherwise)] :=
    ((hhead.snoc harms).snoc hbrace).made .selection (by simp [grammar]) rfl
  exact this.passed (by simp [grammar])

/-- A selection without a default arm. -/
private theorem SpellsArms.close (h : SpellsArms E subject arms us) (hne : arms ≠ [])
    (hbrace : Spells E (mark .rightBrace) ws []) :
    Spells E (rule .expression) (us ++ ws)
      [.node (.selection subject arms.reverse .absent)] := by
  obtain ⟨us, vs, rfl, hhead, ⟨hnil, -⟩ | harms⟩ := h
  · exact absurd hnil hne
  · have : Spells E (rule .arms) vs [.arms arms.reverse .absent] :=
      (harms.single.snoc_nil (.absent (rule .defaultArm))).made .arms (by simp [grammar])
        (produce_arms _)
    exact spells_selection hhead this hbrace

/-- A selection with a default arm. -/
private theorem SpellsArms.close_default (h : SpellsArms E subject arms us)
    (hstar : Spells E (seq [mark .star, mark .doubleArrow]) vs [])
    (hbody : Spells E (rule .expression) ws [.node body]) {xs : List Lexeme}
    (hbrace : Spells E (mark .rightBrace) xs []) :
    Spells E (rule .expression) (us ++ (vs ++ ws) ++ xs)
      [.node (.selection subject arms.reverse body)] := by
  have hlast : Spells E (rule .defaultArm) (vs ++ ws) [.fallback body] :=
    (hstar.snoc hbody).made .defaultArm (by simp [grammar]) rfl
  obtain ⟨us, ys, rfl, hhead, ⟨rfl, rfl⟩ | harms⟩ := h
  · rw [List.append_nil]
    exact spells_selection hhead (hlast.made .arms (by simp [grammar]) rfl) hbrace
  · have : Spells E (rule .arms) (ys ++ (vs ++ ws)) [.arms arms.reverse body] :=
      (harms.single.snoc hlast.present).made .arms (by simp [grammar])
        (produce_arms_default _ _)
    simpa using spells_selection hhead this hbrace

end Selection

section Lists

variable {e : Node} {done : List Node}

/-- One more element or argument, after which there may be a comma. -/
private theorem Spells.expressions_snoc (h : Spells E .expressions us (done.reverse.map .node))
    (he : Spells E (.rule .expression) vs [.node e])
    (hcomma : Spells E (.optional (.mark .comma)) ws []) :
    Spells E .expressions (us ++ (vs ++ ws)) ((e :: done).reverse.map .node) := by
  simpa [Ebnf.expressions] using Spells.more h (he.single.snoc hcomma)

/-- One more element, after which there may be a comma. -/
private theorem Pending.Spelt.elements_snoc (h : (Pending.elements done).Spelt E us)
    (he : Spells E (rule .expression) vs [.node e])
    (hcomma : Spells E (.optional (mark .comma)) ws []) :
    (Pending.elements (e :: done)).Spelt E (us ++ (vs ++ ws)) := by
  have := Spells.extend [mark .leftBracket] h fun _ _ h => Spells.more h (he.single.snoc hcomma)
  simpa [Pending.Spelt, Ebnf.expressions] using this

private theorem spells_array
    (h : Spells E (seq [mark .leftBracket, expressions]) us (done.reverse.map .node))
    (hbracket : Spells E (mark .rightBracket) ws []) :
    Spells E (rule .operand) (us ++ ws) [.node (.array done.reverse)] := by
  have : Spells E (rule .array) (us ++ ws) [.node (.array done.reverse)] :=
    (h.snoc hbracket).made .array (by simp [grammar])
      (by rw [List.append_nil, produce_array])
  exact Spells.operand_of_atom (this.passed (by simp [grammar]))

private theorem spells_call {callee : Node}
    (hcallee : Spells E (seq [rule .operand, mark .callOpen]) us [.node callee])
    (hargs : Spells E expressions vs (done.reverse.map .node))
    (hparen : Spells E (mark .rightParen) ws []) :
    Spells E (rule .operand) (us ++ vs ++ ws) [.node (.call callee done.reverse)] := by
  have : Spells E (rule .arguments) vs [.args done.reverse] :=
    hargs.made .arguments (by simp [grammar])
      (produce_arguments _)
  exact ((hcallee.snoc this).snoc hparen).made .call (by simp [grammar]) rfl

private theorem spells_block
    (h : Spells E (seq [mark .leftBrace, .some (rule .statement)]) us (done.reverse.map .node))
    (hbrace : Spells E (mark .rightBrace) ws []) :
    Spells E (rule .operand) (us ++ ws) [.node (.block done.reverse)] := by
  have : Spells E (rule .block) (us ++ ws) [.node (.block done.reverse)] :=
    (h.snoc hbrace).made .block (by simp [grammar])
      (by rw [List.append_nil, produce_block])
  exact Spells.operand_of_atom (this.passed (by simp [grammar]))

/-- The closing brace of a body completes the function. -/
private theorem FunctionHead.Spelt.close {head : FunctionHead} (hhead : head.Spelt E us)
    (hbody : Spells E (seq [mark .leftBrace, many (rule .statement)]) vs (done.reverse.map .node))
    (hbrace : Spells E (mark .rightBrace) ws []) :
    Spells E (rule head.gives) (us ++ (vs ++ ws)) [.node (head.toNode done.reverse)] := by
  have : Spells E (rule .body) (vs ++ ws) [.body done.reverse] :=
    (hbody.snoc hbrace).made .body (by simp [grammar])
      (by rw [List.append_nil, produce_body])
  cases head with
  | declared name params =>
    have : Spells E (rule .functionDecl) (us ++ (vs ++ ws)) _ :=
      (Spells.snoc hhead this).made .functionDecl (by simp [grammar]) rfl
    exact this
  | anonymous params =>
    have : Spells E (rule .functionExpr) (us ++ (vs ++ ws)) _ :=
      (Spells.snoc hhead this).made .functionExpr (by simp [grammar]) rfl
    exact this.passed (by simp [gives, grammar])

end Lists

section Members

variable {entries : List (String × Node)} {key : String} {value : Node}

/-- One more member, after which there may be a separator. -/
private theorem SpellsMembers.snoc (h : SpellsMembers E entries us)
    (hkey : Spells E (seq [either (token .name) (token .objectKey), mark .colon]) vs [.token key])
    (hvalue : Spells E (rule .expression) ws [.node value]) {xs : List Lexeme}
    (hsep : Spells E (optional (either (mark .comma) (mark .semicolon))) xs []) :
    SpellsMembers E ((key, value) :: entries) (us ++ (vs ++ ws ++ xs)) := by
  have hmember : Spells E (rule .objectMember) (vs ++ ws) [.entry key value] :=
    (hkey.snoc hvalue).made .objectMember (by simp [grammar]) rfl
  have := Spells.extend [mark .leftBrace] h fun _ _ h => Spells.more h (hmember.single.snoc hsep)
  simpa [SpellsMembers, Ebnf.members, Item.ofEntry] using this

private theorem SpellsMembers.close (h : SpellsMembers E entries us)
    (hbrace : Spells E (mark .rightBrace) ws []) :
    Spells E (rule .operand) (us ++ ws) [.node (.object entries.reverse)] := by
  have : Spells E (rule .object) (us ++ ws) [.node (.object entries.reverse)] :=
    (Spells.snoc h hbrace).made .object (by simp [grammar])
      (by rw [List.append_nil, produce_object])
  exact Spells.operand_of_atom (this.passed (by simp [grammar]))

end Members

/-! ### Starting a construct -/

namespace Reading

/-- An expression starts where one fits. -/
private theorem spelt_beginExpression (hs : SpellsStack E start hole pending us)
    (hfit : Rule.Fits .expression hole) (ht : t.Spelt E ws)
    (h : beginExpression t pending = some r) : r.Spelt E start (us ++ ws) := by
  unfold beginExpression at h
  split_ifs at h with hatom
  · cases h
    exact spelt_of_point _ hs hfit (ht.atom hatom).operand_of_atom
  split at h
  · rename_i hx
    cases h
    have hp : (Pending.elements []).Spelt E ws :=
      (ht.mark hx nofun).single.snoc_nil (.none _)
    exact spelt_of_waiting .elementsStart (hs.push _ hfit hp) (.refl _) rfl
  · rename_i hx
    cases h
    exact spelt_of_point _ hs hfit ⟨[], ws, rfl, rfl, ht.mark hx nofun⟩
  · rename_i hx
    cases h
    have hp : (Pending.group []).Spelt E ws :=
      ⟨ws, [], by simp, (ht.mark hx nofun).single, .nil⟩
    exact spelt_of_begun _ hs hfit hp rfl
  · rename_i hx
    cases h
    exact spelt_of_begun .condition hs hfit (ht.mark hx nofun).single rfl
  · rename_i hx
    cases h
    exact spelt_of_point _ hs hfit (ht.mark hx nofun).single
  · rename_i hx
    cases h
    exact spelt_of_point _ hs hfit (ht.mark hx nofun).single
  · rename_i hx
    cases h
    exact spelt_of_begun .result hs hfit (ht.mark hx nofun).single rfl
  · rename_i hx
    cases h
    exact spelt_of_point _ hs hfit (ht.mark hx nofun).single
  · cases h

/-- A statement starts where one is expected. -/
private theorem spelt_beginStatement (hs : SpellsStack E start .statement pending us)
    (ht : t.Spelt E ws) (h : beginStatement t pending = some r) : r.Spelt E start (us ++ ws) := by
  unfold beginStatement at h
  split at h
  · rename_i hx
    cases h
    exact spelt_of_point _ hs (Rule.fits_statement (by decide)) (ht.mark hx nofun).single
  · rename_i hx
    cases h
    exact spelt_of_point _ hs (Rule.fits_statement (by decide)) (ht.mark hx nofun).single
  · rename_i hx
    cases h
    exact spelt_of_point _ hs (Rule.fits_statement (by decide)) (ht.mark hx nofun).single
  · rename_i hx
    cases h
    exact spelt_of_begun .output hs (Rule.fits_statement (by decide))
      (ht.mark hx nofun).single rfl
  · rename_i hx
    cases h
    exact spelt_of_point _ hs (.refl _) (ht.mark hx nofun).single
  · rename_i hx
    cases h
    exact spelt_of_point _ hs (.refl _) (ht.name hx)
  · exact spelt_beginExpression hs (Rule.fits_statement (by decide)) ht h

/-- A member of a namespace starts, or the namespace ends. -/
private theorem spelt_beginMember {name : String} {members : List Node}
    (hs : SpellsStack E start hole pending us) (hfit : Rule.Fits .spaceDecl hole)
    (hp : (Pending.space name members).Spelt E vs) (ht : t.Spelt E ws)
    (h : beginMember t name members pending = some r) : r.Spelt E start (us ++ vs ++ ws) := by
  unfold beginMember at h
  have hpush : SpellsStack E start .spaceMember (.space name members :: pending) (us ++ vs) :=
    hs.push (.space name members) hfit hp
  split at h
  · rename_i hx
    cases h
    exact spelt_of_point _ hpush (Rule.fits_spaceMember (by decide)) (ht.mark hx nofun).single
  · rename_i hx
    cases h
    exact spelt_of_point _ hpush (Rule.fits_spaceMember (by decide)) (ht.mark hx nofun).single
  · rename_i hx
    cases h
    have hspace : Spells E (rule .spaceDecl) (vs ++ ws) [.node (.spaceDecl name members.reverse)] :=
      (Spells.snoc hp (ht.mark hx nofun)).made .spaceDecl (by simp [grammar])
        (by rw [List.append_nil, produce_spaceDecl])
    rw [List.append_assoc]
    exact spelt_of_point _ hs hfit hspace
  · cases h

/-- A function body ends. -/
private theorem spelt_closeBody {head : FunctionHead} {done : List Node}
    (hs : SpellsStack E start hole pending us) (hfit : head.gives.Fits hole)
    (hp : (Pending.body head done).Spelt E vs) (hbrace : Spells E (mark .rightBrace) ws []) :
    (closeBody head done pending).Spelt E start (us ++ vs ++ ws) := by
  obtain ⟨vs, xs, rfl, hhead, hbody⟩ := hp
  have hclose := hhead.close hbody hbrace
  have heq : us ++ (vs ++ xs) ++ ws = us ++ (vs ++ (xs ++ ws)) := by simp
  rw [heq]
  cases head with
  | declared name params => exact spelt_of_point _ hs hfit hclose
  | anonymous params => exact spelt_of_point _ hs hfit hclose

/-! ### Finishing a construct -/

/-- Braces that are no selection: before them stands the first condition of a conditional. -/
private theorem spellsStack_around {subject : Option Node}
    (hs : SpellsStack E start hole pending us) (hfit : Rule.Fits .expression hole)
    (hsubject : SpellsSubject E subject vs) :
    ∃ hole, SpellsStack E start hole (around subject pending) (us ++ vs) ∧
      Rule.Fits .expression hole := by
  cases subject with
  | none =>
    obtain rfl : vs = [] := hsubject
    exact ⟨hole, by simpa [around] using hs, hfit⟩
  | some subject =>
    exact ⟨.expression, hs.push (.branchBody [] subject) hfit (.inl ⟨rfl, hsubject⟩),
      .refl _⟩

/-- **A completed statement** goes to the construct that waits for it. -/
theorem spelt_finishStatement {s : Node} (hs : SpellsStack E start hole pending us)
    (hstatement : Spells E (rule hole) vs [.node s]) (ht : t.Spelt E ws)
    (h : finishStatement s pending t = some r) : r.Spelt E start (us ++ vs ++ ws) := by
  unfold finishStatement at h
  split at h
  · rename_i done rest
    obtain ⟨rfl, below, us, xs, rfl, hrest, hfit, hp⟩ := hs
    have hdone : (Pending.program (s :: done)).Spelt E (xs ++ vs) := by
      simpa [Pending.Spelt] using Spells.more hp hstatement
    split_ifs at h with hend
    · cases h
      obtain rfl := hfit.eq (by simp [Pending.gives])
      obtain ⟨rfl, rfl⟩ := hrest.bottom (.inl rfl)
      obtain rfl := ht.nil hend
      rw [List.nil_append, List.append_nil]
      exact Spells.made hdone .program (by simp [Pending.gives, grammar])
        (produce_program _)
    · have := spelt_beginStatement (hrest.push (.program (s :: done)) hfit hdone) ht h
      simpa using this
  · rename_i done rest
    obtain ⟨rfl, below, us, xs, rfl, hrest, hfit, hp⟩ := hs
    have hdone : (Pending.block (s :: done)).Spelt E (xs ++ vs) := by
      have := Spells.extend [mark .leftBrace] hp fun _ _ h => h.another hstatement
      simpa [Pending.Spelt] using this
    split_ifs at h with hend
    · cases h
      have := spelt_of_point (.operand _) hrest hfit
        (spells_block hdone (ht.mark hend nofun))
      simpa using this
    · have := spelt_beginStatement (hrest.push (.block (s :: done)) hfit hdone) ht h
      simpa using this
  · rename_i subject rest
    obtain ⟨rfl, below, us, xs, rfl, hrest, hfit, ys, zs, rfl, hsubject, hbrace⟩ := hs
    obtain ⟨hole, haround, hfit⟩ := spellsStack_around hrest hfit hsubject
    have hdone : (Pending.block [s]).Spelt E (zs ++ vs) :=
      hbrace.single.snoc hstatement.one
    split_ifs at h with hend
    · cases h
      have := spelt_of_point (.operand _) haround hfit
        (spells_block hdone (ht.mark hend nofun))
      simpa using this
    · have := spelt_beginStatement (haround.push (.block [s]) hfit hdone) ht h
      simpa using this
  · rename_i head done rest
    obtain ⟨rfl, below, us, xs, rfl, hrest, hfit, ys, zs, rfl, hhead, hbody⟩ := hs
    have hdone : (Pending.body head (s :: done)).Spelt E (ys ++ (zs ++ vs)) := by
      refine ⟨ys, zs ++ vs, rfl, hhead, ?_⟩
      have := Spells.extend [mark .leftBrace] hbody fun _ _ h => h.more hstatement
      simpa using this
    split_ifs at h with hend
    · cases h
      have := spelt_closeBody hrest hfit hdone (ht.mark hend nofun)
      simpa using this
    · have := spelt_beginStatement (hrest.push (.body head (s :: done)) hfit hdone) ht h
      simpa using this
  · rename_i name members rest
    obtain ⟨rfl, below, us, xs, rfl, hrest, hfit, hp⟩ := hs
    have hdone : (Pending.space name (s :: members)).Spelt E (xs ++ vs) := by
      have := Spells.extend [mark .colonColon, token .name, mark .leftBrace] hp
        fun _ _ h => h.more hstatement
      simpa [Pending.Spelt] using this
    have := spelt_beginMember hrest hfit hdone ht h
    simpa using this
  · cases h

/-- After the first condition of a conditional, which may be the subject of a selection. -/
private theorem spelt_condition {e : Node} {xs : List Lexeme}
    (hs : SpellsStack E start hole pending us) (hfit : Rule.Fits .expression hole)
    (hp : Pending.condition.Spelt E vs) (he : Spells E (rule .expression) xs [.node e])
    (ht : t.Spelt E ws) (h : finishExpression e (.condition :: pending) t = some r) :
    r.Spelt E start (us ++ vs ++ xs ++ ws) := by
  have hcondition : Spells E (seq [mark .question, rule .expression]) (vs ++ xs) [.node e] :=
    Spells.snoc hp he
  change (if t.terminal = .leftBrace then _ else _) = some r at h
  split_ifs at h with hx
  · cases h
    have := spelt_of_point (.bracesStart (some e)) hs hfit
      ⟨vs ++ xs, ws, rfl, hcondition, ht.mark hx nofun⟩
    simpa only [List.append_assoc] using this
  · have := hs.push (.branchBody [] e) hfit (.inl ⟨rfl, hcondition⟩)
    simpa only [List.append_assoc] using spelt_beginExpression this (.refl _) ht h

/-- After an operand between parentheses. -/
private theorem spelt_group {e : Node} {xs : List Lexeme} {chain : List (Node × String)}
    (hs : SpellsStack E start hole pending us) (hfit : Rule.Fits .expression hole)
    (hp : (Pending.group chain).Spelt E vs)
    (he : Spells E (rule .expression) xs [.node e]) (ht : t.Spelt E ws)
    (h : finishExpression e (.group chain :: pending) t = some r) :
    r.Spelt E start (us ++ vs ++ xs ++ ws) := by
  obtain ⟨vs, ys, rfl, hparen, hchain⟩ := hp
  change (if t.terminal = .rightParen then _ else _) = some r at h
  split_ifs at h with hx
  · cases h
    have hgroup : Spells E (rule .atom) (vs ++ (ys ++ xs) ++ ws) _ :=
      ((hparen.snoc (hchain.spells_closeGroup he)).snoc (ht.mark hx nofun)).passed
        (by simp [grammar])
    have := spelt_of_point (.operand _) hs hfit hgroup.operand_of_atom
    simpa only [List.append_assoc] using this
  · obtain ⟨op, hop, rfl⟩ := Option.map_eq_some_iff.1 h
    have := spelt_of_begun (.group ((e, op) :: chain)) hs hfit
      ⟨vs, _, rfl, hparen, .cons hchain he (ht.sign hop)⟩ rfl
    simpa only [List.append_assoc] using this

/-- **A completed expression** goes to the construct that waits for it. -/
theorem spelt_finishExpression {e : Node} (hs : SpellsStack E start hole pending us)
    (hfit : Rule.Fits .expression hole) (he : Spells E (rule .expression) vs [.node e])
    (ht : t.Spelt E ws) (h : finishExpression e pending t = some r) :
    r.Spelt E start (us ++ vs ++ ws) := by
  induction pending generalizing e hole us vs with
  | nil => cases h
  | cons p rest ih =>
    have hstack := hs
    obtain ⟨-, below, us, xs, rfl, hrest, hbelow, hp⟩ := hs
    -- the expression may complete a statement or an expression, which goes further down
    have hstatement {a : Rule} {s : Node} (hfit : a.Fits below)
        (hs : Spells E (rule a) (xs ++ vs) [.node s]) (h : finishStatement s rest t = some r) :
        r.Spelt E start (us ++ xs ++ vs ++ ws) := by
      simpa only [List.append_assoc] using spelt_finishStatement hrest (hs.fit hfit) ht h
    have hexpression {e : Node} (hfit : Rule.Fits .expression below)
        (he : Spells E (rule .expression) (xs ++ vs) [.node e])
        (h : finishExpression e rest t = some r) : r.Spelt E start (us ++ xs ++ vs ++ ws) := by
      simpa only [List.append_assoc] using ih hrest hfit he h
    cases p with
    | program | block | body | space => exact spelt_finishStatement hstack (he.fit hfit) ht h
    | expression =>
      rw [finishExpression] at h
      split_ifs at h with hend
      cases h
      obtain rfl : xs = [] := hp
      obtain rfl := hbelow.eq (by simp [Pending.gives])
      obtain ⟨rfl, rfl⟩ := hrest.bottom (.inr rfl)
      obtain rfl := ht.nil hend
      rw [List.append_nil, List.append_nil]
      exact he.made .soleExpression (by simp [Pending.gives, grammar]) rfl
    | constant name =>
      exact hstatement (a := .constantDecl) hbelow
        ((Spells.snoc hp he).made .constantDecl (by simp [grammar]) rfl) h
    | variableValue name =>
      exact hstatement (a := .variableDecl) hbelow
        ((Spells.snoc hp he).made .variableDecl (by simp [grammar]) rfl) h
    | assignment name =>
      exact hstatement (a := .assignment) hbelow
        ((Spells.snoc hp he).made .assignment (by simp [grammar]) rfl) h
    | output =>
      exact hstatement (a := .output) hbelow
        ((Spells.snoc hp he).made .output (by simp [grammar]) rfl) h
    | result =>
      have hresult : Spells E (rule .result) (xs ++ vs) [.node (.ret e)] :=
        (Spells.snoc hp he).made .result (by simp [grammar]) rfl
      exact hexpression hbelow (hresult.passed (by simp [grammar])) h
    | condition => exact spelt_condition hrest hbelow hp he ht h
    | branchCondition branches =>
      obtain ⟨ys, zs, rfl, hbranches, hsign⟩ := hp
      have := hrest.push (.branchBody branches e) hbelow
        (.inr ⟨ys, zs ++ vs, rfl, hbranches, hsign.snoc he⟩)
      simpa only [List.append_assoc] using spelt_beginExpression this (.refl _) ht h
    | branchBody branches condition =>
      have hbranches := SpellsCondition.body hp he
      simp only [finishExpression] at h
      split at h
      · rename_i hx
        cases h
        have := spelt_of_begun (.branchCondition _) hrest hbelow
          ⟨xs ++ vs, ws, rfl, hbranches, (ht.mark hx nofun).single⟩ rfl
        simpa only [List.append_assoc] using this
      · rename_i hx
        cases h
        have := spelt_of_begun (.otherwise _) hrest hbelow
          ⟨xs ++ vs, ws, rfl, hbranches, (ht.mark hx nofun).single⟩ rfl
        simpa only [List.append_assoc] using this
      · exact hexpression hbelow hbranches.close h
    | otherwise branches =>
      obtain ⟨ys, zs, rfl, hbranches, hdot⟩ := hp
      have := hbranches.close_otherwise hdot he
      exact hexpression hbelow (by simpa only [List.append_assoc] using this) h
    | braces subject =>
      cases subject with
      | none => exact spelt_finishStatement hstack (he.fit hfit) ht h
      | some subject =>
        obtain ⟨ys, zs, rfl, hsubject, hbrace⟩ := hp
        rw [finishExpression] at h
        split_ifs at h with hx
        · cases h
          have harms : SpellsArms E subject [] (ys ++ zs) :=
            ⟨ys ++ zs, [], by simp, Spells.snoc hsubject hbrace, .inl ⟨rfl, rfl⟩⟩
          have := spelt_of_begun (.armBody subject [] e) hrest hbelow
            ⟨ys ++ zs, vs ++ ws, rfl, harms, he.single.snoc (ht.mark hx nofun)⟩ rfl
          simpa only [List.append_assoc] using this
        · exact spelt_finishStatement hstack (he.fit hfit) ht h
    | pattern subject arms =>
      rw [finishExpression] at h
      split_ifs at h with hx
      cases h
      have := spelt_of_begun (.armBody subject arms e) hrest hbelow
        ⟨xs, vs ++ ws, rfl, hp, he.single.snoc (ht.mark hx nofun)⟩ rfl
      simpa only [List.append_assoc] using this
    | armBody subject arms pattern =>
      obtain ⟨ys, zs, rfl, harms, hpattern⟩ := hp
      have harms := harms.snoc hpattern he
      simp only [finishExpression] at h
      split at h
      · rename_i hx
        cases h
        have := spelt_of_point (.closed _) hrest hbelow (harms.close nofun (ht.mark hx nofun))
        simpa only [List.append_assoc] using this
      · rename_i hx
        cases h
        have := spelt_of_point (.defaultArrow subject _) hrest hbelow
          ⟨_, ws, rfl, harms, (ht.mark hx nofun).single⟩
        simpa only [List.append_assoc] using this
      · have := hrest.push (.pattern subject _) hbelow harms
        simpa only [List.append_assoc] using spelt_beginExpression this (.refl _) ht h
    | defaultBody subject arms =>
      obtain ⟨ys, zs, rfl, harms, hstar⟩ := hp
      rw [finishExpression] at h
      split_ifs at h with hx
      cases h
      have := spelt_of_point (.closed _) hrest hbelow
        (harms.close_default hstar he (ht.mark hx nofun))
      simpa only [List.append_assoc] using this
    | memberValue entries key =>
      obtain ⟨ys, zs, rfl, hmembers, hkey⟩ := hp
      have hdone := hmembers.snoc hkey he (.absent _)
      rw [List.append_nil] at hdone
      simp only [finishExpression] at h
      split at h
      · rename_i hx
        cases h
        have := spelt_of_point (.membersNext _) hrest hbelow
          (hmembers.snoc hkey he (ht.mark hx nofun).left.present)
        simpa only [List.append_assoc] using this
      · rename_i hx
        cases h
        have := spelt_of_point (.membersNext _) hrest hbelow
          (hmembers.snoc hkey he (ht.mark hx nofun).right.present)
        simpa only [List.append_assoc] using this
      · rename_i hx
        cases h
        have := spelt_of_point (.operand _) hrest hbelow (hdone.close (ht.mark hx nofun))
        simpa only [List.append_assoc] using this
      · rename_i hx
        cases h
        have := spelt_of_point (.keyColon _ t.text) hrest hbelow
          ⟨_, ws, rfl, hdone, (ht.name hx).left⟩
        simpa only [List.append_assoc] using this
      · rename_i hx
        cases h
        have := spelt_of_point (.keyColon _ t.text) hrest hbelow
          ⟨_, ws, rfl, hdone, (ht.token hx nofun nofun).right⟩
        simpa only [List.append_assoc] using this
      · cases h
    | count counter =>
      have := hrest.push (.countBody counter e) hbelow (Spells.snoc hp he)
      simpa only [List.append_assoc] using spelt_beginExpression this (.refl _) ht h
    | countBody counter count =>
      have hloop : Spells E (rule .countLoop) (xs ++ vs) [.node (.countLoop counter count e)] := by
        refine (Spells.snoc hp he).made .countLoop (by simp [grammar, counterPart]) ?_
        cases counter <;> rfl
      exact hexpression hbelow (hloop.passed (by simp [grammar])) h
    | collection item =>
      have := hrest.push (.collectionBody item e) hbelow (Spells.snoc hp he)
      simpa only [List.append_assoc] using spelt_beginExpression this (.refl _) ht h
    | collectionBody item collection =>
      have hloop : Spells E (rule .eachLoop) (xs ++ vs) [.node (.eachLoop item collection e)] :=
        (Spells.snoc hp he).made .eachLoop (by simp [grammar]) rfl
      exact hexpression hbelow (hloop.passed (by simp [grammar])) h
    | group chain => exact spelt_group hrest hbelow hp he ht h
    | arguments callee done =>
      obtain ⟨ys, zs, rfl, hcallee, hargs⟩ := hp
      have hdone := hargs.expressions_snoc he (.absent _)
      rw [List.append_nil] at hdone
      simp only [finishExpression] at h
      split at h
      · rename_i hx
        cases h
        have hargs := hargs.expressions_snoc he (ht.mark hx nofun).present
        have := hrest.push (.arguments callee (e :: done)) hbelow ⟨ys, _, rfl, hcallee, hargs⟩
        simpa only [List.append_assoc] using spelt_of_waiting .afterComma this (.refl _) rfl
      · rename_i hx
        cases h
        have := spelt_of_point (.operand _) hrest hbelow
          (spells_call hcallee hdone (ht.mark hx nofun))
        simpa only [List.append_assoc] using this
      · have := hrest.push (.arguments callee (e :: done)) hbelow ⟨ys, _, rfl, hcallee, hdone⟩
        simpa only [List.append_assoc] using spelt_beginExpression this (.refl _) ht h
    | elements done =>
      have hdone := hp.elements_snoc he (.absent _)
      rw [List.append_nil] at hdone
      simp only [finishExpression] at h
      split at h
      · rename_i hx
        cases h
        have := hrest.push (.elements (e :: done)) hbelow
          (hp.elements_snoc he (ht.mark hx nofun).present)
        simpa only [List.append_assoc] using spelt_of_waiting .afterComma this (.refl _) rfl
      · rename_i hx
        cases h
        have := spelt_of_point (.operand _) hrest hbelow (spells_array hdone (ht.mark hx nofun))
        simpa only [List.append_assoc] using this
      · have := hrest.push (.elements (e :: done)) hbelow hdone
        simpa only [List.append_assoc] using spelt_beginExpression this (.refl _) ht h
    | position target =>
      rw [finishExpression] at h
      split_ifs at h with hx
      cases h
      have hindex : Spells E (rule .operand) (xs ++ vs ++ ws) [.node (.index target e)] :=
        ((Spells.snoc hp he).snoc (ht.mark hx nofun)).made .index (by simp [grammar]) rfl
      simpa only [List.append_assoc] using spelt_of_point (.operand _) hrest hbelow hindex

/-! ### All points -/

/-- An opener extends an operand; any other token shows it to be complete. -/
private theorem spelt_afterOperand {e : Node} (hs : SpellsStack E start hole pending us)
    (hfit : Rule.Fits .expression hole) (he : Spells E (rule .operand) vs [.node e])
    (ht : t.Spelt E ws) (h : afterOperand e pending t = some r) :
    r.Spelt E start (us ++ vs ++ ws) := by
  unfold afterOperand at h
  split at h
  · rename_i hx
    cases h
    have := spelt_of_waiting .argumentsStart (hs.push (.arguments e []) hfit
      ⟨vs ++ ws, [], (List.append_nil _).symm, he.single.snoc (ht.mark hx nofun), .none _⟩)
      (.refl _) rfl
    simpa only [List.append_assoc] using this
  · rename_i hx
    cases h
    have := spelt_of_begun (.position e) hs hfit (he.single.snoc (ht.mark hx nofun)) rfl
    simpa only [List.append_assoc] using this
  · rename_i hx
    cases h
    have := spelt_of_point (.propertyName e) hs hfit (he.single.snoc (ht.mark hx nofun))
    simpa only [List.append_assoc] using this
  · exact spelt_finishExpression hs hfit he.expression_of_operand ht h

/-- After a comma or an opening the list ends, or its next expression starts. -/
private theorem spelt_afterComma (hs : SpellsStack E start hole pending us)
    (hfit : Rule.Fits .expression hole) (ht : t.Spelt E ws)
    (h : afterComma pending t = some r) : r.Spelt E start (us ++ ws) := by
  unfold afterComma at h
  split at h
  · rename_i done rest hx
    obtain ⟨-, below, us, xs, rfl, hrest, hbelow, hp⟩ := hs
    cases h
    have := spelt_of_point (.operand _) hrest hbelow (spells_array hp (ht.mark hx nofun))
    simpa only [List.append_assoc] using this
  · rename_i callee done rest hx
    obtain ⟨-, below, us, xs, rfl, hrest, hbelow, ys, zs, rfl, hcallee, hargs⟩ := hs
    cases h
    have := spelt_of_point (.operand _) hrest hbelow
      (spells_call hcallee hargs (ht.mark hx nofun))
    simpa only [List.append_assoc] using this
  · exact spelt_beginExpression hs hfit ht h

private theorem step_next_eq_some {x : Terminal} {point : Point}
    (h : step.next t x point pending = some r) :
    t.terminal = x ∧ r = ⟨point, pending⟩ := by
  unfold step.next at h
  split_ifs at h with hx
  exact ⟨hx, (Option.some.inj h).symm⟩

/-- The one token that may follow leads to a point. -/
private theorem spelt_next {x : Terminal} (point : Point) (hs : SpellsStack E start hole pending us)
    (hfit : point.gives.Fits hole) (h : step.next t x point pending = some r)
    (hpoint : t.terminal = x → point.Spelt E (vs ++ ws)) : r.Spelt E start (us ++ vs ++ ws) := by
  obtain ⟨hx, rfl⟩ := step_next_eq_some h
  rw [List.append_assoc]
  exact spelt_of_point point hs hfit (hpoint hx)

/-- The one token that may follow is the last before the place where a construct waits. -/
private theorem spelt_next_begun {x : Terminal} {point : Point} (p : Pending)
    (hs : SpellsStack E start hole pending us) (hfit : p.gives.Fits hole)
    (h : step.next t x point (p :: pending) = some r)
    (hp : t.terminal = x → p.Spelt E (vs ++ ws)) (hwaits : point.gives.Fits p.wants)
    (hpoint : point.Spelt E []) : r.Spelt E start (us ++ vs ++ ws) := by
  obtain ⟨hx, rfl⟩ := step_next_eq_some h
  rw [List.append_assoc]
  exact spelt_of_waiting point (hs.push p hfit (hp hx)) hwaits hpoint

/-- The parameters are complete. -/
private theorem spelt_bodyOpen {name : Option String} {done : List String} {xs : List Lexeme}
    (hs : SpellsStack E start hole pending us)
    (hfit : (Point.params name done).gives.Fits hole) (hopening : SpellsOpening E name vs)
    (hparams : Spells E parameters xs (done.reverse.map Item.token))
    (hparen : Spells E (mark .rightParen) ws []) :
    Reading.Spelt E start ⟨.bodyOpen (step.head name done), pending⟩ (us ++ (vs ++ xs ++ ws)) := by
  have hrule : Spells E (rule .params) xs [.names done.reverse] :=
    hparams.made .params (by simp [grammar]) (produce_params _)
  cases name with
  | none => exact spelt_of_point _ hs hfit ((Spells.snoc hopening hrule).snoc hparen)
  | some name => exact spelt_of_point _ hs hfit ((Spells.snoc hopening hrule).snoc hparen)

/-! The points with more than one continuation, one lemma each. -/

/-- After an opening brace: an object, a block or a selection. -/
private theorem spelt_bracesStart {subject : Option Node} {r' : Reading}
    (hs : SpellsStack E start hole pending us) (hfit : Rule.Fits .expression hole)
    (hp : (Point.bracesStart subject).Spelt E vs) (ht : t.Spelt E ws)
    (h : step ⟨.bracesStart subject, pending⟩ t = some r') :
    r'.Spelt E start (us ++ vs ++ ws) := by
  obtain ⟨xs, ys, rfl, hsubject, hbrace⟩ := hp
  obtain ⟨inner, haround, hinner⟩ := spellsStack_around hs hfit hsubject
  have hempty : SpellsMembers E [] ys := hbrace.single.snoc_nil (.none _)
  simp only [step] at h
  split at h
  · rename_i hx
    cases h
    have := spelt_of_point (.operand (.object [])) haround hinner
      (hempty.close (ht.mark hx nofun))
    simpa only [List.append_assoc] using this
  · rename_i hx
    cases h
    have := spelt_of_point (.keyColon [] t.text) haround hinner
      ⟨ys, ws, rfl, hempty, (ht.token hx nofun nofun).right⟩
    simpa only [List.append_assoc] using this
  · rename_i subject _ _ hx
    cases h
    have := spelt_of_point (.firstName t.text subject) hs hfit
      ⟨xs, ys, ws, rfl, hsubject, hbrace, ht.name hx⟩
    simpa only [List.append_assoc] using this
  · rename_i subject hx
    cases h
    have := spelt_of_point (.defaultArrow subject []) hs hfit
      ⟨xs ++ ys, ws, rfl,
        ⟨xs ++ ys, [], (List.append_nil _).symm, Spells.snoc hsubject hbrace, .inl ⟨rfl, rfl⟩⟩,
        (ht.mark hx nofun).single⟩
    simpa only [List.append_assoc] using this
  · rename_i subject _ _ _ _ _ _
    have := hs.push (.braces subject) hfit ⟨xs, ys, rfl, hsubject, hbrace⟩
    exact spelt_beginStatement this ht h

/-- After a name right behind an opening brace. -/
private theorem spelt_firstName {subject : Option Node} {name : String} {r' : Reading}
    (hs : SpellsStack E start hole pending us) (hfit : Rule.Fits .expression hole)
    (hp : (Point.firstName name subject).Spelt E vs) (ht : t.Spelt E ws)
    (h : step ⟨.firstName name subject, pending⟩ t = some r') :
    r'.Spelt E start (us ++ vs ++ ws) := by
  obtain ⟨xs, ys, zs, rfl, hsubject, hbrace, hname⟩ := hp
  have hbraces := hs.push (.braces subject) hfit ⟨xs, ys, rfl, hsubject, hbrace⟩
  simp only [step] at h
  split at h
  · rename_i hx
    cases h
    obtain ⟨inner, haround, hinner⟩ := spellsStack_around hs hfit hsubject
    have := spelt_of_begun (.memberValue [] name) haround hinner
      ⟨ys, zs ++ ws, rfl, hbrace.single.snoc_nil (.none _),
        hname.left.single.snoc (ht.mark hx nofun)⟩ rfl
    simpa only [List.append_assoc] using this
  · rename_i hx
    cases h
    have := spelt_of_begun (.assignment name) hbraces
      (Rule.fits_statement (by simp [Pending.gives]))
      (hname.single.snoc (ht.mark hx nofun)) rfl
    simpa only [List.append_assoc] using this
  · have := spelt_afterOperand hbraces (Rule.fits_statement (by decide)) hname.operand_of_name ht h
    simpa only [List.append_assoc] using this

/-- After the sign of a function. -/
private theorem spelt_functionStart {naming : Naming} {r' : Reading}
    (hs : SpellsStack E start hole pending us)
    (hfit : (Point.functionStart naming).gives.Fits hole)
    (hp : (Point.functionStart naming).Spelt E vs) (ht : t.Spelt E ws)
    (h : step ⟨.functionStart naming, pending⟩ t = some r') :
    r'.Spelt E start (us ++ vs ++ ws) := by
  simp only [step] at h
  rw [List.append_assoc]
  split at h
  · rename_i hx
    split_ifs at h with hnaming
    cases h
    have hfit : Rule.Fits .functionDecl hole := by
      cases naming with
      | optional =>
        obtain rfl := hfit.eq (by simp [Point.gives])
        exact Rule.fits_statement (by decide)
      | required => exact hfit
      | forbidden => exact absurd rfl hnaming
    exact spelt_of_point _ hs hfit (Spells.snoc hp (ht.name hx))
  · rename_i hx
    split_ifs at h with hnaming
    cases h
    have hfit : Rule.Fits .expression hole := by
      cases naming with
      | optional =>
        obtain rfl := hfit.eq (by simp [Point.gives])
        exact Rule.fits_statement (by decide)
      | required => exact absurd rfl hnaming
      | forbidden => exact hfit
    exact spelt_of_point (.params none []) hs hfit
      ⟨vs ++ ws, [], (List.append_nil _).symm, Spells.snoc hp (ht.mark hx nofun), .none _⟩
  · cases h

/-- In a parameter list, before a name or the end. -/
private theorem spelt_params {name : Option String} {done : List String} {r' : Reading}
    (hs : SpellsStack E start hole pending us)
    (hfit : (Point.params name done).gives.Fits hole)
    (hp : (Point.params name done).Spelt E vs) (ht : t.Spelt E ws)
    (h : step ⟨.params name done, pending⟩ t = some r') :
    r'.Spelt E start (us ++ vs ++ ws) := by
  obtain ⟨xs, ys, rfl, hopening, hparams⟩ := hp
  simp only [step] at h
  split at h
  · rename_i hx
    cases h
    have := spelt_of_point (.afterParam name (t.text :: done)) hs hfit
      ⟨t.text, done, xs, ys, ws, rfl, rfl, hopening, hparams, ht.name hx⟩
    simpa only [List.append_assoc] using this
  · rename_i hx
    cases h
    have := spelt_bodyOpen hs hfit hopening hparams (ht.mark hx nofun)
    simpa only [List.append_assoc] using this
  · cases h

/-- In a parameter list, after a name. -/
private theorem spelt_afterParam {name : Option String} {done : List String} {r' : Reading}
    (hs : SpellsStack E start hole pending us)
    (hfit : (Point.afterParam name done).gives.Fits hole)
    (hp : (Point.afterParam name done).Spelt E vs) (ht : t.Spelt E ws)
    (h : step ⟨.afterParam name done, pending⟩ t = some r') :
    r'.Spelt E start (us ++ vs ++ ws) := by
  obtain ⟨last, before, xs, ys, zs, rfl, rfl, hopening, hparams, hlast⟩ := hp
  -- one more parameter, after which there may be a comma
  have hmore : ∀ {vs}, Spells E (optional (mark .comma)) vs [] →
      Spells E parameters (ys ++ (zs ++ vs)) ((last :: before).reverse.map Item.token) := by
    intro vs hcomma
    simpa [Ebnf.parameters] using Spells.more hparams (hlast.single.snoc hcomma)
  have hdone := hmore (.absent _)
  rw [List.append_nil] at hdone
  simp only [step] at h
  split at h
  · rename_i hx
    cases h
    have := spelt_of_point (.params name (last :: before)) hs hfit
      ⟨xs, _, rfl, hopening, hmore (ht.mark hx nofun).present⟩
    simpa only [List.append_assoc] using this
  · rename_i hx
    cases h
    have := spelt_of_point (.afterParam name (t.text :: last :: before)) hs hfit
      ⟨t.text, last :: before, xs, _, ws, rfl, rfl, hopening, hdone, ht.name hx⟩
    simpa only [List.append_assoc] using this
  · rename_i hx
    cases h
    have := spelt_bodyOpen hs hfit hopening hdone (ht.mark hx nofun)
    simpa only [List.append_assoc] using this
  · cases h

/-- After a separator between object members. -/
private theorem spelt_membersNext {entries : List (String × Node)} {r' : Reading}
    (hs : SpellsStack E start hole pending us) (hfit : Rule.Fits .expression hole)
    (hp : (Point.membersNext entries).Spelt E vs) (ht : t.Spelt E ws)
    (h : step ⟨.membersNext entries, pending⟩ t = some r') :
    r'.Spelt E start (us ++ vs ++ ws) := by
  simp only [step] at h
  rw [List.append_assoc]
  split at h
  · rename_i hx
    cases h
    exact spelt_of_point (.keyColon entries t.text) hs hfit ⟨vs, ws, rfl, hp, (ht.name hx).left⟩
  · rename_i hx
    cases h
    exact spelt_of_point (.keyColon entries t.text) hs hfit
      ⟨vs, ws, rfl, hp, (ht.token hx nofun nofun).right⟩
  · rename_i hx
    cases h
    exact spelt_of_point (.operand _) hs hfit (SpellsMembers.close hp (ht.mark hx nofun))
  · cases h

/-- **One step.** After a token the tokens read so far are those of the new state. -/
theorem spelt_step {r' : Reading} (hr : r.Spelt E start ts) (ht : t.Spelt E ws)
    (h : r.step t = some r') : r'.Spelt E start (ts ++ ws) := by
  obtain ⟨point, pending⟩ := r
  unfold step at h
  cases point
  case programStart =>
    obtain ⟨rfl, rfl, rfl⟩ := hr
    simp only at h
    split_ifs at h with hend
    · cases h
      obtain rfl := ht.nil hend
      exact (Spells.none (rule .statement)).made .program (by simp [grammar]) rfl
    · have hs : SpellsStack E .program .statement [.program []] [] :=
        ⟨rfl, .program, [], [], rfl, ⟨rfl, rfl⟩, .refl _, .none _⟩
      exact spelt_beginStatement hs ht h
  case accepted => cases h
  all_goals
    obtain ⟨hole, us, vs, rfl, hs, hfit, hp⟩ := hr
    simp only at h
  case bodyStart =>
    obtain rfl := hfit.eq (by simp [Point.gives])
    obtain rfl : vs = [] := hp
    rw [List.append_nil]
    split at h
    · rename_i head done rest hx
      obtain ⟨-, below, us, xs, rfl, hrest, hbelow, hp⟩ := hs
      cases h
      exact spelt_closeBody hrest hbelow hp (ht.mark hx nofun)
    · exact spelt_beginStatement hs ht h
  case bracesStart subject =>
    exact spelt_bracesStart hs hfit hp ht h
  case firstName name subject =>
    exact spelt_firstName hs hfit hp ht h
  case statementName name =>
    obtain rfl := hfit.eq (by simp [Point.gives])
    split_ifs at h with hx
    · cases h
      have := spelt_of_begun (.assignment name) hs
        (Rule.fits_statement (by simp [Pending.gives]))
        (hp.single.snoc (ht.mark hx nofun)) rfl
      simpa only [List.append_assoc] using this
    · exact spelt_afterOperand hs (Rule.fits_statement (by decide)) (Spells.operand_of_name hp) ht h
  case operand value => exact spelt_afterOperand hs hfit hp ht h
  case closed value => exact spelt_finishExpression hs hfit hp ht h
  case declared statement => exact spelt_finishStatement hs (Spells.fit hp hfit) ht h
  case spaceClosed statement => exact spelt_finishStatement hs (Spells.fit hp hfit) ht h
  case expressionStart =>
    obtain rfl : vs = [] := hp
    simpa only [List.append_nil] using spelt_beginExpression hs hfit ht h
  case elementsStart =>
    obtain rfl : vs = [] := hp
    simpa only [List.append_nil] using spelt_afterComma hs hfit ht h
  case argumentsStart =>
    obtain rfl : vs = [] := hp
    simpa only [List.append_nil] using spelt_afterComma hs hfit ht h
  case afterComma =>
    obtain rfl : vs = [] := hp
    simpa only [List.append_nil] using spelt_afterComma hs hfit ht h
  case loopStart =>
    split_ifs at h with hx
    · cases h
      have := spelt_of_point .counterName hs hfit ⟨vs, ws, rfl, hp, (ht.mark hx nofun).single⟩
      simpa only [List.append_assoc] using this
    · have := hs.push (.count none) hfit (Spells.snoc_nil hp (.absent _))
      exact spelt_beginExpression this (.refl _) ht h
  case counterName =>
    obtain ⟨xs, ys, rfl, htilde, hhash⟩ := hp
    refine spelt_next (.counterComma t.text) hs hfit h fun hx => ?_
    exact ⟨xs, ys ++ ws, List.append_assoc .., htilde, hhash.snoc (ht.name hx)⟩
  case counterComma name =>
    obtain ⟨xs, ys, rfl, htilde, hcounter⟩ := hp
    refine spelt_next_begun (.count (some name)) hs hfit h (fun hx => ?_) (.refl _) rfl
    rw [List.append_assoc]
    exact htilde.snoc (hcounter.snoc (ht.mark hx nofun)).present
  case eachStart =>
    exact spelt_next .itemName hs hfit h fun hx => Spells.snoc hp (ht.mark hx nofun)
  case itemName =>
    exact spelt_next (.itemComma t.text) hs hfit h fun hx => Spells.snoc hp (ht.name hx)
  case itemComma name =>
    exact spelt_next_begun (.collection name) hs hfit h
      (fun hx => Spells.snoc hp (ht.mark hx nofun)) (.refl _) rfl
  case constantName =>
    exact spelt_next (.constantSign t.text) hs hfit h fun hx => Spells.snoc hp (ht.name hx)
  case constantSign name =>
    exact spelt_next_begun (.constant name) hs hfit h
      (fun hx => Spells.snoc hp (ht.mark hx nofun)) (.refl _) rfl
  case variableName =>
    exact spelt_next (.variableSign t.text) hs hfit h fun hx => Spells.snoc hp (ht.name hx)
  case variableSign name =>
    exact spelt_next_begun (.variableValue name) hs hfit h
      (fun hx => Spells.snoc hp (ht.mark hx nofun)) (.refl _) rfl
  case spaceName =>
    exact spelt_next (.spaceOpen t.text) hs hfit h fun hx => Spells.snoc hp (ht.name hx)
  case spaceOpen name =>
    exact spelt_next_begun (.space name []) hs hfit h
      (fun hx => (Spells.snoc hp (ht.mark hx nofun)).snoc_nil (.none _)) (.refl _) rfl
  case spaceStart =>
    obtain rfl : vs = [] := hp
    rw [List.append_nil]
    split at h
    · obtain ⟨-, below, us, xs, rfl, hrest, hbelow, hp⟩ := hs
      exact spelt_beginMember hrest hbelow hp ht h
    · cases h
  case functionStart naming => exact spelt_functionStart hs hfit hp ht h
  case paramsOpen name =>
    refine spelt_next (.params (some name) []) hs hfit h fun hx => ?_
    exact ⟨vs ++ ws, [], (List.append_nil _).symm, Spells.snoc hp (ht.mark hx nofun), .none _⟩
  case params name done => exact spelt_params hs hfit hp ht h
  case afterParam name done => exact spelt_afterParam hs hfit hp ht h
  case bodyOpen head =>
    refine spelt_next_begun (.body head []) hs hfit h (fun hx => ?_) (.refl _) rfl
    exact ⟨vs, ws, rfl, hp, (ht.mark hx nofun).single.snoc_nil (.none _)⟩
  case propertyName target =>
    refine spelt_next (.operand (.member target t.text)) hs hfit h fun hx => ?_
    exact (Spells.snoc hp (ht.name hx)).made .member (by simp [grammar]) rfl
  case keyColon entries key =>
    obtain ⟨xs, ys, rfl, hmembers, hkey⟩ := hp
    refine spelt_next_begun (.memberValue entries key) hs hfit h (fun hx => ?_) (.refl _) rfl
    exact ⟨xs, ys ++ ws, List.append_assoc .., hmembers, hkey.single.snoc (ht.mark hx nofun)⟩
  case membersNext entries => exact spelt_membersNext hs hfit hp ht h
  case defaultArrow subject arms =>
    obtain ⟨xs, ys, rfl, harms, hstar⟩ := hp
    refine spelt_next_begun (.defaultBody subject arms) hs hfit h (fun hx => ?_) (.refl _) rfl
    exact ⟨xs, ys ++ ws, List.append_assoc .., harms, hstar.snoc (ht.mark hx nofun)⟩

end Reading

end Sigil
