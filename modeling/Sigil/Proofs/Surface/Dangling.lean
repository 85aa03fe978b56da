import Sigil.Proofs.Surface.RoundTrip

/-!
# Dangling clauses of conditionals

Conditionals can be nested without parentheses, each in the body of the one before it, and the
clauses that follow the innermost body then belong to different conditionals. `Nest.attach` tells to
which: a clause goes to the innermost conditional that has no last clause yet.
`parseExpression_clauses` says that the reader follows this rule for every nesting and every list
of clauses, and that it fails exactly if a clause finds no such conditional.

The reader keeps the open conditionals on its stack. `Holds t p v q` relates a nest to the operand
that has just been read and to the stack around it; a clause is one step of this relation
(`Holds.clause`), and a list of clauses is a run.
-/

namespace Sigil

/-! ### Nested conditionals and their clauses -/

/-- A clause after the body of a conditional. -/
inductive Clause where
  /-- The last clause of a conditional. -/
  | otherwise (body : VarName)
  /-- A further branch. -/
  | branch (condition body : VarName)

/-- Conditionals that are nested in the bodies of their first branches. -/
inductive Nest where
  /-- The innermost body. -/
  | body (x : VarName)
  /-- A conditional: its first branch, the further branches and the last clause. -/
  | conditional (condition : VarName) (body : Nest) (branches : List (VarName × VarName))
      (otherwise : Option VarName)

/-- A branch as the tree has it. -/
def branchNode (branch : VarName × VarName) : Node × Node :=
  (.ident branch.1, .ident branch.2)

namespace Nest

/-- The conditionals with the given conditions around a body, without clauses. -/
def ofConditions : List VarName → VarName → Nest
  | [], x => body x
  | c :: cs, x => conditional c (ofConditions cs x) [] none

/-- **The rule of dangling clauses.** A clause goes to the innermost conditional that has no last
clause yet: as its next branch, or as its last clause, which closes it. -/
def attach (clause : Clause) : Nest → Option Nest
  | body _ => none
  | conditional c inner branches otherwise =>
    match inner.attach clause, otherwise, clause with
    | some inner, _, _ => some (conditional c inner branches otherwise)
    | none, none, .branch c' x => some (conditional c inner (branches ++ [(c', x)]) none)
    | none, none, .otherwise x => some (conditional c inner branches (some x))
    | none, some _, _ => none

/-- The syntax tree of nested conditionals. -/
def toNode : Nest → Node
  | body x => .ident x
  | conditional c inner branches otherwise =>
    .conditional ((.ident c, inner.toNode) :: branches.map branchNode)
      (otherwise.elim .absent fun x => .ident x)

/-- Some conditional has no last clause yet. -/
def isOpen : Nest → Bool
  | body _ => false
  | conditional _ inner _ otherwise => inner.isOpen || otherwise.isNone

private theorem attach_eq_none_iff {clause : Clause} {t : Nest} :
    t.attach clause = none ↔ t.isOpen = false := by
  induction t with
  | body x => simp [attach, isOpen]
  | conditional c inner branches otherwise ih =>
    cases hinner : inner.attach clause with
    | some inner' =>
      have hopen : inner.isOpen = true := by
        rw [hinner] at ih
        simpa using ih
      simp [attach, hinner, isOpen, hopen]
    | none =>
      have hclosed : inner.isOpen = false := ih.1 hinner
      cases otherwise <;> cases clause <;> simp [attach, hinner, isOpen, hclosed]

end Nest

/-! ### Their text -/

/-- The text of a clause, after a blank. -/
def Clause.text : Clause → List Char
  | .otherwise x => ' ' :: '.' :: ' ' :: x.1.toList
  | .branch c x => ' ' :: '.' :: '?' :: ' ' :: (c.1.toList ++ ' ' :: x.1.toList)

/-- **The text of nested conditionals with clauses after them**, with single blanks. -/
def danglingText (conditions : List VarName) (x : VarName) (clauses : List Clause) : List Char :=
  conditions.flatMap (fun c => '?' :: ' ' :: (c.1.toList ++ [' '])) ++
    (x.1.toList ++ clauses.flatMap Clause.text)

/-! ### The stack of the reader -/

/-- The branches of a conditional as the tree has them. -/
def branchNodes (c : VarName) (inner : Nest) (branches : List (VarName × VarName)) :
    List (Node × Node) :=
  (.ident c, inner.toNode) :: branches.map branchNode

/-- **The reader holds a nest** above the constructs `p` if it has just read the operand `v` and has
the constructs `q` open: the conditionals that wait for the end of a body or of a last clause. -/
inductive Holds : Nest → List Pending → Node → List Pending → Prop
  | body {x : VarName} {p : List Pending} : Holds (.body x) p (.ident x) p
  | first {c : VarName} {inner : Nest} {p q : List Pending} {v : Node} :
      Holds inner (.branchBody [] (.ident c) :: p) v q → Holds (.conditional c inner [] none) p v q
  | branch {c c' x : VarName} {inner : Nest} {branches : List (VarName × VarName)}
        {p : List Pending} :
      inner.isOpen = false → Holds (.conditional c inner (branches ++ [(c', x)]) none) p (.ident x)
        (.branchBody (branchNodes c inner branches).reverse (.ident c') :: p)
  | otherwise {c x : VarName} {inner : Nest} {branches : List (VarName × VarName)}
        {p : List Pending} :
      inner.isOpen = false → Holds (.conditional c inner branches (some x)) p (.ident x)
        (.otherwise (branchNodes c inner branches).reverse :: p)

namespace Holds

variable {t : Nest} {p q : List Pending} {v : Node}

/-- A nest in which nothing is open is handed on as a whole. -/
private theorem finish_closed (h : Holds t p v q) (hclosed : t.isOpen = false) (token : Token) :
    Reading.finishExpression v q token = Reading.finishExpression t.toNode p token := by
  cases h with
  | body => rfl
  | first => simp [Nest.isOpen] at hclosed
  | branch => simp [Nest.isOpen] at hclosed
  | otherwise =>
    simp only [Reading.finishExpression, List.reverse_reverse]
    rfl

/-- At the end of the text every nest is handed on as a whole. -/
private theorem finish_end (h : Holds t p v q) :
    Reading.finishExpression v q endToken = Reading.finishExpression t.toNode p endToken := by
  induction h with
  | body => rfl
  | first _ ih => exact ih
  | branch _ =>
    simp only [Reading.finishExpression, endToken, List.reverse_cons, List.reverse_reverse]
    simp [Nest.toNode, branchNodes, branchNode]
  | otherwise _ =>
    simp only [Reading.finishExpression, List.reverse_reverse]
    rfl

/-- What a clause does to a nest that is open: the innermost open conditional, with its branches so
far, takes it up. -/
structure Takes (t : Nest) (p : List Pending) (v : Node) (q : List Pending)
    (branches : List (Node × Node)) (outer : List Pending) : Prop where
  /-- The sign of a last clause. -/
  dot : ∀ token : Token, token.terminal = .dot →
    Reading.finishExpression v q token = some ⟨.expressionStart, .otherwise branches :: outer⟩
  /-- The sign of a further branch. -/
  dotQuestion : ∀ token : Token, token.terminal = .dotQuestion →
    Reading.finishExpression v q token = some ⟨.expressionStart, .branchCondition branches :: outer⟩
  /-- The nest after a last clause. -/
  otherwise : ∀ x : VarName, ∃ t', t.attach (.otherwise x) = some t' ∧
    Holds t' p (.ident x) (.otherwise branches :: outer)
  /-- The nest after a further branch. -/
  branch : ∀ c x : VarName, ∃ t', t.attach (.branch c x) = some t' ∧
    Holds t' p (.ident x) (.branchBody branches (.ident c) :: outer)

/-- **An open nest takes up a clause.** -/
theorem takes (h : Holds t p v q) (hopen : t.isOpen = true) :
    ∃ branches outer, Takes t p v q branches outer := by
  induction h with
  | body => cases hopen
  | otherwise hclosed => simp [Nest.isOpen, hclosed] at hopen
  | @branch c c' x inner branches p hclosed =>
    have hattach : ∀ clause, inner.attach clause = none :=
      fun _ => Nest.attach_eq_none_iff.2 hclosed
    have hbranches : (branchNodes c inner (branches ++ [(c', x)])).reverse =
        (.ident c', .ident x) :: (branchNodes c inner branches).reverse := by
      simp [branchNodes, branchNode]
    refine ⟨(branchNodes c inner (branches ++ [(c', x)])).reverse, p, ?_, ?_, ?_, ?_⟩
    · intro token htoken
      simp [Reading.finishExpression, htoken, hbranches]
    · intro token htoken
      simp [Reading.finishExpression, htoken, hbranches]
    · intro y
      exact ⟨_, by simp [Nest.attach, hattach], .otherwise hclosed⟩
    · intro d y
      exact ⟨_, by simp only [Nest.attach, hattach], .branch hclosed⟩
  | @first c inner p q v hinner ih =>
    by_cases hinside : inner.isOpen = true
    · -- a conditional further inside takes the clause
      obtain ⟨branches, outer, htakes⟩ := ih hinside
      refine ⟨branches, outer, htakes.dot, htakes.dotQuestion, fun x => ?_, fun d x => ?_⟩
      · obtain ⟨t', hattach, hholds⟩ := htakes.otherwise x
        exact ⟨_, by simp [Nest.attach, hattach], .first hholds⟩
      · obtain ⟨t', hattach, hholds⟩ := htakes.branch d x
        exact ⟨_, by simp [Nest.attach, hattach], .first hholds⟩
    · -- the body is complete, so this conditional takes it
      have hclosed : inner.isOpen = false := by simpa using hinside
      have hattach : ∀ clause, inner.attach clause = none :=
        fun _ => Nest.attach_eq_none_iff.2 hclosed
      refine ⟨(branchNodes c inner []).reverse, p, ?_, ?_, ?_, ?_⟩
      · intro token htoken
        rw [hinner.finish_closed hclosed]
        simp [Reading.finishExpression, htoken, branchNodes]
      · intro token htoken
        rw [hinner.finish_closed hclosed]
        simp [Reading.finishExpression, htoken, branchNodes]
      · intro y
        exact ⟨_, by simp [Nest.attach, hattach], .otherwise hclosed⟩
      · intro d y
        exact ⟨_, by simp only [Nest.attach, hattach], .branch hclosed⟩

end Holds

/-! ### Reading -/

section Reading

variable {readExpr : ExprReader} {r : Reading} {t t' : Nest} {p q : List Pending} {v : Node}
  {before after : List Char}

private theorem Delimits.clauses (clauses : List Clause) :
    Delimits (clauses.flatMap Clause.text) := by
  cases clauses with
  | nil => exact .nil
  | cons clause clauses => cases clause <;> exact .blank _

/-- The reader is at a place where the constructs `q` wait for an expression. -/
structure AtOperand (r : Reading) (q : List Pending) : Prop where
  /-- A name is looked for. -/
  admits : r.point.expect.admits .name = true
  /-- A name is the expression. -/
  name : ∀ x : String, r.step ⟨.name, x, .ident x⟩ = some ⟨.operand (.ident x), q⟩
  /-- A conditional is the expression. -/
  question : Leads r .question ⟨.expressionStart, .condition :: q⟩

/-- The reader passes over nested conditionals up to the innermost body, and holds them. -/
private theorem AtOperand.passes_conditions (readExpr : ExprReader) (conditions : List VarName)
    (x : VarName) (hr : AtOperand r q) (hbefore : Apart before) (hafter : Delimits after) :
    ∃ v q', Holds (.ofConditions conditions x) q v q' ∧
      Passes readExpr r before
        (conditions.flatMap (fun c => '?' :: ' ' :: (c.1.toList ++ [' '])) ++ x.1.toList) after
        ⟨.operand v, q'⟩ := by
  induction conditions generalizing r q before with
  | nil => exact ⟨_, _, .body, .name x.2 hr.admits (hr.name x) hafter⟩
  | cons c conditions ih =>
    have hsign : Walks readExpr r Terminal.question.word ⟨.expressionStart, .condition :: q⟩ :=
      hr.question.walks (by decide)
    have hwalk := hsign.trans (.name c.2 rfl rfl)
    have hnext : AtOperand ⟨.operand (.ident c), .condition :: q⟩
        (.branchBody [] (.ident c) :: q) := ⟨rfl, fun _ => rfl, rfl, fun _ => rfl⟩
    obtain ⟨v, q', hholds, hpasses⟩ := ih hnext (hwalk before hbefore).1
    refine ⟨v, q', .first hholds, ?_⟩
    have htext : Terminal.question.word ++ nameWord c = '?' :: ' ' :: (c.1.toList ++ [' ']) := rfl
    rw [List.flatMap_cons, List.append_assoc, ← htext]
    exact (Passes.of_walks hwalk hbefore).trans hpasses

/-- **One clause.** The reader passes over a clause that an open conditional takes up. -/
theorem Holds.passes_clause {clause : Clause} (h : Holds t p v q)
    (hattach : t.attach clause = some t') (hafter : Delimits after) :
    ∃ v' q', Holds t' p v' q' ∧
      Passes readExpr ⟨.operand v, q⟩ before clause.text after ⟨.operand v', q'⟩ := by
  have hopen : t.isOpen = true := by
    by_contra hclosed
    rw [Bool.not_eq_true, ← Nest.attach_eq_none_iff, hattach] at hclosed
    cases hclosed
  obtain ⟨branches, outer, htakes⟩ := h.takes hopen
  cases clause with
  | otherwise x =>
    obtain ⟨t'', ht'', hholds⟩ := htakes.otherwise x
    obtain rfl : t'' = t' := Option.some.inj (ht''.symm.trans hattach)
    refine ⟨_, _, hholds, .blank ?_⟩
    have hsign : Walks readExpr ⟨.operand v, q⟩ Terminal.dot.word
        ⟨.expressionStart, .otherwise branches :: outer⟩ :=
      .sign .dot (by decide) rfl fun leaf => htakes.dot _ rfl
    exact (Passes.of_walks hsign (by simp [Apart])).trans (.name x.2 rfl rfl hafter)
  | branch c x =>
    obtain ⟨t'', ht'', hholds⟩ := htakes.branch c x
    obtain rfl : t'' = t' := Option.some.inj (ht''.symm.trans hattach)
    refine ⟨_, _, hholds, .blank ?_⟩
    have hsign : Walks readExpr ⟨.operand v, q⟩ Terminal.dotQuestion.word
        ⟨.expressionStart, .branchCondition branches :: outer⟩ :=
      .sign .dotQuestion (by decide) rfl fun leaf => htakes.dotQuestion _ rfl
    have hwalk := hsign.trans (.name c.2 rfl rfl)
    have htext : '.' :: '?' :: ' ' :: (c.1.toList ++ ' ' :: x.1.toList) =
        Terminal.dotQuestion.word ++ nameWord c ++ x.1.toList := by
      simp [Terminal.word, Terminal.sign, nameWord]
    rw [htext]
    exact (Passes.of_walks hwalk (by simp [Apart])).trans (.name x.2 rfl rfl hafter)

/-- A clause that no conditional takes up is an error. -/
private theorem Holds.read_clause_error {clause : Clause} (h : Holds t [.expression] v q)
    (hattach : t.attach clause = none) (rest : List Char) (last : Cursor) :
    ∃ e, Reading.read readExpr ⟨.operand v, q⟩ ⟨before, clause.text ++ rest⟩ last none =
      .error e := by
  have hfinish := h.finish_closed (Nest.attach_eq_none_iff.1 hattach)
  have hblank : Apart (' ' :: before) := by simp [Apart]
  have hskip := fun rest => Cursor.skipLayout_blank before rest
  cases clause with
  | otherwise x =>
    obtain ⟨e, he⟩ := Reading.read_sign_error .dot (by decide) rfl (r := ⟨.operand v, q⟩)
      (fun leaf => hfinish _) hblank (x.1.toList ++ rest) last
    exact ⟨e, (Reading.read_congr (hskip _)).trans he⟩
  | branch c x =>
    obtain ⟨e, he⟩ := Reading.read_sign_error .dotQuestion (by decide) rfl (r := ⟨.operand v, q⟩)
      (fun leaf => hfinish _) hblank (c.1.toList ++ ' ' :: x.1.toList ++ rest) last
    exact ⟨e, (Reading.read_congr (hskip _)).trans (by simpa [Terminal.sign] using he)⟩

/-- **A list of clauses.** The reader follows the rule clause by clause to the end of the text. -/
theorem Holds.read_clauses {clauses : List Clause} (h : Holds t [.expression] v q) (last : Cursor) :
    (∀ t', clauses.foldlM (fun t clause => t.attach clause) t = some t' →
      Reading.read readExpr ⟨.operand v, q⟩ ⟨before, clauses.flatMap Clause.text⟩ last none =
        .ok t'.toNode) ∧
    (clauses.foldlM (fun t clause => t.attach clause) t = none →
      ∃ e, Reading.read readExpr ⟨.operand v, q⟩ ⟨before, clauses.flatMap Clause.text⟩ last none =
        .error e) := by
  induction clauses generalizing t v q before last with
  | nil =>
    refine ⟨fun t' ht' => ?_, nofun⟩
    cases ht'
    have hstep : Reading.step ⟨.operand v, q⟩ endToken = some ⟨.accepted t.toNode, []⟩ :=
      h.finish_end
    rw [List.flatMap_nil, Reading.read_of_end (by simp)]
    simp [Reading.finish, hstep]
  | cons clause clauses ih =>
    rw [List.flatMap_cons]
    cases hattach : t.attach clause with
    | none =>
      refine ⟨fun t' ht' => ?_, fun _ => h.read_clause_error hattach _ last⟩
      simp [hattach] at ht'
    | some t₁ =>
      obtain ⟨v', q', hholds, hpasses⟩ := h.passes_clause hattach (.clauses clauses)
      obtain ⟨last', hlast'⟩ := hpasses last
      rw [hlast']
      simpa [hattach] using ih hholds last'

end Reading

/-- **Dangling clauses.** A text of nested conditionals and clauses is read as the tree in which
each clause in turn is attached to the innermost conditional that has no last clause yet, and it is
an error exactly if a clause finds no such conditional. -/
theorem parseExpression_clauses (conditions : List VarName) (x : VarName)
    (clauses : List Clause) :
    let nest := clauses.foldlM (fun t clause => t.attach clause) (Nest.ofConditions conditions x)
    let text := String.ofList (danglingText conditions x clauses)
    (∀ t, nest = some t → parseExpression text = .ok t.toNode) ∧
      ((∃ e, parseExpression text = .error e) ↔ nest = none) := by
  intro nest text
  have hstart : AtOperand Reading.expression [.expression] :=
    ⟨rfl, fun _ => rfl, rfl, fun _ => rfl⟩
  have happart : Apart [] := nofun
  obtain ⟨v, q, hholds, hpasses⟩ :=
    hstart.passes_conditions readEmbedded conditions x happart (.clauses clauses)
  obtain ⟨last, hlast⟩ := hpasses (.start (danglingText conditions x clauses))
  rw [List.append_assoc] at hlast
  have hparse : parseExpression text =
      Reading.expression.readText readEmbedded (danglingText conditions x clauses) := by
    rw [parseExpression, String.toList_ofList]
  obtain ⟨hok, herror⟩ := hholds.read_clauses last
  rw [hparse.trans hlast]
  refine ⟨hok, fun ⟨e, he⟩ => ?_, herror⟩
  cases hnest : nest with
  | none => rfl
  | some t =>
    rw [hok t hnest] at he
    cases he

/-- The first last clause closes the inner conditional, so that what follows belongs to the outer
one. A second last clause after the only conditional is an error. -/
theorem parseExpression_clauses_nested :
    parseExpression "? a ? b c . d .? e f . g" =
        .ok (.conditional
          [(.ident "a", .conditional [(.ident "b", .ident "c")] (.ident "d")),
            (.ident "e", .ident "f")]
          (.ident "g")) ∧
      ∃ e, parseExpression "? a b . c . d" = .error e := by
  have nested := parseExpression_clauses [⟨"a", by decide⟩, ⟨"b", by decide⟩] ⟨"c", by decide⟩
    [.otherwise ⟨"d", by decide⟩, .branch ⟨"e", by decide⟩ ⟨"f", by decide⟩,
      .otherwise ⟨"g", by decide⟩]
  have single := parseExpression_clauses [⟨"a", by decide⟩] ⟨"b", by decide⟩
    [.otherwise ⟨"c", by decide⟩, .otherwise ⟨"d", by decide⟩]
  exact ⟨nested.1 _ rfl, single.2.2 rfl⟩

end Sigil
