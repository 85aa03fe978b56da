import Sigil.Proofs.Surface.Template

/-!
# Written programs are read back

The reader walks over the text of a tree and comes out with the tree. An expression is written
between parentheses, so the state after its text is one that a closing parenthesis completes
(`ReadsAs`); a statement ends where the next one starts or the braces around it close (`Finished`).
The walks over lists carry along what the construct around them holds so far.
-/

namespace Sigil

open Printer

/-! ### Single signs -/

/-- A sign leads the reader from one state to another. -/
structure Leads (r : Reading) (t : Terminal) (r' : Reading) : Prop where
  /-- The sign is looked for. -/
  admits : r.point.expect.admits t = true
  /-- It is a step to the other state. -/
  step : ∀ leaf, r.step ⟨t, String.ofList t.sign, leaf⟩ = some r'

theorem Leads.walks {readExpr : ExprReader} {r r' : Reading} {t : Terminal} (h : Leads r t r')
    (ht : t.sign ≠ []) : Walks readExpr r t.word r' :=
  .sign t ht h.admits h.step

/-- The reader is at a place where a parenthesis starts an expression. -/
def Opening (r : Reading) (p : List Pending) : Prop :=
  Leads r .leftParen ⟨.expressionStart, .group [] :: p⟩

/-- The reader is at a place where a parenthesis completes an expression. -/
def Closing (r : Reading) (e : Node) (p : List Pending) : Prop :=
  Leads r .rightParen ⟨.operand e, p⟩

section Expressions

variable {readExpr : ExprReader} {write : Float → List Char} {r : Reading} {e : Node}
  {p : List Pending} {text : List Char}

/-! ### Expressions in parentheses -/

/-- **The text of an expression is read as the expression**, between parentheses. -/
def ReadsAs (readExpr : ExprReader) (text : List Char) (e : Node) : Prop :=
  ∀ p, ∃ r, Walks readExpr ⟨.expressionStart, .group [] :: p⟩ text r ∧ Closing r e p

/-- A walk that ends at an operand. -/
private theorem ReadsAs.of_walks
    (h : ∀ p, Walks readExpr ⟨.expressionStart, p⟩ text ⟨.operand e, p⟩) :
    ReadsAs readExpr text e :=
  fun p => ⟨_, h (.group [] :: p), ⟨rfl, fun _ => rfl⟩⟩

private theorem Opening.of_expressionStart (p : List Pending) : Opening ⟨.expressionStart, p⟩ p :=
  ⟨rfl, fun _ => rfl⟩

/-- **The reader walks over an expression in parentheses.** -/
theorem ReadsAs.group (h : ReadsAs readExpr text e) (hr : Opening r p) :
    Walks readExpr r (group text) ⟨.operand e, p⟩ := by
  obtain ⟨r', hwalk, hclosing⟩ := h p
  exact ((hr.walks (by decide)).trans hwalk).trans (hclosing.walks (by decide))

/-- The reader walks over an expression in parentheses where an expression starts. -/
private theorem ReadsAs.operand (h : ReadsAs readExpr text e) (p : List Pending) :
    Walks readExpr ⟨.expressionStart, p⟩ (Printer.group text) ⟨.operand e, p⟩ :=
  h.group (.of_expressionStart p)

/-- An expression in parentheses that an opener extends. -/
private theorem ReadsAs.extended (h : ReadsAs readExpr text e) (t : Terminal) (opener : Char)
    (ht : (t, opener) ∈ [(Terminal.callOpen, '('), (.indexOpen, '['), (.memberDot, '.')])
    (hopen : Reading.afterOperand e p ⟨t, String.ofList [opener], .absent⟩ = some r) :
    Walks readExpr ⟨.expressionStart, p⟩ (Terminal.leftParen.word ++ text ++ [')', opener, ' '])
      r := by
  obtain ⟨r', hwalk, hclosing⟩ := h p
  exact (((Opening.of_expressionStart p).walks (by decide)).trans hwalk).trans
    (.touching ht hclosing.admits hclosing.step hopen)

/-! ### Elements and arguments -/

/-- The reader is in a list of expressions, where the next one may start and where the list may
end: `hold` is the construct around it and `make` the tree of the whole. -/
structure AtItem (hold : List Node → Pending) (closer : Terminal) (make : List Node → Node)
    (r : Reading) (done : List Node) (p : List Pending) : Prop where
  /-- The next expression may start here. -/
  opening : Opening r (hold done :: p)
  /-- The list may end here. -/
  closing : Leads r closer ⟨.operand (make done.reverse), p⟩

/-- The reader walks over expressions in parentheses up to the end of their list. -/
private theorem walks_groups {hold : List Node → Pending} {closer : Terminal}
    {make : List Node → Node} (hcloser : closer.sign ≠ [])
    (hnext : ∀ e done, AtItem hold closer make ⟨.operand e, hold done :: p⟩ (e :: done) p)
    {es done : List Node} (h : ∀ e ∈ es, ReadsAs readExpr (node write e) e)
    (hr : AtItem hold closer make r done p) :
    Walks readExpr r (groups write es ++ closer.word)
      ⟨.operand (make (done.reverse ++ es)), p⟩ := by
  induction es generalizing r done with
  | nil => simpa [groups] using hr.closing.walks hcloser
  | cons e es ih =>
    have hfirst := (h e List.mem_cons_self).group hr.opening
    have hrest := ih (fun x hx => h x (List.mem_cons_of_mem e hx)) (hnext e done)
    simpa [groups] using hfirst.trans hrest

/-! ### Object members -/

/-- The reader is in an object, where the next member may start and where the object may end. -/
structure AtKey (r : Reading) (done : List (String × Node)) (p : List Pending) : Prop where
  /-- A name is looked for. -/
  admits : r.point.expect.admits .name = true
  /-- A name and a colon start a member. -/
  key : ∀ name, ∃ r', r.step ⟨.name, name, .ident name⟩ = some r' ∧
    Leads r' .colon ⟨.expressionStart, .memberValue done name :: p⟩
  /-- The object may end here. -/
  closing : Leads r .rightBrace ⟨.operand (.object done.reverse), p⟩

private theorem walks_members {entries done : List (String × Node)}
    (hkeys : ∀ entry ∈ entries, IsVarName entry.1)
    (h : ∀ entry ∈ entries, ReadsAs readExpr (node write entry.2) entry.2) (hr : AtKey r done p) :
    Walks readExpr r (members write entries ++ Terminal.rightBrace.word)
      ⟨.operand (.object (done.reverse ++ entries)), p⟩ := by
  induction entries generalizing r done with
  | nil => simpa [members] using hr.closing.walks (by decide)
  | cons entry entries ih =>
    obtain ⟨name, value⟩ := entry
    obtain ⟨r', hname, hcolon⟩ := hr.key name
    have hkey : Walks readExpr r (nameWord name) r' :=
      .name (hkeys (name, value) List.mem_cons_self) hr.admits hname
    have hvalue := (h (name, value) List.mem_cons_self).operand (.memberValue done name :: p)
    have hcomma : Leads ⟨.operand value, .memberValue done name :: p⟩ .comma
        ⟨.membersNext ((name, value) :: done), p⟩ := ⟨rfl, fun _ => rfl⟩
    have hnext : AtKey ⟨.membersNext ((name, value) :: done), p⟩ ((name, value) :: done) p :=
      ⟨rfl, fun _ => ⟨_, rfl, rfl, fun _ => rfl⟩, rfl, fun _ => rfl⟩
    have hrest := ih (fun x hx => hkeys x (List.mem_cons_of_mem (name, value) hx))
      (fun x hx => h x (List.mem_cons_of_mem (name, value) hx)) hnext
    simpa [members] using hkey.trans ((hcolon.walks (by decide)).trans
      (hvalue.trans ((hcomma.walks (by decide)).trans hrest)))

/-! ### Conditionals and selections -/

/-- The reader walks over a branch of a conditional. `start` is the construct that waits for its
condition. -/
private theorem walks_branch {sign : Terminal} (hsign : sign.sign ≠ []) {start : Pending}
    {done : List (Node × Node)} {condition body : Node}
    (hr : Leads r sign ⟨.expressionStart, start :: p⟩)
    (hstart : ∀ c, Opening ⟨.operand c, start :: p⟩ (.branchBody done c :: p))
    (hcondition : ReadsAs readExpr (node write condition) condition)
    (hbody : ReadsAs readExpr (node write body) body) :
    Walks readExpr r (sign.word ++ group (node write condition) ++ group (node write body))
      ⟨.operand body, .branchBody done condition :: p⟩ :=
  ((hr.walks hsign).trans (hcondition.operand _)).trans (hbody.group (hstart condition))

/-- The reader walks over further branches of a conditional, up to the body of the last one. -/
private theorem walks_branches (done : List (Node × Node)) {clauses : List (Node × Node)}
    {condition body : Node}
    (h : ∀ c ∈ clauses, ReadsAs readExpr (node write c.1) c.1)
    (h' : ∀ c ∈ clauses, ReadsAs readExpr (node write c.2) c.2) :
    ∃ last before, Walks readExpr ⟨.operand body, .branchBody done condition :: p⟩
        (branches write .dotQuestion clauses) ⟨.operand last.2, .branchBody before last.1 :: p⟩ ∧
      (last :: before).reverse = ((condition, body) :: done).reverse ++ clauses := by
  induction clauses generalizing done condition body with
  | nil => exact ⟨(condition, body), done, .nil, by simp⟩
  | cons clause clauses ih =>
    obtain ⟨condition', body'⟩ := clause
    have hsign : Leads ⟨.operand body, .branchBody done condition :: p⟩ .dotQuestion
        ⟨.expressionStart, .branchCondition ((condition, body) :: done) :: p⟩ :=
      ⟨rfl, fun _ => rfl⟩
    have hfirst := walks_branch (by decide) hsign (fun _ => ⟨rfl, fun _ => rfl⟩)
      (h _ List.mem_cons_self) (h' _ List.mem_cons_self)
    obtain ⟨last, before, hwalk, hlast⟩ := ih _ (fun c hc => h c (List.mem_cons_of_mem _ hc))
      fun c hc => h' c (List.mem_cons_of_mem _ hc)
    exact ⟨last, before, hfirst.trans hwalk, by simpa using hlast⟩

/-- The reader is in a selection, where the next arm may start. -/
structure AtArm (subject : Node) (r : Reading) (done : List (Node × Node)) (p : List Pending) :
    Prop where
  /-- A pattern and an arrow start an arm. -/
  pattern : ∃ q, Opening r (q :: p) ∧ ∀ pattern, Leads ⟨.operand pattern, q :: p⟩ .doubleArrow
    ⟨.expressionStart, .armBody subject done pattern :: p⟩
  /-- The default arm may start here. -/
  default : Leads r .star ⟨.defaultArrow subject done, p⟩
  /-- After an arm the selection may end. -/
  closing : done ≠ [] → Leads r .rightBrace ⟨.closed (.selection subject done.reverse .absent), p⟩

private theorem walks_arms {subject : Node} {done clauses : List (Node × Node)}
    (h : ∀ c ∈ clauses, ReadsAs readExpr (node write c.1) c.1)
    (h' : ∀ c ∈ clauses, ReadsAs readExpr (node write c.2) c.2) (hr : AtArm subject r done p) :
    ∃ r', Walks readExpr r (arms write clauses) r' ∧
      AtArm subject r' (clauses.reverse ++ done) p := by
  induction clauses generalizing r done with
  | nil => exact ⟨r, .nil, hr⟩
  | cons clause clauses ih =>
    obtain ⟨pattern, body⟩ := clause
    obtain ⟨q, hopen, harrow⟩ := hr.pattern
    have hpattern := (h _ List.mem_cons_self).group hopen
    have hbody := (h' _ List.mem_cons_self).operand (.armBody subject done pattern :: p)
    have hnext : AtArm subject ⟨.operand body, .armBody subject done pattern :: p⟩
        ((pattern, body) :: done) p :=
      ⟨⟨.pattern subject ((pattern, body) :: done), ⟨rfl, fun _ => rfl⟩,
        fun _ => ⟨rfl, fun _ => rfl⟩⟩, ⟨rfl, fun _ => rfl⟩, fun _ => ⟨rfl, fun _ => rfl⟩⟩
    obtain ⟨r', hwalk, hr'⟩ := ih (fun c hc => h c (List.mem_cons_of_mem _ hc))
      (fun c hc => h' c (List.mem_cons_of_mem _ hc)) hnext
    refine ⟨r', ?_, by simpa using hr'⟩
    simpa [arms] using hpattern.trans (((harrow pattern).walks (by decide)).trans
      (hbody.trans hwalk))

end Expressions

/-! ### Where statements start and end -/

/-- The tokens that written statements start with. -/
def starters : List Terminal :=
  [.hash, .dollar, .colonColon, .outputSign, .atSign, .leftParen, .name]

/-- The reader has read a statement, and what follows shows that it is complete. -/
structure Finished (r : Reading) (s : Node) (p : List Pending) : Prop where
  /-- What may follow is looked for. -/
  admits : ∀ t ∈ .rightBrace :: starters, r.point.expect.admits t = true
  /-- It completes the statement. -/
  step : ∀ t : Token, t.terminal ∈ .endOfText :: .rightBrace :: starters →
    r.step t = Reading.finishStatement s p t

/-- The reader is at a place where a declaration of a constant or a function may start. -/
structure AtMember (r : Reading) (p : List Pending) : Prop where
  /-- The start of a constant. -/
  constant : Leads r .hash ⟨.constantName, p⟩
  /-- The start of a function. -/
  function : ∃ naming, naming ≠ .forbidden ∧ Leads r .atSign ⟨.functionStart naming, p⟩

/-- The reader is at a place where a statement may start. -/
structure AtStatement (r : Reading) (p : List Pending) : Prop extends AtMember r p where
  /-- The start of an expression. -/
  opening : Opening r p
  /-- The start of a mutable variable. -/
  mutable : Leads r .dollar ⟨.variableName, p⟩
  /-- The start of a namespace. -/
  space : Leads r .colonColon ⟨.spaceName, p⟩
  /-- The start of an output statement. -/
  output : Leads r .outputSign ⟨.expressionStart, .output :: p⟩
  /-- A name is looked for. -/
  admits : r.point.expect.admits .name = true
  /-- A name and an arrow start an assignment. -/
  assignment : ∀ name, ∃ r', r.step ⟨.name, name, .ident name⟩ = some r' ∧
    Leads r' .leftArrow ⟨.expressionStart, .assignment name :: p⟩

/-- The reader is at a place where a tree of the given role may start. -/
def Begins : Role → Reading → List Pending → Prop
  | .expression => Opening
  | .statement => AtStatement
  | .member => AtMember

/-- The constructs that hold trees of the given role one after the other. -/
def Pending.holds : Role → Pending → Bool
  | .statement, .program _ | .statement, .block _ | .statement, .body .. => true
  | .statement, .braces none => true
  | .member, .space .. => true
  | _, _ => false

/-- The construct with one more statement. -/
def Pending.push (s : Node) : Pending → Pending
  | .program done => .program (s :: done)
  | .block done => .block (s :: done)
  | .braces _ => .block [s]
  | .body head done => .body head (s :: done)
  | .space name members => .space name (s :: members)
  | q => q

/-- The reader is at a place where the construct may end. -/
def Ends (r : Reading) (p : List Pending) : Pending → Prop
  | .program done => ∃ p', r.step endToken = some ⟨.accepted (.program done.reverse), p'⟩
  | .block done => Leads r .rightBrace ⟨.operand (.block done.reverse), p⟩
  | .body head done => Leads r .rightBrace (Reading.closeBody head done p)
  | .space name members =>
    Leads r .rightBrace ⟨.spaceClosed (.spaceDecl name members.reverse), p⟩
  | _ => True

section Statements

variable {readExpr : ExprReader} {write : Float → List Char} {role : Role} {r : Reading} {s : Node}
  {q : Pending} {p : List Pending}

private theorem Pending.holds_push (h : q.holds role = true) : (q.push s).holds role = true := by
  cases role <;> cases q <;> simp_all [holds, push]

/-- A place where each token starts the statement it usually starts. -/
private theorem AtStatement.of_beginStatement
    (hadmits : ∀ t ∈ starters, r.point.expect.admits t = true)
    (hstep : ∀ t : Token, t.terminal ∈ starters → r.step t = Reading.beginStatement t p) :
    AtStatement r p := by
  have hleads : ∀ {t r'}, t ∈ starters →
      (∀ leaf, Reading.beginStatement ⟨t, String.ofList t.sign, leaf⟩ p = some r') → Leads r t r' :=
    fun ht h => ⟨hadmits _ ht, fun leaf => (hstep _ ht).trans (h leaf)⟩
  exact {
    constant := hleads (by decide) fun _ => rfl
    function := ⟨.optional, nofun, hleads (by decide) fun _ => rfl⟩
    opening := hleads (by decide) fun _ => rfl
    mutable := hleads (by decide) fun _ => rfl
    space := hleads (by decide) fun _ => rfl
    output := hleads (by decide) fun _ => rfl
    admits := hadmits _ (by decide)
    assignment := fun _ =>
      ⟨_, hstep _ (show Terminal.name ∈ starters by decide), rfl, fun _ => rfl⟩ }

/-- Where a statement is finished the next one may start. -/
private theorem Finished.begins (h : Finished r s (q :: p)) (hq : q.holds role = true) :
    Begins role r (q.push s :: p) := by
  have hadmits : ∀ t ∈ starters, r.point.expect.admits t = true :=
    fun t ht => h.admits t (List.mem_cons_of_mem _ ht)
  have hstep : ∀ t : Token, t.terminal ∈ starters →
      r.step t = Reading.finishStatement s (q :: p) t :=
    fun t ht => h.step t (List.mem_cons_of_mem _ (List.mem_cons_of_mem _ ht))
  cases role with
  | expression => cases q <;> cases hq
  | statement =>
    refine AtStatement.of_beginStatement hadmits fun t ht => (hstep t ht).trans ?_
    have hend : t.terminal ≠ .endOfText ∧ t.terminal ≠ .rightBrace :=
      ⟨fun heq => absurd ht (by rw [heq]; decide), fun heq => absurd ht (by rw [heq]; decide)⟩
    cases q with
    | program | block | body => simp [Reading.finishStatement, Pending.push, hend]
    | braces subject =>
      cases subject with
      | none => simp [Reading.finishStatement, Pending.push, Reading.around, hend]
      | some => cases hq
    | _ => cases hq
  | member =>
    cases q with
    | space name members =>
      exact {
        constant := ⟨hadmits _ (by decide), fun _ =>
          hstep _ (show Terminal.hash ∈ starters by decide)⟩
        function := ⟨.required, nofun, hadmits _ (by decide), fun _ =>
          hstep _ (show Terminal.atSign ∈ starters by decide)⟩ }
    | _ => cases hq

/-- Where a statement is finished the construct around it may end. -/
private theorem Finished.ends (h : Finished r s (q :: p)) (hq : q.holds role = true) :
    Ends r p (q.push s) := by
  have hbrace : ∀ {r'}, (∀ leaf, Reading.finishStatement s (q :: p)
      ⟨.rightBrace, String.ofList Terminal.rightBrace.sign, leaf⟩ = some r') →
        Leads r .rightBrace r' := fun hstep =>
    ⟨h.admits _ List.mem_cons_self, fun leaf =>
      (h.step _ (show Terminal.rightBrace ∈ _ by decide)).trans (hstep leaf)⟩
  cases q with
  | program => exact ⟨p, h.step endToken (show Terminal.endOfText ∈ _ by decide)⟩
  | block | body | space => exact hbrace fun _ => rfl
  | braces subject =>
    cases subject with
    | none => exact hbrace fun _ => rfl
    | some => cases role <;> cases hq
  | _ => cases role <;> cases hq

/-- **The text of a statement is read as the statement**, inside every construct that holds
statements of its role. -/
def ReadsStatement (readExpr : ExprReader) (role : Role) (text : List Char) (s : Node) : Prop :=
  ∀ r q p, q.holds role = true → Begins role r (q :: p) →
    ∃ r', Walks readExpr r text r' ∧ Finished r' s (q :: p)

/-- The reader walks over statements one after the other. -/
private theorem walks_statements {body : List Node} (hq : q.holds role = true)
    (h : ∀ s ∈ body, ReadsStatement readExpr role (statement s (node write s)) s)
    (hr : Begins role r (q :: p)) (hends : Ends r p q) :
    ∃ r', Walks readExpr r (statements write body) r' ∧
      Ends r' p (body.foldl (fun q s => q.push s) q) := by
  induction body generalizing r q with
  | nil => exact ⟨r, .nil, hends⟩
  | cons s body ih =>
    obtain ⟨r', hwalk, hfinished⟩ := h s List.mem_cons_self r q p hq hr
    obtain ⟨r'', hwalk', hends'⟩ := ih (Pending.holds_push hq)
      (fun x hx => h x (List.mem_cons_of_mem s hx)) (hfinished.begins hq) (hfinished.ends hq)
    exact ⟨r'', hwalk.trans hwalk', hends'⟩

/-- What a construct holds after more statements. -/
private theorem foldl_push {hold : List Node → Pending}
    (hpush : ∀ s done, (hold done).push s = hold (s :: done)) (body done : List Node) :
    body.foldl (fun q s => q.push s) (hold done) = hold (body.reverse ++ done) := by
  induction body generalizing done with
  | nil => rfl
  | cons s body ih => simp [hpush, ih]

/-! ### Functions and blocks -/

/-- The reader is in a parameter list where a name or the end may follow. -/
def AtParam (r : Reading) (name : Option String) (done : List String) (p : List Pending) : Prop :=
  r = ⟨.params name done, p⟩ ∨ r = ⟨.afterParam name done, p⟩

private theorem walks_names {name : Option String} {params done : List String}
    (h : ∀ x ∈ params, IsVarName x) (hr : AtParam r name done p) :
    ∃ r', Walks readExpr r (names params) r' ∧ AtParam r' name (params.reverse ++ done) p := by
  induction params generalizing r done with
  | nil => exact ⟨r, .nil, hr⟩
  | cons x params ih =>
    have hfirst : Walks readExpr r (nameWord x) ⟨.afterParam name (x :: done), p⟩ := by
      rcases hr with rfl | rfl
      · exact .name (h x List.mem_cons_self) rfl rfl
      · exact .name (h x List.mem_cons_self) rfl rfl
    obtain ⟨r', hwalk, hr'⟩ := ih (fun y hy => h y (List.mem_cons_of_mem x hy)) (.inr rfl)
    exact ⟨r', hfirst.trans hwalk, by simpa using hr'⟩

/-- A function body starts with a statement. -/
private theorem AtStatement.of_bodyStart (head : FunctionHead) (done : List Node)
    (p : List Pending) :
    AtStatement ⟨.bodyStart, .body head done :: p⟩ (.body head done :: p) := by
  have hadmits : ∀ t ∈ starters, Expect.admits (.statement [.rightBrace]) t = true := by decide
  refine .of_beginStatement hadmits fun ⟨terminal, text, leaf⟩ ht => ?_
  change terminal ∈ starters at ht
  cases terminal <;> first | rfl | exact absurd ht (by decide)

/-- A block starts with a statement. A name there may still be an object key. -/
private theorem AtStatement.of_bracesStart (p : List Pending) :
    AtStatement ⟨.bracesStart none, p⟩ (.braces none :: p) where
  constant := ⟨rfl, fun _ => rfl⟩
  function := ⟨.optional, nofun, rfl, fun _ => rfl⟩
  opening := ⟨rfl, fun _ => rfl⟩
  mutable := ⟨rfl, fun _ => rfl⟩
  space := ⟨rfl, fun _ => rfl⟩
  output := ⟨rfl, fun _ => rfl⟩
  admits := rfl
  assignment := fun _ => ⟨_, rfl, rfl, fun _ => rfl⟩

/-- The reader walks over a block. -/
private theorem walks_block {body : List Node} (hne : body ≠ [])
    (hbody : ∀ s ∈ body, ReadsStatement readExpr .statement (statement s (node write s)) s)
    (p : List Pending) :
    Walks readExpr ⟨.expressionStart, p⟩ (node write (.block body))
      ⟨.operand (.block body), p⟩ := by
  have hopen : Leads ⟨.expressionStart, p⟩ .leftBrace ⟨.bracesStart none, p⟩ := ⟨rfl, fun _ => rfl⟩
  obtain ⟨r, hwalk, hends⟩ := walks_statements (q := .braces none) rfl hbody
    (AtStatement.of_bracesStart p) trivial
  cases body with
  | nil => exact absurd rfl hne
  | cons s body =>
    rw [List.foldl_cons, Pending.push, foldl_push fun _ _ => rfl] at hends
    have hclose : Leads r .rightBrace ⟨.operand (.block (s :: body)), p⟩ := by
      simpa [Ends] using hends
    exact ((hopen.walks (by decide)).trans hwalk).trans (hclose.walks (by decide))

/-- The reader walks over the parameters and the body of a function. -/
private theorem walks_function {name : Option String} {params : List String} {body : List Node}
    (hparams : ∀ x ∈ params, IsVarName x)
    (hbody : ∀ s ∈ body, ReadsStatement readExpr .statement (statement s (node write s)) s)
    (hr : Leads r .leftParen ⟨.params name [], p⟩) :
    Walks readExpr r (group (names params) ++ node write (.block body))
      (Reading.closeBody (Reading.step.head name params.reverse) body.reverse p) := by
  generalize hhead : Reading.step.head name params.reverse = head
  obtain ⟨r', hnames, hr'⟩ : ∃ r', Walks readExpr ⟨.params name [], p⟩ (names params) r' ∧
      AtParam r' name (params.reverse ++ []) p := walks_names hparams (.inl rfl)
  rw [List.append_nil] at hr'
  have hclose : Leads r' .rightParen ⟨.bodyOpen head, p⟩ := by
    subst hhead
    rcases hr' with rfl | rfl
    · exact ⟨rfl, fun _ => rfl⟩
    · exact ⟨rfl, fun _ => rfl⟩
  have hopen : Leads ⟨.bodyOpen head, p⟩ .leftBrace ⟨.bodyStart, .body head [] :: p⟩ :=
    ⟨rfl, fun _ => rfl⟩
  have hempty : Ends ⟨.bodyStart, .body head [] :: p⟩ p (.body head []) := ⟨rfl, fun _ => rfl⟩
  obtain ⟨r'', hwalk, hends⟩ := walks_statements (q := .body head []) rfl hbody
    (AtStatement.of_bodyStart head [] p) hempty
  rw [foldl_push fun _ _ => rfl, List.append_nil] at hends
  have hhead' := (hr.walks (by decide)).trans (hnames.trans (hclose.walks (by decide)))
  have hbraces := (hopen.walks (by decide)).trans
    (hwalk.trans (Leads.walks hends (by decide)))
  simpa [group, node] using hhead'.trans hbraces

/-- A value whose end is the end of a statement. -/
private theorem Finished.of_operand {value : Node} {p' : List Pending}
    (h : ∀ t, Reading.finishExpression value p' t = Reading.finishStatement s p t) :
    Finished ⟨.operand value, p'⟩ s p := by
  have hadmits : ∀ t ∈ .rightBrace :: starters, Expect.admits .afterOperand t = true := by decide
  refine ⟨hadmits, fun ⟨terminal, text, leaf⟩ ht => Eq.trans ?_ (h _)⟩
  change terminal ∈ .endOfText :: .rightBrace :: starters at ht
  cases terminal <;> first | rfl | exact absurd ht (by decide)

/-- A declaration with a name, a sign and a value. -/
theorem ReadsAs.declares {text : List Char} {value : Node} (h : ReadsAs readExpr text value)
    {r' : Reading} {p' : List Pending} {sign : Terminal} (hsign : sign.sign ≠ [])
    (hlead : Leads r' sign ⟨.expressionStart, p'⟩)
    (hfinish : ∀ t, Reading.finishExpression value p' t = Reading.finishStatement s p t)
    {front : List Char} (hfront : Walks readExpr r front r') :
    ∃ r'', Walks readExpr r (front ++ sign.word ++ Printer.group text) r'' ∧ Finished r'' s p :=
  ⟨_, (hfront.trans (hlead.walks hsign)).trans (h.operand p'), .of_operand hfinish⟩

private theorem Begins.atMember (hrole : role ≠ .expression) (h : Begins role r p) :
    AtMember r p := by
  cases role with
  | expression => exact absurd rfl hrole
  | statement => exact h.toAtMember
  | member => exact h

end Statements

/-! ### Every surface tree -/

/-- A tree is read back where it stands. -/
def ReadsBack (readExpr : ExprReader) (write : Float → List Char) : Role → Node → Prop
  | .expression, n => ReadsAs readExpr (node write n) n
  | role, n => ReadsStatement readExpr role (statement n (node write n)) n

private theorem ReadsBack.of_ne {readExpr : ExprReader} {write : Float → List Char} {role : Role}
    {n : Node} (hrole : role ≠ .expression)
    (h : ReadsStatement readExpr role (statement n (node write n)) n) :
    ReadsBack readExpr write role n := by
  cases role with
  | expression => exact absurd rfl hrole
  | statement | member => exact h

/-- Expressions are no declarations. -/
private theorem Surface.isDeclaration_eq_false {inside : Bool} {e : Node}
    (h : Surface inside .expression e) : isDeclaration e = false := by
  cases h <;> first | rfl | contradiction

private theorem clause_of_ne {n : Node} (h : n ≠ .absent) (text : List Char) :
    clause n text = text := by
  cases n <;> first | rfl | exact absurd rfl h

/-- What is written of an embedded expression is read as the expression. -/
private theorem readEmbedded_group {write : Float → List Char} {e : Node}
    (h : ∀ readExpr, ReadsAs readExpr (node write e) e) :
    readEmbedded (group (node write e)) = .ok e := by
  have hwalk := (h fun _ => .error .unterminatedTemplate).operand [.expression]
  obtain ⟨-, hread⟩ := hwalk [] nofun
  obtain ⟨last, hread⟩ := hread [] (.start (group (node write e)))
  rw [List.append_nil] at hread
  refine hread.trans ?_
  rw [Reading.read_of_end (by simp)]
  rfl

section Constructs

variable {readExpr : ExprReader} {write : Float → List Char}

private theorem readsAs_literal {x : List Char} {n : Node} {t : Terminal} (hx : IsName x)
    (hclass : Expect.classify (.expression []) .name x = t) (hatom : t.isAtom = true)
    (hleaf : leafNode readExpr ⟨t, x⟩ = .ok n) : ReadsAs readExpr (x ++ [' ']) n :=
  .of_walks fun p => .classified hx rfl hclass hleaf (by
    simp [Reading.step, Reading.beginExpression, hatom])

private theorem readsAs_text (s : String) : ReadsAs readExpr (node write (.text s)) (.text s) := by
  refine .of_walks fun p => ?_
  have hwalk : Walks readExpr ⟨.expressionStart, p⟩ _ _ := .string (quotedBody_escape s.toList) p
  rwa [unescape_escape (by decide), String.ofList_toList] at hwalk

private theorem readsAs_conditional {clauses : List (Node × Node)} {otherwise : Node}
    (hne : clauses ≠ []) (h : ∀ c ∈ clauses, ReadsAs readExpr (node write c.1) c.1)
    (h' : ∀ c ∈ clauses, ReadsAs readExpr (node write c.2) c.2)
    (hotherwise : otherwise ≠ .absent → ReadsAs readExpr (node write otherwise) otherwise) :
    ReadsAs readExpr (node write (.conditional clauses otherwise))
      (.conditional clauses otherwise) := by
  intro p
  obtain ⟨⟨condition, body⟩, clauses, rfl⟩ := List.exists_cons_of_ne_nil hne
  have hsign : Leads ⟨.expressionStart, .group [] :: p⟩ .question
      ⟨.expressionStart, .condition :: .group [] :: p⟩ := ⟨rfl, fun _ => rfl⟩
  have hfirst := walks_branch (by decide) hsign (fun _ => ⟨rfl, fun _ => rfl⟩)
    (h _ List.mem_cons_self) (h' _ List.mem_cons_self)
  obtain ⟨last, before, hwalk, hlast⟩ := walks_branches []
    (fun c hc => h c (List.mem_cons_of_mem _ hc)) (fun c hc => h' c (List.mem_cons_of_mem _ hc))
  have hbranches := hfirst.trans hwalk
  change (last :: before).reverse = (condition, body) :: clauses at hlast
  by_cases hd : otherwise = .absent
  · subst hd
    have hclosing : Closing ⟨.operand last.2, .branchBody before last.1 :: .group [] :: p⟩
        (.conditional (last :: before).reverse .absent) p := ⟨rfl, fun _ => rfl⟩
    rw [hlast] at hclosing
    exact ⟨_, by simpa [node, clause, branches] using hbranches, hclosing⟩
  · have hdot : Leads ⟨.operand last.2, .branchBody before last.1 :: .group [] :: p⟩ .dot
        ⟨.expressionStart, .otherwise (last :: before) :: .group [] :: p⟩ := ⟨rfl, fun _ => rfl⟩
    have hbody := (hdot.walks (by decide)).trans ((hotherwise hd).operand _)
    have hclosing : Closing ⟨.operand otherwise, .otherwise (last :: before) :: .group [] :: p⟩
        (.conditional (last :: before).reverse otherwise) p := ⟨rfl, fun _ => rfl⟩
    rw [hlast] at hclosing
    exact ⟨_, by simpa [node, clause_of_ne hd, branches] using hbranches.trans hbody, hclosing⟩

private theorem readsAs_selection {subject otherwise : Node} {clauses : List (Node × Node)}
    (hsubject : ReadsAs readExpr (node write subject) subject)
    (hne : clauses = [] → otherwise ≠ .absent)
    (h : ∀ c ∈ clauses, ReadsAs readExpr (node write c.1) c.1)
    (h' : ∀ c ∈ clauses, ReadsAs readExpr (node write c.2) c.2)
    (hotherwise : otherwise ≠ .absent → ReadsAs readExpr (node write otherwise) otherwise) :
    ReadsAs readExpr (node write (.selection subject clauses otherwise))
      (.selection subject clauses otherwise) := by
  intro p
  have hsign : Leads ⟨.expressionStart, .group [] :: p⟩ .question
      ⟨.expressionStart, .condition :: .group [] :: p⟩ := ⟨rfl, fun _ => rfl⟩
  have hopen : Leads ⟨.operand subject, .condition :: .group [] :: p⟩ .leftBrace
      ⟨.bracesStart (some subject), .group [] :: p⟩ := ⟨rfl, fun _ => rfl⟩
  have hstart : AtArm subject ⟨.bracesStart (some subject), .group [] :: p⟩ [] (.group [] :: p) :=
    ⟨⟨.braces (some subject), ⟨rfl, fun _ => rfl⟩, fun _ => ⟨rfl, fun _ => rfl⟩⟩,
      ⟨rfl, fun _ => rfl⟩, nofun⟩
  obtain ⟨r, harms, hr⟩ := walks_arms h h' hstart
  rw [List.append_nil] at hr
  have hfront := (hsign.walks (by decide)).trans ((hsubject.operand _).trans
    ((hopen.walks (by decide)).trans harms))
  have hclosing : Closing ⟨.closed (.selection subject clauses otherwise), .group [] :: p⟩
      (.selection subject clauses otherwise) p := ⟨rfl, fun _ => rfl⟩
  by_cases hd : otherwise = .absent
  · subst hd
    have hclose := hr.closing (by simpa using fun heq => hne heq rfl)
    rw [List.reverse_reverse] at hclose
    exact ⟨_, by simpa [node, clause] using hfront.trans (hclose.walks (by decide)), hclosing⟩
  · have harrow : Leads ⟨.defaultArrow subject clauses.reverse, .group [] :: p⟩ .doubleArrow
        ⟨.expressionStart, .defaultBody subject clauses.reverse :: .group [] :: p⟩ :=
      ⟨rfl, fun _ => rfl⟩
    have hclose : Leads ⟨.operand otherwise, .defaultBody subject clauses.reverse :: .group [] :: p⟩
        .rightBrace
        ⟨.closed (.selection subject clauses.reverse.reverse otherwise), .group [] :: p⟩ :=
      ⟨rfl, fun _ => rfl⟩
    rw [List.reverse_reverse] at hclose
    have hdefault := (hr.default.walks (by decide)).trans ((harrow.walks (by decide)).trans
      (((hotherwise hd).operand _).trans (hclose.walks (by decide))))
    exact ⟨_, by simpa [node, clause_of_ne hd] using hfront.trans hdefault, hclosing⟩

private theorem readsAs_countLoop {name : Option String} {count body : Node}
    (hname : ∀ x ∈ name, IsVarName x) (hcount : ReadsAs readExpr (node write count) count)
    (hbody : ReadsAs readExpr (node write body) body) :
    ReadsAs readExpr (node write (.countLoop name count body)) (.countLoop name count body) := by
  intro p
  have hsign : Leads ⟨.expressionStart, .group [] :: p⟩ .tilde ⟨.loopStart, .group [] :: p⟩ :=
    ⟨rfl, fun _ => rfl⟩
  have hbody := hbody.group (r := ⟨.operand count, .count name :: .group [] :: p⟩)
    (p := .countBody name count :: .group [] :: p) ⟨rfl, fun _ => rfl⟩
  refine ⟨_, ?_, show Closing ⟨.operand body, .countBody name count :: .group [] :: p⟩ _ _ from
    ⟨rfl, fun _ => rfl⟩⟩
  cases name with
  | none =>
    have hcount := hcount.group (r := ⟨.loopStart, .group [] :: p⟩)
      (p := .count none :: .group [] :: p) ⟨rfl, fun _ => rfl⟩
    simpa [node, counter] using (hsign.walks (by decide)).trans (hcount.trans hbody)
  | some x =>
    have hhash : Leads ⟨.loopStart, .group [] :: p⟩ .hash ⟨.counterName, .group [] :: p⟩ :=
      ⟨rfl, fun _ => rfl⟩
    have hx : Walks readExpr ⟨.counterName, .group [] :: p⟩ (nameWord x)
        ⟨.counterComma x, .group [] :: p⟩ := .name (hname x rfl) rfl rfl
    have hcomma : Leads ⟨.counterComma x, .group [] :: p⟩ .comma
        ⟨.expressionStart, .count (some x) :: .group [] :: p⟩ := ⟨rfl, fun _ => rfl⟩
    have hcounter := (hhash.walks (by decide)).trans (hx.trans (hcomma.walks (by decide)))
    simpa [node, counter] using (hsign.walks (by decide)).trans
      (hcounter.trans ((hcount.operand _).trans hbody))

private theorem readsAs_eachLoop {item : String} {collection body : Node} (hitem : IsVarName item)
    (hcollection : ReadsAs readExpr (node write collection) collection)
    (hbody : ReadsAs readExpr (node write body) body) :
    ReadsAs readExpr (node write (.eachLoop item collection body))
      (.eachLoop item collection body) := by
  intro p
  have hsign : Leads ⟨.expressionStart, .group [] :: p⟩ .tildeTilde ⟨.eachStart, .group [] :: p⟩ :=
    ⟨rfl, fun _ => rfl⟩
  have hhash : Leads ⟨.eachStart, .group [] :: p⟩ .hash ⟨.itemName, .group [] :: p⟩ :=
    ⟨rfl, fun _ => rfl⟩
  have hx : Walks readExpr ⟨.itemName, .group [] :: p⟩ (nameWord item)
      ⟨.itemComma item, .group [] :: p⟩ := .name hitem rfl rfl
  have hcomma : Leads ⟨.itemComma item, .group [] :: p⟩ .comma
      ⟨.expressionStart, .collection item :: .group [] :: p⟩ := ⟨rfl, fun _ => rfl⟩
  have hbody := hbody.group (r := ⟨.operand collection, .collection item :: .group [] :: p⟩)
    (p := .collectionBody item collection :: .group [] :: p) ⟨rfl, fun _ => rfl⟩
  have hcounter := (hhash.walks (by decide)).trans (hx.trans (hcomma.walks (by decide)))
  refine ⟨_, ?_, show Closing ⟨.operand body, .collectionBody item collection :: .group [] :: p⟩ _ _
    from ⟨rfl, fun _ => rfl⟩⟩
  simpa [node, counter] using (hsign.walks (by decide)).trans
    (hcounter.trans ((hcollection.operand _).trans hbody))

private theorem readsAs_object {entries : List (String × Node)}
    (hkeys : ∀ entry ∈ entries, IsVarName entry.1)
    (h : ∀ entry ∈ entries, ReadsAs readExpr (node write entry.2) entry.2) :
    ReadsAs readExpr (node write (.object entries)) (.object entries) := by
  refine .of_walks fun p => ?_
  have hopen : Leads ⟨.expressionStart, p⟩ .leftBrace ⟨.bracesStart none, p⟩ := ⟨rfl, fun _ => rfl⟩
  have hstart : AtKey ⟨.bracesStart none, p⟩ [] p :=
    ⟨rfl, fun _ => ⟨_, rfl, rfl, fun _ => rfl⟩, rfl, fun _ => rfl⟩
  simpa [node] using (hopen.walks (by decide)).trans (walks_members hkeys h hstart)

private theorem readsAs_array {elements : List Node}
    (h : ∀ e ∈ elements, ReadsAs readExpr (node write e) e) :
    ReadsAs readExpr (node write (.array elements)) (.array elements) := by
  refine .of_walks fun p => ?_
  have hopen : Leads ⟨.expressionStart, p⟩ .leftBracket ⟨.elementsStart, .elements [] :: p⟩ :=
    ⟨rfl, fun _ => rfl⟩
  have hstart : AtItem .elements .rightBracket .array ⟨.elementsStart, .elements [] :: p⟩ [] p :=
    ⟨⟨rfl, fun _ => rfl⟩, rfl, fun _ => rfl⟩
  have hitems := walks_groups (by decide)
    (fun _ _ => ⟨⟨rfl, fun _ => rfl⟩, rfl, fun _ => rfl⟩) h hstart
  simpa [node] using (hopen.walks (by decide)).trans hitems

private theorem readsAs_call {callee : Node} {args : List Node}
    (hcallee : ReadsAs readExpr (node write callee) callee)
    (h : ∀ e ∈ args, ReadsAs readExpr (node write e) e) :
    ReadsAs readExpr (node write (.call callee args)) (.call callee args) := by
  refine .of_walks fun p => ?_
  have hopen : Walks readExpr ⟨.expressionStart, p⟩ _
      ⟨.argumentsStart, .arguments callee [] :: p⟩ := hcallee.extended .callOpen '(' (by decide) rfl
  have hstart : AtItem (.arguments callee) .rightParen (.call callee)
      ⟨.argumentsStart, .arguments callee [] :: p⟩ [] p :=
    ⟨⟨rfl, fun _ => rfl⟩, rfl, fun _ => rfl⟩
  have hitems := walks_groups (by decide)
    (fun _ _ => ⟨⟨rfl, fun _ => rfl⟩, rfl, fun _ => rfl⟩) h hstart
  simpa [node] using hopen.trans hitems

private theorem readsAs_index {target position : Node}
    (htarget : ReadsAs readExpr (node write target) target)
    (hposition : ReadsAs readExpr (node write position) position) :
    ReadsAs readExpr (node write (.index target position)) (.index target position) := by
  refine .of_walks fun p => ?_
  have hopen : Walks readExpr ⟨.expressionStart, p⟩ _ ⟨.expressionStart, .position target :: p⟩ :=
    htarget.extended .indexOpen '[' (by decide) rfl
  have hclose : Leads ⟨.operand position, .position target :: p⟩ .rightBracket
      ⟨.operand (.index target position), p⟩ := ⟨rfl, fun _ => rfl⟩
  exact (hopen.trans (hposition.operand _)).trans (hclose.walks (by decide))

private theorem readsAs_member {target : Node} {name : String}
    (htarget : ReadsAs readExpr (node write target) target) (hname : IsVarName name) :
    ReadsAs readExpr (node write (.member target name)) (.member target name) := by
  refine .of_walks fun p => ?_
  have hopen : Walks readExpr ⟨.expressionStart, p⟩ _ ⟨.propertyName target, p⟩ :=
    htarget.extended .memberDot '.' (by decide) rfl
  exact hopen.trans (.name hname rfl rfl)

/-- Every operator has a sign. -/
theorem exists_sign_of_operator {op : String} (h : op ∈ operators) :
    ∃ t : Terminal, t.operator? = some op ∧ t.sign = op.toList ∧ t.sign ≠ [] := by
  have hsigns : ∀ op ∈ operators, ∃ t ∈ Terminal.order,
      t.operator? = some op ∧ t.sign = op.toList ∧ t.sign ≠ [] := by decide
  obtain ⟨t, -, ht⟩ := hsigns op h
  exact ⟨t, ht⟩

/-- The sign of an operator after an operand between parentheses. -/
theorem Leads.operator {t : Terminal} {op : String} (h : t.operator? = some op) (left : Node)
    (chain : List (Node × String)) (p : List Pending) :
    Leads ⟨.operand left, .group chain :: p⟩ t
      ⟨.expressionStart, .group ((left, op) :: chain) :: p⟩ := by
  cases t <;> cases h <;> exact ⟨rfl, fun _ => rfl⟩

/-- One operator between parentheses is that operation, whatever its rank. -/
private theorem closeGroup_operator {op : String} (h : op ∈ operators) (left right : Node) :
    Reading.finishExpression.closeGroup [(left, op)] right = .binary op left right := by
  simp only [operators, List.mem_cons, List.not_mem_nil, or_false] at h
  rcases h with rfl | rfl | rfl | rfl | rfl | rfl | rfl | rfl | rfl | rfl | rfl | rfl | rfl <;> rfl

private theorem readsAs_binary {op : String} {left right : Node} (hop : op ∈ operators)
    (hleft : ReadsAs readExpr (node write left) left)
    (hright : ReadsAs readExpr (node write right) right) :
    ReadsAs readExpr (node write (.binary op left right)) (.binary op left right) := by
  intro p
  obtain ⟨t, ht, hsign, hne⟩ := exists_sign_of_operator hop
  have hword : nameWord op = t.word := by rw [nameWord, Terminal.word, hsign]
  have hclosing : Closing ⟨.operand right, .group [(left, op)] :: p⟩
      (Reading.finishExpression.closeGroup [(left, op)] right) p := ⟨rfl, fun _ => rfl⟩
  rw [closeGroup_operator hop] at hclosing
  refine ⟨_, ?_, hclosing⟩
  rw [node, hword]
  exact ((hleft.operand _).trans ((Leads.operator ht left [] p).walks hne)).trans (hright.operand _)

private theorem readsAs_functionExpr {params : List String} {body : List Node}
    (hparams : ∀ x ∈ params, IsVarName x)
    (hbody : ∀ s ∈ body, ReadsStatement readExpr .statement (statement s (node write s)) s) :
    ReadsAs readExpr (node write (.functionExpr none params (.block body)))
      (.functionExpr none params (.block body)) := by
  intro p
  have hsign : Leads ⟨.expressionStart, .group [] :: p⟩ .atSign
      ⟨.functionStart .forbidden, .group [] :: p⟩ := ⟨rfl, fun _ => rfl⟩
  have hwalk := (hsign.walks (by decide)).trans
    (walks_function hparams hbody ⟨rfl, fun _ => rfl⟩)
  have hclosing : Closing (Reading.closeBody (Reading.step.head none params.reverse) body.reverse
      (.group [] :: p))
      (.functionExpr none params.reverse.reverse (.block body.reverse.reverse)) p :=
    ⟨rfl, fun _ => rfl⟩
  simp only [List.reverse_reverse] at hclosing
  exact ⟨_, by simpa [node] using hwalk, hclosing⟩

/-! ### Statements -/

private theorem readsStatement_functionDecl {role : Role} (hrole : role ≠ .expression)
    {name : String} (hname : IsVarName name) {params : List String} {body : List Node}
    (hparams : ∀ x ∈ params, IsVarName x)
    (hbody : ∀ s ∈ body, ReadsStatement readExpr .statement (statement s (node write s)) s) :
    ReadsStatement readExpr role (node write (.functionDecl name params (.block body)))
      (.functionDecl name params (.block body)) := by
  intro r q p hq hr
  obtain ⟨naming, hnaming, hsign⟩ := (hr.atMember hrole).function
  have hx : Walks readExpr ⟨.functionStart naming, q :: p⟩ (nameWord name)
      ⟨.paramsOpen name, q :: p⟩ := by
    cases naming with
    | optional => exact .name hname rfl rfl
    | required => exact .name hname rfl rfl
    | forbidden => exact absurd rfl hnaming
  have hwalk := ((hsign.walks (by decide)).trans hx).trans
    (walks_function hparams hbody ⟨rfl, fun _ => rfl⟩)
  have hfinished : Finished (Reading.closeBody (Reading.step.head (some name) params.reverse)
      body.reverse (q :: p))
      (.functionDecl name params.reverse.reverse (.block body.reverse.reverse)) (q :: p) :=
    ⟨show ∀ t ∈ .rightBrace :: starters, Expect.admits .afterBody t = true by decide,
      fun _ _ => rfl⟩
  simp only [List.reverse_reverse] at hfinished
  exact ⟨_, by simpa [node] using hwalk, hfinished⟩

private theorem readsStatement_spaceDecl {name : String} (hname : IsVarName name)
    {decls : List Node}
    (hdecls : ∀ s ∈ decls, ReadsStatement readExpr .member (statement s (node write s)) s) :
    ReadsStatement readExpr .statement (node write (.spaceDecl name decls))
      (.spaceDecl name decls) := by
  intro r q p hq hr
  have hx : Walks readExpr ⟨.spaceName, q :: p⟩ (nameWord name) ⟨.spaceOpen name, q :: p⟩ :=
    .name hname rfl rfl
  have hopen : Leads ⟨.spaceOpen name, q :: p⟩ .leftBrace
      ⟨.spaceStart, .space name [] :: q :: p⟩ := ⟨rfl, fun _ => rfl⟩
  have hstart : AtMember ⟨.spaceStart, .space name [] :: q :: p⟩ (.space name [] :: q :: p) :=
    ⟨⟨rfl, fun _ => rfl⟩, .required, nofun, rfl, fun _ => rfl⟩
  have hempty : Ends ⟨.spaceStart, .space name [] :: q :: p⟩ (q :: p) (.space name []) :=
    ⟨rfl, fun _ => rfl⟩
  obtain ⟨r', hwalk, hends⟩ := walks_statements (q := .space name []) rfl hdecls hstart hempty
  rw [foldl_push fun _ _ => rfl, List.append_nil] at hends
  have hclose : Leads r' .rightBrace ⟨.spaceClosed (.spaceDecl name decls), q :: p⟩ := by
    simpa [Ends] using hends
  have hfinished : Finished ⟨.spaceClosed (.spaceDecl name decls), q :: p⟩ (.spaceDecl name decls)
      (q :: p) :=
    ⟨show ∀ t ∈ .rightBrace :: starters,
        Expect.admits (.statement [.rightBrace]) t = true by decide,
      fun _ _ => rfl⟩
  have hhead := (hr.space.walks (by decide)).trans (hx.trans (hopen.walks (by decide)))
  exact ⟨_, by simpa [node] using hhead.trans (hwalk.trans (hclose.walks (by decide))), hfinished⟩

/-- An expression in parentheses is a statement. -/
private theorem readsStatement_expression {e : Node} (h : ReadsAs readExpr (node write e) e) :
    ReadsStatement readExpr .statement (group (node write e)) e := by
  intro r q p hq hr
  refine ⟨_, h.group hr.opening, .of_operand fun t => ?_⟩
  cases q with
  | braces subject =>
    cases subject with
    | none => rfl
    | some => cases hq
  | _ => first | rfl | cases hq

end Constructs

/-- **Every surface tree is read back where it stands.** -/
theorem Surface.readsBack {write : Float → List Char} (hwrite : WritesNumbers write) {inside : Bool}
    {role : Role} {n : Node} (h : Surface inside role n) (readExpr : ExprReader)
    (hread : inside = false → readExpr = readEmbedded) : ReadsBack readExpr write role n := by
  induction h generalizing readExpr with
  | number hx =>
    refine .of_walks fun p => ?_
    have hwalk : Walks readExpr ⟨.expressionStart, p⟩ _ _ := .number (hwrite _ hx).1 p
    rwa [(hwrite _ hx).2] at hwalk
  | text => exact readsAs_text _
  | @truth _ b =>
    cases b
    · exact readsAs_literal (x := ['n', 'o']) ⟨by decide, by decide⟩ rfl rfl rfl
    · exact readsAs_literal (x := ['y', 'e', 's']) ⟨by decide, by decide⟩ rfl rfl rfl
  | nothing => exact readsAs_literal (x := ['_']) ⟨by decide, by decide⟩ rfl rfl rfl
  | array _ ih => exact readsAs_array fun e he => ih e he readExpr hread
  | object hkeys _ ih => exact readsAs_object hkeys fun entry he => ih entry he readExpr hread
  | template htexts hparts ih =>
    -- an embedded expression is read on its own, by a reader that knows no templates
    have hembedded := fun e he => (hparts e he).embeddable hwrite rfl
    obtain rfl := hread rfl
    refine .of_walks fun p => .template (backquote_notMem_parts htexts hembedded) ?_ p
    exact templateNode_parts htexts hembedded fun e he =>
      readEmbedded_group fun readExpr => ih e he readExpr nofun
  | ident hname => exact .of_walks fun p => .name hname rfl rfl
  | spaceMember hspace hmember => exact .of_walks fun p => .spaceRef hspace.1 hmember.1 p
  | member _ hname ih => exact readsAs_member (ih readExpr hread) hname
  | index _ _ ih ih' => exact readsAs_index (ih readExpr hread) (ih' readExpr hread)
  | call _ _ ih ih' => exact readsAs_call (ih readExpr hread) fun e he => ih' e he readExpr hread
  | block hne _ ih => exact .of_walks (walks_block hne fun s hs => ih s hs readExpr hread)
  | functionExpr hparams _ ih =>
    exact readsAs_functionExpr hparams fun s hs => ih s hs readExpr hread
  | conditional hne _ _ _ ih ihbody ihdefault =>
    exact readsAs_conditional hne (fun c hc => ih c hc readExpr hread)
      (fun c hc => ihbody c hc readExpr hread) fun hd => ihdefault hd readExpr hread
  | selection _ hne _ _ _ ih ihpattern ihbody ihdefault =>
    exact readsAs_selection (ih readExpr hread) hne (fun c hc => ihpattern c hc readExpr hread)
      (fun c hc => ihbody c hc readExpr hread) fun hd => ihdefault hd readExpr hread
  | countLoop hname _ _ ih ih' =>
    exact readsAs_countLoop hname (ih readExpr hread) (ih' readExpr hread)
  | eachLoop hitem _ _ ih ih' =>
    exact readsAs_eachLoop hitem (ih readExpr hread) (ih' readExpr hread)
  | ret _ ih =>
    intro p
    have hsign : Leads ⟨.expressionStart, .group [] :: p⟩ .returnSign
        ⟨.expressionStart, .result :: .group [] :: p⟩ := ⟨rfl, fun _ => rfl⟩
    exact ⟨_, (hsign.walks (by decide)).trans ((ih readExpr hread).operand _), rfl, fun _ => rfl⟩
  | binary hop _ _ ih ih' => exact readsAs_binary hop (ih readExpr hread) (ih' readExpr hread)
  | expression he ih =>
    have hstatement := readsStatement_expression (ih readExpr hread)
    simpa [ReadsBack, statement, he.isDeclaration_eq_false] using hstatement
  | constant hrole hname _ ih =>
    refine .of_ne hrole fun r q p _ hr => ?_
    have hsign := (hr.atMember hrole).constant
    exact (ih readExpr hread).declares (by decide) ⟨rfl, fun _ => rfl⟩ (fun _ => rfl)
      ((hsign.walks (by decide)).trans (.name hname rfl rfl))
  | mutable hname _ ih =>
    intro r q p _ hr
    exact (ih readExpr hread).declares (by decide) ⟨rfl, fun _ => rfl⟩ (fun _ => rfl)
      ((hr.mutable.walks (by decide)).trans (.name hname rfl rfl))
  | assign hname _ ih =>
    intro r q p _ hr
    obtain ⟨r', hstep, harrow⟩ := hr.assignment _
    exact (ih readExpr hread).declares (by decide) harrow (fun _ => rfl)
      (.name hname hr.admits hstep)
  | output _ ih =>
    intro r q p _ hr
    exact (ih readExpr hread).declares (by decide) hr.output (fun _ => rfl) .nil
  | functionDecl hrole hname hparams _ ih =>
    exact .of_ne hrole (readsStatement_functionDecl hrole hname hparams
      fun s hs => ih s hs readExpr hread)
  | spaceDecl hname _ ih => exact readsStatement_spaceDecl hname fun s hs => ih s hs readExpr hread

/-! ### Programs -/

open Classical in
/-- A numeral with the given value, where there is one. -/
noncomputable def numeralOf (y : Float) : List Char :=
  if h : ∃ x, IsNumeral x ∧ numberToken x = y then h.choose else []

private theorem writesNumbers_numeralOf : WritesNumbers numeralOf := by
  intro x hx
  have h : ∃ x', IsNumeral x' ∧ numberToken x' = numberToken x := ⟨x, hx, rfl⟩
  rw [numeralOf, dif_pos h]
  exact h.choose_spec

/-- **The text of a program.** -/
noncomputable def Printer.print (program : Node) : String :=
  String.ofList (node numeralOf program)

private theorem AtStatement.of_programStart :
    AtStatement ⟨.programStart, [.program []]⟩ [.program []] := by
  have hadmits : ∀ t ∈ starters, Expect.admits (.statement []) t = true := by decide
  refine .of_beginStatement hadmits fun ⟨terminal, text, leaf⟩ ht => ?_
  change terminal ∈ starters at ht
  cases terminal <;> first | rfl | exact absurd ht (by decide)

/-- **Every surface program is read back from the text that is written of it.** -/
theorem parseProgram_print {program : Node} (h : IsSurfaceProgram program) :
    parseProgram (Printer.print program) = .ok program := by
  obtain ⟨body, rfl, hbody⟩ := h
  have hread : ∀ s ∈ body,
      ReadsStatement readEmbedded .statement (statement s (node numeralOf s)) s :=
    fun s hs => (hbody s hs).readsBack writesNumbers_numeralOf readEmbedded fun _ => rfl
  have hempty : Ends ⟨.programStart, [.program []]⟩ [] (.program []) := ⟨_, rfl⟩
  obtain ⟨r, hwalk, hends⟩ := walks_statements (q := .program []) rfl hread
    AtStatement.of_programStart hempty
  rw [foldl_push fun _ _ => rfl, List.append_nil] at hends
  obtain ⟨-, hwalk⟩ := hwalk [] nofun
  obtain ⟨last, hlast⟩ := hwalk [] (.start (statements numeralOf body))
  rw [List.append_nil] at hlast
  have htext : (Printer.print (.program body)).toList = statements numeralOf body := by
    rw [Printer.print, String.toList_ofList, node]
  rw [parseProgram, Reading.readText, htext]
  refine hlast.trans ?_
  obtain ⟨p, hstep⟩ := hends
  rw [List.reverse_reverse] at hstep
  rw [Reading.read_of_end (by simp)]
  simp [Reading.finish, hstep]

/-- A function whose body returns early, and a template whose expression calls it with a text that
holds a brace and a quote. -/
theorem parseProgram_print_template :
    let program : Node := .program
      [.functionDecl "f" ["x"]
        (.block [.ret (.binary "+" (.ident "x") (.number (numberToken ['1', '.', '5'])))]),
      .output (.template [.inl "a\x7b", .inr (.call (.ident "f") [.text "\"\x7d"])])]
    IsSurfaceProgram program ∧ parseProgram (Printer.print program) = .ok program := by
  intro program
  have hf : IsVarName "f" := ⟨⟨by decide, by decide⟩, by decide, by decide, by decide⟩
  have hx : IsVarName "x" := ⟨⟨by decide, by decide⟩, by decide, by decide, by decide⟩
  have hnumeral : IsNumeral ['1', '.', '5'] :=
    .inl ⟨['1'], ['5'], rfl, ⟨by decide, by decide⟩, by decide, by decide⟩
  have hret : Surface false .statement
      (.ret (.binary "+" (.ident "x") (.number (numberToken ['1', '.', '5'])))) :=
    .expression (.ret (.binary (by decide) (.ident hx) (.number hnumeral)))
  have hcall : Surface true .expression (.call (.ident "f") [.text "\"\x7d"]) :=
    .call (.ident hf) (by simpa using .text fun _ => by decide)
  have htexts : TextsApart [.inl "a\x7b", .inr (.call (.ident "f") [.text "\"\x7d"])] :=
    ⟨by decide, by decide, by simp, trivial⟩
  have hprogram : IsSurfaceProgram program := by
    refine ⟨_, rfl, ?_⟩
    simp only [List.mem_cons, List.not_mem_nil, or_false, forall_eq_or_imp, forall_eq]
    exact ⟨.functionDecl nofun hf (by simpa using hx) (by simpa using hret),
      .output (.template htexts (by simpa using hcall))⟩
  exact ⟨hprogram, parseProgram_print hprogram⟩

end Sigil
