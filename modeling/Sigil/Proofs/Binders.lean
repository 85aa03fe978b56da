import Sigil.Proofs.Hoisting
import Sigil.Proofs.Layout.Gap
import Sigil.Proofs.Nesting
import Sigil.Proofs.Surface.Word
import Sigil.Proofs.Validity.Visibility

/-!
# Names that are declared and read

The words `yes`, `no` and `_` are literals where an expression stands, and names like all others
where only a name can stand. So every name can be declared, and what it is where it is read is said
by `nameNode`. For each kind of `Binder` there is a program that gives a name the value one and puts
it out. The reader reads it whatever the name is (`Binder.parseProgram_text`), and its run puts out
`readBack` of the name (`Binder.comesTo_runProgram`).

Runs are followed by `ComesTo`, which says what a computation does to the store and to the output
and leaves the trace aside.
-/

namespace Sigil

open Eval

/-! ### Names where they are declared and where they are read -/

/-- What a name is where an expression stands: the words of the language are literals. -/
def nameNode (x : String) : Node :=
  if x = "yes" then .truth true
  else if x = "no" then .truth false
  else if x = "_" then .nothing
  else .ident x

section Passages

variable {readExpr : ExprReader} {x : String} {before after : List Char}

/-- Where no word of the language can stand, every name is just a name. -/
private theorem Passes.binder {r r' : Reading} (hx : IsName x.toList)
    (hname : r.point.expect.admits .name = true)
    (hwords : ∀ t ∈ [Terminal.yes, .no, .underscore], r.point.expect.admits t = false)
    (hstep : r.step ⟨.name, x, .ident x⟩ = some r') (hafter : Delimits after) :
    Passes readExpr r before x.toList after r' := by
  have hclass : r.point.expect.classify .name x.toList = .name := by
    simp [Expect.classify, hwords]
  have hleaf : leafNode readExpr ⟨.name, x.toList⟩ = .ok (.ident x) := by simp [leafNode]
  exact .classified hx hname hclass hleaf (by simpa using hstep) hafter

/-- Where an expression stands, a name may be a word of the language. -/
theorem Passes.nameNode (hx : IsName x.toList) (p : List Pending) (hafter : Delimits after) :
    Passes readExpr ⟨.expressionStart, p⟩ before x.toList after ⟨.operand (nameNode x), p⟩ := by
  by_cases hyes : x = "yes"
  · subst hyes
    exact .classified hx rfl rfl rfl rfl hafter
  by_cases hno : x = "no"
  · subst hno
    exact .classified hx rfl rfl rfl rfl hafter
  by_cases hunderscore : x = "_"
  · subst hunderscore
    exact .classified hx rfl rfl rfl rfl hafter
  · have hnode : Sigil.nameNode x = .ident x := by
      simp [Sigil.nameNode, hyes, hno, hunderscore]
    rw [hnode]
    exact .name ⟨hx, hyes, hno, hunderscore⟩ rfl rfl hafter

/-- A block that puts out a name, after its opening brace. -/
private theorem Passes.outputBlock (hx : IsName x.toList) (p : List Pending) :
    Passes readExpr ⟨.bracesStart none, p⟩ before
      (' ' :: (['<', ':'] ++ ' ' :: (x.toList ++ ' ' :: ['\x7d']))) after
      ⟨.operand (.block [.output (Sigil.nameNode x)]), p⟩ :=
  .blank <| .trans (.found (t := .outputSign) rfl rfl rfl rfl) <|
  .blank <| .trans (.nameNode hx _ (.blank _)) <|
  .blank <| .found (t := .rightBrace) rfl rfl rfl rfl

/-- A text that the reader passes over is read as the program that is accepted at its end. -/
theorem Passes.parseProgram {text : String} {cs : List Char} {r : Reading} {tree : Node}
    {p : List Pending} (h : Passes readEmbedded Reading.program [] cs [] r)
    (htext : text.toList = cs)
    (hend : r.step endToken = some ⟨.accepted tree, p⟩) : parseProgram text = .ok tree := by
  subst htext
  exact h.readText hend

end Passages

/-- The places where a name is declared. -/
inductive Binder where
  /-- A constant. -/
  | constant
  /-- A mutable variable. -/
  | mutable
  /-- A parameter of a function. -/
  | parameter
  /-- The counter of a loop. -/
  | counter
  /-- The item of a loop over an array. -/
  | item
  deriving DecidableEq, Repr

namespace Binder

/-- A program that gives a name the value one and puts out what it is where it is read. -/
def text (x : String) : Binder → String
  | .constant => "#" ++ x ++ " = 1 <: " ++ x
  | .mutable => "$" ++ x ++ " <- 1 <: " ++ x
  | .parameter => "@f(" ++ x ++ ") \x7b <: " ++ x ++ " \x7d f(1)"
  | .counter => "~ #" ++ x ++ ", 1 \x7b <: " ++ x ++ " \x7d"
  | .item => "~~ #" ++ x ++ ", [1] \x7b <: " ++ x ++ " \x7d"

/-- The statements of the program. -/
def statements (x : String) : Binder → List Node
  | .constant => [.varDecl x (.number 1) false, .output (nameNode x)]
  | .mutable => [.varDecl x (.number 1) true, .output (nameNode x)]
  | .parameter =>
    [.functionDecl "f" [x] (.block [.output (nameNode x)]), .call (.ident "f") [.number 1]]
  | .counter => [.countLoop (some x) (.number 1) (.block [.output (nameNode x)])]
  | .item => [.eachLoop x (.array [.number 1]) (.block [.output (nameNode x)])]

/-- **The program is read** as these statements, whatever the name is. -/
theorem parseProgram_text {x : String} (hx : IsName x.toList) (binder : Binder) :
    parseProgram (binder.text x) = .ok (.program (binder.statements x)) := by
  cases binder with
  | constant =>
    have hpass : Passes readEmbedded Reading.program [] (['#'] ++ (x.toList ++ ' ' :: (['='] ++
        ' ' :: (['1'] ++ ' ' :: (['<', ':'] ++ ' ' :: x.toList))))) []
        ⟨.operand (nameNode x), [.output, .program [.varDecl x (.number 1) false]]⟩ :=
      .trans (.found (t := .hash) rfl rfl rfl rfl) <|
      .trans (.binder hx rfl (by decide) rfl (.blank _)) <|
      .blank <| .trans (.found (t := .equal) rfl rfl rfl rfl) <|
      .blank <| .trans (.found (t := .number) rfl rfl rfl rfl) <|
      .blank <| .trans (.found (t := .outputSign) rfl rfl rfl rfl) <|
      .blank <| .nameNode hx _ .nil
    exact hpass.parseProgram (by simp [text]) rfl
  | mutable =>
    have hpass : Passes readEmbedded Reading.program [] (['$'] ++ (x.toList ++ ' ' ::
        (['<', '-'] ++ ' ' :: (['1'] ++ ' ' :: (['<', ':'] ++ ' ' :: x.toList))))) []
        ⟨.operand (nameNode x), [.output, .program [.varDecl x (.number 1) true]]⟩ :=
      .trans (.found (t := .dollar) rfl rfl rfl rfl) <|
      .trans (.binder hx rfl (by decide) rfl (.blank _)) <|
      .blank <| .trans (.found (t := .leftArrow) rfl rfl rfl rfl) <|
      .blank <| .trans (.found (t := .number) rfl rfl rfl rfl) <|
      .blank <| .trans (.found (t := .outputSign) rfl rfl rfl rfl) <|
      .blank <| .nameNode hx _ .nil
    exact hpass.parseProgram (by simp [text]) rfl
  | parameter =>
    have hpass : Passes readEmbedded Reading.program [] (['@'] ++ (['f'] ++ (['('] ++ (x.toList ++
        ([')'] ++ ' ' :: (['\x7b'] ++ ' ' :: (['<', ':'] ++ ' ' :: (x.toList ++ ' ' :: (['\x7d'] ++
        ' ' :: (['f'] ++ (['('] ++ (['1'] ++ [')']))))))))))))
        [] ⟨.operand (.call (.ident "f") [.number 1]),
          [.program [.functionDecl "f" [x] (.block [.output (nameNode x)])]]⟩ :=
      .trans (.found (t := .atSign) rfl rfl rfl rfl) <|
      .trans (.found (t := .name) rfl rfl rfl rfl) <|
      .trans (.found (t := .leftParen) rfl rfl rfl rfl) <|
      .trans (.binder hx rfl (by decide) rfl (.of_mem (by decide) _)) <|
      .trans (.found (t := .rightParen) rfl rfl rfl rfl) <|
      .blank <| .trans (.found (t := .leftBrace) rfl rfl rfl rfl) <|
      .blank <| .trans (.found (t := .outputSign) rfl rfl rfl rfl) <|
      .blank <| .trans (.nameNode hx _ (.blank _)) <|
      .blank <| .trans (.found (t := .rightBrace) rfl rfl rfl rfl) <|
      .blank <| .trans (.found (t := .name) rfl rfl rfl rfl) <|
      .trans (.found (t := .callOpen) rfl rfl rfl rfl) <|
      .trans (.found (t := .number) rfl rfl rfl rfl) <|
      .found (t := .rightParen) rfl rfl rfl rfl
    exact hpass.parseProgram (by simp [text]) rfl
  | counter =>
    have hpass : Passes readEmbedded Reading.program [] (['~'] ++ ' ' :: (['#'] ++ (x.toList ++
        ([','] ++ ' ' :: (['1'] ++ ' ' :: (['\x7b'] ++ ' ' :: (['<', ':'] ++ ' ' :: (x.toList ++
        ' ' :: ['\x7d']))))))))
        [] ⟨.operand (.block [.output (nameNode x)]),
          [.countBody (some x) (.number 1), .program []]⟩ :=
      .trans (.found (t := .tilde) rfl rfl rfl rfl) <|
      .blank <| .trans (.found (t := .hash) rfl rfl rfl rfl) <|
      .trans (.binder hx rfl (by decide) rfl (.of_mem (by decide) _)) <|
      .trans (.found (t := .comma) rfl rfl rfl rfl) <|
      .blank <| .trans (.found (t := .number) rfl rfl rfl rfl) <|
      .blank <| .trans (.found (t := .leftBrace) rfl rfl rfl rfl) (.outputBlock hx _)
    exact hpass.parseProgram (by simp [text]) rfl
  | item =>
    have hpass : Passes readEmbedded Reading.program [] (['~', '~'] ++ ' ' :: (['#'] ++ (x.toList ++
        ([','] ++ ' ' :: (['['] ++ (['1'] ++ ([']'] ++ ' ' :: (['\x7b'] ++ ' ' :: (['<', ':'] ++
        ' ' :: (x.toList ++ ' ' :: ['\x7d']))))))))))
        [] ⟨.operand (.block [.output (nameNode x)]),
          [.collectionBody x (.array [.number 1]), .program []]⟩ :=
      .trans (.found (t := .tildeTilde) rfl rfl rfl rfl) <|
      .blank <| .trans (.found (t := .hash) rfl rfl rfl rfl) <|
      .trans (.binder hx rfl (by decide) rfl (.of_mem (by decide) _)) <|
      .trans (.found (t := .comma) rfl rfl rfl rfl) <|
      .blank <| .trans (.found (t := .leftBracket) rfl rfl rfl rfl) <|
      .trans (.found (t := .number) rfl rfl rfl rfl) <|
      .trans (.found (t := .rightBracket) rfl rfl rfl rfl) <|
      .blank <| .trans (.found (t := .leftBrace) rfl rfl rfl rfl) (.outputBlock hx _)
    exact hpass.parseProgram (by simp [text]) rfl

end Binder

/-! ### Computations whatever is traced -/

namespace Eval

variable {α β : Type} {s s₁ s' : Store} {out out₁ out' : Array Printed}

/-- **A computation comes to** an answer: from a store and what has been put out it leads to the
answer, the store and the output after it, whatever is traced. -/
def ComesTo (x : Eval α) (s : Store) (out : Array Printed) (a : α) (s' : Store)
    (out' : Array Printed) : Prop :=
  ∀ log, ∃ log', x ⟨s, out, log⟩ = .ok a ⟨s', out', log'⟩

namespace ComesTo

private theorem pure (a : α) : ComesTo (pure a) s out a s out :=
  fun log => ⟨log, rfl⟩

theorem bind {x : Eval α} {f : α → Eval β} {a : α} {b : β} (hx : ComesTo x s out a s₁ out₁)
    (hf : ComesTo (f a) s₁ out₁ b s' out') : ComesTo (x >>= f) s out b s' out' := by
  intro log
  obtain ⟨log₁, hlog₁⟩ := hx log
  obtain ⟨log', hlog'⟩ := hf log₁
  exact ⟨log', by simp only [Bind.bind, EStateM.bind, hlog₁, hlog']⟩

theorem onValue {x : Eval (Flow α)} {k : α → Eval (Flow β)} {a : α} {b : Flow β}
    (hx : ComesTo x s out (.value a) s₁ out₁) (hk : ComesTo (k a) s₁ out₁ b s' out') :
    ComesTo (onValue x k) s out b s' out' :=
  hx.bind hk

theorem read (f : Store → α) : ComesTo (read f) s out (f s) s out :=
  fun log => ⟨log, rfl⟩

private theorem add (f : Store → α × Store) : ComesTo (add f) s out (f s).1 (f s).2 out :=
  fun log => ⟨log, rfl⟩

private theorem define (scope : ScopeRef) (name : String) (v : Value) (isMutable : Bool) :
    ComesTo (define scope name v isMutable) s out () (s.define scope name v isMutable) out :=
  fun log => ⟨log, rfl⟩

private theorem lookup {scope : ScopeRef} {name : String} {v : Value}
    (h : s.lookup scope name = .ok v) :
    ComesTo (lookup scope name) s out v s out :=
  fun log => ⟨log, by simp [Eval.lookup, Bind.bind, EStateM.bind, Eval.read, h]; rfl⟩

private theorem note (event : TraceEvent) : ComesTo (note event) s out () s out := by
  intro log
  simp only [Eval.note]
  split
  · exact ⟨_, rfl⟩
  · exact ⟨_, rfl⟩

private theorem emit (v : Value) : ComesTo (emit v) s out () s (out.push ⟨v, s.view v⟩) :=
  (note _).bind fun log => ⟨log, rfl⟩

private theorem changeLog (f : Log → Log) : ComesTo (changeLog f) s out () s out :=
  fun log => ⟨f log, rfl⟩

private theorem closingFile {x : Eval α} {a : α} (h : ComesTo x s out a s' out') :
    ComesTo (closingFile x) s out a s' out' := by
  intro log
  obtain ⟨log', hlog'⟩ := h log
  exact ⟨log'.closeFile, by simp only [Eval.closingFile, hlog']⟩

/-- A block without functions and namespaces comes to what its statements come to. -/
private theorem block {eval : Evaluator} {scope : ScopeRef} {statements : List Node} {r : Result}
    (hplain : ∀ n ∈ statements, n.isHoisted = false)
    (h : ComesTo (evalStatements eval scope .null statements) s out r s' out') :
    ComesTo (evalBlock eval statements scope) s out r s' out' := by
  have hhoist : hoist eval statements scope = Pure.pure () := by
    rw [← hoist_filter, List.filter_eq_nil_iff.2 (by simpa using hplain)]
    rfl
  rw [evalBlock, hhoist]
  exact (ComesTo.pure ()).bind h

/-- A block of one statement comes to what that comes to. -/
private theorem sole {eval : Evaluator} {scope : ScopeRef} {n : Node} {v : Value}
    (hplain : n.isHoisted = false) (h : ComesTo (eval n scope) s out (.value v) s' out') :
    ComesTo (evalBlock eval [n] scope) s out (.value v) s' out' :=
  block (List.forall_mem_singleton.2 hplain) (h.onValue (.pure _))

/-- A program runs if its statements do. -/
theorem program {fuel : Nat} {body : List Node} {scope : ScopeRef} {v : Value}
    (h : ComesTo (evalBlock (evalWithin fuel) body scope) s out (.value v) s' out') :
    ComesTo (runProgram fuel (.program body) scope) s out v s' out' :=
  (changeLog _).bind <| (note _).bind <| closingFile <| h.bind <| (note _).bind (.pure v)

end ComesTo

end Eval

/-! ### Variables of a scope -/

namespace Store

variable {s : Store} {r : ScopeRef} {name : String} {v : Value}

/-- **A scope binds a name** of its own to this value. -/
def Binds (s : Store) (r : ScopeRef) (name : String) (v : Value) : Prop :=
  ∃ ref cell, s.ownCell? r name = some ref ∧ s.cell? ref = some cell ∧ cell.value = v

/-- What is declared in a scope is bound there. -/
private theorem binds_define (hr : r.Known s) (name : String) (v : Value) (isMutable : Bool) :
    (s.define r name v isMutable).Binds r name v := by
  refine ⟨s.nextCell, ⟨v, isMutable⟩, ?_, ?_, rfl⟩
  · rw [ownCell?_define hr, if_pos ⟨rfl, rfl⟩]
  · rw [cell?_define]
    simp [nextCell]

/-- The value that a scope binds a name to is found there. -/
private theorem Binds.lookup_eq (h : s.Binds r name v) : s.lookup r name = .ok v := by
  obtain ⟨ref, cell, hown, hcell, rfl⟩ := h
  obtain ⟨outer, houter⟩ := s.chainUpTo_eq_cons r.index r
  have hfind : s.find? r name = some ref := by rw [find?, chain, houter, List.findSome?_cons, hown]
  exact lookup_of_cell? hfind hcell

/-- The value that a scope binds a name to is found in a new scope inside it. -/
private theorem Binds.lookup_newScope (h : s.Binds r name v) :
    (s.newScope (some r)).2.lookup ⟨s.scopes.size⟩ name = .ok v := by
  obtain ⟨ref, cell, hown, hcell, rfl⟩ := h
  obtain ⟨scope, hscope, -⟩ := Option.bind_eq_some_iff.1 hown
  have hr : r.index < s.scopes.size := (Array.getElem?_eq_some_iff.1 hscope).1
  have hinner : (s.newScope (some r)).2.scope? ⟨s.scopes.size⟩ = some ⟨some r, .empty, .empty⟩ := by
    simp [scope?, newScope]
  have hnone : (s.newScope (some r)).2.ownCell? ⟨s.scopes.size⟩ name = none := by
    rw [ownCell?, hinner]
    rfl
  have hparent : (s.newScope (some r)).2.parent? ⟨s.scopes.size⟩ = some r := by
    rw [parent?, hinner]
    rfl
  have hown' : (s.newScope (some r)).2.ownCell? r name = some ref := by
    rw [← hown, ownCell?, ownCell?, scope?, scope?]
    simp [newScope, Array.getElem?_push_lt hr, hr]
  obtain ⟨n, hn⟩ : ∃ n, s.scopes.size = n + 1 := Nat.exists_eq_succ_of_ne_zero (by omega)
  obtain ⟨outer, houter⟩ := (s.newScope (some r)).2.chainUpTo_eq_cons n r
  have hchain : (s.newScope (some r)).2.chain ⟨s.scopes.size⟩ = ⟨s.scopes.size⟩ :: r :: outer := by
    rw [chain, show ScopeRef.index ⟨s.scopes.size⟩ = n + 1 from hn, chainUpTo, hparent]
    exact congrArg _ houter
  have hfind : (s.newScope (some r)).2.find? ⟨s.scopes.size⟩ name = some ref := by
    rw [find?, hchain, List.findSome?_cons, hnone, List.findSome?_cons, hown']
  exact lookup_of_cell? hfind hcell

end Store

/-! ### Running the programs -/

/-- What is put out for a name that stands for one. The words of the language stay what they are. -/
def readBack (x : String) : Printed :=
  if x = "yes" then ⟨.bool true, .bool true⟩
  else if x = "no" then ⟨.bool false, .bool false⟩
  else if x = "_" then ⟨.null, .null⟩
  else ⟨.num 1, .num 1⟩

section Runs

variable {s : Store} {out : Array Printed} {scope : ScopeRef} {x : String}

private theorem view_readBack (s : Store) (x : String) :
    s.view (readBack x).value = (readBack x).datum := by
  unfold readBack
  split_ifs <;> rfl

private theorem comesTo_number (fuel : Nat) (scope : ScopeRef) :
    ComesTo (evalWithin (fuel + 1) (.number 1) scope) s out (.value (.num 1)) s out :=
  fun log => ⟨log, rfl⟩

/-- A name that stands for one is read. -/
private theorem comesTo_nameNode (fuel : Nat) (h : s.lookup scope x = .ok (.num 1)) :
    ComesTo (evalWithin (fuel + 1) (nameNode x) scope) s out (.value (readBack x).value) s out := by
  unfold nameNode readBack
  split_ifs
  · exact fun log => ⟨log, rfl⟩
  · exact fun log => ⟨log, rfl⟩
  · exact fun log => ⟨log, rfl⟩
  · exact (ComesTo.lookup h).bind (.pure _)

/-- A name that stands for one is put out. -/
private theorem comesTo_output (fuel : Nat) (h : s.lookup scope x = .ok (.num 1)) :
    ComesTo (evalWithin (fuel + 2) (.output (nameNode x)) scope) s out (.value .null) s
      (out.push (readBack x)) := by
  have hemit : ComesTo (emit (readBack x).value) s out () s (out.push (readBack x)) := by
    simpa only [view_readBack] using ComesTo.emit (readBack x).value
  exact (comesTo_nameNode fuel h).onValue (hemit.bind (.pure _))

private theorem comesTo_outputBlock (fuel : Nat) (h : s.lookup scope x = .ok (.num 1)) :
    ComesTo (evalBlock (evalWithin (fuel + 2)) [.output (nameNode x)] scope) s out (.value .null) s
      (out.push (readBack x)) :=
  .sole rfl (comesTo_output fuel h)

private theorem known_newScope (s : Store) (parent : Option ScopeRef) :
    ScopeRef.Known (s.newScope parent).2 ⟨s.scopes.size⟩ := by
  simp [ScopeRef.Known, Store.newScope]

/-- A variable is declared and read. -/
private theorem comesTo_variable (fuel : Nat) (hscope : scope.Known s) (isMutable : Bool) :
    ComesTo (evalBlock (evalWithin (fuel + 2))
        [.varDecl x (.number 1) isMutable, .output (nameNode x)] scope) s out (.value .null)
      (s.define scope x (.num 1) isMutable) (out.push (readBack x)) := by
  have hdecl : ComesTo (evalWithin (fuel + 2) (.varDecl x (.number 1) isMutable) scope) s out
      (.value .null) (s.define scope x (.num 1) isMutable) out :=
    (comesTo_number fuel scope).onValue <|
      (ComesTo.define _ _ _ _).bind <| (ComesTo.note _).bind (.pure _)
  have hread := (Store.binds_define hscope x (.num 1) isMutable).lookup_eq
  exact .block (by simp [Node.isHoisted])
    (hdecl.onValue ((comesTo_output fuel hread).onValue (.pure _)))

/-- The body of a loop reads the variable of its iteration. -/
private theorem comesTo_loopBody (fuel : Nat) (h : s.Binds scope x (.num 1)) :
    ComesTo (evalWithin (fuel + 3) (.block [.output (nameNode x)]) scope) s out (.value .null)
      (s.newScope (some scope)).2 (out.push (readBack x)) :=
  (ComesTo.add _).bind (comesTo_outputBlock fuel h.lookup_newScope)

/-- The array of a loop with one iteration. -/
private theorem comesTo_loopEnd (done : Array Value) :
    ComesTo (do value (← newArray done)) s out (.value (.arr ⟨s.arrays.size⟩))
      (s.newArray done).2 out :=
  fun log => ⟨log, rfl⟩

/-- The counter of a loop is read. -/
private theorem comesTo_countLoop (fuel : Nat) (scope : ScopeRef) (x : String) (s : Store)
    (out : Array Printed) :
    ∃ v s', ComesTo (evalWithin (fuel + 4)
        (.countLoop (some x) (.number 1) (.block [.output (nameNode x)])) scope) s out (.value v) s'
      (out.push (readBack x)) := by
  have hread := Store.binds_define (known_newScope s (some scope)) x (.num 1) false
  have htotal : ComesTo (ofExcept (loopCount (.num 1))) s out 1 s out := fun log => ⟨log, rfl⟩
  have hcounter (s : Store) : ComesTo (ofPartial (doubleOf 1)) s out 1 s out :=
    fun log => ⟨log, rfl⟩
  exact ⟨_, _, (comesTo_number (fuel + 2) scope).onValue <| htotal.bind <| ComesTo.onValue
    ((ComesTo.add _).bind <| (hcounter _).bind <| (ComesTo.define _ _ _ _).bind <|
      (ComesTo.note _).bind <| comesTo_loopBody fuel hread)
    (comesTo_loopEnd _)⟩

/-- The item of a loop over an array is read. -/
private theorem comesTo_eachLoop (fuel : Nat) (scope : ScopeRef) (x : String) (s : Store)
    (out : Array Printed) :
    ∃ v s', ComesTo (evalWithin (fuel + 4)
        (.eachLoop x (.array [.number 1]) (.block [.output (nameNode x)])) scope) s out
      (.value v) s' (out.push (readBack x)) := by
  let s₁ := (s.newArray #[.num 1]).2
  have hread := Store.binds_define (known_newScope s₁ (some scope)) x (.num 1) false
  have harray : ComesTo (evalWithin (fuel + 3) (.array [.number 1]) scope) s out
      (.value (.arr ⟨s.arrays.size⟩)) s₁ out :=
    fun log => ⟨log, rfl⟩
  have hitems : ComesTo (items ⟨s.arrays.size⟩) s₁ out #[.num 1] s₁ out :=
    fun log => ⟨log, by simp [items, Eval.read, Store.items, s₁, Store.newArray]⟩
  exact ⟨_, _, harray.onValue <| hitems.bind <| ComesTo.onValue
    ((ComesTo.add _).bind <| (ComesTo.define _ _ _ _).bind <| comesTo_loopBody fuel hread)
    (comesTo_loopEnd _)⟩

/-- A parameter of a function is read in its body. -/
private theorem comesTo_call (fuel : Nat) {r : FunctionRef} {name : Option String}
    (h : s.function? r = some (.closure [x] (.block [.output (nameNode x)]) scope name)) :
    ∃ s', ComesTo (callWithin (fuel + 3) (.fn r) [.num 1]) s out .null s'
      (out.push (readBack x)) := by
  have hread := Store.binds_define (known_newScope s (some scope)) x (.num 1) false
  have hfunction : ComesTo (function? r) s out (s.function? r) s out := .read _
  rw [h] at hfunction
  exact ⟨_, hfunction.bind <| (ComesTo.add _).bind <|
    ((ComesTo.define _ _ _ _).bind (.pure ())).bind <| (ComesTo.note _).bind <|
    (comesTo_outputBlock fuel hread.lookup_eq).bind (.pure _)⟩

/-- A function is declared before the statements are evaluated. Its declaration does nothing then,
and a call finds it. -/
private theorem comesTo_function (fuel : Nat) (hscope : scope.Known s) :
    ∃ s', ComesTo (evalBlock (evalWithin (fuel + 4))
        [.functionDecl "f" [x] (.block [.output (nameNode x)]), .call (.ident "f") [.number 1]]
          scope) s out (.value .null) s' (out.push (readBack x)) := by
  let r : FunctionRef := ⟨s.functions.size⟩
  let f : Function := .closure [x] (.block [.output (nameNode x)]) scope (some "f")
  let s₁ := (s.newFunction f).2.define scope "f" (.fn r) false
  have hf : s₁.function? r = some f := by
    simp [s₁, r, Store.function?, Store.newFunction, Store.define, Store.newCell]
  have hknown : scope.Known (s.newFunction f).2 := hscope
  have hbinds : s₁.Binds scope "f" (.fn r) := Store.binds_define hknown "f" (.fn r) false
  have hdeclare : ComesTo (declareFunction "f" [x] (.block [.output (nameNode x)]) scope) s out ()
      s₁ out :=
    ComesTo.bind (fun log => ⟨log, rfl⟩) <| (ComesTo.define _ _ _ _).bind (.note _)
  have hspaces : ComesTo (declareAll scope [.functionDecl "f" [x] (.block [.output (nameNode x)]),
      .call (.ident "f") [.number 1]]) s out [] s₁ out :=
    hdeclare.bind (.pure [])
  have hdeclares : ComesTo (declares scope "f") s₁ out true s₁ out := by
    obtain ⟨ref, -, hown, -⟩ := hbinds
    have hsome : (s₁.ownCell? scope "f").isSome = true := by rw [hown]; rfl
    exact hsome ▸ ComesTo.read fun s => (s.ownCell? scope "f").isSome
  have hdecl : ComesTo (evalWithin (fuel + 4)
      (.functionDecl "f" [x] (.block [.output (nameNode x)])) scope) s₁ out (.value .null) s₁ out :=
    hdeclares.bind (.pure _)
  have hcallee : ComesTo (evalWithin (fuel + 3) (.ident "f") scope) s₁ out (.value (.fn r)) s₁
      out :=
    (ComesTo.lookup hbinds.lookup_eq).bind (.pure _)
  have hargs : ComesTo (evalAll (evalWithin (fuel + 3)) scope [.number 1]) s₁ out
      (.value [.num 1]) s₁ out :=
    fun log => ⟨log, rfl⟩
  obtain ⟨s', hcall⟩ := comesTo_call fuel hf
  exact ⟨s', (hspaces.bind (.pure ())).bind <| hdecl.onValue <| ComesTo.onValue
    (hcallee.onValue <| hargs.onValue <| hcall.bind (.pure _)) (.pure _)⟩

end Runs

/-- **A name that is declared is read back**: in every scope, the program of each binder puts out
just what its name stands for. -/
theorem Binder.comesTo_runProgram (binder : Binder) (x : String) {s : Store} {scope : ScopeRef}
    (hscope : scope.Known s) (out : Array Printed) :
    ∃ v s', ComesTo (runProgram 4 (.program (binder.statements x)) scope) s out v s'
      (out.push (readBack x)) := by
  cases binder with
  | constant => exact ⟨_, _, (comesTo_variable 2 hscope false).program⟩
  | mutable => exact ⟨_, _, (comesTo_variable 2 hscope true).program⟩
  | parameter =>
    obtain ⟨s', h⟩ := comesTo_function 0 hscope
    exact ⟨_, _, h.program⟩
  | counter =>
    obtain ⟨v, s', h⟩ := comesTo_countLoop 0 scope x s out
    exact ⟨v, s', .program (.sole rfl h)⟩
  | item =>
    obtain ⟨v, s', h⟩ := comesTo_eachLoop 0 scope x s out
    exact ⟨v, s', .program (.sole rfl h)⟩

/-- The program of a binder runs to its end in every session, and what it puts out is the name read
back. -/
private theorem Binder.exists_ends (binder : Binder) (x : String) {level : Nat}
    {earlier : Option String} {given : List (String × Json)} {start : Session}
    (hstart : Session.start level earlier given = .ok start) :
    ∃ v world, Eval.Ends (runProgram · (.program (binder.statements x)) start.globals)
        start.world (.ok v world) ∧
      world.printed = start.world.printed.push (readBack x) := by
  obtain ⟨v, s', h⟩ :=
    binder.comesTo_runProgram x (valid_of_start hstart).2 start.world.printed
  obtain ⟨log, hlog⟩ := h start.world.log
  have hends : Eval.Ends (runProgram · (.program (binder.statements x)) start.globals)
      start.world (runProgram 4 (.program (binder.statements x)) start.globals start.world) :=
    ends_of_not_ranOut (fun fuel => approx_runProgram fuel _ _) (by rw [hlog]; exact id)
  exact ⟨v, _, hlog ▸ hends, rfl⟩

/-- A constant of any name is read as its declaration. -/
private theorem parseProgram_constant {x : String} (hx : IsName x.toList) :
    parseProgram ("#" ++ x ++ " = 1") = .ok (.program [.varDecl x (.number 1) false]) := by
  have hpass : Passes readEmbedded Reading.program []
      (['#'] ++ (x.toList ++ ' ' :: (['='] ++ ' ' :: ['1']))) []
      ⟨.operand (.number 1), [.constant x, .program []]⟩ :=
    .trans (.found (t := .hash) rfl rfl rfl rfl) <|
    .trans (.binder hx rfl (by decide) rfl (.blank _)) <|
    .blank <| .trans (.found (t := .equal) rfl rfl rfl rfl) <|
    .blank <| .found (t := .number) rfl rfl rfl rfl
  exact hpass.parseProgram (by simp) rfl

/-- **Names that are declared can be read.** A name other than the words of the language can be
declared, and however it is given the value one, as a constant, a mutable variable, a parameter, a
loop counter or a loop item, the program that reads it ends in every session and puts out the number
one and nothing else. -/
theorem declared_names_are_read {x : String} (hx : IsVarName x) :
    parseProgram ("#" ++ x ++ " = 1") = .ok (.program [.varDecl x (.number 1) false]) ∧
      ∀ binder : Binder, ∃ program, parseProgram (binder.text x) = .ok program ∧
        ∀ level earlier given start, Session.start level earlier given = .ok start →
          ∃ v world, Eval.Ends (fun fuel => runProgram fuel program start.globals) start.world
              (.ok v world) ∧
            world.printed = start.world.printed.push ⟨.num 1, .num 1⟩ := by
  have hread : readBack x = ⟨.num 1, .num 1⟩ := by
    simp only [readBack, hx.2.1, hx.2.2.1, hx.2.2.2, if_false]
  refine ⟨parseProgram_constant hx.1, fun binder =>
    ⟨_, binder.parseProgram_text hx.1, fun level earlier given start hstart => ?_⟩⟩
  exact hread ▸ binder.exists_ends x hstart

/-- A parameter whose name starts like a word of the language. -/
theorem declared_names_are_read_yesterday :
    IsVarName "yesterday" ∧
      ∃ program start v world,
        parseProgram "@f(yesterday) \x7b <: yesterday \x7d f(1)" = .ok program ∧
        Session.start 0 none [] = .ok start ∧
        Eval.Ends (fun fuel => runProgram fuel program start.globals) start.world (.ok v world) ∧
        world.printed = start.world.printed.push ⟨.num 1, .num 1⟩ := by
  have hx : IsVarName "yesterday" := by decide
  obtain ⟨start, hstart, -⟩ := exists_start 0 none (List.forall_mem_nil _)
  obtain ⟨program, hparse, hruns⟩ := (declared_names_are_read hx).2 .parameter
  obtain ⟨v, world, hends, hprinted⟩ := hruns 0 none [] start hstart
  exact ⟨hx, program, start, v, world, hparse, hstart, hends, hprinted⟩

/-- **The words of the language can be declared, but not read**: they stay what they are. -/
theorem declared_word_is_not_read :
    (IsName "yes".toList ∧
        parseProgram "#yes = 1" = .ok (.program [.varDecl "yes" (.number 1) false])) ∧
      ∃ program start v world, parseProgram "#yes = 1 <: yes" = .ok program ∧
        Session.start 0 none [] = .ok start ∧
        Eval.Ends (fun fuel => runProgram fuel program start.globals) start.world (.ok v world) ∧
        world.printed = start.world.printed.push ⟨.bool true, .bool true⟩ := by
  have hx : IsName "yes".toList := by decide
  obtain ⟨start, hstart, -⟩ := exists_start 0 none (List.forall_mem_nil _)
  obtain ⟨v, world, hends, hprinted⟩ := Binder.constant.exists_ends "yes" hstart
  exact ⟨⟨hx, parseProgram_constant hx⟩, _, start, v, world,
    Binder.constant.parseProgram_text hx, hstart, hends, hprinted⟩

end Sigil
