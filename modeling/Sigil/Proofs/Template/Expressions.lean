import Sigil.Proofs.Grammar.Sound
import Sigil.Proofs.Layout.Relaid
import Sigil.Proofs.Template.Segments

/-!
# Expressions in templates

The scan of a template ends an embedded expression at the brace that matches, and it does not know
what a token is. It agrees with the reader because the braces of every derivation match
(`Derives.braceDepth_eq`) and the scan passes over the other tokens as they are. The two disagree in
comments only: the reader skips them, and the scan counts the braces and the quotes in them. So an
expression is found as a whole if its `comments` are balanced.
-/

namespace Sigil

open Lexeme

/-! ### The braces of a derivation -/

/-- The number of open braces after a token, if there is one for every closing brace. -/
def Terminal.depthAfter (t : Terminal) (depth : Nat) : Option Nat :=
  match t, depth with
  | .leftBrace, depth => some (depth + 1)
  | .rightBrace, 0 => none
  | .rightBrace, depth + 1 => some depth
  | _, depth => some depth

/-- The number of open braces after some tokens. -/
def braceDepth (tokens : List Lexeme) (depth : Nat) : Option Nat :=
  tokens.foldlM (fun depth l => l.terminal.depthAfter depth) depth

namespace Ebnf

mutual

/-- The number of open braces after a right-hand side, if it does not depend on what is chosen and
what is repeated in it. -/
@[simp]
def depthAfter : Ebnf → Nat → Option Nat
  | .mark t, depth | .token t, depth => t.depthAfter depth
  | .rule _, depth => Option.some depth
  | .seq parts, depth => depthAfterAll parts depth
  | .either a b, depth =>
    if a.depthAfter depth = b.depthAfter depth then a.depthAfter depth else Option.none
  | .optional a, depth | .many a, depth | .some a, depth =>
    if a.depthAfter depth = Option.some depth then Option.some depth else Option.none

/-- The number of open braces after parts one after the other. -/
@[simp]
def depthAfterAll : List Ebnf → Nat → Option Nat
  | [], depth => Option.some depth
  | a :: parts, depth => (a.depthAfter depth).bind (depthAfterAll parts)

end

end Ebnf

/-- The braces of every production match. -/
private theorem depthAfter_of_mem_grammar {r : Rule} {label : Option Label} {e : Ebnf}
    (h : (label, e) ∈ grammar r) (depth : Nat) : e.depthAfter depth = some depth := by
  have hall : ∀ p ∈ grammar r, p.2.depthAfter depth = some depth := by
    cases r <;> simp [grammar, Ebnf.expressions, Ebnf.parameters, Ebnf.members, Ebnf.oneOf,
      Terminal.depthAfter]
  exact hall (label, e) h

private theorem braceDepth_append (ts us : List Lexeme) (depth : Nat) :
    braceDepth (ts ++ us) depth = (braceDepth ts depth).bind (braceDepth us) :=
  List.foldlM_append

/-- **The braces of a derivation match** as those of its right-hand side do. -/
theorem Derives.braceDepth_eq {E : List Char → Tree → Prop} {e : Ebnf} {ts : List Lexeme}
    {cs : List Tree} (h : Derives E e ts cs) {depth depth' : Nat}
    (hdepth : e.depthAfter depth = some depth') : braceDepth ts depth = some depth' := by
  induction h generalizing depth depth' with
  | mark => simpa [braceDepth] using hdepth
  | token => simpa [braceDepth] using hdepth
  | template => simpa [braceDepth] using hdepth
  | made hmem _ ih =>
    cases hdepth
    exact ih (depthAfter_of_mem_grammar hmem depth)
  | passed hmem _ ih =>
    cases hdepth
    exact ih (depthAfter_of_mem_grammar hmem depth)
  | nil => simpa [braceDepth] using hdepth
  | cons _ _ ih ih' =>
    simp only [Ebnf.depthAfter, Ebnf.depthAfterAll, Option.bind_eq_some_iff] at hdepth
    obtain ⟨middle, hmiddle, hrest⟩ := hdepth
    rw [braceDepth_append, ih hmiddle]
    exact ih' hrest
  -- the depth after an alternative is defined only if both sides agree on it
  | left _ ih =>
    simp only [Ebnf.depthAfter, Option.ite_none_right_eq_some] at hdepth
    exact ih hdepth.2
  | right _ ih =>
    simp only [Ebnf.depthAfter, Option.ite_none_right_eq_some] at hdepth
    exact ih (hdepth.1 ▸ hdepth.2)
  | absent | none =>
    simp only [Ebnf.depthAfter, Option.ite_none_right_eq_some] at hdepth
    exact hdepth.2
  | present _ ih | one _ ih =>
    simp only [Ebnf.depthAfter, Option.ite_none_right_eq_some, Option.some.injEq] at hdepth
    obtain ⟨ha, rfl⟩ := hdepth
    exact ih ha
  -- and after a repetition only if one round leaves it where it was
  | more _ _ ih ih' | another _ _ ih ih' =>
    have ha := hdepth
    simp only [Ebnf.depthAfter, Option.ite_none_right_eq_some, Option.some.injEq] at ha
    obtain ⟨ha, rfl⟩ := ha
    rw [braceDepth_append, ih hdepth]
    exact ih' ha

/-! ### Comments -/

/-- **The comments of a text**: those that start outside of quoted texts and templates. -/
def comments : List Char → List (List Char)
  | [] => []
  | c :: rest =>
    let quoted := stringTail? (c :: rest) <|> templateTail? (c :: rest)
    let n := (quoted <|> Cursor.layoutTail? c rest).getD 0
    let later := comments (rest.drop n)
    if c = '/' ∧ n ≠ 0 then (c :: rest.take n) :: later else later
termination_by text => text.length

/-- There are no comments in a quoted text or a template. -/
private theorem comments_quoted {q : Char} {body after : List Char} (hq : q ≠ '/')
    (h : (stringTail? (q :: (body ++ q :: after)) <|> templateTail? (q :: (body ++ q :: after))) =
      some (body.length + 1)) :
    comments (q :: (body ++ [q]) ++ after) = comments after := by
  have hdrop : (body ++ q :: after).drop (body.length + 1) = after := by
    simp [List.drop_append, List.drop_of_length_le]
  rw [List.cons_append, List.append_assoc, List.singleton_append, comments, h]
  simp [hq, hdrop]

/-- A character that starts neither a quoted text nor a comment is passed over. -/
private theorem comments_cons {c : Char} {rest : List Char} (hquote : c ≠ '"') (hback : c ≠ '`')
    (h : (Cursor.layoutTail? c rest).getD 0 = 0) : comments (c :: rest) = comments rest := by
  rw [comments]
  simp [stringTail?, templateTail?, hquote, hback, h]

/-- A comment that a text starts with is the first. -/
private theorem comments_comment {d : Char} {more rest : List Char}
    (h : Cursor.layoutTail? '/' (d :: more ++ rest) = some (more.length + 1)) :
    comments ('/' :: d :: more ++ rest) = ('/' :: d :: more) :: comments rest := by
  rw [List.cons_append, comments, h]
  simp [stringTail?, templateTail?]

/-- There are no comments in characters that start none. -/
private theorem comments_append {cs : List Char} (h : ∀ c ∈ cs, c ∉ breaks) (after : List Char) :
    comments (cs ++ after) = comments after := by
  induction cs with
  | nil => rfl
  | cons c cs ih =>
    have hc := h c List.mem_cons_self
    simp only [breaks, List.mem_cons, not_or] at hc
    have htail : Cursor.layoutTail? c (cs ++ after) = none :=
      layoutTail?_eq_none (by simpa [gapStarts] using hc.2.2) _
    rw [List.cons_append, comments_cons hc.1 hc.2.1 (by rw [htail, Option.getD_none])]
    exact ih fun x hx => h x (List.mem_cons_of_mem c hx)

/-- There are no comments in a token. -/
private theorem comments_token {t : Terminal} {before text after : List Char}
    (h : t.Matches before text after) (hsettled : Settled (text ++ after)) :
    comments (text ++ after) = comments after := by
  rcases h.shape with ⟨body, rfl, hbody⟩ | ⟨body, rfl, hbody⟩ | ⟨c, cs, rfl, hquote, hback, hcs⟩
  · have htail := stringTail?_eq_some_iff.2 ⟨body, after, rfl, rfl, hbody⟩
    exact comments_quoted (by decide) (by rw [htail]; rfl)
  · have htail := templateTail?_eq_some_iff.2 ⟨body, after, rfl, rfl, hbody⟩
    exact comments_quoted (by decide) (by rw [htail]; rfl)
  · have htail : Cursor.layoutTail? c (cs ++ after) = none := hsettled c (cs ++ after) rfl
    rw [List.cons_append, comments_cons hquote hback (by rw [htail, Option.getD_none])]
    exact comments_append hcs after

/-- **Layout is balanced if its comments are**, and they come before all others. -/
theorem Layout.balanced {gap rest : List Char} (h : Layout gap rest)
    (hcomments : ∀ comment ∈ comments (gap ++ rest), Balanced comment) :
    Balanced gap ∧ ∀ comment ∈ comments rest, Balanced comment := by
  induction h with
  | nil => exact ⟨.nil, hcomments⟩
  | @blank c gap rest hblank _ ih =>
    -- white space is none of the characters that the braces and the comments depend on
    have hc : ∀ d ∈ ['\x7b', '\x7d', '"', '`', '/'], Text.isLayout d = false := by decide
    have hne : ∀ d ∈ ['\x7b', '\x7d', '"', '`', '/'], c ≠ d := by
      rintro d hd rfl
      simp [hc c hd] at hblank
    have htail : Cursor.layoutTail? c (gap ++ rest) = some 0 := by
      simp [Cursor.layoutTail?, hblank]
    rw [List.cons_append, comments_cons (hne _ (by decide)) (hne _ (by decide))
      (by rw [htail, Option.getD_some])] at hcomments
    obtain ⟨hgap, hrest⟩ := ih hcomments
    exact ⟨.plain (hne _ (by decide)) (hne _ (by decide)) (hne _ (by decide)) hgap, hrest⟩
  | @lineComment body gap rest hbody hends _ ih =>
    have htail := Cursor.layoutTail?_lineComment hbody hends
    have hfirst : comments ('/' :: '/' :: body ++ (gap ++ rest)) =
        ('/' :: '/' :: body) :: comments (gap ++ rest) := comments_comment htail
    rw [List.cons_append, List.cons_append, List.append_assoc] at hcomments
    rw [List.cons_append, List.cons_append] at hfirst
    rw [hfirst, List.forall_mem_cons] at hcomments
    obtain ⟨hgap, hrest⟩ := ih hcomments.2
    exact ⟨hcomments.1.append hgap, hrest⟩
  | @blockComment body gap rest hbody _ ih =>
    have htail := Cursor.layoutTail?_blockComment hbody (gap ++ rest)
    have hfirst : comments ('/' :: '*' :: (body ++ ['*', '/']) ++ (gap ++ rest)) =
        ('/' :: '*' :: (body ++ ['*', '/'])) :: comments (gap ++ rest) :=
      comments_comment (by simpa using htail)
    have htext : '/' :: '*' :: (body ++ '*' :: '/' :: gap) =
        '/' :: '*' :: (body ++ ['*', '/']) ++ gap := by simp
    rw [htext, List.append_assoc, hfirst, List.forall_mem_cons] at hcomments
    obtain ⟨hgap, hrest⟩ := ih hcomments.2
    exact ⟨htext ▸ hcomments.1.append hgap, hrest⟩

/-! ### Passing over tokens -/

/-- A token other than a brace and a template is balanced. -/
private theorem Terminal.Matches.balanced {t : Terminal} {before text after : List Char}
    (h : t.Matches before text after) (hleft : t ≠ .leftBrace) (hright : t ≠ .rightBrace)
    (htemplate : t ≠ .template) : Balanced text := by
  cases t with
  | leftBrace => exact absurd rfl hleft
  | rightBrace => exact absurd rfl hright
  | template => exact absurd rfl htemplate
  | string =>
    obtain ⟨body, rfl, hbody⟩ := h
    exact .quoted (hbody.mono fun _ _ => trivial) .nil
  | name | objectKey => exact (Embeddable.name h.1).balanced
  | number =>
    refine (Embeddable.numeral ?_).balanced
    rcases h with ⟨whole, fraction, htext, hwhole, hfraction, -⟩ | ⟨hdigits, -⟩
    · exact .inl ⟨whole, fraction, htext, hwhole, hfraction⟩
    · exact .inr hdigits
  | spaceRef =>
    obtain ⟨⟨space, member, rfl, hspace, hmember⟩, -⟩ := h
    have hcolon : Embeddable [':'] := .plain _ (by decide)
    exact ((Embeddable.name hspace).append (hcolon.append (.name hmember))).balanced
  | yes | no | underscore | callOpen | indexOpen | memberDot =>
    rw [h.1]
    exact (Embeddable.plain _ (by decide)).balanced
  | endOfText => exact h.elim
  | _ =>
    rw [h]
    exact (Embeddable.plain _ (by decide)).balanced

/-- A token without backquotes is no template. -/
private theorem Terminal.Matches.ne_template {t : Terminal} {before text after : List Char}
    (h : t.Matches before text after) (hback : '`' ∉ text) : t ≠ .template := by
  rintro rfl
  obtain ⟨body, rfl, -⟩ := h
  simp at hback

namespace Segment

/-- **The scan for the end of an expression passes over a text**, and so many braces are open after
it. -/
def Crosses (depth : Nat) (text : List Char) (depth' : Nat) : Prop :=
  ∀ tail, takeExpr? (.code depth) (text ++ tail) =
    (takeExpr? (.code depth') tail).map fun found => (text ++ found.1, found.2)

namespace Crosses

variable {depth depth' depth'' : Nat} {text text' : List Char}

private theorem of_balanced (h : Balanced text) (depth : Nat) : Crosses depth text depth :=
  takeExpr?_balanced h depth

theorem append (h : Crosses depth text depth') (h' : Crosses depth' text' depth'') :
    Crosses depth (text ++ text') depth'' := by
  intro tail
  rw [List.append_assoc, h, h', Option.map_map]
  simp [Function.comp_def]

/-- A text that leaves no brace open is balanced. -/
private theorem balanced (h : Crosses 0 text 0) : Balanced text := by
  have htake : takeExpr? (.code 0) (text ++ ['\x7d']) = some (text, []) := by
    simpa [takeExpr?] using h ['\x7d']
  exact (takeExpr?_eq_some_iff.1 htake).2

/-- A token is passed over. -/
private theorem of_matches {t : Terminal} {before after : List Char}
    (h : t.Matches before text after) (htemplate : t ≠ .template)
    (hdepth : t.depthAfter depth = some depth') :
    Crosses depth text depth' := by
  by_cases hleft : t = .leftBrace
  · subst hleft
    cases h
    cases hdepth
    intro tail
    rfl
  by_cases hright : t = .rightBrace
  · subst hright
    cases h
    cases depth with
    | zero => cases hdepth
    | succ depth =>
      cases hdepth
      intro tail
      rfl
  · have hsame : t.depthAfter depth = some depth := by
      cases t <;> first | rfl | exact absurd rfl hleft | exact absurd rfl hright
    obtain rfl : depth = depth' := Option.some.inj (hsame.symm.trans hdepth)
    exact of_balanced (h.balanced hleft hright htemplate) depth

/-- **A text that is cut into tokens is passed over** if the braces of its tokens match and its
comments are balanced. -/
theorem of_cut {before : List Char} {tokens : List Lexeme} (h : SettledCut before text tokens)
    (hback : '`' ∉ text) (hcomments : ∀ comment ∈ comments text, Balanced comment)
    (hdepth : braceDepth tokens depth = some depth') : Crosses depth text depth' := by
  induction h generalizing depth with
  | nil hlayout =>
    cases hdepth
    have hgap := hlayout.balanced (by simpa using hcomments)
    exact of_balanced hgap.1 depth'
  | @cons before gap after l tokens hlayout hsettled hmatches _ ih =>
    obtain ⟨hgap, hrest⟩ := hlayout.balanced hcomments
    rw [comments_token hmatches hsettled] at hrest
    have htemplate := hmatches.ne_template fun hmem => hback (by simp [hmem])
    obtain ⟨middle, hmiddle, htokens⟩ : ∃ middle, l.terminal.depthAfter depth = some middle ∧
        braceDepth tokens middle = some depth' := by
      simpa [braceDepth, Option.bind_eq_some_iff] using hdepth
    refine (of_balanced hgap depth).append ((of_matches hmatches htemplate hmiddle).append ?_)
    exact ih (fun hmem => hback (by simp [hmem])) hrest htokens

end Crosses

end Segment

/-- **An expression is balanced if its comments are.** -/
theorem balanced_of_parseExpression {source : String} {e : Node}
    (hback : '`' ∉ source.toList) (h : parseExpression source = .ok e)
    (hcomments : ∀ comment ∈ comments source.toList, Balanced comment) :
    Balanced source.toList := by
  obtain ⟨tokens, hcut, trees, hderives, -⟩ :=
    Reading.spells_of_read (fun _ _ => reads_of_readEmbedded) Reading.spelt_expression h
  have hdepth : braceDepth tokens 0 = some 0 := hderives.braceDepth_eq rfl
  exact (Segment.Crosses.of_cut hcut hback hcomments hdepth).balanced

/-! ### Reading without templates -/

/-- The tree of a token that is no template does not depend on what reads embedded expressions. -/
private theorem exists_leafNode_eq {l : Lexeme} (h : l.terminal ≠ .template) :
    ∃ leaf, ∀ readExpr, leafNode readExpr l = .ok leaf := by
  obtain ⟨terminal, text⟩ := l
  cases terminal <;> first | exact ⟨_, fun _ => rfl⟩ | exact absurd rfl h

/-- A text without backquotes is read as the same tree whatever reads embedded expressions. -/
private theorem Reading.read_of_notMem {readExpr : ExprReader} (readExpr' : ExprReader)
    {r : Reading} {c last : Cursor} {fault : Option SyntaxError} {tree : Node}
    (hback : '`' ∉ c.after) (h : r.read readExpr c last fault = .ok tree) :
    r.read readExpr' c last fault = .ok tree := by
  fun_induction Reading.read readExpr r c last fault with
  | case1 r c last fault =>
    rename_i hend
    rw [read_of_end hend]
    exact h
  | case2 => cases h
  | case3 => cases h
  | case4 r c last fault =>
    rename_i hne l hl leaf r' hstep fault' ih
    obtain ⟨after, hafter, hmatches⟩ := Cursor.matches_of_lexeme? hl
    obtain ⟨gap, hgap, -⟩ := c.layout_skipLayout
    rw [hgap, hafter] at hback
    obtain ⟨node, hnode⟩ :=
      exists_leafNode_eq (hmatches.ne_template fun hmem => hback (by simp [hmem]))
    have hleaf : leaf = .ok node := hnode readExpr
    have hfault : fault' = fault := by simp [fault', hleaf]
    have hstep : r.step ⟨l.terminal, String.ofList l.text, node⟩ = some r' := by
      simpa [hleaf, Except.toOption] using hstep
    rw [read_of_lexeme? hne hl (hnode readExpr') hstep, ← hfault]
    refine ih ?_ h
    rw [Cursor.after_advance, hafter, List.drop_left]
    exact fun hmem => hback (by simp [hmem])

/-- An expression without backquotes is read inside a template as it is alone. -/
private theorem readEmbedded_of_parseExpression {source : String} {e : Node}
    (hback : '`' ∉ source.toList) (h : parseExpression source = .ok e) :
    readEmbedded source.toList = .ok e :=
  Reading.read_of_notMem _ hback h

/-! ### Templates with one expression -/

/-- Literal text that stands for itself in a template. -/
def IsLiteral (text : List Char) : Prop :=
  ∀ c ∈ text, c ∉ ['`', '\\', '\x7b']

instance decidableIsLiteral : DecidablePred IsLiteral := fun text =>
  inferInstanceAs (Decidable (∀ c ∈ text, c ∉ ['`', '\\', '\x7b']))

/-- Literal text as a part of a template, none if it is empty. -/
def literalPart (text : String) : List (String ⊕ Node) :=
  if text = "" then [] else [.inl text]

namespace Segment

private theorem scan?_literal {cs : List Char} (h : IsLiteral cs) (text more : List Char) :
    scan? text (cs ++ more) = scan? (cs.reverse ++ text) more := by
  have hescape : Printer.escape Printer.isSpecialTemplate cs = cs := by
    refine Printer.escape_eq_self fun c hc => ?_
    have hplain := h c hc
    simp only [List.mem_cons, List.not_mem_nil, or_false, not_or] at hplain
    simp [Printer.isSpecialTemplate, hplain]
  simpa [hescape] using scan?_escape text cs more

/-- A template with one expression is split into that and the literal texts around it. -/
private theorem split?_one {a b source : List Char} (ha : IsLiteral a) (hb : IsLiteral b)
    (h : Balanced source) :
    split? (a ++ '\x7b' :: (source ++ '\x7d' :: b)) =
      some (flush a.reverse ++ .expr source :: flush b.reverse) := by
  have hlast : scan? [] b = some (flush b.reverse) := by
    simpa [scan?] using scan?_literal hb [] []
  rw [split?, scan?_literal ha, scan?_embedded h, hlast]
  simp

private theorem mapM_readSegment_flush (readExpr : ExprReader) (text : String) :
    (flush text.toList.reverse).mapM (readSegment readExpr) = .ok (literalPart text) := by
  by_cases h : text = ""
  · simp [flush, literalPart, h, pure, Except.pure]
  · have hne : text.toList.reverse.isEmpty = false := by simpa using h
    rw [flush, hne, literalPart, if_neg h]
    simp only [Bool.false_eq_true, if_false, List.reverse_reverse, List.mapM_cons, List.mapM_nil,
      readSegment, String.ofList_toList]
    rfl

end Segment

/-- A template with one expression is read as its parts. -/
private theorem templateNode_one {readExpr : ExprReader} {a b source : String} {e : Node}
    (ha : IsLiteral a.toList) (hb : IsLiteral b.toList) (h : Balanced source.toList)
    (hread : readExpr source.toList = .ok e) :
    templateNode readExpr (a.toList ++ '\x7b' :: (source.toList ++ '\x7d' :: b.toList)) =
      .ok (.template (literalPart a ++ .inr e :: literalPart b)) := by
  rw [templateNode_eq, Segment.split?_one ha hb h]
  simp only [List.mapM_append, List.mapM_cons, Segment.mapM_readSegment_flush, readSegment, hread]
  rfl

/-- **Templates agree with the reader about where an expression ends.** An expression without
backquotes is found as a whole between braces if its comments are balanced. Whenever it is, a
template with literal text around it is the template of these parts. -/
theorem parseExpression_template {source : String} {e : Node} (hback : '`' ∉ source.toList)
    (h : parseExpression source = .ok e) :
    ((∀ comment ∈ comments source.toList, Balanced comment) →
      Segment.split? ("\x7b" ++ source ++ "\x7d").toList = some [.expr source.toList]) ∧
    (Segment.split? ("\x7b" ++ source ++ "\x7d").toList = some [.expr source.toList] →
      ∀ a b : String, IsLiteral a.toList → IsLiteral b.toList →
        parseExpression ("`" ++ a ++ "\x7b" ++ source ++ "\x7d" ++ b ++ "`") =
          .ok (.template (literalPart a ++ .inr e :: literalPart b))) := by
  have hencode : ("\x7b" ++ source ++ "\x7d").toList = Segment.encode (.expr source.toList) := by
    simp [Segment.encode]
  rw [hencode, Segment.split?_encode_expr_iff]
  refine ⟨balanced_of_parseExpression hback h, fun hbalanced a b ha hb => ?_⟩
  have hbody : '`' ∉ a.toList ++ '\x7b' :: (source.toList ++ '\x7d' :: b.toList) := by
    have hback' {text : List Char} (htext : IsLiteral text) : '`' ∉ text :=
      fun hmem => htext '`' hmem (by decide)
    simp [hback, hback' ha, hback' hb]
  have hnode := templateNode_one ha hb hbalanced (readEmbedded_of_parseExpression hback h)
  have htext : ("`" ++ a ++ "\x7b" ++ source ++ "\x7d" ++ b ++ "`").toList =
      '`' :: (a.toList ++ '\x7b' :: (source.toList ++ '\x7d' :: b.toList) ++ ['`']) := by simp
  have hapart : Apart [] := by
    intro c hc
    cases hc
  have htoken := tokenAt_template hbody hnode hapart []
  have hpass : Passes readEmbedded Reading.expression [] _ []
      ⟨.operand (.template (literalPart a ++ .inr e :: literalPart b)), [.expression]⟩ :=
    .token htoken rfl
  rw [parseExpression, htext]
  exact hpass.readText rfl

/-- An object with a brace in a quoted text and a comment with two braces. -/
theorem parseExpression_template_object :
    let source := "\x7ba:\"\x7d\"/*\x7b\x7d*/\x7d"
    let e : Node := .object [("a", .text "\x7d")]
    ('`' ∉ source.toList ∧ parseExpression source = .ok e ∧
        ∀ comment ∈ comments source.toList, Balanced comment) ∧
      Segment.split? ("\x7b" ++ source ++ "\x7d").toList = some [.expr source.toList] ∧
      parseExpression ("`" ++ "x" ++ "\x7b" ++ source ++ "\x7d" ++ "" ++ "`") =
        .ok (.template [.inl "x", .inr e]) := by
  intro source e
  have hcomment : Comment "/*\x7b\x7d*/".toList ['\x7d'] :=
    @Comment.block ['\x7b', '\x7d'] _ (by decide)
  have htext : source.toList = ['\x7b'] ++ (['a'] ++ ([':'] ++
      (['"', '\x7d', '"'] ++ ("/*\x7b\x7d*/".toList ++ ['\x7d'])))) := by decide
  have hpass : Passes readEmbedded Reading.expression [] source.toList []
      ⟨.operand e, [.expression]⟩ := htext ▸
    .trans (.found (t := .leftBrace) rfl rfl rfl rfl) (
    .trans (.found (t := .name) rfl rfl rfl rfl) <|
    .trans (.found (t := .colon) rfl rfl rfl rfl) <|
    .trans (.found (t := .string) rfl rfl rfl rfl) <|
    .layout hcomment.layout (.found (t := .rightBrace) rfl rfl rfl rfl))
  have hparse : parseExpression source = .ok e := hpass.readText rfl
  have hback : '`' ∉ source.toList := by decide
  have hcomments : ∀ comment ∈ comments source.toList, Balanced comment := by
    have hlist : comments source.toList = ["/*\x7b\x7d*/".toList] := by decide +kernel
    rw [hlist, List.forall_mem_singleton]
    have hbraces : Balanced ['\x7b', '\x7d', '*', '/'] :=
      @Balanced.braces [] ['*', '/'] .nil (Embeddable.plain _ (by decide)).balanced
    exact (Embeddable.plain ['/', '*'] (by decide)).balanced.append hbraces
  obtain ⟨hsplit, htemplate⟩ := parseExpression_template hback hparse
  exact ⟨⟨hback, hparse, hcomments⟩, hsplit hcomments,
    htemplate (hsplit hcomments) "x" "" (by decide) (by decide)⟩

/-- **A brace in a comment ends an embedded expression** for the scan, though the reader skips the
comment. -/
theorem brace_in_comment_ends_expression :
    let source := "1/*\x7d*/"
    ('`' ∉ source.toList ∧ parseExpression source = .ok (.number (numberToken ['1']))) ∧
      Segment.split? ("\x7b" ++ source ++ "\x7d").toList =
        some [.expr "1/*".toList, .text "*/\x7d".toList] := by
  intro source
  have hcomment : Comment "/*\x7d*/".toList [] := @Comment.block ['\x7d'] _ (by decide)
  have htext : source.toList = ['1'] ++ ("/*\x7d*/".toList ++ []) := by decide
  have hpass : Passes readEmbedded Reading.expression [] source.toList []
      ⟨.operand (.number (numberToken ['1'])), [.expression]⟩ := htext ▸
    .trans (.found (t := .number) rfl rfl rfl rfl) (.layout hcomment.layout .nil)
  have hparse : parseExpression source = .ok (.number (numberToken ['1'])) := hpass.readText rfl
  exact ⟨⟨by decide, hparse⟩, by decide +kernel⟩

end Sigil
