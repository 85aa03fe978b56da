import Sigil.Proofs.Grammar.Embedding
import Sigil.Proofs.Surface.Printer

/-!
# Written templates

What is escaped is read back as it was, in quoted texts and in the literal text of templates. The
text of an expression inside a template is balanced, so the scan that looks for its end finds the
brace that the printer put there, and it holds no backquote, so that the template does not end
early.
-/

namespace Sigil

open Lexeme

/-! ### Escapes -/

namespace Printer

variable {special : Char → Bool}

private theorem escape_cons (c : Char) (cs : List Char) :
    escape special (c :: cs) = (if special c then ['\\', c] else [c]) ++ escape special cs := by
  simp [escape]

/-- Escaping adds backslashes only. -/
private theorem mem_of_mem_escape {c : Char} {cs : List Char} (h : c ∈ escape special cs) :
    c = '\\' ∨ c ∈ cs := by
  obtain ⟨d, hd, hc⟩ := List.mem_flatMap.1 h
  split at hc
  · simp only [List.mem_cons, List.not_mem_nil, or_false] at hc
    rcases hc with rfl | rfl
    · exact .inl rfl
    · exact .inr hd
  · obtain rfl := List.mem_singleton.1 hc
    exact .inr hd

/-- A text without special characters stays as it is. -/
theorem escape_eq_self {cs : List Char} (h : ∀ c ∈ cs, special c = false) :
    escape special cs = cs := by
  induction cs with
  | nil => rfl
  | cons c cs ih =>
    rw [escape_cons, ih fun d hd => h d (List.mem_cons_of_mem c hd)]
    simp [h c List.mem_cons_self]

/-- A quoted text can be written with escapes, and it stands for what was escaped. -/
theorem unescape_escape (hslash : special '\\' = true) (cs : List Char) :
    unescape (escape special cs) = cs := by
  induction cs with
  | nil => rfl
  | cons c cs ih =>
    rw [escape_cons]
    by_cases hc : special c = true
    · simp [hc, unescape, ih]
    · have hne : c ≠ '\\' := by
        rintro rfl
        exact hc hslash
      simp [hc, unescape, hne, ih]

/-- Escaped text stands between quotes without ending them. -/
theorem quotedBody_escape (cs : List Char) :
    QuotedBody (· ≠ '\n') (escape isSpecialQuoted cs) := by
  induction cs with
  | nil => exact .nil
  | cons c cs ih =>
    rw [escape_cons]
    by_cases hc : isSpecialQuoted c = true
    · have hne : c ≠ '\n' := by
        rintro rfl
        exact absurd hc (by decide)
      simpa [hc] using ih.escape (c := c) hne
    · have hplain : c ≠ '"' ∧ c ≠ '\\' := by simpa [isSpecialQuoted] using hc
      simpa [hc] using QuotedBody.plain hplain.1 hplain.2 ih

end Printer

/-! ### Embedded texts -/

theorem QuotedBody.mono {p q : Char → Prop} (hpq : ∀ c, p c → q c) {body : List Char}
    (h : QuotedBody p body) : QuotedBody q body := by
  induction h with
  | nil => exact .nil
  | escape hc _ ih => exact .escape (hpq _ hc) ih
  | plain hquote hslash _ ih => exact .plain hquote hslash ih

/-- Balanced texts one after another are balanced. -/
theorem Balanced.append {xs ys : List Char} (hxs : Balanced xs) (hys : Balanced ys) :
    Balanced (xs ++ ys) := by
  induction hxs with
  | nil => exact hys
  | plain hopen hclose hquote _ ih => exact .plain hopen hclose hquote ih
  | braces hinside _ _ ih => simpa using Balanced.braces hinside ih
  | quoted hbody _ ih => simpa using Balanced.quoted hbody ih

/-- **A text that can stand inside a template**: it is balanced and holds no backquote. -/
structure Embeddable (text : List Char) : Prop where
  /-- Braces outside quoted texts are balanced. -/
  balanced : Balanced text
  /-- The template does not end in it. -/
  backquote : '`' ∉ text

namespace Embeddable

variable {xs ys body : List Char}

theorem nil : Embeddable [] :=
  ⟨.nil, nofun⟩

/-- Embeddable texts one after another are embeddable. -/
theorem append (hxs : Embeddable xs) (hys : Embeddable ys) : Embeddable (xs ++ ys) :=
  ⟨hxs.balanced.append hys.balanced, by simp [hxs.backquote, hys.backquote]⟩

/-- A text without braces, quotes and backquotes. -/
theorem plain (xs : List Char) (h : ∀ c ∈ xs, c ∉ ['\x7b', '\x7d', '"', '`']) :
    Embeddable xs := by
  induction xs with
  | nil => exact nil
  | cons c xs ih =>
    have hc := h c List.mem_cons_self
    simp only [List.mem_cons, List.not_mem_nil, or_false, not_or] at hc
    have hxs := ih fun d hd => h d (List.mem_cons_of_mem c hd)
    exact ⟨.plain hc.1 hc.2.1 hc.2.2.1 hxs.balanced,
      by simp [hxs.backquote, Ne.symm hc.2.2.2]⟩

private theorem word (t : Terminal) (h : t ≠ .leftBrace ∧ t ≠ .rightBrace) : Embeddable t.word := by
  refine plain _ ?_
  cases t <;> first | exact absurd rfl h.1 | exact absurd rfl h.2 | decide

/-- A text between braces. -/
private theorem braces (h : Embeddable xs) :
    Embeddable (Terminal.leftBrace.word ++ xs ++ Terminal.rightBrace.word) := by
  have hinside : Embeddable (' ' :: xs) := (plain [' '] (by decide)).append h
  have hblank : Embeddable [' '] := plain _ (by decide)
  have htext : Terminal.leftBrace.word ++ xs ++ Terminal.rightBrace.word =
      '\x7b' :: ((' ' :: xs) ++ '\x7d' :: [' ']) := by simp [Terminal.word, Terminal.sign]
  exact htext ▸ ⟨.braces hinside.balanced hblank.balanced, by simp [h.backquote]⟩

/-- Parentheses do not count as braces. -/
private theorem group (h : Embeddable xs) : Embeddable (Printer.group xs) :=
  ((word .leftParen (by decide)).append h).append (word .rightParen (by decide))

/-- A quoted text with a blank after it. -/
private theorem quoted (hbody : QuotedBody (· ≠ '\n') body) (hback : '`' ∉ body) :
    Embeddable ('"' :: (body ++ ['"']) ++ [' ']) := by
  have hblank : Embeddable [' '] := plain _ (by decide)
  have htext : '"' :: (body ++ ['"']) ++ [' '] = '"' :: (body ++ '"' :: [' ']) := by simp
  exact htext ▸ ⟨.quoted (hbody.mono fun _ _ => trivial) hblank.balanced, by simp [hback]⟩

/-- A name has neither braces nor quotes. -/
theorem name {x : List Char} (h : IsName x) : Embeddable x := by
  have hstart : ∀ c ∈ ['\x7b', '\x7d', '"', '`'], isNameStart c = false := by decide
  have hchar : ∀ c ∈ ['\x7b', '\x7d', '"', '`'], isNameChar c = false := by decide
  refine plain _ fun c hc hmem => ?_
  cases x with
  | nil => exact h.elim
  | cons d ds =>
    rcases List.mem_cons.1 hc with rfl | hc
    · exact absurd h.1 (by simp [hstart _ hmem])
    · exact absurd (h.2 c hc) (by simp [hchar _ hmem])

private theorem nameWord {s : String} (h : IsVarName s) : Embeddable (nameWord s) :=
  (name h.1).append (plain _ (by decide))

private theorem digits {ds : List Char} (h : IsDigits ds) : Embeddable ds := by
  have hdigit : ∀ c ∈ ['\x7b', '\x7d', '"', '`'], c.isDigit = false := by decide
  exact plain _ fun c hc hmem => absurd (h.2 c hc) (by simp [hdigit c hmem])

theorem numeral {x : List Char} (h : IsNumeral x) : Embeddable x := by
  rcases h with ⟨whole, fraction, rfl, hwhole, hfraction⟩ | h
  · exact (digits hwhole).append ((plain ['.'] (by decide)).append (digits hfraction))
  · exact digits h

private theorem statement {n : Node} (h : Embeddable xs) : Embeddable (Printer.statement n xs) := by
  unfold Printer.statement
  split
  · exact h
  · exact h.group

theorem names {params : List String} (h : ∀ x ∈ params, IsVarName x) :
    Embeddable (Printer.names params) := by
  induction params with
  | nil => exact nil
  | cons x params ih =>
    exact (nameWord (h x List.mem_cons_self)).append
      (ih fun y hy => h y (List.mem_cons_of_mem x hy))

/-- A clause that is left out if its tree is. -/
theorem clause {n : Node} (h : n ≠ .absent → Embeddable xs) : Embeddable (Printer.clause n xs) := by
  cases n <;> first | exact nil | exact h nofun

private theorem counter {name : Option String} (h : ∀ x ∈ name, IsVarName x) :
    Embeddable (Printer.counter name) := by
  cases name with
  | none => exact nil
  | some x =>
    exact ((word .hash (by decide)).append (nameWord (h x rfl))).append (word .comma (by decide))

section Lists

variable {write : Float → List Char}

theorem statements {body : List Node} (h : ∀ s ∈ body, Embeddable (Printer.node write s)) :
    Embeddable (Printer.statements write body) := by
  induction body with
  | nil => exact nil
  | cons s body ih =>
    exact (statement (h s List.mem_cons_self)).append
      (ih fun x hx => h x (List.mem_cons_of_mem s hx))

private theorem groups {es : List Node} (h : ∀ e ∈ es, Embeddable (Printer.node write e)) :
    Embeddable (Printer.groups write es) := by
  induction es with
  | nil => exact nil
  | cons e es ih =>
    exact (group (h e List.mem_cons_self)).append (ih fun x hx => h x (List.mem_cons_of_mem e hx))

private theorem members {entries : List (String × Node)}
    (hkeys : ∀ entry ∈ entries, IsVarName entry.1)
    (h : ∀ entry ∈ entries, Embeddable (Printer.node write entry.2)) :
    Embeddable (Printer.members write entries) := by
  induction entries with
  | nil => exact nil
  | cons entry entries ih =>
    have hkey := (nameWord (hkeys entry List.mem_cons_self)).append (word .colon (by decide))
    have hvalue := (group (h entry List.mem_cons_self)).append (word .comma (by decide))
    have hrest := ih (fun x hx => hkeys x (List.mem_cons_of_mem entry hx))
      fun x hx => h x (List.mem_cons_of_mem entry hx)
    simpa [Printer.members] using (hkey.append hvalue).append hrest

private theorem branches {clauses : List (Node × Node)}
    (hfirst : ∀ c ∈ clauses, Embeddable (Printer.node write c.1))
    (hsecond : ∀ c ∈ clauses, Embeddable (Printer.node write c.2)) (sign : Terminal)
    (hsign : sign ≠ .leftBrace ∧ sign ≠ .rightBrace) :
    Embeddable (Printer.branches write sign clauses) := by
  induction clauses generalizing sign with
  | nil => exact nil
  | cons c clauses ih =>
    have hrest := ih (fun x hx => hfirst x (List.mem_cons_of_mem c hx))
      (fun x hx => hsecond x (List.mem_cons_of_mem c hx)) .dotQuestion (by decide)
    exact (((word sign hsign).append (group (hfirst c List.mem_cons_self))).append
      (group (hsecond c List.mem_cons_self))).append hrest

private theorem arms {clauses : List (Node × Node)}
    (hfirst : ∀ c ∈ clauses, Embeddable (Printer.node write c.1))
    (hsecond : ∀ c ∈ clauses, Embeddable (Printer.node write c.2)) :
    Embeddable (Printer.arms write clauses) := by
  induction clauses with
  | nil => exact nil
  | cons c clauses ih =>
    have hrest := ih (fun x hx => hfirst x (List.mem_cons_of_mem c hx))
      fun x hx => hsecond x (List.mem_cons_of_mem c hx)
    exact (((group (hfirst c List.mem_cons_self)).append (word .doubleArrow (by decide))).append
      (group (hsecond c List.mem_cons_self))).append hrest

end Lists

end Embeddable

/-- **What is written of a tree inside a template can stand there.** -/
theorem Surface.embeddable {write : Float → List Char} (hwrite : WritesNumbers write)
    {inside : Bool} {role : Role} {n : Node} (h : Surface inside role n) (hinside : inside = true) :
    Embeddable (Printer.node write n) := by
  have hword := Embeddable.word
  induction h with
  | number hx => exact (Embeddable.numeral (hwrite _ hx).1).append (.plain _ (by decide))
  | text hs =>
    refine .quoted (Printer.quotedBody_escape _) fun hmem => ?_
    rcases Printer.mem_of_mem_escape hmem with heq | hmem
    · cases heq
    · exact hs hinside hmem
  | @truth _ b =>
    cases b
    · exact .plain ['n', 'o', ' '] (by decide)
    · exact .plain ['y', 'e', 's', ' '] (by decide)
  | nothing => exact .plain ['_', ' '] (by decide)
  | array _ ih =>
    exact ((hword .leftBracket (by decide)).append (.groups fun e he => ih e he hinside)).append
      (hword .rightBracket (by decide))
  | object hkeys _ ih => exact .braces (.members hkeys fun entry he => ih entry he hinside)
  | template => cases hinside
  | ident hname => exact .nameWord hname
  | spaceMember hspace hmember =>
    have hcolon : Embeddable [':'] := .plain _ (by decide)
    exact ((Embeddable.name hspace.1).append (hcolon.append (.name hmember.1))).append
      (.plain _ (by decide))
  | member _ hname ih =>
    exact (((hword .leftParen (by decide)).append (ih hinside)).append
      (.plain _ (by decide))).append (.nameWord hname)
  | index _ _ ih ih' =>
    exact ((((hword .leftParen (by decide)).append (ih hinside)).append
      (.plain _ (by decide))).append (ih' hinside).group).append (hword .rightBracket (by decide))
  | call _ _ ih ih' =>
    exact ((((hword .leftParen (by decide)).append (ih hinside)).append
      (.plain _ (by decide))).append (.groups fun e he => ih' e he hinside)).append
        (hword .rightParen (by decide))
  | block _ _ ih => exact .braces (.statements fun s hs => ih s hs hinside)
  | functionExpr hparams _ ih =>
    exact ((hword .atSign (by decide)).append (Embeddable.names hparams).group).append
      (.braces (.statements fun s hs => ih s hs hinside))
  | conditional _ _ _ _ ih ihbody ihdefault =>
    exact (Embeddable.branches (fun c hc => ih c hc hinside) (fun c hc => ihbody c hc hinside)
      .question (by decide)).append (.clause fun hd =>
        (hword .dot (by decide)).append (ihdefault hd hinside).group)
  | selection _ _ _ _ _ ih ihpattern ihbody ihdefault =>
    have harms := (Embeddable.arms (fun c hc => ihpattern c hc hinside)
      (fun c hc => ihbody c hc hinside)).append (.clause fun hd =>
        ((hword .star (by decide)).append (hword .doubleArrow (by decide))).append
          (ihdefault hd hinside).group)
    simpa [Printer.node] using
      ((hword .question (by decide)).append (ih hinside).group).append harms.braces
  | countLoop hname _ _ ih ih' =>
    exact (((hword .tilde (by decide)).append (.counter hname)).append (ih hinside).group).append
      (ih' hinside).group
  | eachLoop hname _ _ ih ih' =>
    have hcounter : Embeddable (Printer.counter (some _)) := .counter fun x hx => by
      cases hx
      exact hname
    exact (((hword .tildeTilde (by decide)).append hcounter).append (ih hinside).group).append
      (ih' hinside).group
  | ret _ ih => exact (hword .returnSign (by decide)).append (ih hinside).group
  | binary hop _ _ ih ih' =>
    have hplain : ∀ op ∈ operators, ∀ c ∈ nameWord op, c ∉ ['\x7b', '\x7d', '"', '`'] := by decide
    exact ((ih hinside).group.append (.plain _ (hplain _ hop))).append (ih' hinside).group
  | expression _ ih => exact ih hinside
  | constant _ hname _ ih =>
    exact (((hword .hash (by decide)).append (.nameWord hname)).append
      (hword .equal (by decide))).append (ih hinside).group
  | mutable hname _ ih =>
    exact (((hword .dollar (by decide)).append (.nameWord hname)).append
      (hword .leftArrow (by decide))).append (ih hinside).group
  | assign hname _ ih =>
    exact ((Embeddable.nameWord hname).append (hword .leftArrow (by decide))).append
      (ih hinside).group
  | output _ ih => exact (hword .outputSign (by decide)).append (ih hinside).group
  | functionDecl _ hname hparams _ ih =>
    exact (((hword .atSign (by decide)).append (.nameWord hname)).append
      (Embeddable.names hparams).group).append (.braces (.statements fun s hs => ih s hs hinside))
  | spaceDecl hname _ ih =>
    simpa [Printer.node] using ((hword .colonColon (by decide)).append (.nameWord hname)).append
      (Embeddable.braces (.statements fun s hs => ih s hs hinside))

/-! ### Reading a written template -/

namespace Segment

/-- A quoted text is passed over. -/
private theorem takeExpr?_quotedBody {escapes : Char → Prop} {body : List Char}
    (h : QuotedBody escapes body) (depth : Nat) (tail : List Char) :
    takeExpr? (.quoted depth) (body ++ '"' :: tail) =
      (takeExpr? (.code depth) tail).map fun found => (body ++ '"' :: found.1, found.2) := by
  induction h with
  | nil => simp [takeExpr?, takeExpr?.add]
  | escape _ _ ih => simp [takeExpr?, takeExpr?.add, ih, Function.comp_def]
  | plain hquote hslash _ ih =>
    simp [takeExpr?, takeExpr?.add, hquote, hslash, ih, Function.comp_def]

/-- A balanced text is passed over, inside any number of braces. -/
theorem takeExpr?_balanced {inside : List Char} (h : Balanced inside) (depth : Nat)
    (tail : List Char) :
    takeExpr? (.code depth) (inside ++ tail) =
      (takeExpr? (.code depth) tail).map fun found => (inside ++ found.1, found.2) := by
  induction h generalizing depth tail with
  | nil => simp
  | plain hopen hclose hquote _ ih =>
    simp [takeExpr?, takeExpr?.add, hopen, hclose, hquote, ih, Function.comp_def]
  | braces _ _ ih ih' => simp [takeExpr?, takeExpr?.add, ih, ih', Function.comp_def]
  | quoted hbody _ ih =>
    simp [takeExpr?, takeExpr?.add, takeExpr?_quotedBody hbody, ih, Function.comp_def]

/-- Escaped literal text is read as it was. -/
theorem scan?_escape (text cs more : List Char) :
    scan? text (Printer.escape Printer.isSpecialTemplate cs ++ more) =
      scan? (cs.reverse ++ text) more := by
  induction cs generalizing text with
  | nil => rfl
  | cons c cs ih =>
    rw [Printer.escape_cons]
    by_cases hc : Printer.isSpecialTemplate c = true
    · simp [hc, scan?, ih]
    · have hplain : c ≠ '\\' ∧ c ≠ '\x7b' := by simpa [Printer.isSpecialTemplate] using hc
      simp [hc, scan?, hplain, ih]

/-- An embedded expression ends at the brace behind it. -/
theorem scan?_embedded {inside : List Char} (h : Balanced inside) (text more : List Char) :
    scan? text ('\x7b' :: (inside ++ '\x7d' :: more)) =
      (scan? [] more).map fun segments => flush text ++ .expr inside :: segments := by
  have htake : takeExpr? (.code 0) (inside ++ '\x7d' :: more) = some (inside, more) := by
    rw [takeExpr?_balanced h]
    simp [takeExpr?]
  rw [scan?]
  · simp only [if_true]
    split
    · simp_all
    · simp_all
  · simp

end Segment

section Parts

variable {write : Float → List Char}

/-- The segments of a written template. -/
def Printer.segments (write : Float → List Char) (ps : List (String ⊕ Node)) : List Segment :=
  ps.map (Sum.elim (fun text => .text text.toList) fun e => .expr (group (node write e)))

/-- The scan finds the parts that were written, after literal text that is read already. No literal
text follows literal text, or the two would be one part. -/
private theorem scan?_parts {ps : List (String ⊕ Node)} (htexts : TextsApart ps)
    (hembedded : ∀ e, .inr e ∈ ps → Embeddable (Printer.node write e)) {text : List Char}
    (htext : text = [] ∨ ∀ next, ps.head? ≠ some (.inl next)) :
    Segment.scan? text (Printer.parts write ps) =
      some (Segment.flush text ++ Printer.segments write ps) := by
  induction ps generalizing text with
  | nil => simp [Printer.parts, Printer.segments, Segment.scan?]
  | cons part ps ih =>
    have hrest : ∀ e, .inr e ∈ ps → Embeddable (Printer.node write e) :=
      fun e he => hembedded e (List.mem_cons_of_mem part he)
    cases part with
    | inl s =>
      obtain ⟨hne, -, hnext, htexts⟩ := htexts
      obtain rfl : text = [] := htext.resolve_right fun h => h s rfl
      rw [Printer.parts, Segment.scan?_escape, ih htexts hrest (.inr hnext)]
      simp [Segment.flush, Printer.segments, hne]
    | inr e =>
      have hgroup := (hembedded e List.mem_cons_self).group
      rw [Printer.parts, Segment.scan?_embedded hgroup.balanced, ih htexts hrest (.inl rfl)]
      simp [Segment.flush, Printer.segments]

theorem backquote_notMem_parts {ps : List (String ⊕ Node)} (htexts : TextsApart ps)
    (hembedded : ∀ e, .inr e ∈ ps → Embeddable (Printer.node write e)) :
    '`' ∉ Printer.parts write ps := by
  induction ps with
  | nil => simp [Printer.parts]
  | cons part ps ih =>
    have hrest : ∀ e, .inr e ∈ ps → Embeddable (Printer.node write e) :=
      fun e he => hembedded e (List.mem_cons_of_mem part he)
    cases part with
    | inl s =>
      obtain ⟨-, hback, -, htexts⟩ := htexts
      have hescape : '`' ∉ Printer.escape Printer.isSpecialTemplate s.toList := fun hmem =>
        (Printer.mem_of_mem_escape hmem).elim (by decide) hback
      simp [Printer.parts, hescape, ih htexts hrest]
    | inr e =>
      have hgroup := (hembedded e List.mem_cons_self).group
      simp [Printer.parts, hgroup.backquote, ih htexts hrest]

/-- **A written template is read as it was**, if its embedded expressions are. -/
theorem templateNode_parts {readExpr : ExprReader} {ps : List (String ⊕ Node)}
    (htexts : TextsApart ps)
    (hembedded : ∀ e, .inr e ∈ ps → Embeddable (Printer.node write e))
    (hread : ∀ e, .inr e ∈ ps → readExpr (Printer.group (Printer.node write e)) = .ok e) :
    templateNode readExpr (Printer.parts write ps) = .ok (.template ps) := by
  have hmap : ∀ qs, qs ⊆ ps →
      (Printer.segments write qs).mapM (readSegment readExpr) = .ok qs := by
    intro qs hqs
    induction qs with
    | nil => rfl
    | cons part qs ih =>
      have hpart : part ∈ ps := hqs List.mem_cons_self
      have hqs := ih fun q hq => hqs (List.mem_cons_of_mem part hq)
      simp only [Printer.segments, List.map_cons, List.mapM_cons] at hqs ⊢
      rw [hqs]
      cases part with
      | inl s => simp [readSegment, bind, Except.bind, pure, Except.pure]
      | inr e => simp [readSegment, hread e hpart, bind, Except.bind, pure, Except.pure]
  rw [templateNode_eq, Segment.split?, scan?_parts htexts hembedded (.inl rfl)]
  simp only [Segment.flush, List.isEmpty_nil, if_true, List.nil_append]
  rw [hmap ps fun _ h => h]
  rfl

end Parts

end Sigil
