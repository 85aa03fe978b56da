import Mathlib.Data.List.Forall2
import Sigil.Proofs.Grammar.Spelling

/-!
# Templates and their embedded expressions

The scan of a template body finds the parts that `TemplateParts` describes: an embedded expression
ends at the brace that balances the one before it, and literal text is unescaped. So a template
token spells the template that `templateNode` builds (`spells_template`), whatever the relation
between embedded texts and their derivations is.
-/

namespace Sigil

variable {E : List Char → Tree → Prop}

/-! ### Where an embedded expression ends -/

/-- The text up to the brace that closes an expression, inside so many further braces. -/
def Closes : Nat → List Char → Prop
  | 0, cs => Balanced cs
  | depth + 1, cs => ∃ inside rest, cs = inside ++ '\x7d' :: rest ∧ Balanced inside ∧
      Closes depth rest

/-- What may stand in front of every balanced text may stand in front of a text that closes. -/
theorem Closes.append (front : List Char) (hfront : ∀ cs, Balanced cs → Balanced (front ++ cs))
    {depth : Nat} {cs : List Char} (h : Closes depth cs) : Closes depth (front ++ cs) := by
  cases depth with
  | zero => exact hfront cs h
  | succ depth =>
    obtain ⟨inside, rest, rfl, hinside, hrest⟩ := h
    exact ⟨front ++ inside, rest, by simp, hfront inside hinside, hrest⟩

/-- The text that a scan takes, by what the scan is inside of. -/
def Scan.Takes : Scan → List Char → Prop
  | .code depth, cs => Closes depth cs
  | .quoted depth, cs => ∃ body rest, cs = body ++ '"' :: rest ∧
      QuotedBody (fun _ => True) body ∧ Closes depth rest

private theorem takeExpr?_add_eq_some_iff {c : Char} {found : Option (List Char × List Char)}
    {inside rest : List Char} :
    Segment.takeExpr?.add c found = some (inside, rest) ↔
      ∃ more, found = some (more, rest) ∧ inside = c :: more := by
  cases found with
  | none => simp [Segment.takeExpr?.add]
  | some pair =>
    obtain ⟨more, after⟩ := pair
    simp only [Segment.takeExpr?.add, Option.map_some, Option.some.injEq, Prod.mk.injEq]
    grind

/-- A scan takes everything up to the brace that closes the expression. -/
theorem takes_of_takeExpr? {scan : Scan} {cs inside rest : List Char}
    (h : Segment.takeExpr? scan cs = some (inside, rest)) :
    cs = inside ++ '\x7d' :: rest ∧ scan.Takes inside := by
  fun_induction Segment.takeExpr? scan cs generalizing inside with
  | case1 => cases h
  | case2 after =>
    obtain ⟨rfl, rfl⟩ : [] = inside ∧ after = rest := by simpa using h
    exact ⟨rfl, .nil⟩
  | case3 after depth ih =>
    obtain ⟨more, hmore, rfl⟩ := takeExpr?_add_eq_some_iff.1 h
    obtain ⟨rfl, htakes⟩ := ih hmore
    exact ⟨rfl, [], more, rfl, .nil, htakes⟩
  | case4 depth after _ ih =>
    obtain ⟨more, hmore, rfl⟩ := takeExpr?_add_eq_some_iff.1 h
    obtain ⟨rfl, inside, tail, rfl, hinside, htail⟩ := ih hmore
    have := htail.append ('\x7b' :: (inside ++ ['\x7d'])) fun cs hcs => by
      simpa using Balanced.braces hinside hcs
    exact ⟨by simp, by simpa [Scan.Takes] using this⟩
  | case5 depth after _ _ ih =>
    obtain ⟨more, hmore, rfl⟩ := takeExpr?_add_eq_some_iff.1 h
    obtain ⟨rfl, body, tail, rfl, hbody, htail⟩ := ih hmore
    have := htail.append ('"' :: (body ++ ['"'])) fun cs hcs => by
      simpa using Balanced.quoted hbody hcs
    exact ⟨by simp, by simpa [Scan.Takes] using this⟩
  | case6 depth c after hclose hopen hquote ih =>
    obtain ⟨more, hmore, rfl⟩ := takeExpr?_add_eq_some_iff.1 h
    obtain ⟨rfl, htakes⟩ := ih hmore
    exact ⟨rfl, Closes.append [c] (fun cs => .plain hopen hclose hquote) htakes⟩
  | case7 depth c after ih =>
    obtain ⟨_, hsecond, rfl⟩ := takeExpr?_add_eq_some_iff.1 h
    obtain ⟨more, hmore, rfl⟩ := takeExpr?_add_eq_some_iff.1 hsecond
    obtain ⟨rfl, body, tail, rfl, hbody, htail⟩ := ih hmore
    exact ⟨rfl, '\\' :: c :: body, tail, rfl, .escape trivial hbody, htail⟩
  | case8 depth after _ ih =>
    obtain ⟨more, hmore, rfl⟩ := takeExpr?_add_eq_some_iff.1 h
    obtain ⟨rfl, htakes⟩ := ih hmore
    exact ⟨rfl, [], more, rfl, .nil, htakes⟩
  | case9 depth c after hescape hquote ih =>
    obtain ⟨more, hmore, rfl⟩ := takeExpr?_add_eq_some_iff.1 h
    obtain ⟨rfl, body, tail, rfl, hbody, htail⟩ := ih hmore
    refine ⟨rfl, c :: body, tail, rfl, .plain hquote ?_ hbody, htail⟩
    rintro rfl
    -- a backslash would have taken the next character with it
    cases hcs : body ++ '"' :: tail ++ '\x7d' :: rest with
    | nil => simp at hcs
    | cons d ds => exact hescape d ds rfl hcs

/-! ### Literal text -/

namespace Unescapes

variable {raw text : List Char} {c : Char}

private theorem snoc_escape (h : Unescapes raw text) :
    Unescapes (raw ++ ['\\', c]) (text ++ [c]) := by
  induction h with
  | nil => exact .escape .nil
  | escape _ ih => exact .escape ih
  | plain hslash hbrace _ ih => exact .plain hslash hbrace ih

private theorem snoc_plain (h : Unescapes raw text) (hslash : c ≠ '\\') (hbrace : c ≠ '\x7b') :
    Unescapes (raw ++ [c]) (text ++ [c]) := by
  induction h with
  | nil => exact .plain hslash hbrace .nil
  | escape _ ih => exact .escape ih
  | plain hslash' hbrace' _ ih => exact .plain hslash' hbrace' ih

end Unescapes

/-! ### The parts of a template -/

/-- Reading one part of a template. -/
def readSegment (readExpr : ExprReader) : Segment → Except SyntaxError (String ⊕ Node)
  | .text s => pure (Sum.inl (String.ofList s))
  | .expr s => return Sum.inr (← readExpr s)

theorem templateNode_eq (readExpr : ExprReader) (body : List Char) :
    templateNode readExpr body =
      match Segment.split? body with
      | none => .error .unterminatedTemplate
      | some segments => .template <$> segments.mapM (readSegment readExpr) := by
  unfold templateNode
  cases Segment.split? body with
  | none => rfl
  | some segments =>
    simp only [bind_pure_comp]
    refine congrArg (fun f => Node.template <$> segments.mapM f) (funext fun segment => ?_)
    cases segment <;> simp [readSegment]

private theorem forall₂_of_mapM {α β ε : Type} {f : α → Except ε β} {xs : List α} {ys : List β}
    (h : xs.mapM f = .ok ys) : List.Forall₂ (fun x y => f x = .ok y) xs ys := by
  induction xs generalizing ys with
  | nil =>
    cases h
    exact .nil
  | cons x xs ih =>
    rw [List.mapM_cons] at h
    cases hx : f x with
    | error e => rw [hx] at h; cases h
    | ok y =>
      cases hxs : xs.mapM f with
      | error e => rw [hx, hxs] at h; cases h
      | ok zs =>
        rw [hx, hxs] at h
        cases h
        exact .cons hx (ih hxs)

variable {readExpr : ExprReader}

/-- The literal text so far is a part of its own unless it is empty. -/
private theorem partImages_of_flush {text : List Char} {segments : List Segment}
    {ps : List (String ⊕ Node)}
    (h : List.Forall₂ (fun x y => readSegment readExpr x = .ok y)
      (Segment.flush text ++ segments) ps) :
    ∃ qs, List.Forall₂ (fun x y => readSegment readExpr x = .ok y) segments qs ∧
      ∀ parts, Tree.partImages parts = some qs →
        Tree.partImages (textPart text.reverse ++ parts) = some ps := by
  cases text with
  | nil => exact ⟨ps, h, fun parts hparts => hparts⟩
  | cons c text =>
    cases h with
    | @cons _ p _ qs hp hqs =>
      refine ⟨qs, hqs, fun parts hparts => ?_⟩
      cases hp
      simp [textPart, Tree.partImages, hparts]

/-- The parts of a template body, found by a scan that has read some literal text already. -/
private theorem templateParts_of_scan?
    (hread : ∀ source e, readExpr source = .ok e → ∃ t, E source t ∧ t.image = some (.whole e))
    {raw text body : List Char} {segments : List Segment} {ps : List (String ⊕ Node)}
    (hraw : Unescapes raw text.reverse) (hscan : Segment.scan? text body = some segments)
    (hps : List.Forall₂ (fun x y => readSegment readExpr x = .ok y) segments ps) :
    ∃ parts, TemplateParts E (raw ++ body) parts ∧ Tree.partImages parts = some ps := by
  -- the text that a scan ends with is the last part
  have hlast : ∀ {text segments ps}, some (Segment.flush text) = some segments →
      List.Forall₂ (fun x y => readSegment readExpr x = .ok y) segments ps →
        Tree.partImages (textPart text.reverse) = some ps := by
    intro text segments ps hscan hps
    cases hscan
    rw [← (Segment.flush text).append_nil] at hps
    obtain ⟨qs, hqs, himages⟩ := partImages_of_flush hps
    cases hqs
    simpa using himages [] (by rw [Tree.partImages])
  fun_induction Segment.scan? text body generalizing raw segments ps with
  | case1 text =>
    rw [List.append_nil]
    exact ⟨_, .text hraw, hlast hscan hps⟩
  | case2 text c rest ih =>
    have hraw' : Unescapes (raw ++ ['\\', c]) (c :: text).reverse := by
      simpa using hraw.snoc_escape (c := c)
    simpa using ih hraw' hscan hps
  | case3 => cases hscan
  | case4 text rest source more htake _ _ ih =>
    obtain ⟨later, hlater, rfl⟩ := Option.map_eq_some_iff.1 hscan
    obtain ⟨rfl, hbalanced⟩ := takes_of_takeExpr? htake
    obtain ⟨_, hall, himages⟩ := partImages_of_flush hps
    cases hall with
    | @cons _ p _ qs hp hqs =>
      obtain ⟨e, he, rfl⟩ : ∃ e, readExpr source = .ok e ∧ p = .inr e := by
        cases he : readExpr source with
        | error err => simp [readSegment, he, bind, Except.bind] at hp
        | ok e =>
          refine ⟨e, rfl, ?_⟩
          simpa [readSegment, he, bind, Except.bind, pure, Except.pure, eq_comm] using hp
      obtain ⟨t, ht, himage⟩ := hread source e he
      obtain ⟨parts, hparts, hqs⟩ := ih (show Unescapes [] [].reverse from .nil) hlater hqs
      refine ⟨_, .embedded hraw hbalanced ht hparts, himages _ ?_⟩
      rw [Tree.partImages, himage]
      simp [hqs]
  | case5 text c rest hescape hbrace ih =>
    by_cases hslash : c = '\\'
    · subst hslash
      -- a backslash that takes no character with it ends the template
      obtain rfl : rest = [] := by
        cases rest with
        | nil => rfl
        | cons d ds => exact (hescape d ds rfl rfl).elim
      rw [Segment.scan?] at hscan
      exact ⟨_, .backslash hraw, by simpa using hlast hscan hps⟩
    · have hraw' : Unescapes (raw ++ [c]) (c :: text).reverse := by
        simpa using hraw.snoc_plain hslash hbrace
      simpa using ih hraw' hscan hps

/-- **A template token spells the template that is built for it.** -/
theorem spells_template
    (hread : ∀ source e, readExpr source = .ok e → ∃ t, E source t ∧ t.image = some (.whole e))
    {body : List Char} {n : Node} (h : templateNode readExpr body = .ok n) :
    Spells E (.rule .atom) [⟨.template, '`' :: (body ++ ['`'])⟩] [.node n] := by
  rw [templateNode_eq] at h
  cases hsplit : Segment.split? body with
  | none => rw [hsplit] at h; cases h
  | some segments =>
    cases hps : segments.mapM (readSegment readExpr) with
    | error e => rw [hsplit] at h; simp only [hps] at h; cases h
    | ok ps =>
      rw [hsplit] at h
      simp only [hps] at h
      cases h
      obtain ⟨parts, hparts, himages⟩ :=
        templateParts_of_scan? hread (show Unescapes [] [].reverse from .nil) hsplit
          (forall₂_of_mapM hps)
      have htoken : Spells E (.token .template) [⟨.template, '`' :: (body ++ ['`'])⟩]
          [.parts ps] :=
        ⟨_, .template hparts, by simp [Tree.image, himages]⟩
      exact htoken.made .template (by simp [grammar]) rfl

end Sigil
