import Mathlib.Data.List.Chain
import Sigil.Proofs.Surface.Template

/-!
# The segments of templates

Segments are written down by `Segment.encode`, and splitting what is written gives them back if they
are `WellFormed`, that is, if they are what splitting can give at all. A body cannot be split
exactly if a brace outside of all expressions opens an expression that nothing closes: `Outside`
describes what may stand before such a brace, and `Closed` what follows a brace with a matching one.
-/

namespace Sigil

namespace Segment

/-! ### Writing segments down -/

/-- A segment written down: literal text with a backslash before every backslash and every opening
brace, and an expression in braces. -/
def encode : Segment → List Char
  | .text s => Printer.escape Printer.isSpecialTemplate s
  | .expr s => '\x7b' :: (s ++ ['\x7d'])

/-- Segments written down one after the other. -/
def encodeAll (segments : List Segment) : List Char :=
  segments.flatMap encode

/-- Whether a segment is literal text. -/
def isText : Segment → Bool
  | .text _ => true
  | .expr _ => false

/-- **Well-formed segments**: literal text is not empty and does not follow literal text, and an
expression in braces is split into just that expression. -/
structure WellFormed (segments : List Segment) : Prop where
  /-- Literal text is not empty. -/
  text_ne_nil : ∀ s, .text s ∈ segments → s ≠ []
  /-- No literal text follows literal text. -/
  texts_apart : segments.IsChain fun a b => ¬ (a.isText = true ∧ b.isText = true)
  /-- The braces around an expression match. -/
  expr_split : ∀ s, .expr s ∈ segments → split? (encode (.expr s)) = some [.expr s]

/-! ### Where an expression ends -/

/-- **What follows an opening brace that is closed**: text in which braces match and quoted texts
are complete, and the closing brace. -/
def Closed (post : List Char) : Prop :=
  ∃ inside rest, post = inside ++ '\x7d' :: rest ∧ Balanced inside

/-- The scan for the end of an expression finds the brace that matches. -/
theorem takeExpr?_eq_some_iff {post inside rest : List Char} :
    takeExpr? (.code 0) post = some (inside, rest) ↔
      post = inside ++ '\x7d' :: rest ∧ Balanced inside := by
  constructor
  · intro h
    exact takes_of_takeExpr? h
  · rintro ⟨rfl, hinside⟩
    rw [takeExpr?_balanced hinside]
    simp [takeExpr?]

private theorem takeExpr?_eq_none_iff {post : List Char} :
    takeExpr? (.code 0) post = none ↔ ¬ Closed post := by
  rw [Option.eq_none_iff_forall_ne_some, Closed]
  constructor
  · rintro h ⟨inside, rest, hpost⟩
    exact h (inside, rest) (takeExpr?_eq_some_iff.2 hpost)
  · rintro h ⟨inside, rest⟩ hsome
    exact h ⟨inside, rest, takeExpr?_eq_some_iff.1 hsome⟩

/-- A scan that comes to an opening brace. -/
private theorem scan?_brace (text rest : List Char) :
    scan? text ('\x7b' :: rest) =
      (takeExpr? (.code 0) rest).bind fun found =>
        (scan? [] found.2).map fun segments => flush text ++ .expr found.1 :: segments := by
  rw [scan?]
  · simp only [if_true]
    split <;> simp_all
  · simp

/-- An expression in braces is split into just that expression if its braces match. -/
theorem split?_encode_expr_iff {s : List Char} :
    split? (encode (.expr s)) = some [.expr s] ↔ Balanced s := by
  rw [split?, encode, scan?_brace]
  constructor
  · intro h
    obtain ⟨⟨inside, rest⟩, htake, hscan⟩ := Option.bind_eq_some_iff.1 h
    obtain ⟨segments, -, hsegments⟩ := Option.map_eq_some_iff.1 hscan
    obtain rfl : inside = s := by simpa [flush] using (List.cons.inj hsegments).1
    exact (takeExpr?_eq_some_iff.1 htake).2
  · intro h
    rw [takeExpr?_eq_some_iff.2 ⟨rfl, h⟩]
    simp [scan?, flush]

/-! ### Splitting what is written -/

private theorem WellFormed.tail {segment : Segment} {segments : List Segment}
    (h : WellFormed (segment :: segments)) : WellFormed segments where
  text_ne_nil s hs := h.text_ne_nil s (List.mem_cons_of_mem segment hs)
  texts_apart := h.texts_apart.tail
  expr_split s hs := h.expr_split s (List.mem_cons_of_mem segment hs)

/-- The scan finds the segments that were written, after literal text that is read already. -/
private theorem scan?_encodeAll {segments : List Segment} (h : WellFormed segments)
    {text : List Char} (htext : text = [] ∨ ∀ segment ∈ segments.head?, segment.isText = false) :
    scan? text (encodeAll segments) = some (flush text ++ segments) := by
  induction segments generalizing text with
  | nil => simp [encodeAll, scan?]
  | cons segment segments ih =>
    rw [encodeAll, List.flatMap_cons, ← encodeAll]
    cases segment with
    | text s =>
      obtain rfl : text = [] := htext.resolve_right fun hhead => by cases hhead _ rfl
      have hne : s ≠ [] := h.text_ne_nil s List.mem_cons_self
      have hnext : ∀ segment ∈ segments.head?, segment.isText = false := fun segment hsegment =>
        Bool.eq_false_iff.2 fun ht => h.texts_apart.rel_head? hsegment ⟨rfl, ht⟩
      rw [encode, scan?_escape, ih h.tail (.inr hnext)]
      simp [flush, hne]
    | expr s =>
      have hs : Balanced s := split?_encode_expr_iff.1 (h.expr_split s List.mem_cons_self)
      have hencode : encode (.expr s) ++ encodeAll segments =
          '\x7b' :: (s ++ '\x7d' :: encodeAll segments) := by simp [encode]
      rw [hencode, scan?_embedded hs, ih h.tail (.inl rfl)]
      simp [flush]

/-! ### What splitting gives -/

theorem WellFormed.nil : WellFormed [] :=
  ⟨nofun, .nil, nofun⟩

/-- An expression may stand before any segments. -/
private theorem WellFormed.expr_cons {s : List Char} {segments : List Segment} (hs : Balanced s)
    (h : WellFormed segments) : WellFormed (.expr s :: segments) where
  text_ne_nil t ht := h.text_ne_nil t ((List.mem_cons.1 ht).resolve_left nofun)
  texts_apart := h.texts_apart.cons fun _ _ happart => by cases happart.1
  expr_split t ht := by
    rcases List.mem_cons.1 ht with heq | ht
    · cases heq
      exact split?_encode_expr_iff.2 hs
    · exact h.expr_split t ht

/-- Literal text that is not empty may stand before segments that start with none. -/
private theorem WellFormed.flush_append {segments : List Segment} (h : WellFormed segments)
    (hhead : ∀ segment ∈ segments.head?, segment.isText = false) (text : List Char) :
    WellFormed (flush text ++ segments) := by
  cases text with
  | nil => exact h
  | cons c text =>
    refine ⟨fun s hs => ?_, h.texts_apart.cons fun segment hsegment happart => ?_, fun s hs => ?_⟩
    · rcases List.mem_cons.1 hs with heq | hs
      · cases heq
        simp
      · exact h.text_ne_nil s hs
    · rw [hhead segment hsegment] at happart
      cases happart.2
    · exact h.expr_split s ((List.mem_cons.1 hs).resolve_left nofun)

/-- The segments that a scan finds are well-formed. -/
private theorem wellFormed_of_scan? {text body : List Char} {segments : List Segment}
    (h : scan? text body = some segments) : WellFormed segments := by
  fun_induction scan? text body generalizing segments with
  | case1 text =>
    cases h
    simpa using WellFormed.nil.flush_append (by simp) text
  | case2 _ _ _ ih => exact ih h
  | case3 => cases h
  | case4 text rest inside more htake _ _ ih =>
    obtain ⟨later, hlater, rfl⟩ := Option.map_eq_some_iff.1 h
    have hinside : Balanced inside := (takeExpr?_eq_some_iff.1 htake).2
    refine ((ih hlater).expr_cons hinside).flush_append (fun segment hsegment => ?_) text
    cases hsegment
    rfl
  | case5 _ _ _ _ _ ih => exact ih h

/-! ### What cannot be split -/

/-- **A place outside of all expressions**: what stands before it is literal characters, characters
with a backslash before them, and complete expressions. -/
inductive Outside : List Char → Prop
  /-- The start of the body. -/
  | nil : Outside []
  /-- A character that stands for itself. -/
  | plain {c : Char} {pre : List Char} : c ≠ '\\' → c ≠ '\x7b' → Outside pre → Outside (c :: pre)
  /-- A character with a backslash before it. -/
  | escape {c : Char} {pre : List Char} : Outside pre → Outside ('\\' :: c :: pre)
  /-- An expression in braces. -/
  | embedded {inside pre : List Char} :
    Balanced inside → Outside pre → Outside ('\x7b' :: (inside ++ '\x7d' :: pre))

/-- **A brace outside of all expressions that nothing closes.** -/
def Unclosed (body : List Char) : Prop :=
  ∃ pre post, body = pre ++ '\x7b' :: post ∧ Outside pre ∧ ¬ Closed post

/-- A scan does not get past a brace that nothing closes. -/
private theorem scan?_of_outside {pre post : List Char} (hpre : Outside pre) (hpost : ¬ Closed post)
    (text : List Char) : scan? text (pre ++ '\x7b' :: post) = none := by
  induction hpre generalizing text with
  | nil => rw [List.nil_append, scan?_brace, takeExpr?_eq_none_iff.2 hpost, Option.bind_none]
  | @plain c pre hslash hbrace _ ih =>
    rw [List.cons_append, scan?]
    · rw [if_neg hbrace]
      exact ih (c :: text)
    · exact fun d more heq => absurd heq hslash
  | @escape c pre _ ih =>
    rw [List.cons_append, List.cons_append, scan?]
    exact ih (c :: text)
  | @embedded inside pre hinside _ ih =>
    rw [List.cons_append, List.append_assoc, List.cons_append, scan?_embedded hinside, ih,
      Option.map_none]

/-- A scan that fails has come to a brace that nothing closes. -/
private theorem unclosed_of_scan? {text body : List Char} (h : scan? text body = none) :
    Unclosed body := by
  fun_induction scan? text body with
  | case1 => cases h
  | case2 text c rest ih =>
    obtain ⟨pre, post, rfl, hpre, hpost⟩ := ih h
    exact ⟨'\\' :: c :: pre, post, rfl, .escape hpre, hpost⟩
  | case3 text rest htake => exact ⟨[], rest, rfl, .nil, takeExpr?_eq_none_iff.1 htake⟩
  | case4 text rest inside more htake _ _ ih =>
    obtain ⟨rfl, hinside⟩ := takeExpr?_eq_some_iff.1 htake
    obtain ⟨pre, post, rfl, hpre, hpost⟩ := ih (Option.map_eq_none_iff.1 h)
    exact ⟨'\x7b' :: (inside ++ '\x7d' :: pre), post, by simp, .embedded hinside hpre, hpost⟩
  | case5 text c rest hescape hbrace ih =>
    obtain ⟨pre, post, rfl, hpre, hpost⟩ := ih h
    refine ⟨c :: pre, post, rfl, .plain ?_ hbrace hpre, hpost⟩
    rintro rfl
    -- a backslash with something after it would have taken the next character with it
    cases hrest : pre ++ '\x7b' :: post with
    | nil => simp at hrest
    | cons d more => exact hescape d more rfl hrest

/-- **Segments are split as they were written.** Well-formed segments are given back by splitting
what is written of them. Whatever splitting gives is well-formed, and so it is given back in turn.
Splitting fails exactly on bodies with a brace outside of all expressions that nothing closes. -/
theorem split?_encodeAll_round_trip :
    (∀ segments, WellFormed segments → split? (encodeAll segments) = some segments) ∧
      (∀ body segments, split? body = some segments →
        WellFormed segments ∧ split? (encodeAll segments) = some segments) ∧
      ∀ body, split? body = none ↔ Unclosed body := by
  have hencode (segments : List Segment) (h : WellFormed segments) :
      split? (encodeAll segments) = some segments :=
    scan?_encodeAll h (.inl rfl)
  refine ⟨hencode, fun body segments h => ?_, fun body => ⟨unclosed_of_scan?, ?_⟩⟩
  · have hsegments := wellFormed_of_scan? h
    exact ⟨hsegments, hencode segments hsegments⟩
  · rintro ⟨pre, post, rfl, hpre, hpost⟩
    exact scan?_of_outside hpre hpost []

/-- Literal text with a brace and a backslash in it, an expression with a brace in a quoted text,
and an empty one. -/
theorem split?_encodeAll_round_trip_quoted :
    let segments : List Segment := [.text ['\x7b', '\\'], .expr ['"', '\x7d', '"'], .expr []]
    WellFormed segments ∧ split? (encodeAll segments) = some segments := by
  intro segments
  have hquoted : Balanced ['"', '\x7d', '"'] :=
    @Balanced.quoted ['\x7d'] [] (.plain (by decide) (by decide) .nil) .nil
  have hsegments : WellFormed segments := by
    refine ((WellFormed.nil.expr_cons .nil).expr_cons hquoted).flush_append
      (fun segment hsegment => ?_) ['\\', '\x7b']
    cases hsegment
    rfl
  exact ⟨hsegments, split?_encodeAll_round_trip.1 segments hsegments⟩

end Segment

end Sigil
