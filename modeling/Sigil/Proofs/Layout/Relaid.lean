import Mathlib.Data.List.Basic
import Sigil.Proofs.Layout.Gap

/-!
# Texts that differ in their layout

`Relaid s s'` says that two texts are the same but for the gaps in them: where one has a gap the
other has one too, and an object key is found in both or in neither. The reader cannot tell such
texts apart (`Reading.read_relaid`): after the layout it stands before the same token in both, and
what an opener touches is the same as well.

The pieces between the gaps are `Chunk`s, that is strings, templates and single characters. They are
smaller than tokens, so the relation speaks of characters only and not of what the reader expects.
-/

namespace Sigil

open Lexeme

/-! ### Chunks -/

/-- The characters that a token other than a string or a template has only in its first place. -/
def breaks : List Char :=
  '"' :: '`' :: gapStarts

/-- A character that satisfies a test which fails for all these is none of them. -/
private theorem notMem_breaks {p : Char → Bool} (hp : ∀ c ∈ breaks, p c = false) {c : Char}
    (hc : p c = true) : c ∉ breaks := by
  intro hmem
  simp [hp c hmem] at hc

/-- A piece of a text in which no layout starts, before the characters that follow it: a string, a
template, or any other character that is no white space and starts no comment. -/
inductive Chunk : List Char → List Char → Prop
  | quoted {body rest : List Char} :
      QuotedBody (· ≠ '\n') body → Chunk ('"' :: (body ++ ['"'])) rest
  | template {body rest : List Char} : '`' ∉ body → Chunk ('`' :: (body ++ ['`'])) rest
  | plain {c : Char} {rest : List Char} :
      Text.isLayout c = false → c ≠ '"' → c ≠ '`' →
        (c = '/' → ∀ d ∈ rest.head?, d ≠ '/' ∧ d ≠ '*') → Chunk [c] rest

namespace Chunk

variable {u rest rest' : List Char}

theorem ne_nil (h : Chunk u rest) : u ≠ [] := by
  cases h <;> simp

/-- A character that starts neither a gap nor a string nor a template. -/
theorem of_notMem_breaks {c : Char} (hc : c ∉ breaks) (rest : List Char) : Chunk [c] rest := by
  simp only [breaks, List.mem_cons, not_or] at hc
  obtain ⟨hquote, hback, hgap⟩ := hc
  refine .plain (Bool.eq_false_iff.2 (mt mem_gapStarts_of_isLayout hgap)) hquote hback ?_
  rintro rfl
  exact absurd (by decide) hgap

/-- Another text may follow a chunk if it starts with the same character or with white space. -/
theorem congr (h : Chunk u rest)
    (hhead : ∀ d ∈ rest'.head?, d ∈ rest.head? ∨ Text.isLayout d = true) : Chunk u rest' := by
  cases h with
  | quoted hbody => exact .quoted hbody
  | template hbody => exact .template hbody
  | plain hlayout hquote hback hslash =>
    refine .plain hlayout hquote hback fun hc d hd => ?_
    rcases hhead d hd with hd | hd
    · exact hslash hc d hd
    · constructor <;> rintro rfl <;> simp [Text.isLayout] at hd

private theorem settled (h : Chunk u rest) : Settled (u ++ rest) := by
  intro first more heq
  cases h with
  | quoted =>
    cases heq
    rfl
  | template =>
    cases heq
    rfl
  | @plain c rest hlayout _ _ hslash =>
    cases heq
    simp only [Cursor.layoutTail?, hlayout, Bool.false_eq_true, if_false]
    split_ifs with hc
    · cases hrest : rest with
      | nil => simp
      | cons d more =>
        obtain ⟨hline, hblock⟩ := hslash hc d (by simp [hrest])
        simp [hline, hblock]
    · rfl

end Chunk

/-! ### The relation -/

/-- **Two texts that differ in their layout only.** From some place on they may be the same without
being taken apart. -/
inductive Relaid : List Char → List Char → Prop
  | same {s : List Char} : Relaid s s
  | chunk {u rest rest' : List Char} :
      Chunk u rest → Chunk u rest' →
        objectKeyTail? (u ++ rest) = objectKeyTail? (u ++ rest') → Relaid rest rest' →
          Relaid (u ++ rest) (u ++ rest')
  | gap {g g' rest rest' : List Char} :
      g ≠ [] → g' ≠ [] → Layout g rest → Layout g' rest' → Relaid rest rest' →
        Relaid (g ++ rest) (g' ++ rest')

/-- Two texts that differ in their layout only, where no layout starts. -/
inductive Anchored : List Char → List Char → Prop
  | same {s : List Char} : Settled s → Anchored s s
  | chunk {u rest rest' : List Char} :
      Chunk u rest → Chunk u rest' →
        objectKeyTail? (u ++ rest) = objectKeyTail? (u ++ rest') → Relaid rest rest' →
          Anchored (u ++ rest) (u ++ rest')

private theorem Anchored.settled {s s' : List Char} (h : Anchored s s') :
    Settled s ∧ Settled s' := by
  cases h with
  | same hs => exact ⟨hs, hs⟩
  | chunk hu hu' => exact ⟨hu.settled, hu'.settled⟩

private theorem Anchored.eq_nil_iff {s s' : List Char} (h : Anchored s s') : s = [] ↔ s' = [] := by
  cases h with
  | same => rfl
  | chunk hu => simp [hu.ne_nil]

namespace Relaid

variable {s s' : List Char}

/-- After the layout in front the two texts still differ in their layout only, and there is layout
in front of both or of neither. -/
private theorem settle (h : Relaid s s') :
    ∃ g g' t t', s = g ++ t ∧ s' = g' ++ t' ∧ Layout g t ∧ Layout g' t' ∧ (g = [] ↔ g' = []) ∧
      Anchored t t' := by
  induction h with
  | @same s =>
    obtain ⟨g, hs, -, hg⟩ := (Cursor.start s).layout_skipLayout
    exact ⟨g, g, _, _, hs, hs, hg, hg, .rfl, .same (Cursor.settled_skipLayout _)⟩
  | chunk hu hu' hkey hrest =>
    exact ⟨[], [], _, _, rfl, rfl, .nil, .nil, .rfl, .chunk hu hu' hkey hrest⟩
  | @gap g g' _ _ hne hne' hg hg' _ ih =>
    obtain ⟨k, k', t, t', rfl, rfl, hk, hk', -, ht⟩ := ih
    exact ⟨g ++ k, g' ++ k', t, t', by simp, by simp, hg.append hk, hg'.append hk',
      by simp [hne, hne'], ht⟩

/-- Up to the first gap the two texts are the same. -/
private theorem alike (h : Relaid s s') :
    ∃ u r r', s = u ++ r ∧ s' = u ++ r' ∧ StartsGap r ∧ StartsGap r' := by
  induction h with
  | @same s => exact ⟨s, [], [], by simp, by simp, .nil, .nil⟩
  | @chunk u _ _ _ _ _ _ ih =>
    obtain ⟨v, r, r', rfl, rfl, hr, hr'⟩ := ih
    exact ⟨u ++ v, r, r', by simp, by simp, hr, hr'⟩
  | gap hne hne' hg hg' => exact ⟨[], _, _, rfl, rfl, hg.startsGap hne, hg'.startsGap hne'⟩

/-- Characters that start neither a gap nor a string nor a template are in both texts. -/
private theorem peel {cs more : List Char} (h : Relaid (cs ++ more) s')
    (hcs : ∀ c ∈ cs, c ∉ breaks) :
    ∃ more', s' = cs ++ more' ∧ Relaid more more' := by
  induction cs generalizing s' with
  | nil => exact ⟨s', rfl, h⟩
  | cons c cs ih =>
    have hc := hcs c List.mem_cons_self
    simp only [breaks, List.mem_cons, not_or] at hc
    obtain ⟨hquote, hback, hgap⟩ := hc
    have htail : ∀ x ∈ cs, x ∉ breaks := fun x hx => hcs x (List.mem_cons_of_mem c hx)
    generalize hs : c :: cs ++ more = s at h
    cases h with
    | same => exact ⟨more, hs.symm, .same⟩
    | chunk hu _ _ hrest =>
      cases hu with
      | quoted => simp [hquote] at hs
      | template => simp [hback] at hs
      | plain =>
        simp only [List.cons_append, List.nil_append, List.cons.injEq] at hs
        obtain ⟨rfl, rfl⟩ := hs
        obtain ⟨more', rfl, hmore⟩ := ih hrest htail
        exact ⟨more', rfl, hmore⟩
    | gap hne _ hg => exact absurd (hg.startsGap hne c (by simp [← hs])) hgap

end Relaid

/-! ### Tokens at a place without layout -/

/-- A text that goes on after its first character without a break, and starts with no quote. -/
def Solid (text : List Char) : Prop :=
  ∃ c cs, text = c :: cs ∧ c ≠ '"' ∧ c ≠ '`' ∧ ∀ x ∈ cs, x ∉ breaks

/-- A text without breaks. -/
private theorem Solid.of_forall {text : List Char} (hne : text ≠ []) (h : ∀ c ∈ text, c ∉ breaks) :
    Solid text := by
  cases text with
  | nil => exact absurd rfl hne
  | cons c cs =>
    have hc := h c List.mem_cons_self
    simp only [breaks, List.mem_cons, not_or] at hc
    exact ⟨c, cs, rfl, hc.1, hc.2.1, fun x hx => h x (List.mem_cons_of_mem c hx)⟩

private theorem IsName.notMem_breaks {text : List Char} (h : IsName text) :
    ∀ c ∈ text, c ∉ breaks := by
  cases text with
  | nil => exact h.elim
  | cons c cs =>
    intro x hx
    rcases List.mem_cons.1 hx with rfl | hx
    · exact Sigil.notMem_breaks (by decide) h.1
    · exact Sigil.notMem_breaks (by decide) (h.2 x hx)

private theorem IsDigits.notMem_breaks {text : List Char} (h : IsDigits text) :
    ∀ c ∈ text, c ∉ breaks :=
  fun c hc => Sigil.notMem_breaks (p := Char.isDigit) (by decide) (h.2 c hc)

private theorem IsNumber.solid {text after : List Char} (h : IsNumber text after) : Solid text := by
  rcases h with ⟨whole, fraction, rfl, hwhole, hfraction, -⟩ | ⟨hdigits, -⟩
  · refine .of_forall (by simp) fun c hc => ?_
    simp only [List.mem_append, List.mem_cons] at hc
    rcases hc with hc | rfl | hc
    · exact hwhole.notMem_breaks c hc
    · decide
    · exact hfraction.notMem_breaks c hc
  · exact .of_forall hdigits.1 hdigits.notMem_breaks

private theorem Terminal.solid_sign {t : Terminal} (h : t.sign ≠ []) : Solid t.sign := by
  have hfirst : t.sign.head? ≠ some '"' ∧ t.sign.head? ≠ some '`' := by cases t <;> decide
  have hmore : ∀ x ∈ t.sign.tail, x ∉ breaks := by cases t <;> decide
  cases hsign : t.sign with
  | nil => exact absurd hsign h
  | cons c cs =>
    simp only [hsign, List.head?_cons, ne_eq, Option.some.injEq, List.tail_cons] at hfirst hmore
    exact ⟨c, cs, rfl, hfirst.1, hfirst.2, hmore⟩

/-- The text of a token is a string, a template, or solid. -/
theorem Terminal.Matches.shape {t : Terminal} {before text after : List Char}
    (h : t.Matches before text after) :
    (∃ body, text = '"' :: (body ++ ['"']) ∧ QuotedBody (· ≠ '\n') body) ∨
      (∃ body, text = '`' :: (body ++ ['`']) ∧ '`' ∉ body) ∨ Solid text := by
  cases t with
  | string => exact .inl h
  | template => exact .inr (.inl h)
  | name | objectKey => exact .inr (.inr (.of_forall h.1.ne_nil h.1.notMem_breaks))
  | number => exact .inr (.inr (IsNumber.solid h))
  | spaceRef =>
    obtain ⟨⟨space, member, rfl, hspace, hmember⟩, -⟩ := h
    refine .inr (.inr (.of_forall (by simp) fun c hc => ?_))
    simp only [List.mem_append, List.mem_cons] at hc
    rcases hc with hc | rfl | hc
    · exact hspace.notMem_breaks c hc
    · decide
    · exact hmember.notMem_breaks c hc
  | yes | no | underscore | callOpen | indexOpen | memberDot =>
    rw [h.1]
    exact .inr (.inr (.of_forall (by decide) (by decide)))
  | endOfText => exact h.elim
  | _ =>
    rw [h]
    exact .inr (.inr (solid_sign (by decide)))

/-- A string ends at one place only. -/
private theorem quoted_unique {body body' rest rest' : List Char} (h : QuotedBody (· ≠ '\n') body)
    (h' : QuotedBody (· ≠ '\n') body') (heq : body ++ '"' :: rest = body' ++ '"' :: rest') :
    body = body' ∧ rest = rest' := by
  have hlen := quoteEnd?_append h rest
  rw [heq, quoteEnd?_append h' rest'] at hlen
  have hlen : body.length = body'.length := by simpa using hlen.symm
  obtain ⟨hbody, hrest⟩ := List.append_inj heq hlen
  exact ⟨hbody, (List.cons.inj hrest).2⟩

/-- A template ends at one place only. -/
private theorem template_unique {body body' rest rest' : List Char} (h : '`' ∉ body)
    (h' : '`' ∉ body') (heq : body ++ '`' :: rest = body' ++ '`' :: rest') :
    body = body' ∧ rest = rest' := by
  have hend := templateTail?_eq_some_iff.2 ⟨body, rest, rfl, rfl, h⟩
  rw [heq, templateTail?_eq_some_iff.2 ⟨body', rest', rfl, rfl, h'⟩] at hend
  have hlen : body.length = body'.length := by simpa using hend.symm
  obtain ⟨hbody, hrest⟩ := List.append_inj heq hlen
  exact ⟨hbody, (List.cons.inj hrest).2⟩

namespace Anchored

variable {s s' : List Char}

/-- **A token at the start of one text stands at the start of the other**, and what follows it
differs in its layout only. -/
theorem split {t : Terminal} {before text after : List Char} (h : Anchored s s')
    (hmatches : t.Matches before text after) (hs : s = text ++ after) :
    ∃ after', s' = text ++ after' ∧ Relaid after after' := by
  cases h with
  | same => exact ⟨after, hs, .same⟩
  | @chunk u rest rest' hu hu' _ hrest =>
    rcases hmatches.shape with ⟨body, rfl, hbody⟩ | ⟨body, rfl, hbody⟩ | ⟨c, cs, rfl, hq, hb, hcs⟩
    · cases hu with
      | @quoted body' _ hbody' =>
        obtain ⟨rfl, rfl⟩ := quoted_unique hbody' hbody (by simpa using hs)
        exact ⟨rest', rfl, hrest⟩
      | template => simp at hs
      | plain _ hquote => simp [hquote] at hs
    · cases hu with
      | quoted => simp at hs
      | @template body' _ hbody' =>
        obtain ⟨rfl, rfl⟩ := template_unique hbody' hbody (by simpa using hs)
        exact ⟨rest', rfl, hrest⟩
      | plain _ _ hback => simp [hback] at hs
    · cases hu with
      | quoted => simp [Ne.symm hq] at hs
      | template => simp [Ne.symm hb] at hs
      | plain =>
        simp only [List.cons_append, List.nil_append, List.cons.injEq] at hs
        obtain ⟨rfl, rfl⟩ := hs
        obtain ⟨after', rfl, hafter⟩ := hrest.peel hcs
        exact ⟨after', rfl, hafter⟩

/-- The classes other than object keys, strings and templates look at what stands before the first
gap only. -/
private theorem tail?_append_gap {t : Terminal} {c : Char} {u r r' : List Char} (before : List Char)
    (hkey : t ≠ .objectKey) (hstring : t ≠ .string) (htemplate : t ≠ .template)
    (hr : StartsGap r) (hr' : StartsGap r') :
    t.tail? before (c :: u ++ r) = t.tail? before (c :: u ++ r') := by
  by_cases hsign : t.sign = []
  · cases t with
    | objectKey => exact absurd rfl hkey
    | string => exact absurd rfl hstring
    | template => exact absurd rfl htemplate
    | spaceRef =>
      exact (spaceRefTail?_append_gap hr (c :: u)).trans
        (spaceRefTail?_append_gap hr' (c :: u)).symm
    | name | yes | no | underscore =>
      exact (nameTail?_append_gap hr (c :: u)).trans (nameTail?_append_gap hr' (c :: u)).symm
    | number =>
      exact (numberTail?_append_gap hr (c :: u)).trans (numberTail?_append_gap hr' (c :: u)).symm
    | callOpen | indexOpen | memberDot | endOfText => rfl
    | _ => exact absurd hsign (by decide)
  · rw [Terminal.tail?_of_sign hsign, Terminal.tail?_of_sign hsign,
      isPrefixOf_sign_append_gap t hr, isPrefixOf_sign_append_gap t hr']

/-- A string or a template is found at a chunk whatever follows it. -/
private theorem quoteTail?_eq {u rest rest' : List Char} (h : Chunk u rest) :
    stringTail? (u ++ rest) = stringTail? (u ++ rest') ∧
      templateTail? (u ++ rest) = templateTail? (u ++ rest') := by
  cases h with
  | @quoted body _ hbody =>
    have hend := fun after => stringTail?_eq_some_iff.2 ⟨body, after, rfl, rfl, hbody⟩
    simp only [List.cons_append, List.append_assoc, List.nil_append]
    exact ⟨(hend rest).trans (hend rest').symm, rfl⟩
  | @template body _ hbody =>
    have hend := fun after => templateTail?_eq_some_iff.2 ⟨body, after, rfl, rfl, hbody⟩
    simp only [List.cons_append, List.append_assoc, List.nil_append]
    exact ⟨rfl, (hend rest).trans (hend rest').symm⟩
  | plain _ hquote hback => simp [stringTail?, templateTail?, hquote, hback]

/-- A class is found at the start of both texts with the same length, or of neither. -/
private theorem tail?_eq (h : Anchored s s') (t : Terminal) (before : List Char) :
    t.tail? before s = t.tail? before s' := by
  cases h with
  | same => rfl
  | @chunk u rest rest' hu _ hkey hrest =>
    by_cases hobject : t = .objectKey
    · subst hobject
      exact hkey
    by_cases hstring : t = .string
    · subst hstring
      exact (quoteTail?_eq hu).1
    by_cases htemplate : t = .template
    · subst htemplate
      exact (quoteTail?_eq hu).2
    obtain ⟨v, r, r', rfl, rfl, hr, hr'⟩ := hrest.alike
    obtain ⟨c, w, rfl⟩ := List.exists_cons_of_ne_nil hu.ne_nil
    simpa using tail?_append_gap (u := w ++ v) before hobject hstring htemplate hr hr'

end Anchored

/-- A class looks at the character before the place only to see whether it ends an operand. -/
private theorem Terminal.tail?_congr {before before' : List Char} (t : Terminal) (s : List Char)
    (htouch : before.head?.any endsOperand = before'.head?.any endsOperand) :
    t.tail? before s = t.tail? before' s := by
  cases t with
  | callOpen | indexOpen | memberDot => simp only [tail?, openerTail?, htouch]
  | _ => rfl

/-- **The same token is found** at the start of two texts that differ in their layout only. -/
theorem Anchored.lexeme?_eq {s s' before before' : List Char} (h : Anchored s s')
    (htouch : before.head?.any endsOperand = before'.head?.any endsOperand) (expect : Expect) :
    Cursor.lexeme? ⟨before, s⟩ expect = Cursor.lexeme? ⟨before', s'⟩ expect := by
  have hword : ∀ t ∈ Terminal.order, t.isWord = false := by decide
  rw [Cursor.lexeme?, Cursor.lexeme?, ← List.head?_filterMap, ← List.head?_filterMap]
  refine congrArg List.head? (List.filterMap_congr fun t ht => ?_)
  have htail : t.tail? before s = t.tail? before' s' :=
    (h.tail?_eq t before).trans (t.tail?_congr s' htouch)
  cases hn : t.tail? before s with
  | none => simp [hn, ← htail]
  | some n =>
    obtain ⟨text, after, hs, hlen, hmatches⟩ :=
      Terminal.matches_of_tail? (hword t (List.mem_filter.1 ht).1) hn
    obtain ⟨after', hs', -⟩ := h.split hmatches hs
    simp only [← htail, hn, Option.map_some, Option.some.injEq]
    rw [hs, hs', ← hlen, List.take_left, List.take_left]

/-! ### Reading -/

/-- Where there is layout before a token, the token touches nothing. -/
private theorem Layout.touches_eq_false {gap rest before : List Char} (h : Layout gap rest)
    (hne : gap ≠ []) (hrest : Settled rest) (hrest' : rest ≠ []) :
    (gap.reverse ++ before).head?.any endsOperand = false := by
  have hends : ¬ LineEnds rest := by
    obtain ⟨c, more, rfl⟩ := List.exists_cons_of_ne_nil hrest'
    intro hline
    obtain rfl : c = '\n' := hline c rfl
    cases hrest '\n' more rfl
  obtain ⟨front, c, rfl, hc⟩ := h.exists_last hne hends
  have hend : ∀ c ∈ gapStarts, endsOperand c = false := by decide
  simp [hend c hc]

/-- Skipping the layout of two texts that differ in it only. -/
private theorem Relaid.skipLayout {c c' : Cursor} (hs : Relaid c.after c'.after)
    (htouch : c.before.head?.any endsOperand = c'.before.head?.any endsOperand) :
    Anchored c.skipLayout.after c'.skipLayout.after ∧
      (c.skipLayout.after ≠ [] → c.skipLayout.before.head?.any endsOperand =
        c'.skipLayout.before.head?.any endsOperand) := by
  obtain ⟨before, s⟩ := c
  obtain ⟨before', s'⟩ := c'
  obtain ⟨g, g', t, t', hg, hg', hlayout, hlayout', hboth, ht⟩ := hs.settle
  obtain ⟨hsettled, hsettled'⟩ := ht.settled
  simp only at hg hg' htouch
  rw [hg, hg', Cursor.skipLayout_eq hlayout hsettled, Cursor.skipLayout_eq hlayout' hsettled']
  refine ⟨ht, fun hne => ?_⟩
  by_cases hgap : g = []
  · simpa [hgap, hboth.1 hgap] using htouch
  · rw [hlayout.touches_eq_false hgap hsettled hne,
      hlayout'.touches_eq_false (mt hboth.2 hgap) hsettled' (mt ht.eq_nil_iff.2 hne)]

/-- A tree at the end of the text does not depend on the place of the last token. -/
private theorem Reading.finish_congr {r : Reading} {last : Cursor} {fault : Option SyntaxError}
    {tree : Node} (h : r.finish last fault = .ok tree) (last' : Cursor) :
    r.finish last' fault = .ok tree := by
  unfold finish at h ⊢
  split at h
  · exact h
  · cases h
  · cases h

/-- **The reader cannot tell apart** two texts that differ in their layout only. -/
theorem Reading.read_relaid {readExpr : ExprReader} {r : Reading} {c c' last last' : Cursor}
    {fault : Option SyntaxError} {tree : Node} (h : r.read readExpr c last fault = .ok tree)
    (hs : Relaid c.after c'.after)
    (htouch : c.before.head?.any endsOperand = c'.before.head?.any endsOperand) :
    r.read readExpr c' last' fault = .ok tree := by
  fun_induction Reading.read readExpr r c last fault generalizing c' last' with
  | case1 r c last fault =>
    rename_i hend
    obtain ⟨hanchored, -⟩ := hs.skipLayout htouch
    rw [read_of_end (hanchored.eq_nil_iff.1 hend)]
    exact finish_congr h last'
  | case2 => cases h
  | case3 => cases h
  | case4 r c last fault =>
    rename_i hne l hl leaf r' hstep fault' ih
    obtain ⟨hanchored, htouch'⟩ := hs.skipLayout htouch
    obtain ⟨node, hleaf⟩ : ∃ node, leaf = .ok node := exists_leaf h
    have hfault : fault' = fault := by simp [fault', hleaf]
    have hnode : leaf.toOption.getD .absent = node := by rw [hleaf]; rfl
    obtain ⟨after, hafter, hmatches⟩ := Cursor.matches_of_lexeme? hl
    obtain ⟨after', hafter', hrelaid⟩ := hanchored.split hmatches hafter
    have hl' : c'.skipLayout.lexeme? r.point.expect = some l :=
      (hanchored.lexeme?_eq (htouch' hne) r.point.expect).symm.trans hl
    rw [hnode] at hstep
    rw [read_of_lexeme? (mt hanchored.eq_nil_iff.2 hne) hl' hleaf hstep, ← hfault]
    refine ih h ?_ ?_
    · simpa [Cursor.after_advance, hafter, hafter'] using hrelaid
    · have htext : l.text.reverse ≠ [] := by
        simpa using List.length_pos_iff.1 (Cursor.length_lexeme? hne hl)
      simp only [Cursor.before_advance, hafter, hafter', List.take_left,
        List.head?_append_of_ne_nil _ htext]

/-- A whole text is read as the same tree in another layout. -/
theorem Reading.readText_relaid {readExpr : ExprReader} {r : Reading} {s s' : List Char}
    {tree : Node} (h : r.readText readExpr s = .ok tree) (hs : Relaid s s') :
    r.readText readExpr s' = .ok tree :=
  read_relaid h hs rfl

end Sigil
