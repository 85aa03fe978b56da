import Sigil.Proofs.Layout.Relaid

/-!
# Comments

A comment stands between tokens like white space, and the reader skips both. The look-ahead of an
object key skips white space only, so after a name, a colon and a name a comment hides the end of
the member: `{a:b }` is an object, and `{a:b/**/}` is a block with a member of the namespace `a` in
it (`comment_hides_objectKey`).

Only there can it matter. `Scanned` says that a place lies in no string, no template and no comment,
and `WithinMember` that it lies between a bare member and its end. This is read off the text alone,
whether or not an object can stand there, so the place between the two statements of
`Math:pi /**/ Arr:f()` is also left out. The main statement is `parseProgram_comment`: anywhere else
a comment may be replaced by a blank, and put in after white space.
-/

namespace Sigil

open Lexeme

/-! ### Places outside strings, templates and comments -/

/-- The text up to a place that lies in no string, no template and no comment, before the characters
that follow it. -/
inductive Scanned (rest : List Char) : List Char → Prop
  | nil : Scanned rest []
  | chunk {u pre : List Char} : Chunk u (pre ++ rest) → Scanned rest pre → Scanned rest (u ++ pre)
  | gap {g pre : List Char} : Layout g (pre ++ rest) → Scanned rest pre → Scanned rest (g ++ pre)

/-- A text without breaks is scanned whatever follows it. -/
private theorem Scanned.of_notMem_breaks {pre : List Char} (h : ∀ c ∈ pre, c ∉ breaks)
    (rest : List Char) : Scanned rest pre := by
  induction pre with
  | nil => exact .nil
  | cons c pre ih =>
    exact .chunk (.of_notMem_breaks (h c List.mem_cons_self) _)
      (ih fun x hx => h x (List.mem_cons_of_mem c hx))

/-- A text ends with a name, a colon, a name and white space. -/
def EndsWithPair (pre blanks : List Char) : Prop :=
  ∃ front key value, pre = front ++ (key ++ ':' :: (value ++ blanks)) ∧ IsName key ∧
    IsName value ∧ ∀ c ∈ blanks, Text.isBlank c = true

theorem EndsWithPair.append {pre blanks : List Char} (h : EndsWithPair pre blanks)
    (u : List Char) : EndsWithPair (u ++ pre) blanks := by
  obtain ⟨front, key, value, rfl, hkey, hvalue, hblanks⟩ := h
  exact ⟨u ++ front, key, value, by simp, hkey, hvalue, hblanks⟩

theorem EndsWithPair.isBlank {pre blanks : List Char} (h : EndsWithPair pre blanks) :
    ∀ c ∈ blanks, Text.isBlank c = true := by
  obtain ⟨_, _, _, _, _, _, hblanks⟩ := h
  exact hblanks

/-- **One gap replaced by another.** The new one starts with white space, with a line feed if a line
comment may end there, and the end of a bare member is seen beyond both or beyond neither. -/
theorem Scanned.relaid {pre post g g' : List Char} {c : Char} (h : Scanned (g ++ post) pre)
    (hne : g ≠ []) (hg : Layout g post) (hc : Text.isLayout c = true)
    (hg' : Layout (c :: g') post) (hline : LineEnds (g ++ post) → c = '\n')
    (hkey : ∀ blanks, EndsWithPair pre blanks →
      endsBareMember (blanks ++ (g ++ post)) = endsBareMember (blanks ++ (c :: g' ++ post))) :
    Relaid (pre ++ (g ++ post)) (pre ++ (c :: g' ++ post)) := by
  have hstarts := hg.startsGap hne
  have hstarts' := hg'.startsGap (List.cons_ne_nil c g')
  induction h with
  | nil =>
    rw [List.nil_append, List.nil_append]
    exact .gap hne (List.cons_ne_nil c g') hg hg' .same
  | @chunk u pre hu _ ih =>
    rw [List.append_assoc, List.append_assoc]
    refine .chunk hu (hu.congr fun d hd => ?_) ?_ (ih fun blanks hb => hkey blanks (hb.append u))
    · -- a chunk is judged by what follows it: the new gap if it is the last, and white space
      -- ends every chunk
      cases pre with
      | nil =>
        cases hd
        exact .inr hc
      | cons x pre => exact .inl hd
    · rw [← List.append_assoc u, ← List.append_assoc u]
      refine objectKeyTail?_append_gap hstarts hstarts' ?_
      intro key value blanks hpre hname hvalue hblanks
      exact hkey blanks ⟨[], key, value, hpre, hname, hvalue, hblanks⟩
  | @gap k pre hk _ ih =>
    rw [List.append_assoc, List.append_assoc]
    have hrest := ih fun blanks hb => hkey blanks (hb.append k)
    by_cases hempty : k = []
    · simpa [hempty] using hrest
    · refine .gap hempty hempty hk (hk.congr fun hends => ?_) hrest
      -- a line comment right before the gap needs the line feed that the new gap starts with
      cases pre with
      | nil =>
        intro d hd
        cases hd
        exact hline hends
      | cons x pre => exact hends

/-! ### Comments and the end of a member -/

/-- A place between a member written as two bare names and what ends it, be they the key and the
value of an object or a namespace and its member. -/
def WithinMember (pre post : List Char) : Prop :=
  (∃ blanks, EndsWithPair pre blanks) ∧ MemberEnds (' ' :: post)

/-- White space that a layout character is added to. -/
private theorem isBlank_concat {blanks : List Char} {c : Char}
    (hblanks : ∀ x ∈ blanks, Text.isBlank x = true) (hc : Text.isLayout c = true) :
    ∀ x ∈ blanks ++ [c], Text.isBlank x = true :=
  List.forall_mem_append.2 ⟨hblanks, List.forall_mem_singleton.2 (Text.isBlank_of_isLayout hc)⟩

/-- Where no member ends, white space makes none end. -/
private theorem endsBareMember_eq_false {post blanks : List Char} {c : Char}
    (h : ¬ MemberEnds (' ' :: post)) (hblanks : ∀ x ∈ blanks, Text.isBlank x = true)
    (hc : Text.isLayout c = true) : endsBareMember (blanks ++ c :: post) = false := by
  rw [List.append_cons, endsBareMember_append (by simp) (isBlank_concat hblanks hc)]
  exact Bool.eq_false_iff.2 (mt memberEnds_of_endsBareMember h)

/-- **A comment hides the key of an object.** With a comment after its value, a member is a member
of a namespace in a block; with a blank there, it is a member of an object. -/
theorem comment_hides_objectKey :
    let pre := "\x7ba:b".toList
    let comment := "/**/".toList
    let post := "\x7d".toList
    (Comment comment post ∧ Scanned (comment ++ post) pre) ∧
      parseProgram (String.ofList (pre ++ (comment ++ post))) =
        .ok (.program [.block [.spaceMember "a" "b"]]) ∧
      parseProgram (String.ofList (pre ++ ' ' :: post)) =
        .ok (.program [.object [("a", .ident "b")]]) := by
  intro pre comment post
  have hcomment : Comment comment post := @Comment.block [] post (by decide)
  have hscan : Scanned (comment ++ post) pre := .of_notMem_breaks (by decide) _
  have hblock : Passes readEmbedded Reading.program []
      (['\x7b'] ++ (['a', ':', 'b'] ++ (comment ++ ['\x7d']))) []
      ⟨.operand (.block [.spaceMember "a" "b"]), [.program []]⟩ :=
    .trans (.found (t := .leftBrace) rfl rfl rfl rfl) <|
    .trans (.found (t := .spaceRef) rfl rfl rfl rfl) <|
    .layout hcomment.layout (.found (t := .rightBrace) rfl rfl rfl rfl)
  have hobject : Passes readEmbedded Reading.program []
      (['\x7b'] ++ (['a'] ++ ([':'] ++ (['b'] ++ [' ', '\x7d'])))) []
      ⟨.operand (.object [("a", .ident "b")]), [.program []]⟩ :=
    .trans (.found (t := .leftBrace) rfl rfl rfl rfl) <|
    .trans (.found (t := .objectKey) rfl rfl rfl rfl) <|
    .trans (.found (t := .colon) rfl rfl rfl rfl) <|
    .trans (.found (t := .name) rfl rfl rfl rfl) <|
    .blank (.found (t := .rightBrace) rfl rfl rfl rfl)
  refine ⟨⟨hcomment, hscan⟩, ?_, ?_⟩
  · rw [parseProgram, String.toList_ofList]
    exact hblock.readText rfl
  · rw [parseProgram, String.toList_ofList]
    exact hobject.readText rfl

/-- **Comments are skipped**, unless they stand between a bare member and its end. In a program a
comment may be replaced by a blank, and a comment may be put in after white space; the program stays
the same. -/
theorem parseProgram_comment {pre comment post : List Char} {program : Node}
    (hcomment : Comment comment post) (hmember : ¬ WithinMember pre post) :
    (Scanned (comment ++ post) pre →
      parseProgram (String.ofList (pre ++ (comment ++ post))) = .ok program →
        parseProgram (String.ofList (pre ++ ' ' :: post)) = .ok program) ∧
    ∀ c, Text.isLayout c = true → Scanned (c :: post) pre →
      parseProgram (String.ofList (pre ++ c :: post)) = .ok program →
        parseProgram (String.ofList (pre ++ c :: (comment ++ post))) = .ok program := by
  have hends {c : Char} {blanks : List Char} (hc : Text.isLayout c = true)
      (hpair : EndsWithPair pre blanks) : endsBareMember (blanks ++ c :: post) = false :=
    endsBareMember_eq_false (fun hpost => hmember ⟨⟨blanks, hpair⟩, hpost⟩) hpair.isBlank hc
  obtain ⟨more, rfl⟩ := hcomment.eq_cons
  refine ⟨fun hscan h => ?_, fun c hc hscan h => ?_⟩
  · have hblank : Layout [' '] post := .blank rfl .nil
    rw [parseProgram, String.toList_ofList] at h ⊢
    refine Reading.readText_relaid h
      (hscan.relaid hcomment.ne_nil hcomment.layout rfl hblank (fun hline => ?_) ?_)
    · cases hline '/' rfl
    · intro blanks hpair
      rw [List.cons_append, endsBareMember_slash hpair.isBlank]
      exact (hends rfl hpair).symm
  · have hblank : Layout [c] post := .blank hc .nil
    rw [parseProgram, String.toList_ofList] at h ⊢
    refine Reading.readText_relaid h
      (Scanned.relaid hscan (List.cons_ne_nil c []) hblank hc (.blank hc hcomment.layout)
        (fun hline => hline c rfl) ?_)
    intro blanks hpair
    have hslash := endsBareMember_slash (isBlank_concat hpair.isBlank hc) (more ++ post)
    rw [← List.append_cons] at hslash
    exact (hends hc hpair).trans hslash.symm

/-- A comment at the end of an object whose value is a number, and a second one put in there. -/
theorem parseProgram_comment_number :
    let pre := "\x7ba:1".toList
    let comment := "/**/".toList
    let post := "\x7d".toList
    let program : Node := .program [.object [("a", .number (numberToken ['1']))]]
    (Comment comment post ∧ ¬ WithinMember pre post ∧ Scanned (comment ++ post) pre ∧
        Scanned (' ' :: post) pre ∧
        parseProgram (String.ofList (pre ++ (comment ++ post))) = .ok program) ∧
      parseProgram (String.ofList (pre ++ ' ' :: post)) = .ok program ∧
      parseProgram (String.ofList (pre ++ ' ' :: (comment ++ post))) = .ok program := by
  intro pre comment post program
  have hcomment : Comment comment post := @Comment.block [] post (by decide)
  have hscan (rest : List Char) : Scanned rest pre := .of_notMem_breaks (by decide) rest
  have hmember : ¬ WithinMember pre post := by
    rintro ⟨⟨blanks, front, key, value, hpre, -, hvalue, -⟩, -⟩
    obtain ⟨v, vs, rfl⟩ := List.exists_cons_of_ne_nil hvalue.ne_nil
    have hpre : ['\x7b', 'a', ':', '1'] = (front ++ key) ++ ':' :: v :: (vs ++ blanks) := by
      simpa [pre] using hpre
    -- the only colon stands before a digit
    obtain rfl : v = '1' := by
      generalize front ++ key = f at hpre
      have hlen := congrArg List.length hpre
      simp only [List.length_append, List.length_cons, List.length_nil] at hlen
      rcases f with _ | ⟨x, _ | ⟨y, _ | ⟨z, f⟩⟩⟩
      · simp at hpre
      · simp at hpre
      · simp only [List.cons_append, List.nil_append, List.cons.injEq] at hpre
        exact hpre.2.2.2.1.symm
      · simp only [List.length_cons] at hlen
        omega
    exact absurd hvalue.1 (by decide)
  have hobject : Passes readEmbedded Reading.program []
      (['\x7b'] ++ (['a'] ++ ([':'] ++ (['1'] ++ (comment ++ ['\x7d']))))) []
      ⟨.operand (.object [("a", .number (numberToken ['1']))]), [.program []]⟩ :=
    .trans (.found (t := .leftBrace) rfl rfl rfl rfl) <|
    .trans (.found (t := .name) rfl rfl rfl rfl) <|
    .trans (.found (t := .colon) rfl rfl rfl rfl) <|
    .trans (.found (t := .number) rfl rfl rfl rfl) <|
    .layout hcomment.layout (.found (t := .rightBrace) rfl rfl rfl rfl)
  have hparse : parseProgram (String.ofList (pre ++ (comment ++ post))) = .ok program := by
    rw [parseProgram, String.toList_ofList]
    exact hobject.readText rfl
  have hblank : parseProgram (String.ofList (pre ++ ' ' :: post)) = .ok program :=
    (parseProgram_comment hcomment hmember).1 (hscan _) hparse
  exact ⟨⟨hcomment, hmember, hscan _, hscan _, hparse⟩, hblank,
    (parseProgram_comment hcomment hmember).2 ' ' rfl (hscan _) hblank⟩

end Sigil
