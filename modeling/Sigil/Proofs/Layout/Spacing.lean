import Sigil.Proofs.Layout.Relaid

/-!
# White space

`Respaced s s'` says that `s'` is `s` with runs of white space between the tokens replaced by other
runs. Strings, templates and comments stay as they are, and so does every other character. A line
comment that is kept has to end where it did, so the run after it starts with a line feed in both
texts.

The main statement is `parseProgram_respaced`: the amount and kind of white space does not matter.
The one class of tokens that looks beyond white space is that of object keys, and it looks for the
same thing after every run (`Respaced.endsBareMember_eq`).
-/

namespace Sigil

open Lexeme

/-- A run of white space. -/
def IsRun (w : List Char) : Prop :=
  w ≠ [] ∧ ∀ c ∈ w, Text.isLayout c = true

theorem IsRun.isBlank {w : List Char} (h : IsRun w) : ∀ c ∈ w, Text.isBlank c = true :=
  fun c hc => Text.isBlank_of_isLayout (h.2 c hc)

private theorem IsRun.layout {w : List Char} (h : IsRun w) (rest : List Char) : Layout w rest := by
  have hall := h.2
  clear h
  induction w with
  | nil => exact .nil
  | cons c w ih =>
    exact .blank (hall c List.mem_cons_self) (ih fun x hx => hall x (List.mem_cons_of_mem c hx))

/-- **A text with its white space replaced.** -/
inductive Respaced : List Char → List Char → Prop
  | same {s : List Char} : Respaced s s
  | chunk {u rest rest' : List Char} :
      Chunk u rest → Respaced rest rest' → Respaced (u ++ rest) (u ++ rest')
  | comment {k rest rest' : List Char} :
      Comment k rest → Comment k rest' → Respaced rest rest' → Respaced (k ++ rest) (k ++ rest')
  | run {w w' rest rest' : List Char} :
      IsRun w → IsRun w' → Respaced rest rest' → Respaced (w ++ rest) (w' ++ rest')

namespace Respaced

variable {s s' : List Char}

/-- The first character stays the same, or it is white space. -/
private theorem head (h : Respaced s s') :
    ∀ d ∈ s'.head?, d ∈ s.head? ∨ Text.isLayout d = true := by
  intro d hd
  cases h with
  | same => exact .inl hd
  | @chunk u _ _ hu =>
    rw [List.head?_append_of_ne_nil _ hu.ne_nil] at hd ⊢
    exact .inl hd
  | @comment k _ _ hk =>
    obtain ⟨more, rfl⟩ := hk.eq_cons
    exact .inl hd
  | @run _ w' _ _ _ hw' =>
    rw [List.head?_append_of_ne_nil _ hw'.1] at hd
    exact .inr (hw'.2 d (List.mem_of_mem_head? hd))

/-- Up to the first gap the text is the same. -/
private theorem alike (h : Respaced s s') :
    ∃ u r r', s = u ++ r ∧ s' = u ++ r' ∧ StartsGap r ∧ StartsGap r' ∧ Respaced r r' := by
  induction h with
  | @same s => exact ⟨s, [], [], by simp, by simp, .nil, .nil, .same⟩
  | @chunk u _ _ _ _ ih =>
    obtain ⟨v, r, r', rfl, rfl, hr, hr', hrest⟩ := ih
    exact ⟨u ++ v, r, r', by simp, by simp, hr, hr', hrest⟩
  | comment hk hk' hrest =>
    exact ⟨[], _, _, rfl, rfl, hk.layout.startsGap hk.ne_nil, hk'.layout.startsGap hk.ne_nil,
      .comment hk hk' hrest⟩
  | run hw hw' hrest =>
    exact ⟨[], _, _, rfl, rfl, (hw.layout _).startsGap hw.1, (hw'.layout _).startsGap hw'.1,
      .run hw hw' hrest⟩

/-- What ends a member still ends it, beyond any white space. -/
theorem endsBareMember_eq (h : Respaced s s') {blanks : List Char}
    (hblanks : ∀ c ∈ blanks, Text.isBlank c = true) :
    endsBareMember (blanks ++ s) = endsBareMember (blanks ++ s') := by
  induction h generalizing blanks with
  | same => rfl
  | @chunk u rest rest' hu hrest ih =>
    obtain ⟨d, v, rfl⟩ := List.exists_cons_of_ne_nil hu.ne_nil
    by_cases hd : Text.isBlank d = true
    · -- white space that separates no tokens is a chunk, but the look-ahead skips it
      obtain rfl : v = [] := by
        cases hu with
        | quoted => simp [Text.isBlank, Text.wideBlanks] at hd
        | template => simp [Text.isBlank, Text.wideBlanks] at hd
        | plain => rfl
      have hmore : ∀ c ∈ blanks ++ [d], Text.isBlank c = true := by
        simpa [or_imp, forall_and, hd] using hblanks
      simpa using ih hmore
    · obtain ⟨x, r, r', rfl, rfl, hr, hr', -⟩ := hrest.alike
      have hdrop : (blanks ++ (d :: v ++ x)).dropWhile Text.isBlank = d :: (v ++ x) := by
        rw [List.dropWhile_append_of_pos hblanks, List.cons_append, List.dropWhile_cons_of_neg hd]
      have hends := (endsBareMember_append_gap hr hdrop).trans
        (endsBareMember_append_gap hr' hdrop).symm
      simpa using hends
  | @comment k _ _ hk =>
    obtain ⟨more, rfl⟩ := hk.eq_cons
    rw [List.cons_append, List.cons_append, endsBareMember_slash hblanks,
      endsBareMember_slash hblanks]
  | @run w w' rest rest' hw hw' _ ih =>
    -- the look-ahead skips either run, and a single blank stands for both
    have hrun {x : List Char} (rest : List Char) (hx : IsRun x) :
        endsBareMember (blanks ++ (x ++ rest)) = endsBareMember (' ' :: rest) := by
      rw [← List.append_assoc]
      exact endsBareMember_append (by simp [hx.1])
        (List.forall_mem_append.2 ⟨hblanks, hx.isBlank⟩) rest
    have hone : ∀ c ∈ [' '], Text.isBlank c = true := by decide
    rw [hrun rest hw, hrun rest' hw']
    exact ih hone

/-- An object key is found before and after. -/
private theorem objectKeyTail?_eq {u : List Char} (h : Respaced s s') :
    objectKeyTail? (u ++ s) = objectKeyTail? (u ++ s') := by
  obtain ⟨v, r, r', rfl, rfl, hr, hr', hrest⟩ := h.alike
  rw [← List.append_assoc, ← List.append_assoc]
  exact objectKeyTail?_append_gap hr hr' fun _ _ _ _ _ _ hblanks => hrest.endsBareMember_eq hblanks

/-- Other white space is another layout. -/
private theorem relaid (h : Respaced s s') : Relaid s s' := by
  induction h with
  | same => exact .same
  | chunk hu hrest ih => exact .chunk hu (hu.congr hrest.head) hrest.objectKeyTail?_eq ih
  | comment hk hk' _ ih => exact .gap hk.ne_nil hk.ne_nil hk.layout hk'.layout ih
  | run hw hw' _ ih => exact .gap hw.1 hw'.1 (hw.layout _) (hw'.layout _) ih

end Respaced

/-- **White space does not matter.** If a text is a program, then it is the same program with the
runs of white space between its tokens replaced by any others. -/
theorem parseProgram_respaced {source source' : String} {program : Node}
    (h : parseProgram source = .ok program) (hs : Respaced source.toList source'.toList) :
    parseProgram source' = .ok program :=
  Reading.readText_relaid h hs.relaid

/-- An object after a line comment, with its members on one line and on two. -/
theorem parseProgram_respaced_object :
    let program : Node := .program [.object [("a", .ident "b"), ("c", .ident "d")]]
    let source := "//k\n\x7ba:b c:d\x7d"
    let source' := "//k\n\t\x7ba:b\r\nc:d\x7d"
    (parseProgram source = .ok program ∧ Respaced source.toList source'.toList) ∧
      parseProgram source' = .ok program := by
  intro program source source'
  have hsource : source.toList = ['/', '/', 'k'] ++ (['\n'] ++ "\x7ba:b c:d\x7d".toList) := by
    decide
  have hsource' : source'.toList =
      ['/', '/', 'k'] ++ (['\n', '\t'] ++ "\x7ba:b\r\nc:d\x7d".toList) := by
    decide
  have hline (rest : List Char) : Comment ['/', '/', 'k'] ('\n' :: rest) :=
    .line (by decide) (by simp [LineEnds])
  have hparse : parseProgram source = .ok program := by
    have hgap : Layout (['/', '/', 'k'] ++ ['\n']) ("\x7ba:b c:d\x7d".toList ++ []) :=
      (hline _).layout.append (.blank rfl .nil)
    have hobject : Passes readEmbedded Reading.program ['\n', 'k', '/', '/']
        (['\x7b'] ++ (['a'] ++ ([':'] ++ (['b'] ++ ([' ', 'c'] ++ ([':'] ++ (['d'] ++
          ['\x7d'])))))))
        [] ⟨.operand (.object [("a", .ident "b"), ("c", .ident "d")]), [.program []]⟩ :=
      .trans (.found (t := .leftBrace) rfl rfl rfl rfl) <|
      .trans (.found (t := .objectKey) rfl rfl rfl rfl) <|
      .trans (.found (t := .colon) rfl rfl rfl rfl) <|
      .trans (.found (t := .name) rfl rfl rfl rfl) <|
      .trans (.blank (.found (t := .objectKey) rfl rfl rfl rfl)) <|
      .trans (.found (t := .colon) rfl rfl rfl rfl) <|
      .trans (.found (t := .name) rfl rfl rfl rfl) (.found (t := .rightBrace) rfl rfl rfl rfl)
    rw [parseProgram, hsource, ← List.append_assoc]
    exact (hobject.layout hgap).readText rfl
  have hs : Respaced source.toList source'.toList := by
    have hmembers : Respaced ([' '] ++ "c:d\x7d".toList) (['\r', '\n'] ++ "c:d\x7d".toList) :=
      .run ⟨by decide, by decide⟩ ⟨by decide, by decide⟩ .same
    have hobject : Respaced "\x7ba:b c:d\x7d".toList "\x7ba:b\r\nc:d\x7d".toList :=
      .chunk (.of_notMem_breaks (c := '\x7b') (by decide) _) <|
      .chunk (.of_notMem_breaks (c := 'a') (by decide) _) <|
      .chunk (.of_notMem_breaks (c := ':') (by decide) _) <|
      .chunk (.of_notMem_breaks (c := 'b') (by decide) _) hmembers
    rw [hsource, hsource']
    exact .comment (hline _) (hline _) (.run ⟨by decide, by decide⟩ ⟨by decide, by decide⟩ hobject)
  exact ⟨⟨hparse, hs⟩, parseProgram_respaced hparse hs⟩

end Sigil
