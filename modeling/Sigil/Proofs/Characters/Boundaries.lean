import Mathlib.Data.List.TakeWhile
import Sigil.Text.Grapheme.Cluster

/-!
# Boundaries of characters

A text is cut into characters in one pass from left to right, with a look at the text before each
code point. The rules for grapheme clusters are stated without a pass: each of them speaks of a
place between two code points, they are tried in order, and the first that applies says whether
there is a boundary at that place (`Boundary`). The clusters lose nothing of the text
(`flatten_cut`), none of them is empty (`ne_nil_of_mem_cut`), and they part the text at the places
where the rules put a boundary and nowhere else (`cutAt_graphemes`).

Two rules look back as far as the text goes: pictographs are joined over any number of extenders,
and regional indicators are paired from the start of their run.
-/

namespace Sigil

namespace Grapheme

/-! ### The rules -/

/-- The rules that say whether there is a boundary between two code points. -/
inductive Rule where
  /-- No boundary between a carriage return and a line feed. -/
  | gb3
  /-- A boundary after each control character. -/
  | gb4
  /-- A boundary before each control character. -/
  | gb5
  /-- A leading consonant of Hangul and what continues it. -/
  | gb6
  /-- A vowel of Hangul and what continues it. -/
  | gb7
  /-- A trailing consonant of Hangul and another. -/
  | gb8
  /-- No boundary before an extender or a joiner. -/
  | gb9
  /-- No boundary before a spacing mark. -/
  | gb9a
  /-- No boundary after a character that is joined to the next. -/
  | gb9b
  /-- Pictographs that a joiner joins. -/
  | gb11
  /-- The two regional indicators of a flag, in a run that starts the text. -/
  | gb12
  /-- The two regional indicators of a flag, in a later run. -/
  | gb13
  /-- A boundary everywhere else. -/
  | gb999

/-- The rules in the order in which they are tried. -/
def Rule.all : List Rule :=
  [.gb3, .gb4, .gb5, .gb6, .gb7, .gb8, .gb9, .gb9a, .gb9b, .gb11, .gb12, .gb13, .gb999]

/-- Whether a rule that applies puts a boundary. -/
def Rule.parts : Rule → Bool
  | .gb4 | .gb5 | .gb999 => true
  | _ => false

/-- The last of some classes is among given ones. -/
def EndsIn (before classes : List BreakClass) : Prop :=
  ∃ earlier, ∃ last ∈ classes, before = earlier ++ [last]

/-- When a rule applies between a text, whose classes are given in the order of reading, and a code
point of class `next`. -/
def Rule.Applies (before : List BreakClass) (next : BreakClass) : Rule → Prop
  | .gb3 => EndsIn before [.carriageReturn] ∧ next = .lineFeed
  | .gb4 => EndsIn before [.control, .carriageReturn, .lineFeed]
  | .gb5 => next ∈ [.control, .carriageReturn, .lineFeed]
  | .gb6 => EndsIn before [.lead] ∧ next ∈ [.lead, .vowel, .leadVowel, .leadVowelTrail]
  | .gb7 => EndsIn before [.leadVowel, .vowel] ∧ next ∈ [.vowel, .trail]
  | .gb8 => EndsIn before [.leadVowelTrail, .trail] ∧ next = .trail
  | .gb9 => next ∈ [.extend, .joiner]
  | .gb9a => next = .spacingMark
  | .gb9b => EndsIn before [.prepend]
  | .gb11 => (∃ earlier n, before =
      earlier ++ .pictograph :: (List.replicate n .extend ++ [.joiner])) ∧ next = .pictograph
  | .gb12 => (∃ n, before = List.replicate (2 * n + 1) .regional) ∧ next = .regional
  | .gb13 => (∃ earlier c n, c ≠ .regional ∧
      before = earlier ++ c :: List.replicate (2 * n + 1) .regional) ∧ next = .regional
  | .gb999 => True

/-- The first of some rules that applies puts a boundary. -/
def FirstParts (before : List BreakClass) (next : BreakClass) : List Rule → Prop
  | [] => False
  | rule :: rules => rule.Applies before next ∧ rule.parts ∨
      ¬rule.Applies before next ∧ FirstParts before next rules

/-- **The rules put a boundary** between a text and a code point. -/
def Boundary (before : List BreakClass) (next : BreakClass) : Prop :=
  FirstParts before next Rule.all

/-! ### What comes before a place -/

private theorem endsIn_append_singleton {earlier classes : List BreakClass} {last : BreakClass} :
    EndsIn (earlier ++ [last]) classes ↔ last ∈ classes := by
  constructor
  · rintro ⟨_, last', hlast, heq⟩
    obtain ⟨-, heq⟩ := List.append_inj' heq rfl
    cases heq
    exact hlast
  · exact fun h => ⟨earlier, last, h, rfl⟩

private theorem endsPictograph_iff (before : List BreakClass) :
    endsPictograph before = true ↔
      ∃ n earlier, before = List.replicate n .extend ++ .pictograph :: earlier := by
  fun_induction endsPictograph before with
  | case1 before ih =>
    rw [ih]
    constructor
    · rintro ⟨n, earlier, rfl⟩
      exact ⟨n + 1, earlier, rfl⟩
    · rintro ⟨n, earlier, heq⟩
      cases n with
      | zero => cases heq
      | succ n => exact ⟨n, earlier, (List.cons.inj heq).2⟩
  | case2 earlier => exact iff_of_true rfl ⟨0, earlier, rfl⟩
  | case3 before hextend hpictograph =>
    refine iff_of_false (by decide) ?_
    rintro ⟨n, earlier, rfl⟩
    cases n with
    | zero => exact hpictograph _ rfl
    | succ n => exact hextend _ rfl

/-- The rule for pictographs asks what the pass asks. -/
private theorem gb11_iff {earlier : List BreakClass} {last next : BreakClass} :
    Rule.gb11.Applies (earlier ++ [last]) next ↔
      (last = .joiner ∧ endsPictograph earlier.reverse = true) ∧ next = .pictograph := by
  refine and_congr_left fun _ => ?_
  rw [endsPictograph_iff]
  constructor
  · rintro ⟨first, n, heq⟩
    rw [← List.cons_append, ← List.append_assoc] at heq
    obtain ⟨rfl, hlast⟩ := List.append_inj' heq rfl
    exact ⟨List.head_eq_of_cons_eq hlast, n, first.reverse, by simp⟩
  · rintro ⟨rfl, n, rest, hreverse⟩
    refine ⟨rest.reverse, n, ?_⟩
    rw [← List.reverse_reverse earlier, hreverse]
    simp

private theorem openRegional_iff (before : List BreakClass) :
    openRegional before = true ↔
      ∃ n rest, before = List.replicate (2 * n + 1) .regional ++ rest ∧
        rest.head? ≠ some .regional := by
  unfold openRegional
  rw [decide_eq_true_iff]
  constructor
  · intro hodd
    refine ⟨(before.takeWhile (· == .regional)).length / 2, before.dropWhile (· == .regional),
      ?_, ?_⟩
    · have hrun : before.takeWhile (· == .regional) =
          List.replicate (before.takeWhile (· == .regional)).length .regional :=
        List.eq_replicate_iff.2 ⟨rfl, fun b hb => by simpa using List.mem_takeWhile_imp hb⟩
      rw [show 2 * ((before.takeWhile (· == .regional)).length / 2) + 1 =
        (before.takeWhile (· == .regional)).length by omega, ← hrun,
        List.takeWhile_append_dropWhile]
    · intro hhead
      have hnot := List.head?_dropWhile_not (· == .regional) before
      rw [hhead] at hnot
      exact absurd hnot (by decide)
  · rintro ⟨n, rest, rfl, hhead⟩
    have hstop : rest.takeWhile (· == .regional) = [] := by
      cases rest with
      | nil => rfl
      | cons c rest =>
        have hne : (c == .regional) = false := beq_false_of_ne fun h => hhead (by rw [h]; rfl)
        rw [List.takeWhile_cons, hne]
        rfl
    rw [List.takeWhile_append_of_pos (by simp), hstop, List.append_nil, List.length_replicate]
    omega

private theorem openRegional_cons_of_ne {last : BreakClass} (h : last ≠ .regional)
    (before : List BreakClass) : openRegional (last :: before) = false := by
  simp [openRegional, h]

/-- The two rules for regional indicators together ask what the pass asks. -/
private theorem gb12_or_gb13_iff {before : List BreakClass} {next : BreakClass} :
    Rule.gb12.Applies before next ∨ Rule.gb13.Applies before next ↔
      openRegional before.reverse = true ∧ next = .regional := by
  rw [openRegional_iff, Rule.Applies, Rule.Applies, ← or_and_right]
  refine and_congr_left fun _ => ⟨?_, ?_⟩
  · rintro (⟨n, rfl⟩ | ⟨earlier, c, n, hc, rfl⟩)
    · exact ⟨n, [], by simp, by simp⟩
    · exact ⟨n, c :: earlier.reverse, by simp, by simpa using hc⟩
  · rintro ⟨n, rest, hreverse, hhead⟩
    rw [← List.reverse_reverse before, hreverse]
    cases rest with
    | nil => exact .inl ⟨n, by simp⟩
    | cons c rest => exact .inr ⟨rest.reverse, c, n, by simpa using hhead, by simp⟩

/-! ### The pass and the rules -/

private theorem firstParts_cons {before : List BreakClass} {next : BreakClass} (rule : Rule)
    (rules : List Rule) : FirstParts before next (rule :: rules) ↔
      if rule.parts then rule.Applies before next ∨ FirstParts before next rules
      else ¬rule.Applies before next ∧ FirstParts before next rules := by
  rw [FirstParts]
  by_cases happlies : rule.Applies before next <;> simp [happlies]

/-- The rules that put a boundary come second and third, and last. -/
private theorem boundary_iff_rules {before : List BreakClass} {next : BreakClass} :
    Boundary before next ↔ ¬Rule.gb3.Applies before next ∧
      (Rule.gb4.Applies before next ∨ Rule.gb5.Applies before next ∨
        ¬Rule.gb6.Applies before next ∧ ¬Rule.gb7.Applies before next ∧
        ¬Rule.gb8.Applies before next ∧ ¬Rule.gb9.Applies before next ∧
        ¬Rule.gb9a.Applies before next ∧ ¬Rule.gb9b.Applies before next ∧
        ¬Rule.gb11.Applies before next ∧
        ¬(Rule.gb12.Applies before next ∨ Rule.gb13.Applies before next)) := by
  have hlast : FirstParts before next [.gb999] := .inl ⟨trivial, rfl⟩
  rw [Boundary, Rule.all]
  simp only [firstParts_cons _ (_ :: _), hlast, Rule.parts, if_true, Bool.false_eq_true, if_false,
    and_true, not_or]

/-- **The pass puts boundaries where the rules do.** -/
theorem boundary_iff (earlier : List BreakClass) (last next : BreakClass) :
    Boundary (earlier ++ [last]) next ↔ joins (last :: earlier.reverse) next = false := by
  rw [boundary_iff_rules, gb11_iff, gb12_or_gb13_iff, List.reverse_append, List.reverse_singleton,
    List.singleton_append]
  simp only [Rule.Applies, endsIn_append_singleton]
  cases last <;> cases next <;> simp [joins, breaks, openRegional_cons_of_ne]

/-! ### The clusters -/

/-- Some parts of a text are cut right after `front`. -/
def CutAt {α : Type} (parts : List (List α)) (front : List α) : Prop :=
  ∃ gs hs, parts = gs ++ hs ∧ gs.flatten = front

private theorem cutAt_cons {α : Type} {part front : List α} {parts : List (List α)}
    (hpart : part ≠ []) :
    CutAt (part :: parts) (part ++ front) ↔ CutAt parts front := by
  constructor
  · rintro ⟨gs, hs, hparts, hfront⟩
    cases gs with
    | nil => exact absurd (List.append_eq_nil_iff.1 hfront.symm).1 hpart
    | cons g gs =>
      obtain ⟨rfl, rfl⟩ := List.cons.inj hparts
      exact ⟨gs, hs, rfl, List.append_cancel_left hfront⟩
  · rintro ⟨gs, hs, rfl, rfl⟩
    exact ⟨part :: gs, hs, rfl, rfl⟩

section Cut

variable (before : List BreakClass) (current : List Char)

/-- **Nothing is lost.** -/
theorem flatten_cut (rest : List Char) :
    (cut before current rest).flatten = current.reverse ++ rest := by
  fun_induction cut before current rest with
  | case1 before current h => simp [List.isEmpty_iff.1 h]
  | case2 before current h => simp
  | case3 before current c rest next hjoins ih => rw [ih]; simp
  | case4 before current c rest next hjoins later hempty ih =>
    rw [ih, List.isEmpty_iff.1 hempty]
    rfl
  | case5 before current c rest next hjoins later hempty ih =>
    rw [List.flatten_cons, ih]
    rfl

/-- **No cluster is empty.** -/
theorem ne_nil_of_mem_cut {rest g : List Char} (h : g ∈ cut before current rest) : g ≠ [] := by
  fun_induction cut before current rest with
  | case1 => cases h
  | case2 before current hempty =>
    rw [List.mem_singleton.1 h]
    simpa using hempty
  | case3 before current c rest next hjoins ih => exact ih h
  | case4 before current c rest next hjoins later hempty ih => exact ih h
  | case5 before current c rest next hjoins later hempty ih =>
    rcases List.mem_cons.1 h with rfl | hlater
    · simpa using hempty
    · exact ih hlater

/-- The cluster that is being read comes first. -/
private theorem exists_cut_eq_cons (hcurrent : current ≠ []) (rest : List Char) :
    ∃ more parts, cut before current rest = (current.reverse ++ more) :: parts := by
  fun_induction cut before current rest with
  | case1 before current hempty => exact absurd (List.isEmpty_iff.1 hempty) hcurrent
  | case2 before current hempty => exact ⟨[], [], by rw [List.append_nil]⟩
  | case3 before current c rest next hjoins ih =>
    obtain ⟨more, parts, heq⟩ := ih (List.cons_ne_nil _ _)
    exact ⟨c :: more, parts, by rw [heq]; simp⟩
  | case4 before current c rest next hjoins later hempty ih =>
    exact absurd (List.isEmpty_iff.1 hempty) hcurrent
  | case5 before current c rest next hjoins later hempty ih =>
    exact ⟨[], later, by rw [List.append_nil]⟩

/-- A cluster that goes on is not cut. -/
private theorem not_cutAt_cut (hcurrent : current ≠ []) (c : Char) (rest : List Char) :
    ¬CutAt (cut before (c :: current) rest) current.reverse := by
  obtain ⟨more, parts, heq⟩ := exists_cut_eq_cons before (c :: current) (List.cons_ne_nil _ _) rest
  rintro ⟨gs, hs, hparts, hfront⟩
  rw [heq] at hparts
  cases gs with
  | nil => exact hcurrent (List.reverse_eq_nil_iff.1 hfront.symm)
  | cons g gs =>
    obtain ⟨rfl, -⟩ := List.cons.inj hparts
    have hlength := congrArg List.length hfront
    simp only [List.flatten_cons, List.length_append, List.length_reverse,
      List.length_cons] at hlength
    omega

variable {before current} in
private theorem cut_of_not_joins {c : Char} (hjoins : joins before (breakClass c) = false)
    (hcurrent : current ≠ []) (rest : List Char) :
    cut before current (c :: rest) =
      current.reverse :: cut (breakClass c :: before) [c] rest := by
  simp [cut, hjoins, hcurrent]

/-- **The clusters are cut where the pass puts a boundary.** The induction is on the text in front
of the place, each code point of which is taken into the cluster or starts the next. -/
theorem cutAt_cut {front : List Char} (hfront : current.reverse ++ front ≠ []) (c : Char)
    (back : List Char) :
    CutAt (cut before current (front ++ c :: back)) (current.reverse ++ front) ↔
      joins ((front.map breakClass).reverse ++ before) (breakClass c) = false := by
  induction front generalizing before current with
  | nil =>
    rw [List.append_nil] at hfront
    have hcurrent : current ≠ [] := fun h => hfront (by rw [h]; rfl)
    rw [List.nil_append, List.map_nil, List.reverse_nil, List.nil_append]
    cases hjoins : joins before (breakClass c) with
    | true =>
      rw [List.append_nil, cut, hjoins]
      exact iff_of_false (not_cutAt_cut _ _ hcurrent c back) (by decide)
    | false =>
      rw [cut_of_not_joins hjoins hcurrent, cutAt_cons (by simpa using hcurrent)]
      exact iff_of_true ⟨[], _, rfl, rfl⟩ rfl
  | cons d front ih =>
    rw [List.map_cons, List.reverse_cons, List.append_assoc, List.singleton_append,
      List.cons_append]
    cases hjoins : joins before (breakClass d) with
    | true =>
      -- `d` joins the current cluster, and the place is as far from its start as before
      have hnext := ih (breakClass d :: before) (d :: current) (by simp)
      rw [List.reverse_cons, List.append_assoc, List.singleton_append] at hnext
      rw [cut, hjoins]
      exact hnext
    | false =>
      -- `d` starts a cluster; the one before it is cut off, unless the text starts here
      have hnext := ih (breakClass d :: before) [d] (by simp)
      by_cases hcurrent : current = []
      · subst hcurrent
        rw [cut, hjoins]
        exact hnext
      · rw [cut_of_not_joins hjoins hcurrent, cutAt_cons (by simpa using hcurrent)]
        exact hnext

end Cut

end Grapheme

open Grapheme

/-- The characters of a text put together are the text. -/
theorem join_graphemes (s : String) : String.join (graphemes s) = s := by
  apply String.ext
  rw [String.toList_join, graphemes, List.flatMap_map]
  simp only [String.toList_ofList]
  rw [List.flatMap_id', flatten_cut]
  rfl

theorem ne_empty_of_mem_graphemes {s g : String} (h : g ∈ graphemes s) : g ≠ "" := by
  obtain ⟨cs, hcs, rfl⟩ := List.mem_map.1 h
  intro hempty
  have hnil := congrArg String.toList hempty
  rw [String.toList_ofList] at hnil
  exact ne_nil_of_mem_cut [] [] hcs hnil

/-- **The characters of a text are parted exactly where the rules put a boundary.** -/
theorem cutAt_graphemes {s : String} {front back : List Char} {a b : Char}
    (h : s.toList = front ++ a :: b :: back) :
    CutAt ((graphemes s).map String.toList) (front ++ [a]) ↔
      Boundary ((front ++ [a]).map breakClass) (breakClass b) := by
  have htext : s.toList = (front ++ [a]) ++ b :: back := by
    rw [h, List.append_assoc]
    rfl
  have hclusters : (graphemes s).map String.toList = cut [] [] s.toList := by
    rw [graphemes, List.map_map]
    exact List.map_id'' (fun cs => String.toList_ofList) _
  have hfront : [].reverse ++ (front ++ [a]) ≠ [] := by simp
  rw [List.map_append, List.map_singleton, boundary_iff, hclusters, htext]
  simpa using cutAt_cut [] [] hfront b back

end Sigil
