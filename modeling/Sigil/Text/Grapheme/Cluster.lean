import Sigil.Text.Grapheme.Table

/-!
# Grapheme clusters

User-perceived characters by the rules for extended grapheme clusters, without the rule for Indic
conjuncts. `Grapheme.joins` decides whether a character belongs to the same cluster as the text
before it, and `graphemes` cuts a text wherever it does not.
-/

namespace Sigil

namespace Grapheme

/-- The classes of characters that the rules refer to. -/
inductive BreakClass where
  /-- Carriage return. -/
  | carriageReturn
  /-- Line feed. -/
  | lineFeed
  /-- Another control character. -/
  | control
  /-- An extending character. -/
  | extend
  /-- The zero-width joiner. -/
  | joiner
  /-- A regional indicator, two of which make a flag. -/
  | regional
  /-- A character joined to the next. -/
  | prepend
  /-- A spacing mark. -/
  | spacingMark
  /-- A leading consonant of Hangul. -/
  | lead
  /-- A vowel of Hangul. -/
  | vowel
  /-- A trailing consonant of Hangul. -/
  | trail
  /-- A Hangul syllable of leading consonant and vowel. -/
  | leadVowel
  /-- A Hangul syllable with a trailing consonant. -/
  | leadVowelTrail
  /-- A pictograph. -/
  | pictograph
  /-- Any other character. -/
  | other
  deriving DecidableEq, Repr

/-- The class of a character. The characters of ASCII are looked at first, as most texts hold no
others. -/
def breakClass (c : Char) : BreakClass :=
  let n := c.toNat
  if n = 13 then .carriageReturn
  else if n = 10 then .lineFeed
  else if 32 ≤ n ∧ n < 127 then .other
  else if inRanges controls n then .control
  else if n = 0x200d then .joiner
  else if inRanges extenders n then .extend
  else if inRanges spacingMarks n then .spacingMark
  else if inRanges pictographs n then .pictograph
  else if 0x1f1e6 ≤ n ∧ n ≤ 0x1f1ff then .regional
  else if inRanges prepended n then .prepend
  else if inRanges hangulLeads n then .lead
  else if inRanges hangulVowels n then .vowel
  else if inRanges hangulTrails n then .trail
  else if 0xac00 ≤ n ∧ n ≤ 0xd7a3 then
    if (n - 0xac00) % 28 = 0 then .leadVowel else .leadVowelTrail
  else .other

/-- Whether a class breaks the text on both of its sides. -/
def breaks : BreakClass → Bool
  | .carriageReturn | .lineFeed | .control => true
  | _ => false

/-- Whether the classes before a joiner, nearest first, are extenders after a pictograph. -/
def endsPictograph : List BreakClass → Bool
  | .extend :: before => endsPictograph before
  | .pictograph :: _ => true
  | _ => false

/-- Whether an odd number of regional indicators stands at the end of the text, nearest first, so
that the last of them has no partner. -/
def openRegional (before : List BreakClass) : Bool :=
  (before.takeWhile (· == .regional)).length % 2 = 1

/-- Whether a character of class `next` is in one cluster with the text before it, whose classes are
given nearest first. -/
def joins (before : List BreakClass) (next : BreakClass) : Bool :=
  match before, next with
  | [], _ => false
  | .carriageReturn :: _, .lineFeed => true
  | last :: earlier, next =>
    if breaks last || breaks next then false
    else
      match last, next with
      | .lead, .lead | .lead, .vowel | .lead, .leadVowel | .lead, .leadVowelTrail => true
      | .leadVowel, .vowel | .leadVowel, .trail | .vowel, .vowel | .vowel, .trail => true
      | .leadVowelTrail, .trail | .trail, .trail => true
      | _, .extend | _, .joiner | _, .spacingMark => true
      | .prepend, _ => true
      | .joiner, .pictograph => endsPictograph earlier
      | .regional, .regional => openRegional before
      | _, _ => false

/-- Cuts a text into clusters. `before` holds the classes of the text already seen, nearest first,
and `current` the characters of the cluster that is being read, last first. -/
def cut (before : List BreakClass) (current : List Char) : List Char → List (List Char)
  | [] => if current.isEmpty then [] else [current.reverse]
  | c :: rest =>
    let next := breakClass c
    if joins before next then cut (next :: before) (c :: current) rest
    else
      let later := cut (next :: before) [c] rest
      if current.isEmpty then later else current.reverse :: later

end Grapheme

/-- The grapheme clusters of a text. -/
def graphemes (text : String) : List String :=
  (Grapheme.cut [] [] text.toList).map String.ofList

end Sigil
