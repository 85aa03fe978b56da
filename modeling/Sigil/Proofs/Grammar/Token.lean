import Mathlib.Data.List.TakeWhile
import Sigil.Syntax.Lexeme

/-!
# Tokens as texts

`Terminal.Matches` says of each class of tokens which texts belong to it, and what has to stand
before and after such a text: the character that an opener touches, what follows an object key, and
that a name or a number goes on as far as it can. `Cut` says that a text is a sequence of tokens
with nothing but layout between them. No character is left out and none belongs to two tokens.

The main statements are that a token which is found at a place matches its class there
(`Cursor.matches_of_lexeme?`), and that what is skipped between two tokens is layout
(`Cursor.layout_skipLayout`).
-/

namespace Sigil

open Lexeme

/-- What holds of all characters of a text is decided by going through the text, and not through
all characters that there are. -/
instance (priority := high) decidableForallChars {p : Char → Prop} [DecidablePred p]
    (text : List Char) : Decidable (∀ c ∈ text, p c) :=
  List.decidableBAll p text

/-! ### Texts of tokens -/

/-- A name: a letter or an underscore, and then letters, digits and underscores. -/
def IsName : List Char → Prop
  | [] => False
  | c :: rest => isNameStart c = true ∧ ∀ x ∈ rest, isNameChar x = true

instance decidableIsName : DecidablePred IsName
  | [] => isFalse id
  | c :: rest =>
    inferInstanceAs (Decidable (isNameStart c = true ∧ ∀ x ∈ rest, isNameChar x = true))

/-- What follows does not go on with the name before it. -/
def NameEnds (after : List Char) : Prop :=
  ∀ c ∈ after.head?, isNameChar c = false

/-- A sequence of digits that is not empty. -/
def IsDigits (ds : List Char) : Prop :=
  ds ≠ [] ∧ ∀ d ∈ ds, d.isDigit = true

/-- What follows does not go on with the digits before it. -/
def DigitsEnd (after : List Char) : Prop :=
  ∀ c ∈ after.head?, c.isDigit = false

/-- A number, with or without a fraction. The fraction belongs to it whenever there is one. -/
def IsNumber (text after : List Char) : Prop :=
  (∃ whole fraction, text = whole ++ '.' :: fraction ∧ IsDigits whole ∧ IsDigits fraction ∧
      DigitsEnd after) ∨
    IsDigits text ∧ DigitsEnd after ∧ ∀ more, after = '.' :: more → DigitsEnd more

/-- The inside of a quoted text: a quote does not stand alone, and a backslash stands with the
character after it, which is one of the characters that can be escaped. -/
inductive QuotedBody (escapes : Char → Prop) : List Char → Prop
  | nil : QuotedBody escapes []
  | escape {c : Char} {body : List Char} :
      escapes c → QuotedBody escapes body → QuotedBody escapes ('\\' :: c :: body)
  | plain {c : Char} {body : List Char} :
      c ≠ '"' → c ≠ '\\' → QuotedBody escapes body → QuotedBody escapes (c :: body)

/-- What ends an object member whose value is a bare name: a separator or the closing brace, or
white space and the key of the next member. -/
def MemberEnds (after : List Char) : Prop :=
  ∃ blanks more, after = blanks ++ more ∧ (∀ c ∈ blanks, Text.isBlank c = true) ∧
    ((∃ c rest, more = c :: rest ∧ (c = ',' ∨ c = ';' ∨ c = '\x7d')) ∨
      blanks ≠ [] ∧ ∃ key rest, more = key ++ ':' :: rest ∧ IsName key ∧ rest.head? ≠ some ':')

/-- What follows an object key: a colon, a name, and the end of the member. -/
def KeyFollows (after : List Char) : Prop :=
  ∃ value rest, after = ':' :: (value ++ rest) ∧ IsName value ∧ MemberEnds rest

/-- The character before the place ends an operand. -/
def Touches (before : List Char) : Prop :=
  ∃ c ∈ before.head?, endsOperand c = true

/-- A text is a token of a class, between the characters before it, nearest first, and those after
it. -/
def Terminal.Matches (t : Terminal) (before text after : List Char) : Prop :=
  match t with
  | .name => IsName text ∧ NameEnds after
  | .yes => text = ['y', 'e', 's'] ∧ NameEnds after
  | .no => text = ['n', 'o'] ∧ NameEnds after
  | .underscore => text = ['_'] ∧ NameEnds after
  | .spaceRef =>
    (∃ space member, text = space ++ ':' :: member ∧ IsName space ∧ IsName member) ∧ NameEnds after
  | .objectKey => IsName text ∧ KeyFollows after
  | .callOpen => text = ['('] ∧ Touches before
  | .indexOpen => text = ['['] ∧ Touches before
  | .memberDot => text = ['.'] ∧ Touches before
  | .number => IsNumber text after
  | .string => ∃ body, text = '"' :: (body ++ ['"']) ∧ QuotedBody (· ≠ '\n') body
  | .template => ∃ body, text = '`' :: (body ++ ['`']) ∧ '`' ∉ body
  | .endOfText => False
  | sign => text = sign.sign

/-! ### Layout and the cut into tokens -/

/-- Layout before a text: white space and comments. A line comment goes on to the end of its line
and a block comment to the first `*/`. -/
inductive Layout : List Char → List Char → Prop
  | nil {after : List Char} : Layout [] after
  | blank {c : Char} {gap after : List Char} :
      Text.isLayout c = true → Layout gap after → Layout (c :: gap) after
  | lineComment {body gap after : List Char} :
      '\n' ∉ body → (∀ c ∈ (gap ++ after).head?, c = '\n') → Layout gap after →
        Layout ('/' :: '/' :: (body ++ gap)) after
  | blockComment {body gap after : List Char} :
      ¬ ['*', '/'] <:+: body ++ ['*'] → Layout gap after →
        Layout ('/' :: '*' :: (body ++ '*' :: '/' :: gap)) after

/-- A text after the characters `before` is **cut** into tokens: layout, a token of its class at
this place, and so on; after the last token there is only layout. -/
inductive Cut : List Char → List Char → List Lexeme → Prop
  | nil {before gap : List Char} : Layout gap [] → Cut before gap []
  | cons {before gap after : List Char} {l : Lexeme} {tokens : List Lexeme} :
      Layout gap (l.text ++ after) → l.terminal.Matches (gap.reverse ++ before) l.text after →
        Cut (l.text.reverse ++ (gap.reverse ++ before)) after tokens →
          Cut before (gap ++ (l.text ++ after)) (l :: tokens)

/-! ### Names -/

section Runs

variable {p : Char → Bool}

/-- A text starts with the longest run of characters of a kind exactly if it is the run followed by
something else. -/
theorem takeWhile_append_of_ends {run after : List Char} (hrun : ∀ c ∈ run, p c = true)
    (hafter : ∀ c ∈ after.head?, p c = false) :
    (run ++ after).takeWhile p = run := by
  rw [List.takeWhile_append_of_pos hrun]
  cases after with
  | nil => simp
  | cons c rest => simp [hafter c rfl]

private theorem ends_dropWhile (cs : List Char) : ∀ c ∈ (cs.dropWhile p).head?, p c = false := by
  intro c hc
  have := List.head?_dropWhile_not p cs
  rw [Option.mem_def.1 hc] at this
  simpa using this

theorem drop_length_takeWhile (cs : List Char) :
    cs.drop (cs.takeWhile p).length = cs.dropWhile p := by
  induction cs with
  | nil => rfl
  | cons c cs ih =>
    cases h : p c
    · simp [h]
    · simpa [h] using ih

end Runs

theorem IsName.ne_nil {text : List Char} (h : IsName text) : text ≠ [] := by
  rintro rfl
  exact h

/-- A name is found exactly if the text is a name followed by something that does not go on with
it. -/
theorem nameTail?_eq_some_iff {cs : List Char} {n : Nat} :
    nameTail? cs = some n ↔
      ∃ text after, cs = text ++ after ∧ text.length = n + 1 ∧ IsName text ∧ NameEnds after := by
  constructor
  · intro h
    cases cs with
    | nil => simp [nameTail?] at h
    | cons c rest =>
      simp only [nameTail?, Option.ite_none_right_eq_some, Option.some.injEq] at h
      obtain ⟨hc, rfl⟩ := h
      refine ⟨c :: rest.takeWhile isNameChar, rest.dropWhile isNameChar, ?_, rfl, ⟨hc, ?_⟩,
        ends_dropWhile rest⟩
      · simp
      · exact fun x hx => List.mem_takeWhile_imp hx
  · rintro ⟨text, after, rfl, hlen, hname, hends⟩
    cases text with
    | nil => exact hname.elim
    | cons c rest =>
      have hrest : (rest ++ after).takeWhile isNameChar = rest :=
        takeWhile_append_of_ends hname.2 hends
      simp only [List.length_cons, Nat.add_right_cancel_iff] at hlen
      simp [nameTail?, hname.1, hrest, hlen]

/-- The text after a name is what follows the longest name there is. -/
theorem afterName?_eq_some_iff {cs after : List Char} :
    afterName? cs = some after ↔
      ∃ text, cs = text ++ after ∧ IsName text ∧ NameEnds after := by
  simp only [afterName?, Option.map_eq_some_iff, nameTail?_eq_some_iff]
  constructor
  · rintro ⟨n, ⟨text, after, rfl, hlen, hname, hends⟩, rfl⟩
    rw [← hlen, List.drop_left]
    exact ⟨text, rfl, hname, hends⟩
  · rintro ⟨text, rfl, hname, hends⟩
    have hpos := List.length_pos_iff.2 hname.ne_nil
    refine ⟨text.length - 1, ⟨text, after, rfl, by omega, hname, hends⟩, ?_⟩
    rw [Nat.sub_add_cancel hpos, List.drop_left]

/-- A namespace member is found exactly where a name, a colon and a name stand. -/
theorem spaceRefTail?_eq_some_iff {cs : List Char} {n : Nat} :
    spaceRefTail? cs = some n ↔
      ∃ space member after, cs = space ++ ':' :: (member ++ after) ∧
        space.length + member.length = n ∧ IsName space ∧ IsName member ∧ NameEnds after := by
  simp only [spaceRefTail?, bind, Option.bind_eq_some_iff, nameTail?_eq_some_iff]
  constructor
  · rintro ⟨k, ⟨space, rest, rfl, hlen, hspace, hends⟩, h⟩
    rw [← hlen, List.drop_left] at h
    split at h
    · rename_i rest'
      simp only [Option.bind_eq_some_iff, nameTail?_eq_some_iff] at h
      obtain ⟨m, ⟨member, after, rfl, hlen', hmember, hends'⟩, hn⟩ := h
      simp only [Option.pure_def, Option.some.injEq] at hn
      exact ⟨space, member, after, rfl, by omega, hspace, hmember, hends'⟩
    · simp at h
  · rintro ⟨space, member, after, rfl, rfl, hspace, hmember, hends⟩
    have hpos := List.length_pos_iff.2 hspace.ne_nil
    have hpos' := List.length_pos_iff.2 hmember.ne_nil
    have hcolon : NameEnds (':' :: (member ++ after)) := by
      intro c hc
      cases hc
      rfl
    refine ⟨space.length - 1, ⟨space, _, rfl, by omega, hspace, hcolon⟩, ?_⟩
    rw [Nat.sub_add_cancel hpos, List.drop_left]
    have htail : nameTail? (member ++ after) = some (member.length - 1) :=
      nameTail?_eq_some_iff.2 ⟨member, after, rfl, by omega, hmember, hends⟩
    simp only [htail, Option.bind_some, Option.pure_def, Option.some.injEq]
    omega

/-! ### Object keys -/

/-- The look-ahead of an object key finds the end of a member. -/
theorem memberEnds_of_endsBareMember {cs : List Char} (h : endsBareMember cs = true) :
    MemberEnds cs := by
  refine ⟨cs.takeWhile Text.isBlank, cs.dropWhile Text.isBlank, by simp,
    fun c hc => List.mem_takeWhile_imp hc, ?_⟩
  unfold endsBareMember at h
  split at h
  · rename_i rest heq
    exact .inl ⟨',', rest, heq, by simp⟩
  · rename_i rest heq
    exact .inl ⟨';', rest, heq, by simp⟩
  · rename_i rest heq
    exact .inl ⟨_, rest, heq, by simp⟩
  · simp only [Bool.and_eq_true] at h
    obtain ⟨hblank, h⟩ := h
    split at h
    · simp at h
    · rename_i rest hnot heq
      obtain ⟨key, hkey, hname, -⟩ := afterName?_eq_some_iff.1 heq
      refine .inr ⟨?_, key, rest, hkey, hname, ?_⟩
      · cases cs with
        | nil => simp at hblank
        | cons c rest => simp_all
      · intro hrest
        obtain ⟨more, rfl⟩ : ∃ more, rest = ':' :: more := by
          cases rest with
          | nil => simp at hrest
          | cons c more => exact ⟨more, by simp_all⟩
        exact hnot more rfl
    · simp at h

/-- An object key is a name that the value and the end of its member follow. -/
theorem matches_of_objectKeyTail? {cs : List Char} {n : Nat} (h : objectKeyTail? cs = some n) :
    ∃ text after, cs = text ++ after ∧ text.length = n + 1 ∧ IsName text ∧ KeyFollows after := by
  simp only [objectKeyTail?, bind, Option.bind_eq_some_iff, nameTail?_eq_some_iff] at h
  obtain ⟨k, ⟨text, after, rfl, hlen, hname, -⟩, h⟩ := h
  rw [← hlen, List.drop_left] at h
  split at h
  · rename_i rest
    simp only [Option.bind_eq_some_iff, Option.ite_none_right_eq_some, Option.some.injEq] at h
    obtain ⟨rest', hrest, hends, rfl⟩ := h
    obtain ⟨value, rfl, hvalue, -⟩ := afterName?_eq_some_iff.1 hrest
    exact ⟨text, _, rfl, hlen, hname, value, rest', rfl, hvalue,
      memberEnds_of_endsBareMember hends⟩
  · simp at h

/-! ### Numbers -/

/-- The digits at the start of a text. -/
private theorem isDigits_takeWhile {c : Char} {rest : List Char} (hc : c.isDigit = true) :
    IsDigits (c :: rest.takeWhile Char.isDigit) := by
  refine ⟨by simp, fun d hd => ?_⟩
  rcases List.mem_cons.1 hd with rfl | hd
  · exact hc
  · exact List.mem_takeWhile_imp hd

private theorem digitsEnd_of_takeWhile_eq_nil {cs : List Char}
    (h : cs.takeWhile Char.isDigit = []) :
    DigitsEnd cs := by
  have hdrop := cs.takeWhile_append_dropWhile (p := Char.isDigit)
  rw [h, List.nil_append] at hdrop
  exact hdrop ▸ ends_dropWhile cs

/-- A number is found exactly where digits stand, with the fraction that follows them if there is
one. -/
theorem numberTail?_eq_some_iff {cs : List Char} {n : Nat} :
    numberTail? cs = some n ↔
      ∃ text after, cs = text ++ after ∧ text.length = n + 1 ∧ IsNumber text after := by
  constructor
  · intro h
    cases cs with
    | nil => simp [numberTail?] at h
    | cons c rest =>
      simp only [numberTail?, Option.ite_none_right_eq_some, drop_length_takeWhile] at h
      obtain ⟨hc, h⟩ := h
      have hrest := rest.takeWhile_append_dropWhile (p := Char.isDigit)
      have hends := ends_dropWhile (p := Char.isDigit) rest
      split at h
      · rename_i more heq
        rw [heq] at hrest hends
        split_ifs at h with hzero
        · -- no digit behind the point, which is then no part of the number
          exact ⟨c :: rest.takeWhile Char.isDigit, '.' :: more, by simp [hrest],
            by simpa using h, .inr ⟨isDigits_takeWhile hc, hends, fun more' hmore =>
              (List.cons.inj hmore).2 ▸
                digitsEnd_of_takeWhile_eq_nil (List.length_eq_zero_iff.1 hzero)⟩⟩
        · refine ⟨c :: rest.takeWhile Char.isDigit ++ '.' :: more.takeWhile Char.isDigit,
            more.dropWhile Char.isDigit, by simp [hrest], ?_,
            .inl ⟨_, _, rfl, isDigits_takeWhile hc, ⟨?_, fun d hd => List.mem_takeWhile_imp hd⟩,
              ends_dropWhile more⟩⟩
          · simp only [Option.some.injEq] at h
            simp only [List.cons_append, List.length_cons, List.length_append]
            omega
          · exact fun hnil => hzero (List.length_eq_zero_iff.2 hnil)
      · rename_i hnot
        exact ⟨c :: rest.takeWhile Char.isDigit, rest.dropWhile Char.isDigit, by simp,
          by simpa using h, .inr ⟨isDigits_takeWhile hc, hends, fun more hmore =>
            absurd hmore (hnot more)⟩⟩
  · rintro ⟨text, after, rfl, hlen, ⟨whole, fraction, rfl, hwhole, hfraction, hends⟩ |
      ⟨hdigits, hends, hpoint⟩⟩
    · -- digits, a point and digits: both runs are as long as they can be
      cases whole with
      | nil => exact absurd rfl hwhole.1
      | cons c rest =>
        have hrest : ∀ d ∈ rest, d.isDigit = true := fun d hd => hwhole.2 d (by simp [hd])
        have hpoint : ∀ d ∈ ('.' :: (fraction ++ after)).head?, d.isDigit = false := by simp
        have hpos := List.length_pos_iff.2 hfraction.1
        simp only [List.length_append, List.length_cons] at hlen
        simp only [List.cons_append, List.append_assoc, numberTail?, hwhole.2 c (by simp), if_true,
          takeWhile_append_of_ends hrest hpoint, List.drop_left,
          takeWhile_append_of_ends hfraction.2 hends]
        rw [if_neg (by omega)]
        exact congrArg some (by omega)
    · -- digits only: a point behind them is followed by no digit
      cases text with
      | nil => exact absurd rfl hdigits.1
      | cons c rest =>
        have hrest : ∀ d ∈ rest, d.isDigit = true := fun d hd => hdigits.2 d (by simp [hd])
        simp only [List.length_cons, Nat.add_right_cancel_iff] at hlen
        subst hlen
        simp only [List.cons_append, numberTail?, hdigits.2 c (by simp), if_true,
          takeWhile_append_of_ends hrest hends, List.drop_left]
        split
        · rename_i more
          have hmore : ([] ++ more).takeWhile Char.isDigit = [] :=
            takeWhile_append_of_ends (by simp) (hpoint more rfl)
          rw [List.nil_append] at hmore
          simp [hmore]
        · rfl

/-! ### Quoted texts and templates -/

/-- A quoted text ends at the first quote that no backslash stands before. -/
private theorem quotedBody_of_quoteEnd? {cs : List Char} {n : Nat} (h : quoteEnd? cs = some n) :
    ∃ body after, cs = body ++ '"' :: after ∧ body.length + 1 = n ∧
      QuotedBody (· ≠ '\n') body := by
  fun_induction quoteEnd? cs generalizing n with
  | case1 rest =>
    simp only [Option.some.injEq] at h
    exact ⟨[], rest, rfl, h, .nil⟩
  | case2 => simp at h
  | case3 c rest hc ih =>
    obtain ⟨k, hk, rfl⟩ := Option.map_eq_some_iff.1 h
    obtain ⟨body, after, rfl, hlen, hbody⟩ := ih hk
    exact ⟨'\\' :: c :: body, after, rfl, by simp only [List.length_cons]; omega,
      .escape hc hbody⟩
  | case4 => simp at h
  | case5 c rest hquote hescape hlast ih =>
    obtain ⟨k, hk, rfl⟩ := Option.map_eq_some_iff.1 h
    obtain ⟨body, after, rfl, hlen, hbody⟩ := ih hk
    refine ⟨c :: body, after, rfl, by simp only [List.length_cons]; omega, .plain ?_ ?_ hbody⟩
    · exact hquote
    · rintro rfl
      cases hr : body ++ '"' :: after with
      | nil => simp at hr
      | cons d more => exact hescape d more rfl hr
  | case6 => simp at h

/-- A quoted text whose body is well-formed is found. -/
theorem quoteEnd?_append {body : List Char} (h : QuotedBody (· ≠ '\n') body)
    (after : List Char) : quoteEnd? (body ++ '"' :: after) = some (body.length + 1) := by
  induction h with
  | nil => rfl
  | escape hc _ ih => simp [quoteEnd?, hc, ih]
  | @plain c body hquote hescape _ ih =>
    rw [List.cons_append]
    unfold quoteEnd?
    split <;> simp_all

/-- A quoted text is found exactly where a quote, a body and a quote stand. -/
theorem stringTail?_eq_some_iff {cs : List Char} {n : Nat} :
    stringTail? cs = some n ↔
      ∃ body after, cs = '"' :: (body ++ '"' :: after) ∧ body.length + 1 = n ∧
        QuotedBody (· ≠ '\n') body := by
  constructor
  · intro h
    unfold stringTail? at h
    split at h
    · rename_i rest
      obtain ⟨body, after, rfl, hlen, hbody⟩ := quotedBody_of_quoteEnd? h
      exact ⟨body, after, rfl, hlen, hbody⟩
    · simp at h
  · rintro ⟨body, after, rfl, rfl, hbody⟩
    exact quoteEnd?_append hbody after

/-- A template is found exactly where two backquotes stand. -/
theorem templateTail?_eq_some_iff {cs : List Char} {n : Nat} :
    templateTail? cs = some n ↔
      ∃ body after, cs = '`' :: (body ++ '`' :: after) ∧ body.length + 1 = n ∧ '`' ∉ body := by
  constructor
  · intro h
    unfold templateTail? at h
    split at h
    · rename_i rest
      simp only [Option.ite_none_right_eq_some, Option.some.injEq] at h
      obtain ⟨hlt, rfl⟩ := h
      have hrest := rest.takeWhile_append_dropWhile (p := (· != '`'))
      cases hdrop : rest.dropWhile (· != '`') with
      | nil =>
        rw [hdrop, List.append_nil] at hrest
        rw [hrest] at hlt
        exact absurd hlt (Nat.lt_irrefl _)
      | cons c after =>
        have hc := ends_dropWhile (p := (· != '`')) rest c (by rw [hdrop]; rfl)
        obtain rfl : c = '`' := by simpa using hc
        rw [hdrop] at hrest
        refine ⟨rest.takeWhile (· != '`'), after, by rw [hrest], rfl, fun hmem => ?_⟩
        simpa using List.mem_takeWhile_imp hmem
    · simp at h
  · rintro ⟨body, after, rfl, rfl, hbody⟩
    have htake : (body ++ '`' :: after).takeWhile (· != '`') = body :=
      takeWhile_append_of_ends (fun c hc => by simpa using ne_of_mem_of_not_mem hc hbody) (by simp)
    simp [templateTail?, htake]

/-! ### Tokens at a place -/

private theorem touches_of_openerTail? {opener : Char} {before cs : List Char} {n : Nat}
    (h : openerTail? opener before cs = some n) :
    ∃ after, cs = opener :: after ∧ n = 0 ∧ Touches before := by
  simp only [openerTail?, Bool.and_eq_true, decide_eq_true_eq, Option.ite_none_right_eq_some,
    Option.some.injEq, Option.any_eq_true] at h
  obtain ⟨⟨hcs, c, hc, hends⟩, rfl⟩ := h
  cases cs with
  | nil => simp at hcs
  | cons d after =>
    obtain rfl : d = opener := by simpa using hcs
    exact ⟨after, rfl, rfl, c, hc, hends⟩

/-- The words of the language are names that are told apart by their text. -/
def Terminal.isWord : Terminal → Bool
  | .yes | .no | .underscore => true
  | _ => false

theorem Terminal.tail?_of_sign {t : Terminal} (h : t.sign ≠ []) (before cs : List Char) :
    t.tail? before cs = if t.sign.isPrefixOf cs then some (t.sign.length - 1) else none := by
  cases t <;> first | rfl | exact absurd rfl h

theorem Terminal.matches_of_sign {t : Terminal} (h : t.sign ≠ []) (before after : List Char) :
    t.Matches before t.sign after := by
  cases t <;> first | rfl | exact absurd rfl h

/-- What is found as a token of a class matches it. -/
theorem Terminal.matches_of_tail? {t : Terminal} {before cs : List Char} {n : Nat}
    (hword : t.isWord = false) (h : t.tail? before cs = some n) :
    ∃ text after, cs = text ++ after ∧ text.length = n + 1 ∧ t.Matches before text after := by
  by_cases hsign : t.sign = []
  · cases t with
    | objectKey => exact matches_of_objectKeyTail? h
    | spaceRef =>
      obtain ⟨space, member, after, hcs, hlen, hspace, hmember, hends⟩ :=
        spaceRefTail?_eq_some_iff.1 h
      refine ⟨space ++ ':' :: member, after, by simp [hcs], ?_,
        ⟨space, member, rfl, hspace, hmember⟩, hends⟩
      simp only [List.length_append, List.length_cons]
      omega
    | callOpen | indexOpen | memberDot =>
      obtain ⟨after, hcs, rfl, htouch⟩ := touches_of_openerTail? h
      exact ⟨_, after, hcs, rfl, rfl, htouch⟩
    | name => exact nameTail?_eq_some_iff.1 h
    | number => exact numberTail?_eq_some_iff.1 h
    | string =>
      obtain ⟨body, after, hcs, hlen, hbody⟩ := stringTail?_eq_some_iff.1 h
      exact ⟨'"' :: (body ++ ['"']), after, by simp [hcs], by simp [← hlen], body, rfl, hbody⟩
    | template =>
      obtain ⟨body, after, hcs, hlen, hbody⟩ := templateTail?_eq_some_iff.1 h
      exact ⟨'`' :: (body ++ ['`']), after, by simp [hcs], by simp [← hlen], body, rfl, hbody⟩
    | yes | no | underscore => cases hword
    | endOfText => cases h
    | _ => exact absurd hsign (by decide)
  · rw [tail?_of_sign hsign] at h
    simp only [List.isPrefixOf_iff_prefix, Option.ite_none_right_eq_some, Option.some.injEq] at h
    obtain ⟨⟨after, rfl⟩, rfl⟩ := h
    have hpos := List.length_pos_iff.2 hsign
    exact ⟨t.sign, after, rfl, by omega, matches_of_sign hsign before after⟩

/-- A name that is told to be a word is that word. -/
theorem Expect.matches_classify {expect : Expect} {t : Terminal} {before text after : List Char}
    (h : t.Matches before text after) : (expect.classify t text).Matches before text after := by
  unfold Expect.classify
  split_ifs with hname hyes hno hunderscore
  · subst hname
    exact ⟨by simp_all, h.2⟩
  · subst hname
    exact ⟨by simp_all, h.2⟩
  · subst hname
    exact ⟨by simp_all, h.2⟩
  · exact h
  · exact h

/-- **A token that is found at a place matches its class there**, and it stands at the place. -/
theorem Cursor.matches_of_lexeme? {c : Cursor} {expect : Expect} {l : Lexeme}
    (h : c.lexeme? expect = some l) :
    ∃ after, c.after = l.text ++ after ∧ l.terminal.Matches c.before l.text after := by
  obtain ⟨t, ht, hl⟩ := List.exists_of_findSome?_eq_some h
  obtain ⟨n, hn, rfl⟩ := Option.map_eq_some_iff.1 hl
  have hword : ∀ t ∈ Terminal.order, t.isWord = false := by decide
  obtain ⟨text, after, hafter, hlen, hmatches⟩ :=
    Terminal.matches_of_tail? (hword t (List.mem_filter.1 ht).1) hn
  have htake : c.after.take (n + 1) = text := by rw [hafter, ← hlen, List.take_left]
  simp only [htake]
  exact ⟨after, hafter, Expect.matches_classify hmatches⟩

/-! ### Layout at a place -/

/-- A block comment ends at the first `*/`. -/
private theorem append_of_blockEnd? {cs : List Char} {n : Nat} (h : Cursor.blockEnd? cs = some n) :
    ∃ body after, cs = body ++ '*' :: '/' :: after ∧ body.length + 2 = n ∧
      ¬ ['*', '/'] <:+: body ++ ['*'] := by
  fun_induction Cursor.blockEnd? cs generalizing n with
  | case1 after =>
    simp only [Option.some.injEq] at h
    exact ⟨[], after, rfl, h, by decide⟩
  | case2 c rest hnot ih =>
    obtain ⟨k, hk, rfl⟩ := Option.map_eq_some_iff.1 h
    obtain ⟨body, after, rfl, hlen, hbody⟩ := ih hk
    refine ⟨c :: body, after, rfl, by simp only [List.length_cons]; omega, ?_⟩
    rw [List.cons_append, List.infix_cons_iff]
    rintro (⟨more, hmore⟩ | hinfix)
    · -- the sign would have ended the comment here already
      simp only [List.cons_append, List.nil_append, List.cons.injEq] at hmore
      obtain ⟨rfl, hmore⟩ := hmore
      cases body with
      | nil => simp at hmore
      | cons d body =>
        simp only [List.cons_append, List.cons.injEq] at hmore
        obtain ⟨rfl, -⟩ := hmore
        exact hnot _ rfl rfl
    · exact hbody hinfix
  | case3 => simp at h

/-- One piece of layout in front of layout. -/
private theorem Layout.of_layoutTail? {first : Char} {rest gap after : List Char} {n : Nat}
    (h : Cursor.layoutTail? first rest = some n) (hrest : rest.drop n = gap ++ after)
    (hgap : Layout gap after) : Layout (first :: (rest.take n ++ gap)) after := by
  unfold Cursor.layoutTail? at h
  split_ifs at h with hblank hslash
  · obtain rfl : 0 = n := by simpa using h
    exact .blank hblank hgap
  · subst hslash
    split at h
    · rename_i more
      obtain rfl : (more.takeWhile (· != '\n')).length + 1 = n := by simpa using h
      rw [List.drop_succ_cons, drop_length_takeWhile] at hrest
      have htake : more.take (more.takeWhile (· != '\n')).length = more.takeWhile (· != '\n') :=
        List.prefix_iff_eq_take.1 (more.takeWhile_prefix _) |>.symm
      rw [List.take_succ_cons, htake]
      refine .lineComment (fun hmem => ?_) (fun c hc => ?_) hgap
      · simpa using List.mem_takeWhile_imp hmem
      · rw [← hrest] at hc
        simpa using ends_dropWhile (p := (· != '\n')) more c hc
    · rename_i more
      obtain ⟨k, hk, rfl⟩ := Option.map_eq_some_iff.1 h
      obtain ⟨body, tail, rfl, rfl, hbody⟩ := append_of_blockEnd? hk
      have htake : (body ++ '*' :: '/' :: tail).take (body.length + 2) = body ++ ['*', '/'] := by
        simp [List.take_append, List.take_of_length_le]
      rw [List.take_succ_cons, htake]
      simpa using Layout.blockComment hbody hgap
    · simp at h

/-- **What is skipped between two tokens is layout.** -/
theorem Cursor.layout_skipLayout (c : Cursor) :
    ∃ gap, c.after = gap ++ c.skipLayout.after ∧
      c.skipLayout.before = gap.reverse ++ c.before ∧ Layout gap c.skipLayout.after := by
  fun_induction skipLayout c with
  | case1 c h => exact ⟨[], rfl, rfl, .nil⟩
  | case2 c first rest h n hn ih =>
    obtain ⟨gap, hafter, hbefore, hlayout⟩ := ih
    simp only [after_advance, before_advance, h, List.drop_succ_cons, List.take_succ_cons]
      at hafter hbefore
    refine ⟨first :: (rest.take n ++ gap), ?_, by simp [hbefore], .of_layoutTail? hn hafter hlayout⟩
    rw [h, List.cons_append, List.append_assoc, ← hafter, List.take_append_drop]
  | case3 c first rest h hnone => exact ⟨[], rfl, rfl, .nil⟩

end Sigil
