import Sigil.Proofs.Grammar.Token
import Sigil.Proofs.Walk

/-!
# Words

A word is a token with a blank after it. Where it stands apart from what is before it, the reader
finds just this token, whatever else it looks for there: no sign, name, number, quoted text or
template reaches beyond its blank, and no opener touches an operand. The exception is a closing
parenthesis with an opener right behind it, which makes one word of two tokens.
-/

namespace Sigil

open Lexeme

/-! ### The first class that matches -/

private theorem findSome?_filter_of_first {α β : Type} [DecidableEq α] {p : α → Bool}
    {f : α → Option β} {xs : List α} {x : α} {y : β} (hx : x ∈ xs) (hp : p x = true)
    (hf : f x = some y) (hfirst : ∀ z ∈ xs.takeWhile (· != x), p z = true → f z = none) :
    (xs.filter p).findSome? f = some y := by
  induction xs with
  | nil => cases hx
  | cons z xs ih =>
    by_cases hz : z = x
    · subst hz
      simp [hp, hf]
    · have htake : (z :: xs).takeWhile (· != x) = z :: xs.takeWhile (· != x) := by simp [hz]
      rw [htake] at hfirst
      have htail : (xs.filter p).findSome? f = some y :=
        ih ((List.mem_cons.1 hx).resolve_left (Ne.symm hz)) fun w hw =>
          hfirst w (List.mem_cons_of_mem z hw)
      by_cases hpz : p z = true
      · have hfz : f z = none := hfirst z List.mem_cons_self hpz
        simp [hpz, hfz, htail]
      · simp [hpz, htail]

/-- A class is found at a place if no expected class before it is. -/
private theorem Cursor.lexeme?_eq_some {c : Cursor} {expect : Expect} {t : Terminal} {n : Nat}
    (hmem : t ∈ Terminal.order) (hadmits : expect.admits t = true)
    (htail : t.tail? c.before c.after = some n)
    (hfirst : ∀ u ∈ Terminal.order.takeWhile (· != t), expect.admits u = true →
      u.tail? c.before c.after = none) :
    c.lexeme? expect =
      some ⟨expect.classify t (c.after.take (n + 1)), c.after.take (n + 1)⟩ :=
  findSome?_filter_of_first hmem hadmits (by rw [htail]; rfl) fun u hu hadm => by
    rw [hfirst u hu hadm]
    rfl

/-- A token, found by the number of its characters. -/
private theorem tokenAt_of_tail? {readExpr : ExprReader} {expect : Expect} {t : Terminal}
    {leaf : Node} {before x xs rest : List Char} {c : Char} (hx : x = c :: xs)
    (hlayout : Cursor.layoutTail? c (xs ++ rest) = none) (hmem : t ∈ Terminal.order)
    (hadmits : expect.admits t = true) (htail : t.tail? before (x ++ rest) = some (x.length - 1))
    (hfirst : ∀ u ∈ Terminal.order.takeWhile (· != t), expect.admits u = true →
      u.tail? before (x ++ rest) = none)
    (hleaf : leafNode readExpr ⟨expect.classify t x, x⟩ = .ok leaf) :
    TokenAt readExpr expect before ⟨expect.classify t x, x⟩ rest leaf where
  place := by
    simp only [hx, List.cons_append]
    exact Cursor.skipLayout_of_none hlayout
  ne_nil := by simp [hx]
  found := by
    have hpos : x.length - 1 + 1 = x.length := by simp [hx]
    rw [Cursor.lexeme?_eq_some (c := ⟨before, x ++ rest⟩) hmem hadmits htail hfirst]
    simp only [hpos, List.take_left]
  leafNode_eq := hleaf

/-! ### What does not start at a character -/

section First

variable {before rest : List Char} {c : Char}

private theorem nameTail?_eq_none (h : isNameStart c = false) (rest : List Char) :
    nameTail? (c :: rest) = none := by
  simp [nameTail?, h]

private theorem openerTail?_eq_none {opener : Char} (h : Apart before) (cs : List Char) :
    openerTail? opener before cs = none := by
  cases before with
  | nil => simp [openerTail?]
  | cons b before =>
    obtain rfl : b = ' ' := h b rfl
    simp [openerTail?, show endsOperand ' ' = false by decide]

/-- No class of names and namespace members starts at such a character, and no opener where it
stands apart. -/
private theorem tail?_eq_none_of_apart (happart : Apart before) (hc : isNameStart c = false)
    {u : Terminal} (hu : u ∈ [.objectKey, .spaceRef, .callOpen, .indexOpen, .memberDot, .name]) :
    u.tail? before (c :: rest) = none := by
  have hname := nameTail?_eq_none hc rest
  simp only [List.mem_cons, List.not_mem_nil, or_false] at hu
  rcases hu with rfl | rfl | rfl | rfl | rfl | rfl
  · simp [Terminal.tail?, objectKeyTail?, hname]
  · simp [Terminal.tail?, spaceRefTail?, hname]
  · exact openerTail?_eq_none happart _
  · exact openerTail?_eq_none happart _
  · exact openerTail?_eq_none happart _
  · exact hname

end First

/-! ### Signs -/

/-- A sign starts with a character that starts no other kind of token, and no layout. -/
private theorem Terminal.sign_eq_cons {t : Terminal} (h : t.sign ≠ []) :
    ∃ c cs, t.sign = c :: cs ∧ isNameStart c = false ∧ c.isDigit = false ∧ c ≠ '"' ∧ c ≠ '`' ∧
      ∀ rest, Cursor.layoutTail? c (cs ++ ' ' :: rest) = none := by
  cases t <;> first
    | exact absurd rfl h
    | exact ⟨_, _, rfl, by decide, by decide, by decide, by decide, fun _ => rfl⟩

/-- No sign holds a blank. -/
private theorem Terminal.blank_notMem_sign (t : Terminal) : ' ' ∉ t.sign := by
  cases t <;> decide

/-- Of two signs, the one that starts the other comes later in the order. -/
private theorem Terminal.isPrefixOf_sign_of_before {t u : Terminal} (ht : t.sign ≠ [])
    (hu : u ∈ Terminal.order.takeWhile (· != t)) (hsign : u.sign ≠ []) :
    u.sign.isPrefixOf t.sign = false := by
  have : ∀ u ∈ Terminal.order.takeWhile (· != t), u.sign ≠ [] →
      u.sign.isPrefixOf t.sign = false := by
    cases t <;> first | exact absurd rfl ht | decide
  exact this u hu hsign

private theorem isPrefixOf_append_blank {xs : List Char} (h : ' ' ∉ xs) (ys rest : List Char) :
    xs.isPrefixOf (ys ++ ' ' :: rest) = xs.isPrefixOf ys := by
  induction xs generalizing ys with
  | nil => simp
  | cons x xs ih =>
    have hx : (x == ' ') = false := by
      rw [beq_eq_false_iff_ne]
      rintro rfl
      exact h List.mem_cons_self
    cases ys with
    | nil => simp [List.isPrefixOf, hx]
    | cons y ys => simp [List.isPrefixOf, ih fun hmem => h (List.mem_cons_of_mem x hmem)]

/-- The classes of tokens that have no fixed spelling. -/
private theorem Terminal.mem_of_sign_eq_nil {u : Terminal} (hu : u ∈ Terminal.order)
    (h : u.sign = []) :
    u ∈ [.objectKey, .spaceRef, .callOpen, .indexOpen, .memberDot, .name] ∨
      u ∈ [.number, .string, .template] := by
  revert u
  decide

/-- At a sign that stands apart no class is found that comes before it in the order. -/
private theorem Terminal.tail?_sign_eq_none {t u : Terminal} {before : List Char}
    (hbefore : Apart before) (ht : t.sign ≠ []) (hu : u ∈ Terminal.order.takeWhile (· != t))
    (rest : List Char) :
    u.tail? before (t.sign ++ ' ' :: rest) = none := by
  by_cases hsign : u.sign = []
  · obtain ⟨c, cs, hcs, hname, hdigit, hquote, hback, -⟩ := t.sign_eq_cons ht
    rw [hcs, List.cons_append]
    rcases mem_of_sign_eq_nil (List.takeWhile_subset _ hu) hsign with hu | hu
    · exact tail?_eq_none_of_apart hbefore hname hu
    · simp only [List.mem_cons, List.not_mem_nil, or_false] at hu
      rcases hu with rfl | rfl | rfl
      · simp [tail?, numberTail?, hdigit]
      · simp [tail?, stringTail?, hquote]
      · simp [tail?, templateTail?, hback]
  · rw [tail?_of_sign hsign, isPrefixOf_append_blank u.blank_notMem_sign,
      isPrefixOf_sign_of_before ht hu hsign]
    rfl

private theorem leafNode_sign (readExpr : ExprReader) {t : Terminal} (ht : t.sign ≠ []) :
    ∃ leaf, leafNode readExpr ⟨t, t.sign⟩ = .ok leaf := by
  cases t <;> first | exact absurd rfl ht | exact ⟨_, rfl⟩

private theorem Terminal.mem_order_of_sign {t : Terminal} (ht : t.sign ≠ []) :
    t ∈ Terminal.order := by
  cases t <;> first | exact absurd rfl ht | decide

/-- A sign is found where it stands apart. -/
private theorem tokenAt_sign {readExpr : ExprReader} {expect : Expect} {t : Terminal} {leaf : Node}
    {before : List Char} (ht : t.sign ≠ []) (hadmits : expect.admits t = true)
    (hleaf : leafNode readExpr ⟨t, t.sign⟩ = .ok leaf) (hbefore : Apart before)
    (rest : List Char) : TokenAt readExpr expect before ⟨t, t.sign⟩ (' ' :: rest) leaf := by
  obtain ⟨c, cs, hcs, -, -, -, -, hlayout⟩ := t.sign_eq_cons ht
  have htail : t.tail? before (t.sign ++ ' ' :: rest) = some (t.sign.length - 1) := by
    rw [Terminal.tail?_of_sign ht, isPrefixOf_append_blank t.blank_notMem_sign]
    simp
  have hclass : expect.classify t t.sign = t := by
    have hname : t ≠ .name := by
      rintro rfl
      exact ht rfl
    simp [Expect.classify, hname]
  have := tokenAt_of_tail? hcs (hlayout rest) (Terminal.mem_order_of_sign ht) hadmits htail
    (fun u hu _ => Terminal.tail?_sign_eq_none hbefore ht hu rest) (by rwa [hclass])
  rwa [hclass] at this

/-- The word of a sign. -/
def Terminal.word (t : Terminal) : List Char :=
  t.sign ++ [' ']

/-- **The reader walks over the word of a sign.** -/
theorem Walks.sign {readExpr : ExprReader} {r r' : Reading} (t : Terminal) (ht : t.sign ≠ [])
    (hadmits : r.point.expect.admits t = true)
    (hstep : ∀ leaf, r.step ⟨t, String.ofList t.sign, leaf⟩ = some r') :
    Walks readExpr r t.word r' := by
  obtain ⟨leaf, hleaf⟩ := leafNode_sign readExpr ht
  exact .of_tokenAt (fun before rest hbefore => tokenAt_sign ht hadmits hleaf hbefore rest)
    (hstep leaf)

/-- A sign that cannot follow is an error. -/
theorem Reading.read_sign_error {readExpr : ExprReader} {r : Reading} (t : Terminal)
    (ht : t.sign ≠ []) (hadmits : r.point.expect.admits t = true)
    (hstep : ∀ leaf, r.step ⟨t, String.ofList t.sign, leaf⟩ = none) {before : List Char}
    (hbefore : Apart before) (rest : List Char) (last : Cursor) :
    ∃ e, r.read readExpr ⟨before, t.sign ++ ' ' :: rest⟩ last none = .error e := by
  obtain ⟨leaf, hleaf⟩ := leafNode_sign readExpr ht
  have htoken := tokenAt_sign ht hadmits hleaf hbefore rest
  have hne : (Cursor.skipLayout ⟨before, t.sign ++ ' ' :: rest⟩).after ≠ [] := by
    rw [htoken.place]
    simp
  exact ⟨_, Reading.read_of_step_eq_none hne (by rw [htoken.place]; exact htoken.found) hstep⟩

/-! ### Names -/

/-- A name that can be used everywhere: it is none of the words of the language. -/
def IsVarName (s : String) : Prop :=
  IsName s.toList ∧ s ≠ "yes" ∧ s ≠ "no" ∧ s ≠ "_"

instance decidableIsVarName : DecidablePred IsVarName := fun s =>
  inferInstanceAs (Decidable (IsName s.toList ∧ s ≠ "yes" ∧ s ≠ "no" ∧ s ≠ "_"))

/-- The names that can be used everywhere. -/
abbrev VarName := { s : String // IsVarName s }

/-- Layout starts with a blank character or a slash. -/
theorem layoutTail?_eq_none {c : Char} (hc : c ∉ [' ', '\t', '\n', '\x0c', '\r', '/'])
    (rest : List Char) : Cursor.layoutTail? c rest = none := by
  simp only [List.mem_cons, List.not_mem_nil, or_false, not_or] at hc
  simp [Cursor.layoutTail?, Text.isLayout, hc]

private theorem layoutTail?_of_isNameStart {c : Char} (hc : isNameStart c = true)
    (rest : List Char) :
    Cursor.layoutTail? c rest = none := by
  have hstart : ∀ c ∈ [' ', '\t', '\n', '\x0c', '\r', '/'], isNameStart c = false := by decide
  exact layoutTail?_eq_none (fun hmem => by simp [hstart c hmem] at hc) rest

section Names

variable {x before rest : List Char}

/-- What follows ends the name or the number before it, and does not make it part of a longer
token. -/
def Delimits (rest : List Char) : Prop :=
  ∀ c ∈ rest.head?, isNameChar c = false ∧ c ≠ ':' ∧ c ≠ '.'

theorem Delimits.nil : Delimits [] :=
  nofun

theorem Delimits.of_mem {c : Char} (hc : c ∈ [' ', ')', ',']) (rest : List Char) :
    Delimits (c :: rest) := by
  have hall : ∀ c ∈ [' ', ')', ','], isNameChar c = false ∧ c ≠ ':' ∧ c ≠ '.' := by decide
  intro d hd
  cases hd
  exact hall c hc

theorem Delimits.blank (rest : List Char) : Delimits (' ' :: rest) :=
  .of_mem (by decide) rest

theorem Delimits.nameEnds (h : Delimits rest) : NameEnds rest :=
  fun c hc => (h c hc).1

private theorem nameTail?_append (hx : IsName x) (hends : NameEnds rest) :
    nameTail? (x ++ rest) = some (x.length - 1) := by
  have hpos := List.length_pos_iff.2 hx.ne_nil
  exact nameTail?_eq_some_iff.2 ⟨x, _, rfl, by omega, hx, hends⟩

/-- No opener stands where a name starts. -/
private theorem openerTail?_name (hx : IsName x) {opener : Char}
    (hopener : isNameStart opener = false) (before rest : List Char) :
    openerTail? opener before (x ++ rest) = none := by
  cases x with
  | nil => exact hx.elim
  | cons c cs =>
    have hc : c ≠ opener := by
      rintro rfl
      simp [hx.1] at hopener
    simp [openerTail?, hc]

/-- At a name that what follows delimits there is no object key, no namespace member and no
opener. -/
private theorem tail?_name_eq_none (hx : IsName x) (hrest : Delimits rest) {u : Terminal}
    (hu : u ∈ Terminal.order.takeWhile (· != .name)) (before : List Char) :
    u.tail? before (x ++ rest) = none := by
  have hpos := List.length_pos_iff.2 hx.ne_nil
  have htail := nameTail?_append hx hrest.nameEnds
  have hcolon : ∀ more, rest ≠ ':' :: more := by
    rintro more rfl
    exact (hrest ':' rfl).2.1 rfl
  have horder : Terminal.order.takeWhile (· != .name) =
      [.objectKey, .spaceRef, .callOpen, .indexOpen, .memberDot] := by decide
  simp only [horder, List.mem_cons, List.not_mem_nil, or_false] at hu
  rcases hu with rfl | rfl | rfl | rfl | rfl
  · simp [Terminal.tail?, objectKeyTail?, htail, Nat.sub_add_cancel hpos]
  · simp [Terminal.tail?, spaceRefTail?, htail, Nat.sub_add_cancel hpos]
  · exact openerTail?_name hx (by decide) _ _
  · exact openerTail?_name hx (by decide) _ _
  · exact openerTail?_name hx (by decide) _ _

/-- A name is found where what follows delimits it, as the word of the language that it may be. -/
private theorem tokenAt_name {readExpr : ExprReader} {expect : Expect} {leaf : Node} (hx : IsName x)
    (hadmits : expect.admits .name = true)
    (hleaf : leafNode readExpr ⟨expect.classify .name x, x⟩ = .ok leaf) (hrest : Delimits rest)
    (before : List Char) :
    TokenAt readExpr expect before ⟨expect.classify .name x, x⟩ rest leaf := by
  cases x with
  | nil => exact hx.elim
  | cons c cs =>
    exact tokenAt_of_tail? rfl (layoutTail?_of_isNameStart hx.1 _) (by decide) hadmits
      (nameTail?_append hx hrest.nameEnds) (fun u hu _ => tail?_name_eq_none hx hrest hu before)
      hleaf

end Names

/-- The reader walks over a name, or over the word of the language that it is here. -/
theorem Walks.classified {readExpr : ExprReader} {r r' : Reading} {t : Terminal} {x : List Char}
    {leaf : Node} (hx : IsName x) (hadmits : r.point.expect.admits .name = true)
    (hclass : r.point.expect.classify .name x = t) (hleaf : leafNode readExpr ⟨t, x⟩ = .ok leaf)
    (hstep : r.step ⟨t, String.ofList x, leaf⟩ = some r') : Walks readExpr r (x ++ [' ']) r' := by
  subst hclass
  exact .of_tokenAt (fun before rest _ => tokenAt_name hx hadmits hleaf (.blank rest) before) hstep

private theorem IsVarName.classify {s : String} (h : IsVarName s) (expect : Expect) :
    expect.classify .name s.toList = .name := by
  have hyes : s.toList ≠ ['y', 'e', 's'] := fun heq => h.2.1 (String.toList_inj.1 heq)
  have hno : s.toList ≠ ['n', 'o'] := fun heq => h.2.2.1 (String.toList_inj.1 heq)
  have hunderscore : s.toList ≠ ['_'] := fun heq => h.2.2.2 (String.toList_inj.1 heq)
  simp [Expect.classify, hyes, hno, hunderscore]

/-- The word of a name. -/
def nameWord (s : String) : List Char :=
  s.toList ++ [' ']

/-- **The reader walks over a name.** -/
theorem Walks.name {readExpr : ExprReader} {r r' : Reading} {s : String} (hs : IsVarName s)
    (hadmits : r.point.expect.admits .name = true)
    (hstep : r.step ⟨.name, s, .ident s⟩ = some r') : Walks readExpr r (nameWord s) r' := by
  have hleaf : leafNode readExpr ⟨.name, s.toList⟩ = .ok (.ident s) := by simp [leafNode]
  exact .classified hs.1 hadmits (hs.classify _) hleaf (by simpa using hstep)

/-- The reader passes over a name that what follows delimits, or over the word of the language that
it is here. -/
theorem Passes.classified {readExpr : ExprReader} {r r' : Reading} {t : Terminal}
    {x before after : List Char} {leaf : Node} (hx : IsName x)
    (hadmits : r.point.expect.admits .name = true)
    (hclass : r.point.expect.classify .name x = t) (hleaf : leafNode readExpr ⟨t, x⟩ = .ok leaf)
    (hstep : r.step ⟨t, String.ofList x, leaf⟩ = some r') (hafter : Delimits after) :
    Passes readExpr r before x after r' := by
  subst hclass
  exact .token (tokenAt_name hx hadmits hleaf hafter before) hstep

/-- The reader passes over a name that what follows delimits. -/
theorem Passes.name {readExpr : ExprReader} {r r' : Reading} {s : String} {before after : List Char}
    (hs : IsVarName s) (hadmits : r.point.expect.admits .name = true)
    (hstep : r.step ⟨.name, s, .ident s⟩ = some r') (hafter : Delimits after) :
    Passes readExpr r before s.toList after r' := by
  have hleaf : leafNode readExpr ⟨.name, s.toList⟩ = .ok (.ident s) := by simp [leafNode]
  exact .classified hs.1 hadmits (hs.classify _) hleaf (by simpa using hstep) hafter

/-! ### Tokens that are expressions by themselves -/

/-- A number without sign and exponent. -/
def IsNumeral (x : List Char) : Prop :=
  (∃ whole fraction, x = whole ++ '.' :: fraction ∧ IsDigits whole ∧ IsDigits fraction) ∨ IsDigits x

section Atoms

variable {readExpr : ExprReader} {x body rest : List Char}

/-- The reader walks over a token that is an expression by itself. -/
theorem Walks.atom {l : Lexeme} {leaf : Node} (p : List Pending)
    (h : ∀ before rest, Apart before →
      TokenAt readExpr (.expression []) before l (' ' :: rest) leaf)
    (hatom : l.terminal.isAtom = true) :
    Walks readExpr ⟨.expressionStart, p⟩ (l.text ++ [' ']) ⟨.operand leaf, p⟩ := by
  refine .of_tokenAt h ?_
  simp [Reading.step, Reading.beginExpression, hatom]

/-- A digit starts no name. -/
private theorem isNameStart_of_isDigit {c : Char} (hc : c.isDigit = true) :
    isNameStart c = false := by
  have hdigit : 48 ≤ c.toNat ∧ c.toNat ≤ 57 := by
    obtain ⟨hge, hle⟩ := Bool.and_eq_true_iff.1 hc
    exact ⟨of_decide_eq_true hge, of_decide_eq_true hle⟩
  rw [Bool.eq_false_iff]
  intro hstart
  rcases Bool.or_eq_true_iff.1 hstart with hletter | hunderscore
  · rcases Bool.or_eq_true_iff.1 hletter with hupper | hlower
    · have hge : 65 ≤ c.toNat := (of_decide_eq_true hupper).1
      omega
    · have hge : 97 ≤ c.toNat := of_decide_eq_true (Bool.and_eq_true_iff.1 hlower).1
      omega
  · obtain rfl := beq_iff_eq.1 hunderscore
    exact absurd hdigit (by decide)

private theorem layoutTail?_of_isDigit {c : Char} (hc : c.isDigit = true) (rest : List Char) :
    Cursor.layoutTail? c rest = none := by
  have hstart : ∀ c ∈ [' ', '\t', '\n', '\x0c', '\r', '/'], c.isDigit = false := by decide
  exact layoutTail?_eq_none (fun hmem => by simp [hstart c hmem] at hc) rest

theorem Delimits.digitsEnd (h : Delimits rest) : DigitsEnd rest := by
  intro c hc
  have hname := (h c hc).1
  simp only [isNameChar, Char.isAlphanum, Bool.or_eq_false_iff] at hname
  exact hname.1.2

private theorem IsNumeral.isNumber (hx : IsNumeral x) (hrest : Delimits rest) :
    IsNumber x rest := by
  rcases hx with ⟨whole, fraction, rfl, hwhole, hfraction⟩ | hx
  · exact .inl ⟨whole, fraction, rfl, hwhole, hfraction, hrest.digitsEnd⟩
  · refine .inr ⟨hx, hrest.digitsEnd, ?_⟩
    rintro more rfl
    exact absurd rfl (hrest '.' rfl).2.2

private theorem IsNumeral.eq_cons (hx : IsNumeral x) : ∃ c cs, x = c :: cs ∧ c.isDigit = true := by
  have hdigits : ∀ {y}, IsDigits y → ∃ c cs, y = c :: cs ∧ c.isDigit = true := by
    rintro (_ | ⟨c, cs⟩) ⟨hne, hall⟩
    · exact absurd rfl hne
    · exact ⟨c, cs, rfl, hall c List.mem_cons_self⟩
  rcases hx with ⟨whole, fraction, rfl, hwhole, -⟩ | hx
  · obtain ⟨c, cs, rfl, hc⟩ := hdigits hwhole
    exact ⟨c, cs ++ '.' :: fraction, rfl, hc⟩
  · exact hdigits hx

/-- The classes before numbers in the order. -/
private theorem takeWhile_order_number : Terminal.order.takeWhile (· != .number) =
    [.objectKey, .spaceRef, .callOpen, .indexOpen, .memberDot, .name] := by
  decide

/-- A number is found where an expression starts and what follows delimits it. -/
private theorem tokenAt_number (hx : IsNumeral x) (hrest : Delimits rest) (before : List Char) :
    TokenAt readExpr (.expression []) before ⟨.number, x⟩ rest (.number (numberToken x)) := by
  obtain ⟨c, cs, rfl, hc⟩ := hx.eq_cons
  have htail : numberTail? (c :: cs ++ rest) = some ((c :: cs).length - 1) :=
    numberTail?_eq_some_iff.2 ⟨c :: cs, rest, rfl, rfl, hx.isNumber hrest⟩
  refine tokenAt_of_tail? (t := .number) rfl (layoutTail?_of_isDigit hc _) (by decide) rfl htail
    (fun u hu hadmits => ?_) rfl
  have hname := nameTail?_eq_none (isNameStart_of_isDigit hc) (cs ++ rest)
  rw [takeWhile_order_number] at hu
  simp only [List.mem_cons, List.not_mem_nil, or_false] at hu
  -- no opener is looked for where an expression starts
  rcases hu with rfl | rfl | rfl | rfl | rfl | rfl <;> try cases hadmits
  · simp [Terminal.tail?, spaceRefTail?, hname]
  · exact hname

/-- The reader walks over a number. -/
theorem Walks.number (hx : IsNumeral x) (p : List Pending) :
    Walks readExpr ⟨.expressionStart, p⟩ (x ++ [' ']) ⟨.operand (.number (numberToken x)), p⟩ :=
  Walks.atom (l := ⟨.number, x⟩) p (fun before rest _ => tokenAt_number hx (.blank rest) before) rfl

/-- The reader passes over a number that what follows delimits. -/
theorem Passes.number {before : List Char} (hx : IsNumeral x) (p : List Pending)
    (hrest : Delimits rest) :
    Passes readExpr ⟨.expressionStart, p⟩ before x rest ⟨.operand (.number (numberToken x)), p⟩ :=
  .token (l := ⟨.number, x⟩) (tokenAt_number hx hrest before) rfl

/-- The reader walks over a quoted text. -/
theorem Walks.string (hbody : QuotedBody (· ≠ '\n') body) (p : List Pending) :
    Walks readExpr ⟨.expressionStart, p⟩ ('"' :: (body ++ ['"']) ++ [' '])
      ⟨.operand (.text (String.ofList (unescape body))), p⟩ := by
  refine Walks.atom (l := ⟨.string, '"' :: (body ++ ['"'])⟩) p (fun before rest hbefore => ?_) rfl
  have htail : stringTail? ('"' :: (body ++ ['"']) ++ ' ' :: rest) =
      some (('"' :: (body ++ ['"'])).length - 1) :=
    stringTail?_eq_some_iff.2 ⟨body, ' ' :: rest, by simp, by simp, hbody⟩
  have hleaf : leafNode readExpr ⟨.string, '"' :: (body ++ ['"'])⟩ =
      .ok (.text (String.ofList (unescape body))) := by
    simp [leafNode, inner]
  refine tokenAt_of_tail? (t := .string) rfl rfl (by decide) rfl htail (fun u hu _ => ?_) hleaf
  have horder : Terminal.order.takeWhile (· != .string) =
      Terminal.order.takeWhile (· != .number) ++ [.number] := by decide
  rw [horder, takeWhile_order_number] at hu
  rcases List.mem_append.1 hu with hu | hu
  · exact tail?_eq_none_of_apart hbefore (by decide) hu
  · obtain rfl := List.mem_singleton.1 hu
    simp [Terminal.tail?, numberTail?, show '"'.isDigit = false by decide]

/-- A template that can be read is found where it stands apart. -/
theorem tokenAt_template {leaf : Node} {before : List Char} (hbody : '`' ∉ body)
    (hleaf : templateNode readExpr body = .ok leaf) (hbefore : Apart before) (rest : List Char) :
    TokenAt readExpr (.expression []) before ⟨.template, '`' :: (body ++ ['`'])⟩ rest leaf := by
  have htail : templateTail? ('`' :: (body ++ ['`']) ++ rest) =
      some (('`' :: (body ++ ['`'])).length - 1) :=
    templateTail?_eq_some_iff.2 ⟨body, rest, by simp, by simp, hbody⟩
  have hleaf : leafNode readExpr ⟨.template, '`' :: (body ++ ['`'])⟩ = .ok leaf := by
    simpa [leafNode, inner] using hleaf
  refine tokenAt_of_tail? (t := .template) rfl rfl (by decide) rfl htail (fun u hu _ => ?_) hleaf
  have horder : Terminal.order.takeWhile (· != .template) =
      Terminal.order.takeWhile (· != .number) ++ [.number, .string] := by decide
  rw [horder, takeWhile_order_number] at hu
  rcases List.mem_append.1 hu with hu | hu
  · exact tail?_eq_none_of_apart hbefore (by decide) hu
  · simp only [List.mem_cons, List.not_mem_nil, or_false] at hu
    rcases hu with rfl | rfl
    · simp [Terminal.tail?, numberTail?, show '`'.isDigit = false by decide]
    · simp [Terminal.tail?, stringTail?]

/-- The reader walks over a template that can be read. -/
theorem Walks.template {leaf : Node} (hbody : '`' ∉ body)
    (hleaf : templateNode readExpr body = .ok leaf) (p : List Pending) :
    Walks readExpr ⟨.expressionStart, p⟩ ('`' :: (body ++ ['`']) ++ [' ']) ⟨.operand leaf, p⟩ :=
  Walks.atom (l := ⟨.template, '`' :: (body ++ ['`'])⟩) p
    (fun _ rest hbefore => tokenAt_template hbody hleaf hbefore (' ' :: rest)) rfl

private theorem IsName.colon_notMem (hx : IsName x) : ∀ c ∈ x, (c != ':') = true := by
  have hcolon : ∀ c, isNameChar c = true → (c != ':') = true := by
    intro c hc
    rw [bne_iff_ne]
    rintro rfl
    exact absurd hc (by decide)
  cases x with
  | nil => exact hx.elim
  | cons c cs =>
    intro d hd
    rcases List.mem_cons.1 hd with rfl | hd
    · rw [bne_iff_ne]
      rintro rfl
      exact absurd hx.1 (by decide)
    · exact hcolon d (hx.2 d hd)

/-- The reader walks over a namespace member. There is no object key where an expression starts. -/
theorem Walks.spaceRef {space member : String} (hspace : IsName space.toList)
    (hmember : IsName member.toList) (p : List Pending) :
    Walks readExpr ⟨.expressionStart, p⟩ (space.toList ++ ':' :: member.toList ++ [' '])
      ⟨.operand (.spaceMember space member), p⟩ := by
  refine Walks.atom (l := ⟨.spaceRef, space.toList ++ ':' :: member.toList⟩) p
    (fun before rest hbefore => ?_) rfl
  have hpos := List.length_pos_iff.2 hspace.ne_nil
  have htail : spaceRefTail? (space.toList ++ ':' :: member.toList ++ ' ' :: rest) =
      some ((space.toList ++ ':' :: member.toList).length - 1) :=
    spaceRefTail?_eq_some_iff.2 ⟨space.toList, member.toList, ' ' :: rest, by simp, by
      simp only [List.length_append, List.length_cons]
      omega, hspace, hmember, (Delimits.blank rest).nameEnds⟩
  have hleaf : leafNode readExpr ⟨.spaceRef, space.toList ++ ':' :: member.toList⟩ =
      .ok (.spaceMember space member) := by
    have hends : ∀ c ∈ (':' :: member.toList).head?, (c != ':') = false := by simp
    have htake := takeWhile_append_of_ends hspace.colon_notMem hends
    have hdrop := drop_length_takeWhile (p := (· != ':')) (space.toList ++ ':' :: member.toList)
    rw [htake, List.drop_left] at hdrop
    simp [leafNode, spaceRefNode, htake, ← hdrop]
  cases hcs : space.toList with
  | nil => exact absurd hcs hspace.ne_nil
  | cons c cs =>
    rw [hcs] at hspace htail hleaf
    refine tokenAt_of_tail? (t := .spaceRef) rfl (layoutTail?_of_isNameStart hspace.1 _) (by decide)
      rfl htail (fun u hu hadmits => ?_) hleaf
    have horder : Terminal.order.takeWhile (· != .spaceRef) = [.objectKey] := by decide
    rw [horder, List.mem_singleton] at hu
    subst hu
    cases hadmits

end Atoms

/-! ### An opener behind a closing parenthesis -/

section Touching

variable {readExpr : ExprReader} {r r' : Reading}

/-- A closing parenthesis is found also where an opener touches it. -/
private theorem tokenAt_rightParen (readExpr : ExprReader) {expect : Expect} {before : List Char}
    (hbefore : Apart before) (hadmits : expect.admits .rightParen = true) (rest : List Char) :
    TokenAt readExpr expect before ⟨.rightParen, [')']⟩ rest .absent where
  place := Cursor.skipLayout_of_none rfl
  ne_nil := nofun
  found := by
    refine Cursor.lexeme?_eq_some (c := ⟨before, [')'] ++ rest⟩) (t := .rightParen) (n := 0)
      (by decide) hadmits rfl fun u hu _ => ?_
    have hsigns : ∀ u ∈ Terminal.order.takeWhile (· != .rightParen), u.sign.head? ≠ some ')' := by
      decide
    by_cases hsign : u.sign = []
    · rcases Terminal.mem_of_sign_eq_nil (List.takeWhile_subset _ hu) hsign with hu | hu
      · exact tail?_eq_none_of_apart hbefore (by decide) hu
      · simp only [List.mem_cons, List.not_mem_nil, or_false] at hu
        rcases hu with rfl | rfl | rfl <;> rfl
    · have hhead := hsigns u hu
      rw [Terminal.tail?_of_sign hsign]
      cases hcs : u.sign with
      | nil => exact absurd hcs hsign
      | cons c cs =>
        rw [hcs] at hhead
        have hc : (c == ')') = false := by simpa using hhead
        simp [List.isPrefixOf, hc]
  leafNode_eq := rfl

/-- An opener is found where it touches a closing parenthesis. -/
private theorem tokenAt_opener (readExpr : ExprReader) {t : Terminal} {opener : Char}
    (ht : (t, opener) ∈ [(Terminal.callOpen, '('), (.indexOpen, '['), (.memberDot, '.')])
    (before rest : List Char) :
    TokenAt readExpr .afterOperand (')' :: before) ⟨t, [opener]⟩ (' ' :: rest) .absent := by
  simp only [List.mem_cons, Prod.mk.injEq, List.not_mem_nil, or_false] at ht
  rcases ht with ⟨rfl, rfl⟩ | ⟨rfl, rfl⟩ | ⟨rfl, rfl⟩
  · exact ⟨Cursor.skipLayout_of_none rfl, nofun, rfl, rfl⟩
  · exact ⟨Cursor.skipLayout_of_none rfl, nofun, rfl, rfl⟩
  · exact ⟨Cursor.skipLayout_of_none rfl, nofun, rfl, rfl⟩

/-- **The reader walks over a closing parenthesis and an opener that touches it.** -/
theorem Walks.touching {t : Terminal} {opener : Char} {e : Node} {p : List Pending}
    (ht : (t, opener) ∈ [(Terminal.callOpen, '('), (.indexOpen, '['), (.memberDot, '.')])
    (hparen : r.point.expect.admits .rightParen = true)
    (hstep : ∀ leaf, r.step ⟨.rightParen, ")", leaf⟩ = some ⟨.operand e, p⟩)
    (hopen : Reading.afterOperand e p ⟨t, String.ofList [opener], .absent⟩ = some r') :
    Walks readExpr r [')', opener, ' '] r' := by
  intro before hbefore
  refine ⟨by simp [Apart], fun rest last => ⟨⟨')' :: before, opener :: ' ' :: rest⟩, ?_⟩⟩
  have hfirst := (tokenAt_rightParen readExpr hbefore hparen (opener :: ' ' :: rest)).read
    (hstep .absent) last
  have hsecond := (tokenAt_opener readExpr ht before rest).read (r := ⟨.operand e, p⟩) hopen
    ⟨before, ')' :: opener :: ' ' :: rest⟩
  have hskip : r'.read readExpr ⟨opener :: ')' :: before, ' ' :: rest⟩
      ⟨')' :: before, opener :: ' ' :: rest⟩ none =
      r'.read readExpr ⟨' ' :: opener :: ')' :: before, rest⟩
        ⟨')' :: before, opener :: ' ' :: rest⟩ none :=
    Reading.read_congr (Cursor.skipLayout_blank _ _)
  exact hfirst.trans (hsecond.trans hskip)

end Touching

end Sigil
