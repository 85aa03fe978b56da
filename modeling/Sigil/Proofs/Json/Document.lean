import Mathlib.Data.List.Nodup
import Sigil.Proofs.Json.Token

/-!
# Documents are read back

The written form of a JSON value is read back as this value (`Json.parse_document`), whatever its
layout, strings and nesting, if the fields of each object have different names and its finite
doubles are read back one by one (`Json.Storable`). The tokens of the value are the middle step: its
written form is cut into them (`Json.reads_write`), and they are put together to the value again
(`Json.assemble_tokens`).
-/

namespace Sigil.Json

/-! ### Cutting a text into tokens -/

/-- The text is cut into these tokens, in any number of steps that is large enough. -/
def Reads (cs : List Char) (ps : List Piece) : Prop :=
  ∀ steps, cs.length ≤ steps → pieces steps cs = ps

private theorem reads_nil : Reads [] [] := by
  intro steps _
  cases steps <;> rfl

/-- No token starts with white space, and there is none in the empty text. -/
private theorem head_of_piece {cs : List Char} (h : (piece cs).1 ≠ .broken) :
    ∃ c tail, cs = c :: tail ∧ isSpace c = false := by
  cases cs with
  | nil => exact absurd rfl h
  | cons c tail =>
    refine ⟨c, tail, rfl, Bool.eq_false_iff.2 fun hspace => h ?_⟩
    simp only [isSpace, Bool.or_eq_true, beq_iff_eq] at hspace
    rcases hspace with ((rfl | rfl) | rfl) | rfl <;> rfl

variable {cs text rest : List Char} {ps : List Piece} {p : Piece}

private theorem Reads.space {c : Char} (hc : isSpace c = true) (h : Reads cs ps) :
    Reads (c :: cs) ps := by
  intro steps hsteps
  obtain ⟨steps, rfl⟩ : ∃ n, steps = n + 1 := ⟨steps - 1, by simp at hsteps; omega⟩
  rw [← h (steps + 1) (by simp at hsteps; omega), pieces, pieces, List.dropWhile_cons_of_pos hc]

private theorem Reads.token (h : Reads rest ps) (htext : text ≠ []) (hp : p ≠ .broken)
    (hpiece : piece (text ++ rest) = (p, rest)) : Reads (text ++ rest) (p :: ps) := by
  intro steps hsteps
  have hlength := List.length_pos_iff.2 htext
  rw [List.length_append] at hsteps
  obtain ⟨steps, rfl⟩ : ∃ n, steps = n + 1 := ⟨steps - 1, by omega⟩
  obtain ⟨c, tail, hhead, hc⟩ :=
    head_of_piece (show (piece (text ++ rest)).1 ≠ .broken by rwa [hpiece])
  have hdrop : (text ++ rest).dropWhile isSpace = c :: tail := by
    rw [hhead, List.dropWhile_cons_of_neg (by simp [hc])]
  rw [pieces, hdrop]
  simp only [← hhead, hpiece]
  rw [h steps (by omega)]

/-- A token of one character. -/
private theorem Reads.mark {c : Char} (hp : p ≠ .broken) (hpiece : piece (c :: rest) = (p, rest))
    (h : Reads rest ps) : Reads (c :: rest) (p :: ps) :=
  h.token (List.cons_ne_nil c []) hp hpiece

private theorem Reads.newline (layout : Layout) (depth : Nat) (h : Reads cs ps) :
    Reads (layout.newline depth ++ cs) ps := by
  unfold Layout.newline
  split
  · refine .space rfl ?_
    induction _ * depth with
    | zero => exact h
    | succ n ih => exact .space rfl ih
  · exact h

/-! ### What follows a value -/

private theorem delimited_nil : Delimited [] :=
  nofun

private theorem delimited_cons {c : Char} (h : isNumberChar c = false) (cs : List Char) :
    Delimited (c :: cs) := by
  intro d tail heq
  cases heq
  exact h

private theorem delimited_newline (layout : Layout) (depth : Nat) {c : Char}
    (h : isNumberChar c = false) (cs : List Char) :
    Delimited (layout.newline depth ++ c :: cs) := by
  unfold Layout.newline
  split
  · exact delimited_cons rfl _
  · exact delimited_cons h cs

private theorem Reads.comma (layout : Layout) (depth : Nat) (h : Reads cs ps) :
    Reads (layout.comma depth ++ cs) (.comma :: ps) := by
  have hcomma : Piece.comma ≠ .broken := by simp
  unfold Layout.comma
  split
  · exact .mark hcomma rfl (h.newline layout depth)
  · exact .mark hcomma rfl (h.space rfl)

private theorem delimited_comma (layout : Layout) (depth : Nat) (cs : List Char) :
    Delimited (layout.comma depth ++ cs) := by
  unfold Layout.comma
  split <;> exact delimited_cons rfl _

/-! ### Values -/

/-- **Values that are read back**: the finite doubles are, the fields of each object have different
names, and no number is written as a whole number. -/
inductive Storable : Json → Prop
  | null : Storable .null
  | bool (b : Bool) : Storable (.bool b)
  | str (s : String) : Storable (.str s)
  | float {x : Float} : (isFinite x = true → ReadsBack x) → Storable (.float x)
  | arr {items : List Json} : (∀ item ∈ items, Storable item) → Storable (.arr items)
  | obj {fields : List (String × Json)} : (fields.map Prod.fst).Nodup →
      (∀ field ∈ fields, Storable field.2) → Storable (.obj fields)

mutual

/-- The tokens of a value. -/
def tokens : Json → List Piece
  | .arr [] => [.openArr, .closeArr]
  | .arr (item :: items) => .openArr :: (tokens item ++ (itemTokens items ++ [.closeArr]))
  | .obj [] => [.openObj, .closeObj]
  | .obj ((name, value) :: fields) =>
    .openObj :: .scalar (.str name) :: .colon ::
      (tokens value ++ (fieldTokens fields ++ [.closeObj]))
  | j => [.scalar j]

/-- The tokens of the items of an array after the first. -/
def itemTokens : List Json → List Piece
  | [] => []
  | item :: items => .comma :: (tokens item ++ itemTokens items)

/-- The tokens of the fields of an object after the first. -/
def fieldTokens : List (String × Json) → List Piece
  | [] => []
  | (name, value) :: fields =>
    .comma :: .scalar (.str name) :: .colon :: (tokens value ++ fieldTokens fields)

end

/-- The written form of the value is cut into its tokens, whatever follows. -/
abbrev Cuts (layout : Layout) (j : Json) : Prop :=
  ∀ (depth : Nat) {rest : List Char} {ps : List Piece}, Delimited rest → Reads rest ps →
    Reads (write layout depth j ++ rest) (tokens j ++ ps)

private theorem reads_encode (s : String) (h : Reads rest ps) :
    Reads (Quoted.encode s.toList ++ rest) (.scalar (.str s) :: ps) := by
  refine h.token (by simp [Quoted.encode]) nofun ?_
  have hdecode := Quoted.decode?_flatMap s.toList rest
  rw [Quoted.encode, List.cons_append, List.append_assoc, List.singleton_append, piece, hdecode]
  simp only [String.ofList_toList]

/-- The name of a field and its colon. -/
private theorem reads_name (name : String) (h : Reads rest ps) :
    Reads (Quoted.encode name.toList ++ ':' :: ' ' :: rest)
      (.scalar (.str name) :: .colon :: ps) :=
  reads_encode name (.mark nofun rfl (h.space rfl))

private theorem reads_writeItems {layout : Layout} {items : List Json}
    (hitems : ∀ item ∈ items, Cuts layout item) (depth : Nat) (hrest : Delimited rest)
    (h : Reads rest ps) :
    Delimited (writeItems layout depth items ++ rest) ∧
      Reads (writeItems layout depth items ++ rest) (itemTokens items ++ ps) := by
  induction items with
  | nil => exact ⟨hrest, h⟩
  | cons item items ih =>
    rw [List.forall_mem_cons] at hitems
    obtain ⟨hdelimited, hreads⟩ := ih hitems.2
    simp only [writeItems, itemTokens, List.append_assoc, List.cons_append]
    exact ⟨delimited_comma layout depth _, (hitems.1 depth hdelimited hreads).comma layout depth⟩

private theorem reads_writeFields {layout : Layout} {fields : List (String × Json)}
    (hfields : ∀ field ∈ fields, Cuts layout field.2) (depth : Nat) (hrest : Delimited rest)
    (h : Reads rest ps) :
    Delimited (writeFields layout depth fields ++ rest) ∧
      Reads (writeFields layout depth fields ++ rest) (fieldTokens fields ++ ps) := by
  induction fields with
  | nil => exact ⟨hrest, h⟩
  | cons field fields ih =>
    obtain ⟨name, value⟩ := field
    rw [List.forall_mem_cons] at hfields
    obtain ⟨hdelimited, hreads⟩ := ih hfields.2
    simp only [writeFields, fieldTokens, List.append_assoc, List.cons_append, List.nil_append]
    exact ⟨delimited_comma layout depth _,
      (reads_name name (hfields.1 depth hdelimited hreads)).comma layout depth⟩

/-- **A written value is cut into its tokens.** -/
theorem reads_write (layout : Layout) {j : Json} (h : Storable j) : Cuts layout j := by
  induction h with
  | null => exact fun _ _ _ _ hreads => hreads.token (List.cons_ne_nil _ _) nofun rfl
  | bool b =>
    intro depth rest ps _ hreads
    cases b <;> exact hreads.token (List.cons_ne_nil _ _) nofun rfl
  | str s => exact fun _ _ _ _ hreads => reads_encode s hreads
  | @float x hx =>
    intro depth rest ps hrest hreads
    refine hreads.token (fun hnil => ?_) nofun (piece_float hx hrest).1
    -- an empty text would be read as no token
    have halone := (piece_float hx delimited_nil).1
    rw [show (NumberFormat.stored.write x).toList = [] from hnil] at halone
    cases halone
  | @arr items _ ih =>
    intro depth rest ps hrest hreads
    cases items with
    | nil => exact .mark nofun rfl (.mark nofun rfl hreads)
    | cons item items =>
      rw [List.forall_mem_cons] at ih
      have hclose : Reads (']' :: rest) (.closeArr :: ps) := .mark nofun rfl hreads
      obtain ⟨hdelimited, hitems⟩ := reads_writeItems ih.2 (depth + 1)
        (delimited_newline layout depth (c := ']') rfl rest) (hclose.newline layout depth)
      have hopen := (ih.1 (depth + 1) hdelimited hitems).newline layout (depth + 1)
      simp only [write, tokens, List.append_assoc, List.cons_append, List.nil_append]
      exact .mark nofun rfl hopen
  | @obj fields _ _ ih =>
    intro depth rest ps hrest hreads
    cases fields with
    | nil => exact .mark nofun rfl (.mark nofun rfl hreads)
    | cons field fields =>
      obtain ⟨name, value⟩ := field
      rw [List.forall_mem_cons] at ih
      have hclose : Reads ('\x7d' :: rest) (.closeObj :: ps) := .mark nofun rfl hreads
      obtain ⟨hdelimited, hfields⟩ := reads_writeFields ih.2 (depth + 1)
        (delimited_newline layout depth (c := '\x7d') rfl rest) (hclose.newline layout depth)
      have hname := reads_name name (ih.1 (depth + 1) hdelimited hfields)
      have hopen := hname.newline layout (depth + 1)
      simp only [write, tokens, List.append_assoc, List.cons_append, List.nil_append]
      exact .mark nofun rfl hopen

/-! ### Putting tokens together -/

/-- The tokens of the value are put together to it, whatever is open around it. -/
abbrev Assembles (j : Json) : Prop :=
  ∀ (stack : List Open) (ps : List Piece),
    assemble .value stack (tokens j ++ ps) = assemble (.complete j) stack ps

/-- The first token of a value does not close an array. -/
private theorem assemble_valueOrClose (j : Json) (stack : List Open) (ps : List Piece) :
    assemble .valueOrClose stack (tokens j ++ ps) = assemble .value stack (tokens j ++ ps) := by
  cases j with
  | arr items => cases items <;> cases stack <;> simp [tokens, assemble]
  | obj fields => cases fields <;> cases stack <;> simp [tokens, assemble]
  | _ => cases stack <;> simp [tokens, assemble]

private theorem assemble_itemTokens {items : List Json} (hitems : ∀ item ∈ items, Assembles item)
    (done : List Json) (v : Json) (stack : List Open) (ps : List Piece) :
    assemble (.complete v) (.arr done :: stack) (itemTokens items ++ .closeArr :: ps) =
      assemble (.complete (.arr (done.reverse ++ v :: items))) stack ps := by
  induction items generalizing done v with
  | nil =>
    rw [itemTokens, List.nil_append, assemble, List.reverse_cons]
  | cons item items ih =>
    rw [List.forall_mem_cons] at hitems
    rw [itemTokens, List.cons_append, assemble, List.append_assoc, hitems.1, ih hitems.2]
    simp

private theorem putField_of_not_mem {name : String} (v : Json) {fields : List (String × Json)}
    (h : name ∉ fields.map Prod.fst) : putField name v fields = fields ++ [(name, v)] := by
  induction fields with
  | nil => rfl
  | cons field fields ih =>
    rw [List.map_cons, List.mem_cons, not_or] at h
    rw [putField, if_neg (Ne.symm h.1), ih h.2, List.cons_append]

private theorem putField_of_nodup {done fields : List (String × Json)} {name : String} {v : Json}
    (h : ((done ++ (name, v) :: fields).map Prod.fst).Nodup) :
    putField name v done = done ++ [(name, v)] := by
  rw [List.map_append, List.map_cons] at h
  exact putField_of_not_mem v fun hmem =>
    List.disjoint_of_nodup_append h hmem List.mem_cons_self

private theorem assemble_fieldTokens {fields : List (String × Json)}
    (hfields : ∀ field ∈ fields, Assembles field.2) (done : List (String × Json)) (name : String)
    (v : Json) (hnodup : ((done ++ (name, v) :: fields).map Prod.fst).Nodup) (stack : List Open)
    (ps : List Piece) :
    assemble (.complete v) (.obj done name :: stack) (fieldTokens fields ++ .closeObj :: ps) =
      assemble (.complete (.obj (done ++ (name, v) :: fields))) stack ps := by
  induction fields generalizing done name v with
  | nil => rw [fieldTokens, List.nil_append, assemble, putField_of_nodup hnodup]
  | cons field fields ih =>
    obtain ⟨next, value⟩ := field
    rw [List.forall_mem_cons] at hfields
    have hrest : (((done ++ [(name, v)]) ++ (next, value) :: fields).map Prod.fst).Nodup := by
      simpa using hnodup
    rw [fieldTokens, List.cons_append, assemble, putField_of_nodup hnodup, List.cons_append,
      assemble, List.cons_append, assemble, List.append_assoc, hfields.1, ih hfields.2 _ _ _ hrest]
    simp

/-- **Tokens of a value are put together to it.** -/
theorem assemble_tokens {j : Json} (h : Storable j) : Assembles j := by
  induction h with
  | @arr items _ ih =>
    intro stack ps
    cases items with
    | nil => simp [tokens, assemble, assemble.begin]
    | cons item items =>
      rw [List.forall_mem_cons] at ih
      have hitems := assemble_itemTokens ih.2 [] item stack ps
      have hopen := ih.1 (.arr [] :: stack) (itemTokens items ++ .closeArr :: ps)
      -- after the bracket an array may be closed at once
      rw [← assemble_valueOrClose] at hopen
      simp only [tokens, List.cons_append, List.append_assoc, List.nil_append]
      rw [assemble, assemble.begin, hopen, hitems]
      rfl
  | @obj fields hnodup _ ih =>
    intro stack ps
    cases fields with
    | nil => simp [tokens, assemble, assemble.begin]
    | cons field fields =>
      obtain ⟨name, value⟩ := field
      rw [List.forall_mem_cons] at ih
      have hfields := assemble_fieldTokens ih.2 [] name value hnodup stack ps
      have hvalue := ih.1 (.obj [] name :: stack) (fieldTokens fields ++ .closeObj :: ps)
      simp only [tokens, List.cons_append, List.append_assoc, List.nil_append]
      rw [assemble, assemble.begin, assemble, assemble, hvalue, hfields]
      rfl
  | _ => exact fun _ _ => by simp [tokens, assemble, assemble.begin]

/-- **Documents are read back.** -/
theorem parse_document {j : Json} (h : Storable j) : parse j.document = .ok j := by
  have hreads := reads_write .document h 0 delimited_nil reads_nil
  simp only [List.append_nil] at hreads
  have hassemble := assemble_tokens h [] []
  rw [List.append_nil] at hassemble
  rw [parse, document, String.toList_ofList, hreads _ (Nat.le_refl _), hassemble, assemble]

/-! ### No carriage returns -/

private theorem not_mem_encodeChar (c : Char) : '\r' ∉ Quoted.encodeChar c := by
  have hhex (n : Nat) : '\r' ≠ Quoted.hexDigit n := by
    have hall : ∀ n : Fin 16, '\r' ≠ Nat.digitChar n.val := by decide
    exact hall ⟨n % 16, Nat.mod_lt n (by decide)⟩
  unfold Quoted.encodeChar
  split
  case h_8 _ _ _ hreturn _ _ _ =>
    split
    · simp [hhex]
    · simpa using Ne.symm hreturn
  all_goals decide

private theorem not_mem_encode (s : List Char) : '\r' ∉ Quoted.encode s := by
  simp only [Quoted.encode, List.mem_cons, List.mem_append, List.mem_flatMap, not_or]
  exact ⟨by decide, fun ⟨c, _, hc⟩ => not_mem_encodeChar c hc, by decide⟩

private theorem not_mem_newline (layout : Layout) (depth : Nat) : '\r' ∉ layout.newline depth := by
  unfold Layout.newline
  split <;> simp

private theorem not_mem_comma (layout : Layout) (depth : Nat) : '\r' ∉ layout.comma depth := by
  unfold Layout.comma
  split
  · simpa using not_mem_newline layout depth
  · decide

private theorem not_mem_writeItems {layout : Layout} {depth : Nat} {items : List Json}
    (h : ∀ item ∈ items, '\r' ∉ write layout depth item) :
    '\r' ∉ writeItems layout depth items := by
  induction items with
  | nil => exact List.not_mem_nil
  | cons item items ih =>
    rw [List.forall_mem_cons] at h
    simp [writeItems, not_mem_comma, h.1, ih h.2]

private theorem not_mem_writeFields {layout : Layout} {depth : Nat} {fields : List (String × Json)}
    (h : ∀ field ∈ fields, '\r' ∉ write layout depth field.2) :
    '\r' ∉ writeFields layout depth fields := by
  induction fields with
  | nil => exact List.not_mem_nil
  | cons field fields ih =>
    rw [List.forall_mem_cons] at h
    simp [writeFields, not_mem_comma, not_mem_encode, h.1, ih h.2]

/-- **A written value holds no carriage return**, so its lines end in line feeds only. -/
theorem not_mem_write (layout : Layout) {j : Json} (h : Storable j) (depth : Nat) :
    '\r' ∉ write layout depth j := by
  induction h generalizing depth with
  | null => exact of_decide_eq_true rfl
  | bool b => cases b <;> exact of_decide_eq_true rfl
  | str s => exact not_mem_encode s.toList
  | float hx => exact (piece_float hx delimited_nil).2
  | @arr items _ ih =>
    cases items with
    | nil => exact of_decide_eq_true rfl
    | cons item items =>
      rw [List.forall_mem_cons] at ih
      simp [write, not_mem_newline, ih.1, not_mem_writeItems fun i hi => ih.2 i hi (depth + 1)]
  | @obj fields _ _ ih =>
    cases fields with
    | nil => exact of_decide_eq_true rfl
    | cons field fields =>
      rw [List.forall_mem_cons] at ih
      simp [write, not_mem_newline, not_mem_encode, ih.1,
        not_mem_writeFields fun i hi => ih.2 i hi (depth + 1)]

end Sigil.Json
