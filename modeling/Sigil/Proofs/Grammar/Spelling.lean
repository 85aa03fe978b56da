import Sigil.Proofs.Grammar.Rules

/-!
# Tokens that spell items

`Spells E e ts items` says that the tokens `ts` have a derivation from the right-hand side `e` that
stands for `items`. The relation is closed under everything that the reader does when it puts parts
together; no proof about the reader has to look at a derivation.
-/

namespace Sigil

variable {E : List Char → Tree → Prop}

/-! ### Items of derivations -/

namespace Tree

@[simp]
theorem images_nil : images [] = some [] := by
  rw [images]

@[simp]
theorem images_cons (t : Tree) (ts : List Tree) :
    images (t :: ts) = t.image.bind fun item => (images ts).map (item :: ·) := by
  rw [images]

/-- A node stands for what its label makes of the items of its children. -/
theorem image_node (label : Label) (children : List Tree) :
    image (.node label children) = (images children).bind (produce label) := by
  rw [image]

/-- Trees one after another stand for their items one after another. -/
theorem images_append {ts us : List Tree} {items more : List Item}
    (hts : images ts = some items) (hus : images us = some more) :
    images (ts ++ us) = some (items ++ more) := by
  induction ts generalizing items with
  | nil =>
    obtain rfl : [] = items := by simpa using hts
    exact hus
  | cons t ts ih =>
    simp only [images_cons, Option.bind_eq_some_iff, Option.map_eq_some_iff] at hts
    obtain ⟨item, hitem, rest, hrest, rfl⟩ := hts
    simp [hitem, ih hrest]

/-- The items of two lists of trees fall into those of the one and those of the other. -/
theorem images_of_append {ts us : List Tree} {items : List Item}
    (h : images (ts ++ us) = some items) :
    ∃ front last, items = front ++ last ∧ images ts = some front ∧ images us = some last := by
  induction ts generalizing items with
  | nil => exact ⟨[], items, rfl, images_nil, h⟩
  | cons t ts ih =>
    simp only [List.cons_append, images_cons, Option.bind_eq_some_iff,
      Option.map_eq_some_iff] at h
    obtain ⟨item, hitem, rest, hrest, rfl⟩ := h
    obtain ⟨front, last, rfl, hfront, hlast⟩ := ih hrest
    exact ⟨item :: front, last, rfl, by simp [hitem, hfront], hlast⟩

/-- A single item comes from a single tree: every tree stands for exactly one. -/
theorem eq_singleton_of_images {ts : List Tree} {item : Item} (h : images ts = some [item]) :
    ∃ t, ts = [t] ∧ t.image = some item := by
  match ts with
  | [] => simp at h
  | [t] =>
    refine ⟨t, rfl, ?_⟩
    simpa [Option.bind_eq_some_iff] using h
  | t :: u :: us => simp [Option.bind_eq_some_iff] at h

end Tree

section Lists

/-- Whatever is taken out of items comes back from the items that were made of it. -/
private theorem mapM_map_of_left_inverse {α β : Type} {f : β → Option α} {g : α → β}
    (h : ∀ x, f (g x) = some x) (xs : List α) : (xs.map g).mapM f = some xs := by
  induction xs with
  | nil => rfl
  | cons x xs ih => simp [List.mapM_cons, h, ih]

private theorem mapM_node? (ns : List Node) : (ns.map Item.node).mapM Item.node? = some ns :=
  mapM_map_of_left_inverse (f := Item.node?) (g := Item.node) (fun _ => rfl) ns

private theorem mapM_name? (names : List String) :
    (names.map Item.token).mapM Item.name? = some names :=
  mapM_map_of_left_inverse (f := Item.name?) (g := Item.token) (fun _ => rfl) names

/-- An object member as an item. -/
def Item.ofEntry (entry : String × Node) : Item :=
  .entry entry.1 entry.2

private theorem mapM_member? (entries : List (String × Node)) :
    (entries.map Item.ofEntry).mapM Item.member? = some entries :=
  mapM_map_of_left_inverse (f := Item.member?) (g := Item.ofEntry) (fun _ => rfl) entries

/-- A branch of a conditional or an arm of a selection as an item. -/
def Item.ofClause (clause : Node × Node) : Item :=
  .clause clause.1 clause.2

/-- Clauses without a fallback are read off their items. -/
private theorem clauses?_map (clauses : List (Node × Node)) :
    clauses? (clauses.map Item.ofClause) = some (clauses, .absent) := by
  induction clauses with
  | nil => rfl
  | cons clause clauses ih => simp [clauses?, Item.ofClause, ih]

/-- A fallback at the end becomes the body that is taken if nothing else is. -/
private theorem clauses?_map_fallback (clauses : List (Node × Node)) (body : Node) :
    clauses? (clauses.map Item.ofClause ++ [.fallback body]) = some (clauses, body) := by
  induction clauses with
  | nil => rfl
  | cons clause clauses ih => simp [clauses?, Item.ofClause, ih]

end Lists

/-! ### What labels make -/

section Produce

variable (ns : List Node) (clauses : List (Node × Node))

/-- The statements of a program, in order. -/
theorem produce_program : produce .program (ns.map .node) = some (.whole (.program ns)) :=
  congrArg (Option.map fun body => Item.whole (.program body)) (mapM_node? ns)

/-- The statements of a function, in order. -/
theorem produce_body : produce .body (ns.map .node) = some (.body ns) :=
  congrArg (Option.map Item.body) (mapM_node? ns)

/-- A namespace has its name in front of its members. -/
theorem produce_spaceDecl (name : String) :
    produce .spaceDecl (.token name :: ns.map .node) = some (.node (.spaceDecl name ns)) :=
  congrArg (Option.map fun members => Item.node (.spaceDecl name members)) (mapM_node? ns)

theorem produce_arguments : produce .arguments (ns.map .node) = some (.args ns) :=
  congrArg (Option.map Item.args) (mapM_node? ns)

theorem produce_array : produce .array (ns.map .node) = some (.node (.array ns)) :=
  congrArg (Option.map fun elements => Item.node (.array elements)) (mapM_node? ns)

theorem produce_block : produce .block (ns.map .node) = some (.node (.block ns)) :=
  congrArg (Option.map fun statements => Item.node (.block statements)) (mapM_node? ns)

/-- Parameters are names only. -/
theorem produce_params (names : List String) :
    produce .params (names.map .token) = some (.names names) :=
  congrArg (Option.map Item.names) (mapM_name? names)

/-- The members of an object literal keep their order; a name may stand there twice. -/
theorem produce_object (entries : List (String × Node)) :
    produce .object (entries.map .ofEntry) = some (.node (.object entries)) :=
  congrArg (Option.map fun entries => Item.node (.object entries)) (mapM_member? entries)

/-- The first branch of a conditional is spelled apart from the others. -/
theorem produce_conditional (condition body : Node) :
    produce .conditional (.node condition :: .node body :: clauses.map .ofClause) =
      some (.node (.conditional ((condition, body) :: clauses) .absent)) :=
  congrArg (Option.map fun found : List (Node × Node) × Node =>
    Item.node (.conditional ((condition, body) :: found.1) found.2)) (clauses?_map clauses)

/-- The same with a last branch that has no condition. -/
theorem produce_conditional_otherwise (condition body otherwise : Node) :
    produce .conditional
        (.node condition :: .node body :: (clauses.map .ofClause ++ [.fallback otherwise])) =
      some (.node (.conditional ((condition, body) :: clauses) otherwise)) :=
  congrArg (Option.map fun found : List (Node × Node) × Node =>
      Item.node (.conditional ((condition, body) :: found.1) found.2))
    (clauses?_map_fallback clauses otherwise)

/-- Arms without a default. -/
theorem produce_arms : produce .arms (clauses.map .ofClause) = some (.arms clauses .absent) :=
  congrArg (Option.map fun found : List (Node × Node) × Node => Item.arms found.1 found.2)
    (clauses?_map clauses)

/-- Arms with a default. -/
theorem produce_arms_default (otherwise : Node) :
    produce .arms (clauses.map .ofClause ++ [.fallback otherwise]) =
      some (.arms clauses otherwise) :=
  congrArg (Option.map fun found : List (Node × Node) × Node => Item.arms found.1 found.2)
    (clauses?_map_fallback clauses otherwise)

variable (text : List Char)

/-- A number token becomes the double that it denotes. -/
theorem produce_number :
    produce .number [.token (String.ofList text)] = some (.node (.number (numberToken text))) :=
  congrArg (fun cs => some (Item.node (.number (numberToken cs)))) String.toList_ofList

/-- A text token loses its quotes, and its escapes are resolved. -/
theorem produce_string :
    produce .string [.token (String.ofList text)] =
      some (.node (.text (String.ofList (unescape (inner text))))) :=
  congrArg (fun cs => some (Item.node (.text (String.ofList (unescape (inner cs))))))
    String.toList_ofList

/-- A reference into a namespace is one token and is split here. -/
theorem produce_spaceRef :
    produce .spaceRef [.token (String.ofList text)] = some (.node (spaceRefNode text)) :=
  congrArg (fun cs => some (Item.node (spaceRefNode cs))) String.toList_ofList

end Produce

/-! ### Spelling -/

/-- The tokens have a derivation that stands for the items. -/
def Spells (E : List Char → Tree → Prop) (e : Ebnf) (ts : List Lexeme) (items : List Item) : Prop :=
  ∃ trees, Derives E e ts trees ∧ Tree.images trees = some items

/-- A sequence is derived part by part; one more part goes to its end. -/
private theorem Derives.snoc {es : List Ebnf} {e : Ebnf} {ts us : List Lexeme} {cs ds : List Tree}
    (h : Derives E (.seq es) ts cs) (he : Derives E e us ds) :
    Derives E (.seq (es ++ [e])) (ts ++ us) (cs ++ ds) := by
  induction es generalizing ts cs with
  | nil =>
    cases h
    simpa using Derives.cons he .nil
  | cons a es ih =>
    cases h with
    | cons ha hes =>
      rw [List.append_assoc, List.append_assoc]
      exact .cons ha (ih hes)

/-- The last part of a sequence has tokens of its own at the end. -/
private theorem Derives.unsnoc {es : List Ebnf} {e : Ebnf} {ts : List Lexeme} {cs : List Tree}
    (h : Derives E (.seq (es ++ [e])) ts cs) :
    ∃ us vs ds last, ts = us ++ vs ∧ cs = ds ++ last ∧ Derives E (.seq es) us ds ∧
      Derives E e vs last := by
  induction es generalizing ts cs with
  | nil =>
    cases h with
    | @cons _ _ ts us cs ds he hnil =>
      cases hnil
      exact ⟨[], ts, [], cs, by simp, by simp, .nil, he⟩
  | cons a es ih =>
    cases h with
    | @cons _ _ ts us cs ds ha hes =>
      obtain ⟨vs, ws, ds, last, rfl, rfl, hes, he⟩ := ih hes
      exact ⟨ts ++ vs, ws, cs ++ ds, last, by simp, by simp, .cons ha hes, he⟩

namespace Spells

variable {e a b : Ebnf} {es : List Ebnf} {r : Rule} {ts us : List Lexeme}
  {items others : List Item} {item : Item}

/-- A mark spells nothing. -/
theorem mark {l : Lexeme} {t : Terminal} (h : l.terminal = t) : Spells E (.mark t) [l] [] := by
  subst h
  exact ⟨[], .mark, Tree.images_nil⟩

/-- A token other than a template spells its text. -/
theorem token {l : Lexeme} {t : Terminal} (h : l.terminal = t) (ht : t ≠ .template) :
    Spells E (.token t) [l] [.token (String.ofList l.text)] := by
  subst h
  exact ⟨[.leaf l []], .token ht, by simp [Tree.image, ht]⟩

/-- A rule that makes something has it made of the items that its right-hand side spells. -/
theorem made (h : Spells E e ts items) (label : Label) (hmem : (some label, e) ∈ grammar r)
    (hitem : produce label items = some item) : Spells E (.rule r) ts [item] := by
  obtain ⟨trees, hder, himages⟩ := h
  exact ⟨[.node label trees], .made hmem hder, by simp [Tree.image_node, himages, hitem]⟩

/-- A rule without a label passes on the one item that it spells. -/
theorem passed (h : Spells E e ts [item]) (hmem : (none, e) ∈ grammar r) :
    Spells E (.rule r) ts [item] := by
  obtain ⟨trees, hder, himages⟩ := h
  obtain ⟨t, rfl, -⟩ := Tree.eq_singleton_of_images himages
  exact ⟨[t], .passed hmem hder, himages⟩

/-- The empty sequence spells nothing. -/
theorem nil : Spells E (.seq []) [] [] :=
  ⟨[], .nil, Tree.images_nil⟩

/-- One more part of a sequence spells its items behind the others. -/
theorem snoc (h : Spells E (.seq es) ts items) (he : Spells E e us others) :
    Spells E (.seq (es ++ [e])) (ts ++ us) (items ++ others) := by
  obtain ⟨trees, hder, himages⟩ := h
  obtain ⟨trees', hder', himages'⟩ := he
  exact ⟨trees ++ trees', hder.snoc hder', Tree.images_append himages himages'⟩

/-- What spells a sequence spells its last part after the others. -/
theorem unsnoc (h : Spells E (.seq (es ++ [e])) ts items) :
    ∃ us vs front last, ts = us ++ vs ∧ items = front ++ last ∧ Spells E (.seq es) us front ∧
      Spells E e vs last := by
  obtain ⟨trees, hder, himages⟩ := h
  obtain ⟨us, vs, cs, ds, rfl, rfl, hes, he⟩ := hder.unsnoc
  obtain ⟨front, last, rfl, hfront, hlast⟩ := Tree.images_of_append himages
  exact ⟨us, vs, front, last, rfl, rfl, ⟨cs, hes, hfront⟩, ⟨ds, he, hlast⟩⟩

theorem single (h : Spells E e ts items) : Spells E (.seq [e]) ts items :=
  nil.snoc h

/-- The last part of a sequence is replaced by more of it. -/
theorem extend (es : List Ebnf) (h : Spells E (.seq (es ++ [a])) ts items)
    (hmore : ∀ ts items, Spells E a ts items → Spells E b (ts ++ us) (items ++ others)) :
    Spells E (.seq (es ++ [b])) (ts ++ us) (items ++ others) := by
  obtain ⟨ts, vs, items, last, rfl, rfl, hes, ha⟩ := h.unsnoc
  simpa only [List.append_assoc] using hes.snoc (hmore vs last ha)

/-- The first of two alternatives. -/
theorem left (h : Spells E a ts items) : Spells E (.either a b) ts items :=
  h.imp fun _ => .imp_left .left

/-- The second of two alternatives. -/
theorem right (h : Spells E b ts items) : Spells E (.either a b) ts items :=
  h.imp fun _ => .imp_left .right

/-- An optional part may be left out. -/
theorem absent (a : Ebnf) : Spells E (.optional a) [] [] :=
  ⟨[], .absent, Tree.images_nil⟩

/-- An optional part may be there. -/
theorem present (h : Spells E a ts items) : Spells E (.optional a) ts items :=
  h.imp fun _ => .imp_left .present

/-- A repeated part may be there no time. -/
theorem none (a : Ebnf) : Spells E (.many a) [] [] :=
  ⟨[], .none, Tree.images_nil⟩

/-- A repeated part may be there once more. -/
theorem more (h : Spells E (.many a) ts items) (ha : Spells E a us others) :
    Spells E (.many a) (ts ++ us) (items ++ others) := by
  obtain ⟨trees, hder, himages⟩ := h
  obtain ⟨trees', hder', himages'⟩ := ha
  exact ⟨trees ++ trees', .more hder hder', Tree.images_append himages himages'⟩

/-- A part that is there at least once may be there just once. -/
theorem one (h : Spells E a ts items) : Spells E (.some a) ts items :=
  h.imp fun _ => .imp_left .one

/-- A part that is there at least once may be there once more. -/
theorem another (h : Spells E (.some a) ts items) (ha : Spells E a us others) :
    Spells E (.some a) (ts ++ us) (items ++ others) := by
  obtain ⟨trees, hder, himages⟩ := h
  obtain ⟨trees', hder', himages'⟩ := ha
  exact ⟨trees ++ trees', .another hder hder', Tree.images_append himages himages'⟩

end Spells

end Sigil
