import Sigil.Proofs.Grammar.Sound

/-!
# Properties of what is read

A property of items that all productions of the grammar hand on from parts to wholes is
`Hereditary`, and the tree of every program text has it (`Hereditary.of_parseProgram`). So a fact
about all trees that come from texts takes one argument for each label of the grammar (`Makes`) and
none for the reader. The property may depend on the right-hand side that an item is derived from,
and the expressions embedded in templates, which are read by the same reader, have it as well.
-/

namespace Sigil

/-! ### What labels make -/

/-- **What labels make of items**, one case for each form that the items of a label can have. -/
inductive Makes : Label → List Item → Item → Prop
  | program {items : List Item} {body : List Node} :
    items.mapM Item.node? = some body → Makes .program items (.whole (.program body))
  | soleExpression {e : Node} : Makes .soleExpression [.node e] (.whole e)
  | constantDecl {name : String} {e : Node} :
    Makes .constantDecl [.token name, .node e] (.node (.varDecl name e false))
  | variableDecl {name : String} {e : Node} :
    Makes .variableDecl [.token name, .node e] (.node (.varDecl name e true))
  | assignment {name : String} {e : Node} :
    Makes .assignment [.token name, .node e] (.node (.assign name e))
  | output {e : Node} : Makes .output [.node e] (.node (.output e))
  | functionDecl {name : String} {params : List String} {body : List Node} :
    Makes .functionDecl [.token name, .names params, .body body]
      (.node (.functionDecl name params (.block body)))
  | params {items : List Item} {names : List String} :
    items.mapM Item.name? = some names → Makes .params items (.names names)
  | body {items : List Item} {body : List Node} :
    items.mapM Item.node? = some body → Makes .body items (.body body)
  | spaceDecl {name : String} {items : List Item} {members : List Node} :
    items.mapM Item.node? = some members →
      Makes .spaceDecl (.token name :: items) (.node (.spaceDecl name members))
  | conditional {condition body otherwise : Node} {items : List Item}
      {branches : List (Node × Node)} :
    clauses? items = some (branches, otherwise) →
      Makes .conditional (.node condition :: .node body :: items)
        (.node (.conditional ((condition, body) :: branches) otherwise))
  | branch {condition body : Node} :
    Makes .branch [.node condition, .node body] (.clause condition body)
  | otherwise {body : Node} : Makes .otherwise [.node body] (.fallback body)
  | selection {subject otherwise : Node} {arms : List (Node × Node)} :
    Makes .selection [.node subject, .arms arms otherwise]
      (.node (.selection subject arms otherwise))
  | arms {items : List Item} {arms : List (Node × Node)} {otherwise : Node} :
    clauses? items = some (arms, otherwise) → Makes .arms items (.arms arms otherwise)
  | arm {pattern body : Node} : Makes .arm [.node pattern, .node body] (.clause pattern body)
  | defaultArm {body : Node} : Makes .defaultArm [.node body] (.fallback body)
  | countLoop {count body : Node} :
    Makes .countLoop [.node count, .node body] (.node (.countLoop none count body))
  | countLoop_counter {counter : String} {count body : Node} :
    Makes .countLoop [.token counter, .node count, .node body]
      (.node (.countLoop counter count body))
  | eachLoop {item : String} {collection body : Node} :
    Makes .eachLoop [.token item, .node collection, .node body]
      (.node (.eachLoop item collection body))
  | result {e : Node} : Makes .result [.node e] (.node (.ret e))
  | functionExpr {params : List String} {body : List Node} :
    Makes .functionExpr [.names params, .body body]
      (.node (.functionExpr none params (.block body)))
  | call {callee : Node} {args : List Node} :
    Makes .call [.node callee, .args args] (.node (.call callee args))
  | arguments {items : List Item} {args : List Node} :
    items.mapM Item.node? = some args → Makes .arguments items (.args args)
  | index {target position : Node} :
    Makes .index [.node target, .node position] (.node (.index target position))
  | member {target : Node} {name : String} :
    Makes .member [.node target, .token name] (.node (.member target name))
  | number {text : String} :
    Makes .number [.token text] (.node (.number (numberToken text.toList)))
  | string {text : String} :
    Makes .string [.token text]
      (.node (.text (String.ofList (unescape (inner text.toList)))))
  | template {parts : List (String ⊕ Node)} :
    Makes .template [.parts parts] (.node (.template parts))
  | yes : Makes .yes [] (.node (.truth true))
  | no : Makes .no [] (.node (.truth false))
  | nothing : Makes .nothing [] (.node .nothing)
  | ident {name : String} : Makes .ident [.token name] (.node (.ident name))
  | spaceRef {text : String} :
    Makes .spaceRef [.token text] (.node (spaceRefNode text.toList))
  | array {items : List Item} {elements : List Node} :
    items.mapM Item.node? = some elements → Makes .array items (.node (.array elements))
  | object {items : List Item} {entries : List (String × Node)} :
    items.mapM Item.member? = some entries → Makes .object items (.node (.object entries))
  | objectMember {key : String} {value : Node} :
    Makes .objectMember [.token key, .node value] (.entry key value)
  | block {items : List Item} {statements : List Node} :
    items.mapM Item.node? = some statements → Makes .block items (.node (.block statements))
  | binary {left right : Node} {op : String} :
    Makes .binary [.node left, .token op, .node right] (.node (.binary op left right))
  | sign {text : String} : Makes .sign [.token text] (.token text)

/-- The cases of `produce`. -/
theorem makes_of_produce {label : Label} {items : List Item} {item : Item}
    (h : produce label items = some item) : Makes label items item := by
  revert h
  fun_cases produce label items with
  | case1 | case8 | case9 | case10 | case11 | case15 | case24 | case35 | case36 | case38 =>
    -- the labels that take any number of items
    intro h
    obtain ⟨parts, hparts, rfl⟩ := Option.map_eq_some_iff.1 h
    constructor
    exact hparts
  | case41 =>
    intro h
    cases h
  | _ =>
    rintro ⟨⟩
    constructor

section Produce

variable {items : List Item}

private theorem exists_of_mapM {α β : Type} {f : α → Option β} {xs : List α} {ys : List β}
    (h : xs.mapM f = some ys) {y : β} (hy : y ∈ ys) : ∃ x ∈ xs, f x = some y := by
  induction xs generalizing ys with
  | nil =>
    cases h
    cases hy
  | cons x xs ih =>
    simp only [List.mapM_cons, Option.bind_eq_bind, Option.bind_eq_some_iff, Option.pure_def,
      Option.some.injEq] at h
    obtain ⟨z, hz, zs, hzs, rfl⟩ := h
    rcases List.mem_cons.1 hy with rfl | hmem
    · exact ⟨x, by simp, hz⟩
    · obtain ⟨w, hw, hwy⟩ := ih hzs hmem
      exact ⟨w, by simp [hw], hwy⟩

theorem node_mem_of_mapM {ns : List Node} (h : items.mapM Item.node? = some ns) {n : Node}
    (hn : n ∈ ns) : .node n ∈ items := by
  obtain ⟨item, hmem, hitem⟩ := exists_of_mapM h hn
  cases item <;> cases hitem
  exact hmem

theorem entry_mem_of_mapM {entries : List (String × Node)}
    (h : items.mapM Item.member? = some entries) {entry : String × Node}
    (hentry : entry ∈ entries) : .entry entry.1 entry.2 ∈ items := by
  obtain ⟨item, hmem, hitem⟩ := exists_of_mapM h hentry
  cases item <;> cases hitem
  exact hmem

/-- The clauses that some items are come from these items, and so does the body that is left
otherwise unless it is absent. -/
theorem mem_of_clauses? {clauses : List (Node × Node)} {otherwise : Node}
    (h : clauses? items = some (clauses, otherwise)) :
    (∀ clause ∈ clauses, .clause clause.1 clause.2 ∈ items) ∧
      (otherwise ≠ .absent → .fallback otherwise ∈ items) := by
  fun_induction clauses? items generalizing clauses with
  | case1 =>
    cases h
    exact ⟨by simp, fun hne => absurd rfl hne⟩
  | case2 =>
    cases h
    exact ⟨by simp, fun _ => by simp⟩
  | case3 condition body items ih =>
    obtain ⟨⟨rest, _⟩, hrest, heq⟩ := Option.map_eq_some_iff.1 h
    cases heq
    obtain ⟨hclauses, hotherwise⟩ := ih hrest
    refine ⟨List.forall_mem_cons.2 ⟨by simp, fun clause hclause => ?_⟩, fun hne => ?_⟩
    · exact List.mem_cons_of_mem _ (hclauses clause hclause)
    · exact List.mem_cons_of_mem _ (hotherwise hne)
  | case4 => cases h

end Produce

/-! ### Hereditary properties -/

/-- The right-hand sides that a right-hand side is put together from. -/
def Ebnf.parts : Ebnf → List Ebnf
  | .seq es => es
  | .either a b => [a, b]
  | .optional a | .many a | .some a => [a]
  | _ => []

/-- **Hereditary properties** of the items that are derived from a right-hand side: tokens have
them, and the grammar hands them on. `embedded` is the property of the expressions in templates. -/
structure Hereditary (embedded : Node → Prop) (motive : Ebnf → Item → Prop) : Prop where
  token (t : Terminal) (text : String) : motive (.token t) (.token text)
  template {parts : List (String ⊕ Node)} :
    (∀ n, .inr n ∈ parts → embedded n) → motive (.token .template) (.parts parts)
  made {r : Rule} {label : Label} {e : Ebnf} {items : List Item} {item : Item} :
    (some label, e) ∈ grammar r → (∀ i ∈ items, motive e i) → produce label items = some item →
      motive (.rule r) item
  passed {r : Rule} {e : Ebnf} {item : Item} :
    (none, e) ∈ grammar r → motive e item → motive (.rule r) item
  part {e a : Ebnf} {item : Item} : a ∈ e.parts → motive a item → motive e item
  tail {e : Ebnf} {es : List Ebnf} {item : Item} :
    motive (.seq es) item → motive (.seq (e :: es)) item
  embeds {n : Node} : motive (.rule .expression) (.node n) → embedded n

/-- A derivation of an embedded expression whose tree has a property. -/
def Embeds (embedded : Node → Prop) (_source : List Char) (t : Tree) : Prop :=
  ∀ n, t.image = some (.whole n) → embedded n

private theorem mem_of_partImages_textPart {text : List Char} {rest : List (List Char ⊕ Tree)}
    {ps : List (String ⊕ Node)} (h : Tree.partImages (textPart text ++ rest) = some ps) :
    ∃ qs, Tree.partImages rest = some qs ∧ ∀ n, .inr n ∈ ps → .inr n ∈ qs := by
  unfold textPart at h
  split at h
  · exact ⟨ps, h, fun _ hn => hn⟩
  · rw [List.singleton_append, Tree.partImages] at h
    obtain ⟨qs, hqs, rfl⟩ := Option.map_eq_some_iff.1 h
    exact ⟨qs, hqs, fun n hn => by simpa using hn⟩

private theorem embedded_of_templateParts {embedded : Node → Prop} {body : List Char}
    {parts : List (List Char ⊕ Tree)} {ps : List (String ⊕ Node)}
    (h : TemplateParts (Embeds embedded) body parts) (hps : Tree.partImages parts = some ps) :
    ∀ n, .inr n ∈ ps → embedded n := by
  induction h generalizing ps with
  | text | backslash =>
    rw [← List.append_nil (textPart _)] at hps
    obtain ⟨qs, hqs, hmem⟩ := mem_of_partImages_textPart hps
    rw [Tree.partImages] at hqs
    cases hqs
    exact fun n hn => by simpa using hmem n hn
  | @embedded _ _ _ _ t _ _ _ ht _ ih =>
    obtain ⟨qs, hqs, hmem⟩ := mem_of_partImages_textPart hps
    rw [Tree.partImages] at hqs
    split at hqs
    · -- the embedded expression itself, or one of a later part
      rename_i e himage
      obtain ⟨later, hlater, rfl⟩ := Option.map_eq_some_iff.1 hqs
      intro n hn
      rcases List.mem_cons.1 (hmem n hn) with heq | hn
      · cases heq
        exact ht e himage
      · exact ih hlater n hn
    · cases hqs

namespace Hereditary

variable {embedded : Node → Prop} {motive : Ebnf → Item → Prop} (h : Hereditary embedded motive)
include h

/-- **A derivation stands for items with the property**, if its embedded expressions have theirs. -/
theorem of_derives {e : Ebnf} {ts : List Lexeme} {trees : List Tree} {items : List Item}
    (hder : Derives (Embeds embedded) e ts trees) (himages : Tree.images trees = some items) :
    ∀ item ∈ items, motive e item := by
  -- a single tree stands for a single item
  have hsingle {e : Ebnf} {t : Tree} {items : List Item}
      (hitem : ∀ item, t.image = some item → motive e item)
      (himages : Tree.images [t] = some items) : ∀ item ∈ items, motive e item := by
    simp only [Tree.images_cons, Tree.images_nil, Option.map_some, Option.bind_eq_some_iff,
      Option.some.injEq] at himages
    obtain ⟨item, himage, rfl⟩ := himages
    simpa using hitem item himage
  induction hder generalizing items with
  | mark | nil | absent | none =>
    rw [Tree.images_nil] at himages
    cases himages
    exact List.forall_mem_nil _
  | token hne =>
    refine hsingle (fun item himage => ?_) himages
    rw [Tree.image, if_neg hne] at himage
    cases himage
    exact h.token _ _
  | template hparts =>
    refine hsingle (fun item himage => ?_) himages
    rw [Tree.image, if_pos rfl] at himage
    obtain ⟨ps, hps, rfl⟩ := Option.map_eq_some_iff.1 himage
    exact h.template (embedded_of_templateParts hparts hps)
  | made hmem _ ih =>
    refine hsingle (fun item himage => ?_) himages
    rw [Tree.image_node] at himage
    obtain ⟨parts, hparts, hproduce⟩ := Option.bind_eq_some_iff.1 himage
    exact h.made hmem (ih hparts) hproduce
  | passed hmem _ ih => exact fun item hitem => h.passed hmem (ih himages item hitem)
  | left _ ih | right _ ih | present _ ih | one _ ih =>
    exact fun item hitem => h.part (by simp [Ebnf.parts]) (ih himages item hitem)
  | cons _ _ ih ih' =>
    obtain ⟨front, last, rfl, hfront, hlast⟩ := Tree.images_of_append himages
    intro item hitem
    rcases List.mem_append.1 hitem with hitem | hitem
    · exact h.part (by simp [Ebnf.parts]) (ih hfront item hitem)
    · exact h.tail (ih' hlast item hitem)
  | more _ _ ih ih' | another _ _ ih ih' =>
    obtain ⟨front, last, rfl, hfront, hlast⟩ := Tree.images_of_append himages
    intro item hitem
    rcases List.mem_append.1 hitem with hitem | hitem
    · exact ih hfront item hitem
    · exact h.part (by simp [Ebnf.parts]) (ih' hlast item hitem)

/-- What is spelled from a start rule is made by the one production of the rule. -/
private theorem exists_produce_of_spells {start : Rule} {label : Label} {e : Ebnf}
    {ts : List Lexeme} {item : Item} (hrule : grammar start = [(some label, e)])
    (hspells : Spells (Embeds embedded) (.rule start) ts [item]) :
    ∃ items, produce label items = some item ∧ ∀ i ∈ items, motive e i := by
  obtain ⟨trees, hder, himages⟩ := hspells
  obtain ⟨t, rfl, himage⟩ := Tree.eq_singleton_of_images himages
  cases hder with
  | made hmem hparts =>
    rw [hrule] at hmem
    cases List.mem_singleton.1 hmem
    rw [Tree.image_node] at himage
    obtain ⟨items, hitems, hproduce⟩ := Option.bind_eq_some_iff.1 himage
    exact ⟨items, hproduce, h.of_derives hparts hitems⟩
  | passed hmem =>
    rw [hrule] at hmem
    cases List.mem_singleton.1 hmem

/-- The tree of an embedded expression has the property. -/
private theorem of_readEmbedded {source : List Char} {n : Node}
    (hread : readEmbedded source = .ok n) :
    ∃ t, Embeds embedded source t ∧ t.image = some (.whole n) := by
  obtain ⟨tokens, -, hspells⟩ :=
    Reading.spells_of_read (E := Embeds embedded) (fun _ _ hread => by cases hread)
      Reading.spelt_expression hread
  have hembedded : embedded n := by
    obtain ⟨items, hproduce, hitems⟩ := h.exists_produce_of_spells rfl hspells
    match items, hproduce with
    | [.node _], rfl => exact h.embeds (hitems (.node n) (by simp))
  obtain ⟨trees, -, himages⟩ := hspells
  obtain ⟨t, rfl, himage⟩ := Tree.eq_singleton_of_images himages
  refine ⟨t, fun n' himage' => ?_, himage⟩
  rw [himage] at himage'
  cases himage'
  exact hembedded

/-- **The tree of a program text is a program, and all its statements have the property.** -/
theorem of_parseProgram {text : String} {program : Node} (hread : parseProgram text = .ok program) :
    ∃ body, program = .program body ∧ ∀ n ∈ body, motive (.many (.rule .statement)) (.node n) := by
  obtain ⟨tokens, -, hspells⟩ :=
    Reading.spells_of_read (fun _ _ => h.of_readEmbedded) Reading.spelt_program hread
  obtain ⟨items, hproduce, hitems⟩ := h.exists_produce_of_spells rfl hspells
  obtain ⟨body, hbody, heq⟩ := Option.map_eq_some_iff.1 hproduce
  cases heq
  exact ⟨body, rfl, fun n hn => hitems _ (node_mem_of_mapM hbody hn)⟩

end Hereditary

end Sigil
