import Sigil.Proofs.Stored
import Sigil.Session

/-!
# Normal forms of stored trees

Reading a stored tree and storing it again normalizes it: unknown fields are gone, missing ones are
there, and lists that were given by a string or by an object are lists. `Node.schema` says what the
stored form of each kind of node looks like, field by field, and `Json.fits` checks it. The values
that fit are exactly those that normalizing leaves as they are (`Json.normalize_eq_self_iff`), and
reading one gives the tree that it was normalized from.
-/

namespace Sigil

/-! ### Shapes -/

/-- What a stored part of a tree looks like. -/
inductive Shape where
  /-- Any value. -/
  | any
  /-- A truth value. -/
  | flag
  /-- A string, or `null` as well. -/
  | name (orNull : Bool)
  /-- A tree, or a string as well. -/
  | tree (orText : Bool)
  /-- A list of things of one shape. -/
  | list (shape : Shape)
  /-- A list with one thing of each of the shapes. -/
  | tuple (shapes : List Shape)
  /-- An object with exactly these fields, in this order. -/
  | record (fields : List (String × Shape))

namespace Node

open Shape in
/-- **The schema of stored trees**: the kinds of nodes and their fields after the field `type`. -/
def schema : List (String × List (String × Shape)) :=
  [("Program", [("body", list (tree false))]),
    ("Literal", [("value", any), ("kind", any)]),
    ("ArrayLit", [("elements", list (tree false))]),
    ("ObjectLit", [("entries", list (tuple [name false, tree false]))]),
    ("Template", [("parts", list (tree true))]),
    ("Ident", [("name", name false)]),
    ("VarDecl", [("name", name false), ("expr", tree false), ("mutable", flag)]),
    ("Assign", [("name", name false), ("value", tree false)]),
    ("MemberAccess", [("target", tree false), ("name", name false)]),
    ("Index", [("target", tree false), ("index", tree false)]),
    ("NamespaceAccess", [("namespace", name false), ("member", name false)]),
    ("Call", [("func", tree false), ("args", list (tree false))]),
    ("Block", [("statements", list (tree false))]),
    ("FunctionDecl",
      [("name", name false), ("params", list (name false)), ("body", tree false)]),
    ("FunctionExpr", [("name", name true), ("params", list (name false)), ("body", tree false)]),
    ("NamespaceDecl", [("name", name false), ("members", list (tree false))]),
    ("If",
      [("branches", list (record [("condition", tree false), ("body", tree false)])),
        ("else_body", tree false)]),
    ("Match",
      [("subject", tree false),
        ("arms", list (record [("pattern", tree false), ("body", tree false)])),
        ("default", tree false)]),
    ("For", [("var", name true), ("count", tree false), ("body", tree false)]),
    ("ForOf", [("var", name false), ("collection", tree false), ("body", tree false)]),
    ("Return", [("value", tree false)]),
    ("Print", [("expr", tree false)]),
    ("BinaryOp", [("op", name false), ("left", tree false), ("right", tree false)])]

end Node

namespace Json

mutual

/-- Whether a value has a shape. A tree is `null` or an object that the schema describes. -/
@[simp]
def fits : Shape → Json → Bool
  | .any, _ => true
  | .flag, .bool _ => true
  | .name _, .str _ => true
  | .name orNull, .null => orNull
  | .tree orText, .str _ => orText
  | .tree _, .null => true
  | .tree _, .obj ((key, .str kind) :: fields) =>
    key == "type" && match Node.schema.lookup kind with
      | some shapes => fitsFields shapes fields
      | none => false
  | .list shape, .arr items => fitsAll shape items
  | .tuple shapes, .arr items => fitsEach shapes items
  | .record shapes, .obj fields => fitsFields shapes fields
  | _, _ => false

/-- Whether all items have a shape. -/
@[simp]
def fitsAll (shape : Shape) : List Json → Bool
  | [] => true
  | item :: items => fits shape item && fitsAll shape items

/-- Whether each item has its shape. -/
@[simp]
def fitsEach : List Shape → List Json → Bool
  | [], [] => true
  | shape :: shapes, item :: items => fits shape item && fitsEach shapes items
  | _, _ => false

/-- Whether each field has its name and its shape. -/
@[simp]
def fitsFields : List (String × Shape) → List (String × Json) → Bool
  | [], [] => true
  | (name, shape) :: shapes, (key, value) :: fields =>
    key == name && fits shape value && fitsFields shapes fields
  | _, _ => false

end

/-- **Normalizing** a stored tree: it is read and stored again. -/
def normalize (stored : Json) : Except StoredError Json :=
  Node.toJson <$> Node.ofJson stored

/-! ### Inverting shapes -/

section Inversion

variable {shape : Shape} {value : Json}

private theorem fits_flag_iff : fits .flag value = true ↔ ∃ b, value = .bool b := by
  cases value <;> simp

private theorem fits_name_iff {orNull : Bool} :
    fits (.name orNull) value = true ↔
      (∃ s, value = .str s) ∨ orNull = true ∧ value = .null := by
  cases value <;> simp

private theorem fitsAll_iff {items : List Json} :
    fitsAll shape items = true ↔ ∀ item ∈ items, fits shape item = true := by
  induction items with
  | nil => simp
  | cons item items ih => simp [ih]

private theorem fits_list_iff :
    fits (.list shape) value = true ↔
      ∃ items, value = .arr items ∧ ∀ item ∈ items, fits shape item = true := by
  cases value <;> simp [fitsAll_iff]

private theorem fitsFields_nil_iff {fields : List (String × Json)} :
    fitsFields [] fields = true ↔ fields = [] := by
  cases fields <;> simp

/-- Fields fit in order: the first has the first name and fits, and so on. -/
private theorem fitsFields_cons_iff {name : String} {shapes : List (String × Shape)}
    {fields : List (String × Json)} :
    fitsFields ((name, shape) :: shapes) fields = true ↔
      ∃ value rest, fields = (name, value) :: rest ∧ fits shape value = true ∧
        fitsFields shapes rest = true := by
  cases fields with
  | nil => simp
  | cons field fields =>
    obtain ⟨key, value⟩ := field
    simp only [fitsFields, Bool.and_eq_true, beq_iff_eq, List.cons.injEq, Prod.mk.injEq]
    constructor
    · rintro ⟨⟨rfl, hvalue⟩, hfields⟩
      exact ⟨value, fields, ⟨⟨rfl, rfl⟩, rfl⟩, hvalue, hfields⟩
    · rintro ⟨_, _, ⟨⟨rfl, rfl⟩, rfl⟩, hvalue, hfields⟩
      exact ⟨⟨rfl, hvalue⟩, hfields⟩

/-- A member of an object literal is a pair of a name and a tree. -/
private theorem fits_entry_iff :
    fits (.tuple [.name false, .tree false]) value = true ↔
      ∃ key tree, value = .arr [.str key, tree] ∧ fits (.tree false) tree = true := by
  cases value with
  | arr items =>
    match items with
    | [] | [_] | _ :: _ :: _ :: _ => simp
    | [key, tree] =>
      simp only [fits, fitsEach, Bool.and_eq_true, fits_name_iff]
      constructor
      · rintro ⟨⟨s, rfl⟩ | ⟨hnull, -⟩, htree, -⟩
        · exact ⟨s, tree, rfl, htree⟩
        · cases hnull
      · rintro ⟨s, tree, heq, htree⟩
        cases heq
        exact ⟨.inl ⟨s, rfl⟩, htree, trivial⟩
  | _ => simp

/-- A part of a template is a text or a tree. -/
private theorem fits_part_iff :
    fits (.tree true) value = true ↔
      (∃ text, value = .str text) ∨ fits (.tree false) value = true := by
  cases value with
  | obj fields =>
    rcases fields with _ | ⟨⟨key, value⟩, fields⟩
    · simp
    · cases value <;> simp
  | _ => simp

/-- A branch or an arm is a record of two trees. -/
private theorem fits_pair_iff {first : String} :
    fits (.record [(first, .tree false), ("body", .tree false)]) value = true ↔
      ∃ guard body, value = .obj [(first, guard), ("body", body)] ∧
        fits (.tree false) guard = true ∧ fits (.tree false) body = true := by
  cases value with
  | obj fields =>
    simp only [fits, fitsFields_cons_iff, fitsFields_nil_iff]
    constructor
    · rintro ⟨guard, _, rfl, hguard, body, _, rfl, hbody, rfl⟩
      exact ⟨guard, body, rfl, hguard, hbody⟩
    · rintro ⟨guard, body, heq, hguard, hbody⟩
      cases heq
      exact ⟨guard, _, rfl, hguard, body, _, rfl, hbody, rfl⟩
  | _ => simp

end Inversion

end Json

namespace Node

open Json

/-! ### Stored forms fit -/

/-- The stored form of the tree is as the schema says, wherever a tree is asked for. -/
abbrev StoredFits (n : Node) : Prop :=
  ∀ orText, fits (.tree orText) n.toJson = true

/-- Trees that are written out fit where trees are expected. -/
private theorem fitsAll_listToJson {ns : List Node} (h : ∀ n ∈ ns, n.StoredFits) :
    fitsAll (.tree false) (listToJson ns) = true := by
  induction ns with
  | nil => rw [listToJson, fitsAll]
  | cons n ns ih =>
    rw [List.forall_mem_cons] at h
    rw [listToJson, fitsAll, h.1, ih h.2, Bool.and_self]

private theorem fitsAll_entriesToJson {entries : List (String × Node)}
    (h : ∀ entry ∈ entries, entry.2.StoredFits) :
    fitsAll (.tuple [.name false, .tree false]) (entriesToJson entries) = true := by
  induction entries with
  | nil => rw [entriesToJson, fitsAll]
  | cons entry rest ih =>
    rw [List.forall_mem_cons] at h
    rw [entriesToJson, fitsAll, ih h.2]
    simp [h.1 false]

/-- Parts that are written out fit where parts are expected. -/
private theorem fitsAll_partsToJson {parts : List (String ⊕ Node)}
    (h : ∀ n, .inr n ∈ parts → n.StoredFits) :
    fitsAll (.tree true) (partsToJson parts) = true := by
  induction parts with
  | nil => rw [partsToJson, fitsAll]
  | cons part rest ih =>
    have hrest := ih fun n hn => h n (List.mem_cons_of_mem _ hn)
    cases part with
    | inl text =>
      rw [partsToJson, fitsAll, hrest]
      simp
    | inr n => rw [partsToJson, fitsAll, h n List.mem_cons_self, hrest, Bool.and_self]

private theorem fitsAll_pairsToJson (first : String) {pairs : List (Node × Node)}
    (h : ∀ n ∈ pairParts pairs, n.StoredFits) :
    fitsAll (.record [(first, .tree false), ("body", .tree false)]) (pairsToJson first pairs) =
      true := by
  induction pairs with
  | nil => rw [pairsToJson, fitsAll]
  | cons pair rest ih =>
    obtain ⟨guard, body⟩ := pair
    have hguard := h guard (by simp [pairParts]) false
    have hbody := h body (by simp [pairParts]) false
    have hrest := ih fun n hn => h n (List.mem_append_right [guard, body] hn)
    rw [pairsToJson, fitsAll, hrest]
    simp [hguard, hbody]

private theorem fitsAll_names (names : List String) :
    fitsAll (.name false) (names.map Json.str) = true := by
  induction names with
  | nil => rfl
  | cons name names ih =>
    rw [List.map_cons, fitsAll, ih]
    simp

private theorem fits_optionalName (name : Option String) :
    fits (.name true) (optionalName name) = true := by
  cases name <;> simp [optionalName]

/-- **A stored form fits if the stored forms of the parts do.** -/
theorem storedFits_of_parts (n : Node) (hstatements : ∀ c ∈ n.statements, c.StoredFits)
    (hoperands : ∀ c ∈ n.operands, c.StoredFits) : n.StoredFits := by
  intro orText
  cases n with
  | absent => rw [toJson, fits]
  | program body | block body | spaceDecl name body =>
    have hbody : fitsAll (.tree false) (listToJson body) = true := fitsAll_listToJson hstatements
    simp [toJson, tagged, schema, List.lookup_cons, hbody]
  | literal value kind => simp [toJson, tagged, schema, List.lookup_cons]
  | array elements =>
    have helements : fitsAll (.tree false) (listToJson elements) = true :=
      fitsAll_listToJson hoperands
    simp [toJson, tagged, schema, List.lookup_cons, helements]
  | object entries =>
    have hentries := fitsAll_entriesToJson fun (entry : String × Node) (hentry : entry ∈ entries) =>
      hoperands entry.2 (List.mem_map_of_mem hentry)
    simp [toJson, tagged, schema, List.lookup_cons, hentries]
  | template parts =>
    have hparts := fitsAll_partsToJson fun n hn => hoperands n (mem_template_operands hn)
    simp [toJson, tagged, schema, List.lookup_cons, hparts]
  | ident name | spaceMember space name =>
    simp [toJson, tagged, schema, List.lookup_cons]
  | varDecl name value isMutable | assign name value | member value name | ret value
  | output value =>
    have hvalue := hoperands value (by simp [operands]) false
    simp [toJson, tagged, schema, List.lookup_cons, hvalue]
  | index left right | eachLoop name left right | binary name left right =>
    have hleft := hoperands left (by simp [operands]) false
    have hright := hoperands right (by simp [operands]) false
    simp [toJson, tagged, schema, List.lookup_cons, hleft, hright]
  | call callee args =>
    have hcallee := hoperands callee (by simp [operands]) false
    have hargs := fitsAll_listToJson fun n (hn : n ∈ args) => hoperands n (by simp [operands, hn])
    simp [toJson, tagged, schema, List.lookup_cons, hcallee, hargs]
  | functionDecl name params body | functionExpr name params body =>
    have hbody := hoperands body (by simp [operands]) false
    simp [toJson, tagged, schema, List.lookup_cons, namesJson, fitsAll_names, fits_optionalName,
      hbody]
  | conditional branches otherwise =>
    have hotherwise := hoperands otherwise (by simp [operands]) false
    have hbranches := fitsAll_pairsToJson "condition" fun n (hn : n ∈ pairParts branches) =>
      hoperands n (by simp [operands, hn])
    simp [toJson, tagged, schema, List.lookup_cons, hotherwise, hbranches]
  | selection subject arms otherwise =>
    have hsubject := hoperands subject (by simp [operands]) false
    have hotherwise := hoperands otherwise (by simp [operands]) false
    have harms := fitsAll_pairsToJson "pattern" fun n (hn : n ∈ pairParts arms) =>
      hoperands n (by simp [operands, hn])
    simp [toJson, tagged, schema, List.lookup_cons, hsubject, hotherwise, harms]
  | countLoop counter count body =>
    have hcount := hoperands count (by simp [operands]) false
    have hbody := hoperands body (by simp [operands]) false
    simp [toJson, tagged, schema, List.lookup_cons, fits_optionalName, hcount, hbody]

/-- **A tree that is written out fits.** -/
private theorem storedFits (n : Node) : n.StoredFits := by
  induction n using induction_parts with
  | step n hstatements hoperands => exact storedFits_of_parts n hstatements hoperands

/-! ### What fits is a stored form -/

/-- The value is the stored form of a tree if it fits. -/
abbrev Recovers (value : Json) : Prop :=
  fits (.tree false) value = true → ∃ n : Node, n.toJson = value

section Lists

variable {items : List Json} (ih : ∀ value : Json, sizeOf value < sizeOf items → Recovers value)
include ih

/-- Items that fit as trees are trees written out, if that holds of all smaller values. -/
private theorem exists_listToJson (h : ∀ item ∈ items, fits (.tree false) item = true) :
    ∃ ns, listToJson ns = items := by
  induction items with
  | nil => exact ⟨[], by rw [listToJson]⟩
  | cons item items ihitems =>
    rw [List.forall_mem_cons] at h
    obtain ⟨n, hn⟩ := ih item (by simp +arith) h.1
    obtain ⟨ns, hns⟩ := ihitems (fun value hvalue => ih value (by simp; omega)) h.2
    exact ⟨n :: ns, by rw [listToJson, hn, hns]⟩

private theorem exists_entriesToJson
    (h : ∀ item ∈ items, fits (.tuple [.name false, .tree false]) item = true) :
    ∃ entries, entriesToJson entries = items := by
  induction items with
  | nil => exact ⟨[], by rw [entriesToJson]⟩
  | cons item items ihitems =>
    rw [List.forall_mem_cons] at h
    obtain ⟨rest, hrest⟩ := ihitems (fun value hvalue => ih value (by simp; omega)) h.2
    obtain ⟨key, value, rfl, hvalue⟩ := fits_entry_iff.1 h.1
    obtain ⟨n, hn⟩ := ih value (by simp +arith) hvalue
    exact ⟨(key, n) :: rest, by rw [entriesToJson, hn, hrest]⟩

private theorem exists_partsToJson (h : ∀ item ∈ items, fits (.tree true) item = true) :
    ∃ parts, partsToJson parts = items := by
  induction items with
  | nil => exact ⟨[], by rw [partsToJson]⟩
  | cons item items ihitems =>
    rw [List.forall_mem_cons] at h
    obtain ⟨rest, hrest⟩ := ihitems (fun value hvalue => ih value (by simp; omega)) h.2
    rcases fits_part_iff.1 h.1 with ⟨text, rfl⟩ | hitem
    · exact ⟨.inl text :: rest, by rw [partsToJson, hrest]⟩
    · obtain ⟨n, hn⟩ := ih item (by simp +arith) hitem
      exact ⟨.inr n :: rest, by rw [partsToJson, hn, hrest]⟩

private theorem exists_pairsToJson {first : String}
    (h : ∀ item ∈ items,
      fits (.record [(first, .tree false), ("body", .tree false)]) item = true) :
    ∃ pairs, pairsToJson first pairs = items := by
  induction items with
  | nil => exact ⟨[], by rw [pairsToJson]⟩
  | cons item items ihitems =>
    rw [List.forall_mem_cons] at h
    obtain ⟨rest, hrest⟩ := ihitems (fun value hvalue => ih value (by simp; omega)) h.2
    obtain ⟨guard, body, rfl, hguard, hbody⟩ := fits_pair_iff.1 h.1
    obtain ⟨n, hn⟩ := ih guard (by simp +arith) hguard
    obtain ⟨m, hm⟩ := ih body (by simp +arith) hbody
    exact ⟨(n, m) :: rest, by rw [pairsToJson, hn, hm, hrest]⟩

end Lists

/-- A value of a shape whose trees are recovered. -/
structure Held (shape : Shape) (value : Json) : Prop where
  fits : fits shape value = true
  recovers : ∀ inner : Json, sizeOf inner ≤ sizeOf value → Recovers inner

namespace Held

variable {value : Json}

private theorem flag (h : Held .flag value) : ∃ b, .bool b = value := by
  obtain ⟨b, rfl⟩ := fits_flag_iff.1 h.fits
  exact ⟨b, rfl⟩

private theorem name (h : Held (.name false) value) : ∃ s, .str s = value := by
  rcases fits_name_iff.1 h.fits with ⟨s, rfl⟩ | ⟨hnull, -⟩
  · exact ⟨s, rfl⟩
  · cases hnull

/-- A name that may be missing is a name or null. -/
private theorem optionalName (h : Held (.name true) value) : ∃ s, Node.optionalName s = value := by
  rcases fits_name_iff.1 h.fits with ⟨s, rfl⟩ | ⟨-, rfl⟩
  · exact ⟨some s, rfl⟩
  · exact ⟨none, rfl⟩

theorem names (h : Held (.list (.name false)) value) : ∃ names, namesJson names = value := by
  obtain ⟨items, rfl, hitems⟩ := fits_list_iff.1 h.fits
  suffices hnames : ∃ names : List String, names.map Json.str = items by
    obtain ⟨names, rfl⟩ := hnames
    exact ⟨names, rfl⟩
  clear h
  induction items with
  | nil => exact ⟨[], rfl⟩
  | cons item items ih =>
    rw [List.forall_mem_cons] at hitems
    obtain ⟨names, rfl⟩ := ih hitems.2
    rcases fits_name_iff.1 hitems.1 with ⟨s, rfl⟩ | ⟨hnull, -⟩
    · exact ⟨s :: names, rfl⟩
    · cases hnull

private theorem tree (h : Held (.tree false) value) : ∃ n, toJson n = value :=
  h.recovers value (Nat.le_refl _) h.fits

/-- Elements are smaller than the array that holds them. -/
private theorem recovers_items {shape : Shape} {items : List Json} (h : Held shape (.arr items))
    (inner : Json) (hinner : sizeOf inner < sizeOf items) : Recovers inner :=
  h.recovers inner (by simp; omega)

private theorem list (h : Held (.list (.tree false)) value) :
    ∃ ns, .arr (listToJson ns) = value := by
  obtain ⟨items, rfl, hitems⟩ := fits_list_iff.1 h.fits
  obtain ⟨ns, rfl⟩ := exists_listToJson h.recovers_items hitems
  exact ⟨ns, rfl⟩

private theorem entries (h : Held (.list (.tuple [.name false, .tree false])) value) :
    ∃ entries, .arr (entriesToJson entries) = value := by
  obtain ⟨items, rfl, hitems⟩ := fits_list_iff.1 h.fits
  obtain ⟨entries, rfl⟩ := exists_entriesToJson h.recovers_items hitems
  exact ⟨entries, rfl⟩

private theorem parts (h : Held (.list (.tree true)) value) :
    ∃ parts, .arr (partsToJson parts) = value := by
  obtain ⟨items, rfl, hitems⟩ := fits_list_iff.1 h.fits
  obtain ⟨parts, rfl⟩ := exists_partsToJson h.recovers_items hitems
  exact ⟨parts, rfl⟩

private theorem pairs {first : String}
    (h : Held (.list (.record [(first, .tree false), ("body", .tree false)])) value) :
    ∃ pairs, .arr (pairsToJson first pairs) = value := by
  obtain ⟨items, rfl, hitems⟩ := fits_list_iff.1 h.fits
  obtain ⟨pairs, rfl⟩ := exists_pairsToJson h.recovers_items hitems
  exact ⟨pairs, rfl⟩

end Held

/-- The fields of a node whose trees are recovered. -/
structure HeldFields (shapes : List (String × Shape)) (fields : List (String × Json)) : Prop where
  fits : fitsFields shapes fields = true
  recovers : ∀ inner : Json, sizeOf inner < sizeOf fields → Recovers inner

namespace HeldFields

variable {fields : List (String × Json)} {a b c : String} {s t u : Shape}

theorem nil (h : HeldFields [] fields) : fields = [] :=
  fitsFields_nil_iff.1 h.fits

theorem cons {shapes : List (String × Shape)} (h : HeldFields ((a, s) :: shapes) fields) :
    ∃ v rest, fields = (a, v) :: rest ∧ Held s v ∧ HeldFields shapes rest := by
  obtain ⟨v, rest, rfl, hv, hrest⟩ := fitsFields_cons_iff.1 h.fits
  refine ⟨v, rest, rfl, ⟨hv, fun inner hinner => ?_⟩, hrest, fun inner hinner => ?_⟩
  · exact h.recovers inner (by simp; omega)
  · exact h.recovers inner (by simp; omega)

/-- Records of one field, and of two and three below. -/
private theorem one (h : HeldFields [(a, s)] fields) : ∃ v, fields = [(a, v)] ∧ Held s v := by
  obtain ⟨v, _, rfl, hv, h⟩ := h.cons
  obtain rfl := h.nil
  exact ⟨v, rfl, hv⟩

private theorem two (h : HeldFields [(a, s), (b, t)] fields) :
    ∃ v w, fields = [(a, v), (b, w)] ∧ Held s v ∧ Held t w := by
  obtain ⟨v, _, rfl, hv, h⟩ := h.cons
  obtain ⟨w, rfl, hw⟩ := h.one
  exact ⟨v, w, rfl, hv, hw⟩

private theorem three (h : HeldFields [(a, s), (b, t), (c, u)] fields) :
    ∃ v w x, fields = [(a, v), (b, w), (c, x)] ∧ Held s v ∧ Held t w ∧ Held u x := by
  obtain ⟨v, _, rfl, hv, h⟩ := h.cons
  obtain ⟨w, x, rfl, hw, hx⟩ := h.two
  exact ⟨v, w, x, rfl, hv, hw, hx⟩

end HeldFields

/-- **An object that the schema describes is the stored form of a tree**, if its parts are. -/
theorem exists_toJson_of_schema {kind : String} {shapes : List (String × Shape)}
    {fields : List (String × Json)} (hkind : (kind, shapes) ∈ schema)
    (h : HeldFields shapes fields) : ∃ n : Node, n.toJson = tagged kind fields := by
  -- one case for each entry of the schema: its shapes say what the fields are written out from
  simp only [schema, List.mem_cons, Prod.mk.injEq, List.not_mem_nil, or_false] at hkind
  rcases hkind with ⟨rfl, rfl⟩ | ⟨rfl, rfl⟩ | ⟨rfl, rfl⟩ | ⟨rfl, rfl⟩ | ⟨rfl, rfl⟩ | ⟨rfl, rfl⟩ |
    ⟨rfl, rfl⟩ | ⟨rfl, rfl⟩ | ⟨rfl, rfl⟩ | ⟨rfl, rfl⟩ | ⟨rfl, rfl⟩ | ⟨rfl, rfl⟩ | ⟨rfl, rfl⟩ |
    ⟨rfl, rfl⟩ | ⟨rfl, rfl⟩ | ⟨rfl, rfl⟩ | ⟨rfl, rfl⟩ | ⟨rfl, rfl⟩ | ⟨rfl, rfl⟩ | ⟨rfl, rfl⟩ |
    ⟨rfl, rfl⟩ | ⟨rfl, rfl⟩ | ⟨rfl, rfl⟩
  · obtain ⟨_, rfl, hv⟩ := h.one
    obtain ⟨body, rfl⟩ := hv.list
    exact ⟨.program body, by rw [toJson]⟩
  · obtain ⟨value, kind, rfl, -, -⟩ := h.two
    exact ⟨.literal value kind, by rw [toJson]⟩
  · obtain ⟨_, rfl, hv⟩ := h.one
    obtain ⟨elements, rfl⟩ := hv.list
    exact ⟨.array elements, by rw [toJson]⟩
  · obtain ⟨_, rfl, hv⟩ := h.one
    obtain ⟨entries, rfl⟩ := hv.entries
    exact ⟨.object entries, by rw [toJson]⟩
  · obtain ⟨_, rfl, hv⟩ := h.one
    obtain ⟨parts, rfl⟩ := hv.parts
    exact ⟨.template parts, by rw [toJson]⟩
  · obtain ⟨_, rfl, hv⟩ := h.one
    obtain ⟨name, rfl⟩ := hv.name
    exact ⟨.ident name, by rw [toJson]⟩
  · obtain ⟨_, _, _, rfl, h₁, h₂, h₃⟩ := h.three
    obtain ⟨name, rfl⟩ := h₁.name
    obtain ⟨value, rfl⟩ := h₂.tree
    obtain ⟨isMutable, rfl⟩ := h₃.flag
    exact ⟨.varDecl name value isMutable, by rw [toJson]⟩
  · obtain ⟨_, _, rfl, h₁, h₂⟩ := h.two
    obtain ⟨name, rfl⟩ := h₁.name
    obtain ⟨value, rfl⟩ := h₂.tree
    exact ⟨.assign name value, by rw [toJson]⟩
  · obtain ⟨_, _, rfl, h₁, h₂⟩ := h.two
    obtain ⟨target, rfl⟩ := h₁.tree
    obtain ⟨name, rfl⟩ := h₂.name
    exact ⟨.member target name, by rw [toJson]⟩
  · obtain ⟨_, _, rfl, h₁, h₂⟩ := h.two
    obtain ⟨target, rfl⟩ := h₁.tree
    obtain ⟨position, rfl⟩ := h₂.tree
    exact ⟨.index target position, by rw [toJson]⟩
  · obtain ⟨_, _, rfl, h₁, h₂⟩ := h.two
    obtain ⟨space, rfl⟩ := h₁.name
    obtain ⟨name, rfl⟩ := h₂.name
    exact ⟨.spaceMember space name, by rw [toJson]⟩
  · obtain ⟨_, _, rfl, h₁, h₂⟩ := h.two
    obtain ⟨callee, rfl⟩ := h₁.tree
    obtain ⟨args, rfl⟩ := h₂.list
    exact ⟨.call callee args, by rw [toJson]⟩
  · obtain ⟨_, rfl, hv⟩ := h.one
    obtain ⟨statements, rfl⟩ := hv.list
    exact ⟨.block statements, by rw [toJson]⟩
  · obtain ⟨_, _, _, rfl, h₁, h₂, h₃⟩ := h.three
    obtain ⟨name, rfl⟩ := h₁.name
    obtain ⟨params, rfl⟩ := h₂.names
    obtain ⟨body, rfl⟩ := h₃.tree
    exact ⟨.functionDecl name params body, by rw [toJson]⟩
  · obtain ⟨_, _, _, rfl, h₁, h₂, h₃⟩ := h.three
    obtain ⟨name, rfl⟩ := h₁.optionalName
    obtain ⟨params, rfl⟩ := h₂.names
    obtain ⟨body, rfl⟩ := h₃.tree
    exact ⟨.functionExpr name params body, by rw [toJson]⟩
  · obtain ⟨_, _, rfl, h₁, h₂⟩ := h.two
    obtain ⟨name, rfl⟩ := h₁.name
    obtain ⟨members, rfl⟩ := h₂.list
    exact ⟨.spaceDecl name members, by rw [toJson]⟩
  · obtain ⟨_, _, rfl, h₁, h₂⟩ := h.two
    obtain ⟨branches, rfl⟩ := h₁.pairs
    obtain ⟨otherwise, rfl⟩ := h₂.tree
    exact ⟨.conditional branches otherwise, by rw [toJson]⟩
  · obtain ⟨_, _, _, rfl, h₁, h₂, h₃⟩ := h.three
    obtain ⟨subject, rfl⟩ := h₁.tree
    obtain ⟨arms, rfl⟩ := h₂.pairs
    obtain ⟨otherwise, rfl⟩ := h₃.tree
    exact ⟨.selection subject arms otherwise, by rw [toJson]⟩
  · obtain ⟨_, _, _, rfl, h₁, h₂, h₃⟩ := h.three
    obtain ⟨counter, rfl⟩ := h₁.optionalName
    obtain ⟨count, rfl⟩ := h₂.tree
    obtain ⟨body, rfl⟩ := h₃.tree
    exact ⟨.countLoop counter count body, by rw [toJson]⟩
  · obtain ⟨_, _, _, rfl, h₁, h₂, h₃⟩ := h.three
    obtain ⟨item, rfl⟩ := h₁.name
    obtain ⟨collection, rfl⟩ := h₂.tree
    obtain ⟨body, rfl⟩ := h₃.tree
    exact ⟨.eachLoop item collection body, by rw [toJson]⟩
  · obtain ⟨_, rfl, hv⟩ := h.one
    obtain ⟨value, rfl⟩ := hv.tree
    exact ⟨.ret value, by rw [toJson]⟩
  · obtain ⟨_, rfl, hv⟩ := h.one
    obtain ⟨value, rfl⟩ := hv.tree
    exact ⟨.output value, by rw [toJson]⟩
  · obtain ⟨_, _, _, rfl, h₁, h₂, h₃⟩ := h.three
    obtain ⟨op, rfl⟩ := h₁.name
    obtain ⟨left, rfl⟩ := h₂.tree
    obtain ⟨right, rfl⟩ := h₃.tree
    exact ⟨.binary op left right, by rw [toJson]⟩

/-- A value that fits is `null` or an object that the schema describes. -/
private theorem exists_of_fits_tree {value : Json} (h : fits (.tree false) value = true) :
    value = .null ∨ ∃ kind shapes fields, value = tagged kind fields ∧ (kind, shapes) ∈ schema ∧
      fitsFields shapes fields = true := by
  cases value with
  | null => exact .inl rfl
  | obj fields =>
    match fields with
    | [] => simp at h
    | (key, .str kind) :: fields =>
      rw [fits, Bool.and_eq_true, beq_iff_eq] at h
      obtain ⟨rfl, h⟩ := h
      cases hkind : schema.lookup kind with
      | none =>
        rw [hkind] at h
        cases h
      | some shapes =>
        rw [hkind] at h
        obtain ⟨before, after, hschema, -⟩ := List.lookup_eq_some_iff.1 hkind
        exact .inr ⟨kind, shapes, fields, rfl, by simp [hschema], h⟩
    | (_, .null) :: _ | (_, .bool _) :: _ | (_, .int _) :: _ | (_, .float _) :: _
    | (_, .arr _) :: _ | (_, .obj _) :: _ => simp at h
  | _ => simp at h

/-- **Every value that fits is the stored form of a tree.** -/
theorem exists_toJson (value : Json) : Recovers value := by
  -- the parts of a tree may sit deep inside the fields, so the induction is on the size
  induction hsize : sizeOf value using Nat.strongRecOn generalizing value with
  | ind size ih =>
    subst hsize
    intro h
    rcases exists_of_fits_tree h with rfl | ⟨kind, shapes, fields, rfl, hkind, hfields⟩
    · exact ⟨.absent, by rw [toJson]⟩
    · refine exists_toJson_of_schema hkind ⟨hfields, fun inner hinner => ?_⟩
      exact ih (sizeOf inner) (by simp [tagged]; omega) inner rfl

end Node

namespace Json

/-- Normalizing reads a tree and writes it out again. -/
private theorem normalize_eq_ok_iff {stored normal : Json} :
    normalize stored = .ok normal ↔ ∃ n, Node.ofJson stored = .ok n ∧ n.toJson = normal := by
  unfold normalize
  cases Node.ofJson stored with
  | ok n => simp [Functor.map, Except.map]
  | error e => simp [Functor.map, Except.map]

/-- **The values that are normal are those that fit the schema.** -/
theorem normalize_eq_self_iff {value : Json} :
    normalize value = .ok value ↔ fits (.tree false) value = true := by
  rw [normalize_eq_ok_iff]
  constructor
  · rintro ⟨n, -, rfl⟩
    exact n.storedFits false
  · intro h
    obtain ⟨n, rfl⟩ := Node.exists_toJson value h
    exact ⟨n, n.readsBack, rfl⟩

/-- **Normalizing a stored tree changes nothing but its form.** Whatever a value looks like that is
read as a tree, its normal form fits the schema, is normal and is read as the same tree. Other
values with the same normal form are read as the same tree, too. So running what is read from the
normal form does the same, in every scope of every world and with the same end. -/
theorem normalize_keeps_tree {stored : Json} {n : Node} (h : Node.ofJson stored = .ok n) :
    normalize stored = .ok n.toJson ∧ fits (.tree false) n.toJson = true ∧
      Node.ofJson n.toJson = .ok n ∧ normalize n.toJson = .ok n.toJson ∧
      (∀ other, normalize other = .ok n.toJson → Node.ofJson other = .ok n) ∧
      ∀ fuel scope w,
        (Node.ofJson n.toJson).map (fun m => runProgram fuel m scope w) =
          (Node.ofJson stored).map fun m => runProgram fuel m scope w := by
  have hread : Node.ofJson n.toJson = .ok n := n.readsBack
  refine ⟨normalize_eq_ok_iff.2 ⟨n, h, rfl⟩, n.storedFits false, hread,
    normalize_eq_self_iff.2 (n.storedFits false), fun other hother => ?_, fun fuel scope w => ?_⟩
  · obtain ⟨m, hm, hsame⟩ := normalize_eq_ok_iff.1 hother
    -- the stored form determines the tree
    have hm' : Node.ofJson m.toJson = .ok m := m.readsBack
    rw [hsame, hread] at hm'
    rwa [hm']
  · rw [hread, h]

/-- A string in the place of a list, an object in the place of a list, a number in the place of a
truth value, a field that is unknown and one that is missing. -/
theorem normalize_keeps_tree_lenient :
    let stored : Json := .obj [("note", .int 1), ("type", .str "Program"), ("body", .arr [
      .obj [("type", .str "VarDecl"), ("mutable", .int 1), ("name", .str "x"),
        ("expr", .obj [("type", .str "Template"), ("parts", .str "ab")])],
      .obj [("branches", .obj []), ("type", .str "If")]])]
    let n : Node :=
      .program [.varDecl "x" (.template [.inl "a", .inl "b"]) true, .conditional [] .absent]
    normalize stored = .ok n.toJson ∧ Node.ofJson n.toJson = .ok n := by
  intro stored n
  have hread : Node.ofJson stored = .ok n := by
    rfl
  obtain ⟨hnormal, -, hback, -⟩ := normalize_keeps_tree hread
  exact ⟨hnormal, hback⟩

end Json

end Sigil
