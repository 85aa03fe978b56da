import Sigil.Proofs.Parts
import Sigil.Syntax.Stored

/-!
# Stored trees are read back

The stored form of a tree is an object with a field for each of its parts, and reading looks for
these fields under the same names. So **every tree is read back from its stored form**
(`Node.ofJson_toJson`), wherever parts of it are absent and whatever its literals hold. The lists of
parts of each kind have one lemma, a tree is read back if its parts are (`Node.readsBack_of_parts`),
and the rest is induction on parts.
-/

namespace Sigil

namespace Json

variable {fields : List (String × Json)} {key name : String} {value : Json}

@[simp]
theorem field?_cons_self : field? ((name, value) :: fields) name = some value := by
  simp [field?, List.lookup_cons_self]

@[simp]
theorem field?_cons_of_ne (h : name ≠ key) :
    field? ((key, value) :: fields) name = field? fields name := by
  simp [field?, List.lookup_cons, beq_false_of_ne h]

end Json

namespace Node

/-- Successful reading as the unit of the monad, so that the monad laws apply to it. -/
private theorem ok_eq_pure {α : Type} (a : α) : (Except.ok a : Except StoredError α) = pure a :=
  rfl

/-! ### Fields with names -/

section Names

variable {fields : List (String × Json)} {key name : String} {value : Json}

@[simp]
theorem needed_cons_self : needed ((name, value) :: fields) name = pure value := by
  simp [needed, ok_eq_pure]

@[simp]
theorem needed_cons_of_ne (h : name ≠ key) :
    needed ((key, value) :: fields) name = needed fields name := by
  simp [needed, h]

@[simp]
theorem nameOfJson_str (s : String) : nameOfJson (.str s) = pure s :=
  rfl

/-- Names are read back one by one. -/
private theorem mapM_nameOfJson (names : List String) :
    (names.map Json.str).mapM nameOfJson = pure names := by
  induction names with
  | nil => rfl
  | cons name names ih =>
    rw [List.map_cons, List.mapM_cons, nameOfJson_str, ih, pure_bind, pure_bind]

@[simp]
theorem namesField_cons_self (names : List String) :
    namesField ((name, namesJson names) :: fields) name = pure names := by
  rw [namesField, needed_cons_self, pure_bind]
  exact mapM_nameOfJson names

@[simp]
theorem namesField_cons_of_ne (h : name ≠ key) :
    namesField ((key, value) :: fields) name = namesField fields name := by
  simp only [namesField, needed_cons_of_ne h]

@[simp]
theorem optionalNameField_cons_self (s : Option String) :
    optionalNameField ((name, optionalName s) :: fields) name = pure s := by
  cases s <;> simp [optionalNameField, optionalName, ok_eq_pure]

@[simp]
theorem optionalNameField_cons_of_ne (h : name ≠ key) :
    optionalNameField ((key, value) :: fields) name = optionalNameField fields name := by
  simp only [optionalNameField, Json.field?_cons_of_ne h]

end Names

/-! ### Lists of parts -/

/-- The tree is read back from its stored form. -/
abbrev ReadsBack (n : Node) : Prop :=
  ofJson n.toJson = pure n

/-- Trees are read back if each of them is. -/
private theorem listOfItems_listToJson (ns : List Node) (h : ∀ n ∈ ns, n.ReadsBack) :
    listOfItems (listToJson ns) = pure ns := by
  induction ns with
  | nil => rw [listToJson, listOfItems, ok_eq_pure]
  | cons n ns ih =>
    rw [List.forall_mem_cons] at h
    rw [listToJson, listOfItems, h.1, ih h.2]
    simp

/-- Members are read back if their values are. -/
private theorem entriesOfItems_entriesToJson (entries : List (String × Node))
    (h : ∀ entry ∈ entries, entry.2.ReadsBack) :
    entriesOfItems (entriesToJson entries) = pure entries := by
  induction entries with
  | nil => rw [entriesToJson, entriesOfItems, ok_eq_pure]
  | cons entry rest ih =>
    rw [List.forall_mem_cons] at h
    rw [entriesToJson, entriesOfItems, h.1, ih h.2]
    simp

/-- The stored form of a tree is never a string, so it is not taken for literal text. -/
private theorem partsOfItems_toJson (n : Node) (items : List Json) :
    partsOfItems (n.toJson :: items) =
      (do return .inr (← ofJson n.toJson) :: (← partsOfItems items)) := by
  cases n <;> rw [toJson, partsOfItems] <;> exact nofun

/-- Parts of a template are read back if the trees among them are. -/
private theorem partsOfItems_partsToJson (parts : List (String ⊕ Node))
    (h : ∀ n, .inr n ∈ parts → n.ReadsBack) : partsOfItems (partsToJson parts) = pure parts := by
  induction parts with
  | nil => rw [partsToJson, partsOfItems, ok_eq_pure]
  | cons part rest ih =>
    have hrest := ih fun n hn => h n (List.mem_cons_of_mem _ hn)
    cases part with
    | inl text =>
      rw [partsToJson, partsOfItems, hrest]
      simp
    | inr n =>
      rw [partsToJson, partsOfItems_toJson, h n List.mem_cons_self, hrest]
      simp

/-- Branches and arms have two fields, the body and another one. -/
private theorem pairsOfItems_pairsToJson (first : String) (hfirst : first ≠ "body")
    (pairs : List (Node × Node)) (h : ∀ n ∈ pairParts pairs, n.ReadsBack) :
    pairsOfItems (pairsToJson first pairs) first = pure pairs := by
  induction pairs with
  | nil => rw [pairsToJson, pairsOfItems, ok_eq_pure]
  | cons pair rest ih =>
    obtain ⟨guard, body⟩ := pair
    have hguard : guard.ReadsBack := h guard (by simp [pairParts])
    have hbody : body.ReadsBack := h body (by simp [pairParts])
    have hrest := ih fun n hn => h n (List.mem_append_right [guard, body] hn)
    rw [pairsToJson, pairsOfItems, treeField, if_pos rfl, treeField, if_neg hfirst, treeField,
      if_pos rfl, hguard, hbody, hrest]
    simp

/-! ### Trees -/

/-- **A tree is read back if its parts are.** -/
theorem readsBack_of_parts (n : Node) (hstatements : ∀ c ∈ n.statements, c.ReadsBack)
    (hoperands : ∀ c ∈ n.operands, c.ReadsBack) : n.ReadsBack := by
  cases n with
  | absent => rw [ReadsBack, toJson, ofJson, ok_eq_pure]
  | program body | block body =>
    rw [ReadsBack, toJson, tagged, ofJson]
    simp [listField, listOfJson, listOfItems_listToJson body hstatements]
  | literal value kind =>
    rw [ReadsBack, toJson, tagged, ofJson]
    simp
  | array elements =>
    rw [ReadsBack, toJson, tagged, ofJson]
    simp [listField, listOfJson, listOfItems_listToJson elements hoperands]
  | object entries =>
    have hentries := entriesOfItems_entriesToJson entries fun entry hentry =>
      hoperands entry.2 (List.mem_map_of_mem hentry)
    rw [ReadsBack, toJson, tagged, ofJson]
    simp [entriesField, entriesOfJson, hentries]
  | template parts =>
    have hparts := partsOfItems_partsToJson parts fun n hn =>
      hoperands n (mem_template_operands hn)
    rw [ReadsBack, toJson, tagged, ofJson]
    simp [partsField, partsOfJson, hparts]
  | ident name | spaceMember space name =>
    rw [ReadsBack, toJson, tagged, ofJson]
    simp [nameField]
  | varDecl name value isMutable =>
    have hvalue := hoperands value (by simp [operands])
    rw [ReadsBack, toJson, tagged, ofJson]
    simp [nameField, treeField, Json.truthy, hvalue]
  | assign name value | member value name =>
    have hvalue := hoperands value (by simp [operands])
    rw [ReadsBack, toJson, tagged, ofJson]
    simp [nameField, treeField, hvalue]
  | ret value | output value =>
    have hvalue := hoperands value (by simp [operands])
    rw [ReadsBack, toJson, tagged, ofJson]
    simp [treeField, hvalue]
  | index left right | eachLoop name left right | binary name left right =>
    have hleft := hoperands left (by simp [operands])
    have hright := hoperands right (by simp [operands])
    rw [ReadsBack, toJson, tagged, ofJson]
    simp [nameField, treeField, hleft, hright]
  | call callee args =>
    have hcallee := hoperands callee (by simp [operands])
    have hargs := listOfItems_listToJson args fun n hn => hoperands n (by simp [operands, hn])
    rw [ReadsBack, toJson, tagged, ofJson]
    simp [treeField, listField, listOfJson, hcallee, hargs]
  | functionDecl name params body | functionExpr name params body =>
    have hbody := hoperands body (by simp [operands])
    rw [ReadsBack, toJson, tagged, ofJson]
    simp [nameField, treeField, hbody]
  | spaceDecl name members =>
    rw [ReadsBack, toJson, tagged, ofJson]
    simp [nameField, listField, listOfJson, listOfItems_listToJson members hstatements]
  | conditional branches otherwise =>
    have hotherwise := hoperands otherwise (by simp [operands])
    have hbranches := pairsOfItems_pairsToJson "condition" (by simp) branches fun n hn =>
      hoperands n (by simp [operands, hn])
    rw [ReadsBack, toJson, tagged, ofJson]
    simp [pairsField, pairsOfJson, optionalTreeField, hotherwise, hbranches]
  | selection subject arms otherwise =>
    have hsubject := hoperands subject (by simp [operands])
    have hotherwise := hoperands otherwise (by simp [operands])
    have harms := pairsOfItems_pairsToJson "pattern" (by simp) arms fun n hn =>
      hoperands n (by simp [operands, hn])
    rw [ReadsBack, toJson, tagged, ofJson]
    simp [treeField, pairsField, pairsOfJson, optionalTreeField, hsubject, hotherwise, harms]
  | countLoop counter count body =>
    have hcount := hoperands count (by simp [operands])
    have hbody := hoperands body (by simp [operands])
    rw [ReadsBack, toJson, tagged, ofJson]
    simp [treeField, hcount, hbody]

/-- Every tree is read back, by induction on its parts. -/
theorem readsBack (n : Node) : n.ReadsBack := by
  induction n using induction_parts with
  | step n hstatements hoperands => exact readsBack_of_parts n hstatements hoperands

/-- **Reading undoes storing.** Every tree is read back from its stored form: with absent parts
anywhere, with programs inside, with any JSON value in a literal and with any names. -/
theorem ofJson_toJson (n : Node) : ofJson n.toJson = .ok n :=
  n.readsBack

end Node

end Sigil
