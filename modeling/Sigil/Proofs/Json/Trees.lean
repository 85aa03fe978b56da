import Sigil.Proofs.Grammar.Throughout
import Sigil.Proofs.Json.Document
import Sigil.Proofs.Stored

/-!
# Trees of programs as documents

A tree of a program text is stored as a document and read back from it
(`Node.parse_document_toJson`). The literals of such a tree are numbers, texts, truth values and
null (`Node.IsPlainLiteral`), and its stored form has no two fields of one name, so it is read back
as soon as its finite numbers are, one by one (`Node.HasReadableNumber`).
-/

namespace Sigil

open Json

namespace Node

/-- A literal is one that a program text can have; all other trees are admitted. -/
def IsPlainLiteral (n : Node) : Prop :=
  ∀ v kind, n = .literal v kind →
    n = .nothing ∨ (∃ b, n = .truth b) ∨ (∃ s, n = .text s) ∨ ∃ x, n = .number x

/-- A finite number is read back from its written form; all other trees are admitted. -/
def HasReadableNumber (n : Node) : Prop :=
  ∀ x, n = .number x → isFinite x = true → Json.ReadsBack x

private theorem unlabelled_isPlainLiteral : Unlabelled IsPlainLiteral where
  absent _ _ := nofun
  block _ _ _ := nofun
  program _ _ _ := nofun

end Node

open Node

/-- **To have plain literals is hereditary.** -/
theorem hereditary_isPlainLiteral :
    Hereditary (Node.Throughout IsPlainLiteral) fun _ item => item.Throughout IsPlainLiteral where
  token _ _ := trivial
  template hparts := hparts
  made _ hitems hproduce := by
    have hmakes := makes_of_produce hproduce
    refine throughout_of_makes unlabelled_isPlainLiteral hmakes hitems ?_
    rintro n rfl v kind rfl
    generalize hn : Node.literal v kind = n at hmakes
    cases hmakes with
    | nothing => exact .inl rfl
    | yes | no => exact .inr (.inl ⟨_, rfl⟩)
    | string => exact .inr (.inr (.inl ⟨_, rfl⟩))
    | number => exact .inr (.inr (.inr ⟨_, rfl⟩))
    | _ => cases hn
  passed _ hitem := hitem
  part _ hitem := hitem
  tail hitem := hitem
  embeds hitem := hitem

/-- **The literals of a program text are plain.** -/
theorem isPlainLiteral_of_parseProgram {text : String} {program : Node}
    (h : parseProgram text = .ok program) : program.Throughout IsPlainLiteral := by
  obtain ⟨body, rfl, hbody⟩ := hereditary_isPlainLiteral.of_parseProgram h
  exact .intro (unlabelled_isPlainLiteral.program body) hbody (List.forall_mem_nil _)

namespace Node

/-! ### Stored forms -/

private theorem storable_tagged (kind : String) {fields : List (String × Json)}
    (hnodup : ("type" :: fields.map Prod.fst).Nodup)
    (hfields : ∀ field ∈ fields, Storable field.2) : Storable (tagged kind fields) :=
  .obj hnodup (List.forall_mem_cons.2 ⟨.str kind, hfields⟩)

private theorem storable_listToJson {ns : List Node} (h : ∀ n ∈ ns, Storable n.toJson) :
    Storable (.arr (listToJson ns)) := by
  refine .arr ?_
  induction ns with
  | nil => exact List.forall_mem_nil _
  | cons n ns ih =>
    rw [List.forall_mem_cons] at h
    exact List.forall_mem_cons.2 ⟨h.1, ih h.2⟩

private theorem storable_entriesToJson {entries : List (String × Node)}
    (h : ∀ entry ∈ entries, Storable entry.2.toJson) :
    Storable (.arr (entriesToJson entries)) := by
  refine .arr ?_
  induction entries with
  | nil => exact List.forall_mem_nil _
  | cons entry entries ih =>
    rw [List.forall_mem_cons] at h
    exact List.forall_mem_cons.2
      ⟨.arr (List.forall_mem_cons.2 ⟨.str _, List.forall_mem_singleton.2 h.1⟩), ih h.2⟩

private theorem storable_partsToJson {parts : List (String ⊕ Node)}
    (h : ∀ n, .inr n ∈ parts → Storable n.toJson) : Storable (.arr (partsToJson parts)) := by
  refine .arr ?_
  induction parts with
  | nil => exact List.forall_mem_nil _
  | cons part parts ih =>
    have hrest := ih fun n hn => h n (List.mem_cons_of_mem _ hn)
    cases part with
    | inl text => exact List.forall_mem_cons.2 ⟨.str text, hrest⟩
    | inr n => exact List.forall_mem_cons.2 ⟨h n List.mem_cons_self, hrest⟩

private theorem storable_pairsToJson (first : String) (hfirst : first ≠ "body")
    {pairs : List (Node × Node)} (h : ∀ n ∈ pairParts pairs, Storable n.toJson) :
    Storable (.arr (pairsToJson first pairs)) := by
  refine .arr ?_
  induction pairs with
  | nil => exact List.forall_mem_nil _
  | cons pair pairs ih =>
    obtain ⟨guard, body⟩ := pair
    have hguard := h guard (by simp [pairParts])
    have hbody := h body (by simp [pairParts])
    have hpair : Storable (.obj [(first, guard.toJson), ("body", body.toJson)]) :=
      .obj (by simpa using hfirst)
        (List.forall_mem_cons.2 ⟨hguard, List.forall_mem_singleton.2 hbody⟩)
    exact List.forall_mem_cons.2
      ⟨hpair, ih fun n hn => h n (List.mem_append_right [guard, body] hn)⟩

private theorem storable_optionalName (name : Option String) : Storable (optionalName name) := by
  cases name with
  | none => exact .null
  | some s => exact .str s

private theorem storable_namesJson (names : List String) : Storable (namesJson names) := by
  refine .arr fun item hitem => ?_
  obtain ⟨name, -, rfl⟩ := List.mem_map.1 hitem
  exact .str name

/-- A literal with a readable number. -/
private theorem storable_literal {v kind : Json} (hplain : IsPlainLiteral (.literal v kind))
    (hnumber : HasReadableNumber (.literal v kind)) : Storable (Node.literal v kind).toJson := by
  have hvalue : Storable v ∧ Storable kind := by
    rcases hplain v kind rfl with h | ⟨b, h⟩ | ⟨s, h⟩ | ⟨x, h⟩
    · cases h
      exact ⟨.null, .str _⟩
    · cases h
      exact ⟨.bool b, .str _⟩
    · cases h
      exact ⟨.str s, .str _⟩
    · cases h
      exact ⟨.float (hnumber x rfl), .str _⟩
  exact storable_tagged _ (by simp)
    (List.forall_mem_cons.2 ⟨hvalue.1, List.forall_mem_singleton.2 hvalue.2⟩)

/-- **The stored form of a tree is read back if its literals are.** -/
theorem storable_toJson {n : Node} (hplain : n.Throughout IsPlainLiteral)
    (hnumber : n.Throughout HasReadableNumber) : Storable n.toJson := by
  -- one induction over the tree has to carry both properties
  have h := hplain.and hnumber
  clear hplain hnumber
  induction h with
  | @intro n hn _ _ hstatements hoperands =>
    cases n with
    | absent => exact .null
    | literal v kind => exact storable_literal hn.1 hn.2
    | program body | block body =>
      exact storable_tagged _ (by simp)
        (List.forall_mem_singleton.2 (storable_listToJson hstatements))
    | array elements =>
      exact storable_tagged _ (by simp)
        (List.forall_mem_singleton.2 (storable_listToJson hoperands))
    | object entries =>
      have hentries := storable_entriesToJson fun entry hentry =>
        hoperands entry.2 (List.mem_map_of_mem hentry)
      exact storable_tagged _ (by simp) (List.forall_mem_singleton.2 hentries)
    | template parts =>
      have hparts := storable_partsToJson fun n hn => hoperands n (mem_template_operands hn)
      exact storable_tagged _ (by simp) (List.forall_mem_singleton.2 hparts)
    | ident name => exact storable_tagged _ (by simp) (by simp [Storable.str])
    | spaceMember space name => exact storable_tagged _ (by simp) (by simp [Storable.str])
    | varDecl name value isMutable =>
      have hvalue := hoperands value (by simp [operands])
      exact storable_tagged _ (by simp) (by simp [Storable.str, Storable.bool, hvalue])
    | assign name value | member value name =>
      have hvalue := hoperands value (by simp [operands])
      exact storable_tagged _ (by simp) (by simp [Storable.str, hvalue])
    | ret value | output value =>
      exact storable_tagged _ (by simp)
        (List.forall_mem_singleton.2 (hoperands value (by simp [operands])))
    | index left right | eachLoop name left right | binary name left right =>
      have hleft := hoperands left (by simp [operands])
      have hright := hoperands right (by simp [operands])
      exact storable_tagged _ (by simp) (by simp [Storable.str, hleft, hright])
    | call callee args =>
      have hcallee := hoperands callee (by simp [operands])
      have hargs := storable_listToJson fun n hn => hoperands n (List.mem_cons_of_mem callee hn)
      exact storable_tagged _ (by simp) (by simp [hcallee, hargs])
    | functionDecl name params body =>
      have hbody := hoperands body (by simp [operands])
      exact storable_tagged _ (by simp) (by simp [Storable.str, storable_namesJson, hbody])
    | functionExpr name params body =>
      have hbody := hoperands body (by simp [operands])
      exact storable_tagged _ (by simp)
        (by simp [storable_optionalName, storable_namesJson, hbody])
    | spaceDecl name members =>
      have hmembers : Storable (.arr (listToJson members)) := storable_listToJson hstatements
      exact storable_tagged _ (by simp) (by simp [Storable.str, hmembers])
    | conditional branches otherwise =>
      have hotherwise := hoperands otherwise (by simp [operands])
      have hbranches := storable_pairsToJson "condition" (by simp) fun n hn =>
        hoperands n (List.mem_cons_of_mem otherwise hn)
      exact storable_tagged _ (by simp) (by simp [hotherwise, hbranches])
    | selection subject arms otherwise =>
      have hsubject := hoperands subject (by simp [operands])
      have hotherwise := hoperands otherwise (by simp [operands])
      have harms := storable_pairsToJson "pattern" (by simp) fun n hn =>
        hoperands n (List.mem_cons_of_mem subject (List.mem_cons_of_mem otherwise hn))
      exact storable_tagged _ (by simp) (by simp [hsubject, hotherwise, harms])
    | countLoop counter count body =>
      have hcount := hoperands count (by simp [operands])
      have hbody := hoperands body (by simp [operands])
      exact storable_tagged _ (by simp) (by simp [storable_optionalName, hcount, hbody])

/-- **The tree of a program is read back from its document**, if its finite numbers are read back
one by one. -/
theorem parse_document_toJson {text : String} {program : Node}
    (h : parseProgram text = .ok program) (hnumber : program.Throughout HasReadableNumber) :
    Json.parse program.toJson.document = .ok program.toJson ∧
      '\r' ∉ program.toJson.document.toList := by
  have hstorable := storable_toJson (isPlainLiteral_of_parseProgram h) hnumber
  refine ⟨parse_document hstorable, ?_⟩
  rw [document, String.toList_ofList]
  exact not_mem_write .document hstorable 0

end Node

end Sigil
