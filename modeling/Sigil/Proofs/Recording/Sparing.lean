import Sigil.Proofs.Recording.Course

/-!
# Computations that spare containers

`Eval.Spares strict s₀ post x` is the logic of this module: started in a store that is no older than
`s₀`, the computation `x` changes the store step by step and spares all containers, and its results
have the property `post` of the store and the result. Every operation on the world and every
function of the standard library that takes no function has one lemma, except for pushing and
popping.
-/

namespace Sigil

open Eval

/-- A store that is closed, in the strict reading; any store in the other. -/
def Store.Sound (strict : Prop) (s : Store) : Prop :=
  strict → s.Closed

namespace Eval

variable {α β γ : Type} {strict : Prop} {s₀ : Store} {post : Store → α → Prop}
  {post' : Store → β → Prop}

/-- **A computation that spares containers.** -/
structure Spares (strict : Prop) (s₀ : Store) (post : Store → α → Prop) (x : Eval α) : Prop where
  /-- The changes. -/
  path : ∀ w : World, s₀.Older w.store → w.store.Sound strict →
    Relation.ReflTransGen (Store.Sparing strict) w.store (storeAfter (x w))
  /-- What is known of the results. -/
  result : ∀ w : World, s₀.Older w.store → w.store.Sound strict →
    ∀ a w', x w = .ok a w' → post w'.store a

/-! ### Putting computations together -/

/-- A result that is there already changes nothing. -/
theorem spares_pure {a : α} (h : ∀ s, s₀.Older s → post s a) :
    Spares strict s₀ post (pure a : Eval α) where
  path _ _ _ := .refl
  result w hw _ _ _ hresult := by
    cases hresult
    exact h w.store hw

/-- Stopping changes nothing. -/
theorem spares_throw (stop : Stop) : Spares strict s₀ post (throw stop : Eval α) where
  path _ _ _ := .refl
  result _ _ _ _ _ hresult := by cases hresult

theorem spares_ofExcept {x : Except Stop α} (h : ∀ a, x = .ok a → ∀ s, s₀.Older s → post s a) :
    Spares strict s₀ post (ofExcept x : Eval α) := by
  cases x with
  | ok a => exact spares_pure (h a rfl)
  | error stop => exact spares_throw stop

/-- Changes that spare containers are what an operation on the world may do. -/
theorem leads_of_path {s s' : Store} (h : Relation.ReflTransGen (Store.Sparing strict) s s') :
    Deed.operation.Leads strict s s' :=
  h

namespace Spares

/-- In sequence, the second computation starts from a store that is no older than the first result.
-/
theorem bind {x : Eval α} {f : α → Eval β} (hx : Spares strict s₀ post x)
    (hf : ∀ s₁ a, s₀.Older s₁ → post s₁ a → Spares strict s₁ post' (f a)) :
    Spares strict s₀ post' (x >>= f) := by
  have hnext {w w₁ : World} {a : α} (hw : s₀.Older w.store) (hsound : w.store.Sound strict)
      (hrun : x w = .ok a w₁) :
      s₀.Older w₁.store ∧ w₁.store.Sound strict ∧ Spares strict w₁.store post' (f a) := by
    have hpath := hx.path w hw hsound
    rw [hrun] at hpath
    have hleads := leads_of_path hpath
    have hw₁ := hw.trans hleads.older
    exact ⟨hw₁, fun hstrict => hleads.closed hstrict (hsound hstrict),
      hf w₁.store a hw₁ (hx.result w hw hsound a w₁ hrun)⟩
  constructor
  case path =>
    intro w hw hsound
    have hpath := hx.path w hw hsound
    simp only [Bind.bind, EStateM.bind]
    cases hrun : x w with
    | ok a w₁ =>
      rw [hrun] at hpath
      obtain ⟨-, hsound₁, hfa⟩ := hnext hw hsound hrun
      exact hpath.trans (hfa.path w₁ (.refl _) hsound₁)
    | error stop w₁ => rwa [hrun] at hpath
  case result =>
    intro w hw hsound b w' hresult
    obtain ⟨a, w₁, hrun, hrest⟩ := exists_of_bind_eq_ok hresult
    obtain ⟨-, hsound₁, hfa⟩ := hnext hw hsound hrun
    exact hfa.result w₁ (.refl _) hsound₁ b w' hrest

/-- Less may be known of the results. -/
theorem weaken {x : Eval α} {post' : Store → α → Prop} (hx : Spares strict s₀ post x)
    (h : ∀ s a, post s a → post' s a) : Spares strict s₀ post' x where
  path := hx.path
  result w hw hsound a w' hresult := h _ a (hx.result w hw hsound a w' hresult)

/-- A computation that takes at most one step. -/
private theorem of_step {x : Eval α}
    (h : ∀ w : World, s₀.Older w.store →
      storeAfter (x w) = w.store ∨ Store.Sparing strict w.store (storeAfter (x w))) :
    Spares strict s₀ (fun _ _ => True) x where
  path w hw _ := by
    rcases h w hw with heq | hstep
    · rw [heq]
    · exact .single hstep
  result _ _ _ _ _ _ := trivial

end Spares

/-- Results of one computation after another, of which something lasting is known. -/
theorem spares_mapM {f : γ → Eval α} {xs : List γ}
    (hpost : ∀ s s' a, s.Older s' → post s a → post s' a)
    (h : ∀ s₁, s₀.Older s₁ → ∀ x ∈ xs, Spares strict s₁ post (f x)) :
    Spares strict s₀ (fun s as => ∀ a ∈ as, post s a) (xs.mapM f) := by
  induction xs generalizing s₀ with
  | nil => exact spares_pure fun _ _ => List.forall_mem_nil _
  | cons x xs ih =>
    rw [List.mapM_cons]
    refine (h s₀ (.refl _) x List.mem_cons_self).bind fun s₁ a hs₁ ha => ?_
    refine (ih fun s₂ hs₂ y hy => h s₂ (hs₁.trans hs₂) y (List.mem_cons_of_mem x hy)).bind
      fun s₂ as hs₂ has => ?_
    refine spares_pure fun s hs =>
      List.forall_mem_cons.2 ⟨?_, fun b hb => hpost _ _ b hs (has b hb)⟩
    exact hpost _ _ a (hs₂.trans hs) ha

/-! ### Operations on the world -/

/-- Reading changes nothing, and a closed store holds only values that exist. -/
theorem spares_read {f : Store → α} (h : ∀ s, s₀.Older s → s.Sound strict → post s (f s)) :
    Spares strict s₀ post (read f) where
  path _ _ _ := .refl
  result w hw hsound a w' hresult := by
    cases hresult
    exact h w.store hw hsound

theorem spares_newScope (parent : Option ScopeRef) :
    Spares strict s₀ (fun _ _ => True) (add (Store.newScope parent)) :=
  .of_step fun w _ => .inr (.newScope w.store parent)

/-- A variable that is declared immutable. -/
theorem spares_define (scope : ScopeRef) (name : String) {v : Value} (hv : v.Sound strict s₀) :
    Spares strict s₀ (fun _ _ => True) (define scope name v false) :=
  .of_step fun _ hw => .inr (.define scope name (hv.of_older hw))

theorem spares_defineSpace (scope : ScopeRef) (name : String) (space : ScopeRef) :
    Spares strict s₀ (fun _ _ => True) (defineSpace scope name space) :=
  .of_step fun w _ => .inr (.defineSpace w.store scope name space)

/-- Assigning writes to the cell that the search for the name comes to. -/
theorem spares_assign (scope : ScopeRef) (name : String) {v : Value} (hv : v.Sound strict s₀) :
    Spares strict s₀ (fun _ _ => True) (assign scope name v) := by
  refine .of_step fun w hw => ?_
  simp only [assign, Bind.bind, EStateM.bind, read]
  cases htarget : w.store.target scope name with
  | ok cell => exact .inr (.writeCell htarget (hv.of_older hw))
  | error e => exact .inl rfl

/-- A new array is none of the arrays there are. -/
theorem spares_newArray {items : Array Value} (h : ∀ v ∈ items, v.Sound strict s₀) :
    Spares strict s₀ (Value.Sound strict) (newArray items) where
  path w hw _ := .single (.newArray fun v hv => (h v hv).of_older hw)
  result w _ _ a w' hresult := by
    cases hresult
    exact fun _ => by simp [Value.Known]

/-- A new object is none of the objects there are. -/
theorem spares_newObject {fields : Table Value} (h : ∀ v ∈ fields.values, v.Sound strict s₀) :
    Spares strict s₀ (Value.Sound strict) (newObject fields) where
  path w hw _ := .single (.newObject fun v hv => (h v hv).of_older hw)
  result w _ _ a w' hresult := by
    cases hresult
    exact fun _ => by simp [Value.Known]

/-- A new function is none of the functions there are. -/
theorem spares_newFunction (function : Function) :
    Spares strict s₀ (Value.Sound strict) (newFunction function) where
  path w _ _ := .single (.newFunction w.store function)
  result w _ _ a w' hresult := by
    cases hresult
    exact fun _ => by simp [Value.Known]

/-- Tracing changes the log only. -/
theorem spares_note (event : TraceEvent) : Spares strict s₀ (fun _ _ => True) (note event) := by
  refine .of_step fun w _ => .inl ?_
  simp only [note]
  split <;> rfl

/-- Putting out a value changes the output and the log only. -/
theorem spares_emit (v : Value) : Spares strict s₀ (fun _ _ => True) (emit v) :=
  (spares_note _).bind fun _ _ _ _ => .of_step fun _ _ => .inl rfl

theorem spares_changeLog (f : Log → Log) : Spares strict s₀ (fun _ _ => True) (changeLog f) :=
  .of_step fun _ _ => .inl rfl

end Eval

/-! ### Reading from a closed store -/

namespace Store

variable {strict : Prop} {s : Store} (hs : s.Sound strict)
include hs

/-- The elements of an array exist. -/
theorem Sound.items (r : ArrayRef) : ∀ v ∈ s.items r, v.Sound strict s := by
  intro v hv hstrict
  unfold Store.items at hv
  cases hitems : s.arrays[r.index]? with
  | none => simp [hitems] at hv
  | some items =>
    rw [hitems, Option.getD_some] at hv
    exact (hs hstrict).items items (Array.mem_of_getElem? hitems) v hv

/-- The fields of an object exist. -/
theorem Sound.fields (r : ObjectRef) : ∀ v ∈ (s.fields r).values, v.Sound strict s := by
  intro v hv hstrict
  unfold Store.fields at hv
  cases hfields : s.objects[r.index]? with
  | none => simp [hfields, Table.values, Table.empty] at hv
  | some fields =>
    rw [hfields, Option.getD_some] at hv
    exact (hs hstrict).fields fields (Array.mem_of_getElem? hfields) v hv

/-- The value of a variable exists. -/
theorem Sound.cell {r : CellRef} {cell : Cell} (h : s.cell? r = some cell) :
    cell.value.Sound strict s :=
  fun hstrict => (hs hstrict).cells cell (Array.mem_of_getElem? h)

/-- What a search for a name finds exists. -/
theorem Sound.lookup {r : ScopeRef} {name : String} {v : Value} (h : s.lookup r name = .ok v) :
    v.Sound strict s := by
  unfold Store.lookup at h
  split at h
  · rename_i cell hcell
    cases h
    obtain ⟨ref, -, hcell⟩ := Option.bind_eq_some_iff.1 hcell
    exact hs.cell hcell
  · cases h

/-- What a search for a member of a namespace finds exists. -/
theorem Sound.lookupMember {r : ScopeRef} {space member : String} {v : Value}
    (h : s.lookupMember r space member = .ok v) : v.Sound strict s := by
  unfold Store.lookupMember at h
  split at h
  · cases h
  · split at h
    · rename_i cell hcell
      cases h
      obtain ⟨ref, -, hcell⟩ := Option.bind_eq_some_iff.1 hcell
      exact hs.cell hcell
    · cases h

end Store

namespace Table

variable {α : Type} {t : Table α} {name : String} {a : α} {p : α → Prop}

/-- What is found under a name is one of the values. -/
theorem mem_values_of_get? (h : t.get? name = some a) : a ∈ t.values := by
  obtain ⟨before, after, heq, -⟩ := List.lookup_eq_some_iff.1 h
  simp [values, heq]

/-- The values of a table are those it had and the one that is put in. -/
theorem forall_values_insert (ht : ∀ b ∈ t.values, p b) (ha : p a) :
    ∀ b ∈ (t.insert name a).values, p b := by
  have hput (entries : List (String × α)) (h : ∀ entry ∈ entries, p entry.2) :
      ∀ entry ∈ put name a entries, p entry.2 := by
    fun_induction put name a entries with
    | case1 => exact List.forall_mem_singleton.2 ha
    | case2 old rest => exact List.forall_mem_cons.2 ⟨ha, (List.forall_mem_cons.1 h).2⟩
    | case3 key old rest _ ih =>
      rw [List.forall_mem_cons] at h
      exact List.forall_mem_cons.2 ⟨h.1, ih h.2⟩
  exact List.forall_mem_map.2 (hput t.entries (List.forall_mem_map.1 ht))

/-- The values of a table are values of the entries that it was made of. -/
private theorem forall_values_ofList {entries : List (String × α)}
    (h : ∀ entry ∈ entries, p entry.2) :
    ∀ b ∈ (ofList entries).values, p b := by
  have hfold (t : Table α) (ht : ∀ b ∈ t.values, p b) :
      ∀ b ∈ (entries.foldl (fun t (name, value) => t.insert name value) t).values, p b := by
    induction entries generalizing t with
    | nil => exact ht
    | cons entry entries ih =>
      rw [List.forall_mem_cons] at h
      exact ih h.2 _ (forall_values_insert ht h.1)
  exact hfold empty (List.forall_mem_nil _)

end Table

namespace Eval

variable {α : Type} {strict : Prop} {s₀ : Store}

/-- A search that fails stops the computation. -/
theorem spares_ofScope {post : Store → α → Prop} {x : Except ScopeError α}
    (h : ∀ a, x = .ok a → ∀ s, s₀.Older s → post s a) : Spares strict s₀ post (ofScope x) := by
  cases x with
  | ok a => exact spares_pure (h a rfl)
  | error e => exact spares_throw _

/-- An operation without a result stops the computation. -/
theorem spares_ofPartial {post : Store → α → Prop} {x : Except Fault α}
    (h : ∀ a, x = .ok a → ∀ s, s₀.Older s → post s a) : Spares strict s₀ post (ofPartial x) := by
  cases x with
  | ok a => exact spares_pure (h a rfl)
  | error e => exact spares_throw _

theorem spares_items (r : ArrayRef) :
    Spares strict s₀ (fun s items => ∀ v ∈ items, v.Sound strict s) (items r) :=
  spares_read fun _ _ hs => hs.items r

theorem spares_fields (r : ObjectRef) :
    Spares strict s₀ (fun s fields => ∀ v ∈ fields.values, v.Sound strict s) (fields r) :=
  spares_read fun _ _ hs => hs.fields r

/-- Reading a variable. -/
theorem spares_lookup (scope : ScopeRef) (name : String) :
    Spares strict s₀ (Value.Sound strict) (lookup scope name) := by
  have hread : Spares strict s₀ (fun s found => ∀ v, found = .ok v → v.Sound strict s)
      (read (·.lookup scope name)) := spares_read fun s _ hs v hv => hs.lookup hv
  exact hread.bind fun s₁ found _ hfound =>
    spares_ofScope fun v hv s hs => (hfound v hv).of_older hs

/-- Reading a member of a namespace. -/
theorem spares_lookupMember (scope : ScopeRef) (space member : String) :
    Spares strict s₀ (Value.Sound strict) (lookupMember scope space member) := by
  have hread : Spares strict s₀ (fun s found => ∀ v, found = .ok v → v.Sound strict s)
      (read (·.lookupMember scope space member)) :=
    spares_read fun s _ hs v hv => hs.lookupMember hv
  exact hread.bind fun s₁ found _ hfound =>
    spares_ofScope fun v hv s hs => (hfound v hv).of_older hs

/-- A field of an object, or null if there is none of the name. -/
theorem spares_memberValue (target : Value) (name : String) :
    Spares strict s₀ (Value.Sound strict) (memberValue target name) := by
  unfold memberValue
  split
  · rename_i r
    refine (spares_fields r).bind fun s₁ fields _ hfields => spares_pure fun s hs => ?_
    cases hv : fields.get? name with
    | none => exact fun _ => trivial
    | some v => exact (hfields v (Table.mem_values_of_get? hv)).of_older hs
  · exact spares_throw _

/-- An element of an array. -/
theorem spares_indexValue (target position : Value) :
    Spares strict s₀ (Value.Sound strict) (indexValue target position) := by
  unfold indexValue
  split
  · rename_i r x
    refine (spares_items r).bind fun s₁ elements _ helements => ?_
    split
    · refine (spares_ofPartial fun _ _ _ _ => trivial).bind fun s₂ i hs₂ (_ : True) => ?_
      refine spares_ofPartial fun v hv s hs => ?_
      cases hfound : elements[(i - 1).toNat]? with
      | none =>
        rw [hfound] at hv
        cases hv
      | some found =>
        rw [hfound] at hv
        cases hv
        exact (helements v (Array.mem_of_getElem? hfound)).of_older (hs₂.trans hs)
    · exact spares_throw _
  · exact spares_throw _
  · exact spares_throw _

mutual

/-- Plain data becomes new containers, from the inside out. -/
theorem spares_plainValue : ∀ (s₀ : Store) (data : Json),
    Spares strict s₀ (Value.Sound strict) (plainValue data)
  | s₀, .null | s₀, .bool _ | s₀, .float _ | s₀, .str _ => by
    rw [plainValue]
    exact spares_pure fun _ _ _ => trivial
  | s₀, .int n => by
    rw [plainValue]
    split
    · exact spares_pure fun _ _ _ => trivial
    · exact spares_throw _
  | s₀, .arr items => by
    rw [plainValue]
    refine (spares_plainItems s₀ items).bind fun _ vs _ hvs => spares_newArray fun v hv => ?_
    exact hvs v (List.mem_toArray.1 hv)
  | s₀, .obj fields => by
    rw [plainValue]
    exact (spares_plainFields s₀ fields).bind fun _ vs _ hvs =>
      spares_newObject (Table.forall_values_ofList hvs)

/-- The elements of plain data, before the array that holds them. -/
theorem spares_plainItems : ∀ (s₀ : Store) (items : List Json),
    Spares strict s₀ (fun s vs => ∀ v ∈ vs, v.Sound strict s) (plainItems items)
  | s₀, [] => by
    rw [plainItems]
    exact spares_pure fun _ _ => List.forall_mem_nil _
  | s₀, item :: items => by
    rw [plainItems]
    refine (spares_plainValue s₀ item).bind fun s₁ v _ hv =>
      (spares_plainItems s₁ items).bind fun s₂ vs hs₂ hvs => spares_pure fun s hs => ?_
    exact List.forall_mem_cons.2
      ⟨hv.of_older (hs₂.trans hs), fun u hu => (hvs u hu).of_older hs⟩

/-- The fields of plain data, before the object that holds them. -/
theorem spares_plainFields : ∀ (s₀ : Store) (fields : List (String × Json)),
    Spares strict s₀ (fun s vs => ∀ entry ∈ vs, entry.2.Sound strict s) (plainFields fields)
  | s₀, [] => by
    rw [plainFields]
    exact spares_pure fun _ _ => List.forall_mem_nil _
  | s₀, (name, value) :: fields => by
    rw [plainFields]
    refine (spares_plainValue s₀ value).bind fun s₁ v _ hv =>
      (spares_plainFields s₁ fields).bind fun s₂ vs hs₂ hvs => spares_pure fun s hs => ?_
    exact List.forall_mem_cons.2
      ⟨hv.of_older (hs₂.trans hs), fun u hu => (hvs u hu).of_older hs⟩

end

end Eval

/-! ### The standard library -/

namespace Native

variable {strict : Prop} {s₀ : Store} {f : Native} {args : List Value} {i : Nat}

/-- The functions that spare containers: those that take no function, except for pushing and
popping. -/
def isSparing : Native → Bool
  | .arrPush | .arrPop | .arrMap | .arrFilter | .arrReduce => false
  | _ => true

/-- An argument that is an array. -/
theorem spares_arrayArg :
    Spares strict s₀ (fun _ r => arg args i = .arr r) (arrayArg f args i) := by
  unfold arrayArg
  split
  · rename_i r hr
    exact spares_pure fun _ _ => hr
  · exact spares_throw _

theorem spares_objectArg : Spares strict s₀ (fun _ _ => True) (objectArg f args i) := by
  unfold objectArg
  split
  · exact spares_pure fun _ _ => trivial
  · exact spares_throw _

theorem spares_textArg : Spares strict s₀ (fun _ _ => True) (textArg f args i) := by
  unfold textArg
  split
  · exact spares_pure fun _ _ => trivial
  · exact spares_throw _

theorem spares_numberArg : Spares strict s₀ (fun _ _ => True) (numberArg f args i) := by
  unfold numberArg
  split
  · exact spares_pure fun _ _ => trivial
  · exact spares_throw _

theorem spares_truthArg : Spares strict s₀ (fun _ _ => True) (truthArg f args i) := by
  unfold truthArg
  split
  · exact spares_pure fun _ _ => trivial
  · exact spares_throw _

theorem spares_functionArg : Spares strict s₀ (fun _ _ => True) (functionArg f args i) := by
  unfold functionArg
  split
  · exact spares_pure fun _ _ => trivial
  · exact spares_throw _

/-- Values that refer to nothing exist in every store. -/
theorem spares_pure_known {v : Value} (h : ∀ s, v.Known s) :
    Spares strict s₀ (Value.Sound strict) (pure v : Eval Value) :=
  spares_pure fun s _ _ => h s

/-- The texts of an array are read from its elements. -/
theorem spares_joinTexts (items : List Value) :
    Spares strict s₀ (fun _ _ => True) (joinTexts items) := by
  refine (spares_mapM (fun _ _ _ _ (h : True) => h) fun s₁ _ item _ => ?_).weaken
    fun _ _ _ => trivial
  split
  · exact spares_pure fun _ _ => trivial
  · exact spares_throw _

/-- An object's fields become an array of arrays, all of them new. -/
theorem spares_pairs {entries : List (String × Value)}
    (h : ∀ entry ∈ entries, entry.2.Sound strict s₀) :
    Spares strict s₀ (Value.Sound strict) (pairs entries) := by
  refine (spares_mapM (fun _ _ _ hs hv => hv.of_older hs) fun s₁ hs₁ entry hentry => ?_).bind
    fun _ vs _ hvs => spares_newArray fun v hv => hvs v (List.mem_toArray.1 hv)
  refine spares_newArray fun v hv => ?_
  simp only [List.mem_toArray, List.mem_cons, List.not_mem_nil, or_false] at hv
  rcases hv with rfl | rfl
  · exact fun _ => trivial
  · exact (h entry hentry).of_older hs₁

/-- Rounding in one of the ways makes a number. -/
theorem spares_integral (part : Float → Except Fault Int) :
    Spares strict s₀ (Value.Sound strict)
      (do return Value.num (← ofPartial (integral part (← numberArg f args i)))) :=
  spares_numberArg.bind fun _ _ _ _ =>
    (spares_ofPartial fun _ _ _ _ => trivial).bind fun _ _ _ (_ : True) =>
      spares_pure_known fun _ => trivial

/-- **Most functions of the standard library spare containers.** -/
theorem spares_run {call : Caller} (hf : f.isSparing = true) :
    Spares strict s₀ (Value.Sound strict) (f.run call args) := by
  have hplain {v : Value} {s : Store} (h : ∀ s, v.Known s) :
      Spares strict s (Value.Sound strict) (pure v : Eval Value) := spares_pure_known h
  cases f with
  | print => exact (spares_emit _).bind fun _ _ _ _ => hplain fun _ => trivial
  | coreType | coreEq | coreNeq => exact hplain fun _ => trivial
  | coreNot => exact spares_truthArg.bind fun _ _ _ _ => hplain fun _ => trivial
  | coreToStr =>
    exact (spares_read fun _ _ _ => trivial).bind fun _ _ _ (_ : True) => hplain fun _ => trivial
  | arrLen | arrIncl =>
    exact spares_arrayArg.bind fun _ r _ _ => (spares_items r).bind fun _ _ _ _ =>
      hplain fun _ => trivial
  | arrReverse =>
    exact spares_arrayArg.bind fun _ r _ _ => (spares_items r).bind fun _ elements _ h =>
      spares_newArray fun v hv => h v (Array.mem_reverse.1 hv)
  | arrConcat =>
    refine spares_arrayArg.bind fun _ a _ _ => spares_arrayArg.bind fun _ b _ _ => ?_
    refine (spares_items a).bind fun _ as _ has => (spares_items b).bind fun _ bs hs hbs => ?_
    refine spares_newArray fun v hv => ?_
    rcases Array.mem_append.1 hv with hv | hv
    -- the elements of the first array were read before those of the second
    · exact (has v hv).of_older hs
    · exact hbs v hv
  | arrJoin =>
    refine spares_arrayArg.bind fun s₁ r _ _ => ?_
    -- what comes after the separator, whether that is given or not
    have hjoin (s : Store) (separator : String) : Spares strict s (Value.Sound strict) (do
        let parts ← joinTexts (← items r).toList
        return Value.str (separator.intercalate parts)) :=
      (spares_items r).bind fun _ _ _ _ => (spares_joinTexts _).bind fun _ _ _ _ =>
        hplain fun _ => trivial
    split
    · exact hjoin s₁ ""
    · exact spares_textArg.bind fun s separator _ _ => hjoin s separator
  | objKeys =>
    refine spares_objectArg.bind fun _ r _ _ => (spares_fields r).bind fun _ t _ _ => ?_
    refine spares_newArray fun v hv => ?_
    obtain ⟨key, -, rfl⟩ := List.mem_map.1 (List.mem_toArray.1 hv)
    exact fun _ => trivial
  | objVals =>
    exact spares_objectArg.bind fun _ r _ _ => (spares_fields r).bind fun _ t _ ht =>
      spares_newArray fun v hv => ht v (List.mem_toArray.1 hv)
  | objKvs =>
    exact spares_objectArg.bind fun _ r _ _ => (spares_fields r).bind fun _ t _ ht =>
      spares_pairs (List.forall_mem_map.1 ht)
  | objHas =>
    exact spares_objectArg.bind fun _ r _ _ => spares_textArg.bind fun _ _ _ _ =>
      (spares_fields r).bind fun _ _ _ _ => hplain fun _ => trivial
  | strLen => exact spares_textArg.bind fun _ _ _ _ => hplain fun _ => trivial
  | strPick =>
    refine spares_textArg.bind fun _ s _ _ => spares_numberArg.bind fun _ _ _ _ => ?_
    dsimp only
    split
    · exact (spares_ofPartial fun _ _ _ _ => trivial).bind fun _ _ _ (_ : True) =>
        (spares_ofPartial fun _ _ _ _ => trivial).bind fun _ _ _ (_ : True) =>
          hplain fun _ => trivial
    · exact spares_throw _
  | strSplit =>
    refine spares_textArg.bind fun _ s _ _ => spares_newArray fun v hv => ?_
    obtain ⟨character, -, rfl⟩ := List.mem_map.1 (List.mem_toArray.1 hv)
    exact fun _ => trivial
  | strIncl =>
    exact spares_textArg.bind fun _ _ _ _ => spares_textArg.bind fun _ _ _ _ =>
      hplain fun _ => trivial
  | mathFloor | mathCeil | mathRound => exact spares_integral _
  | mathAbs => exact spares_numberArg.bind fun _ _ _ _ => hplain fun _ => trivial
  -- these write to an array or call functions
  | arrPush | arrPop | arrMap | arrFilter | arrReduce => cases hf

end Native

end Sigil
