import Mathlib.Logic.Function.Basic
import Sigil.Proofs.Generic.Matching
import Sigil.Proofs.Knots
import Sigil.Proofs.Validity.Searches

/-!
# Stores that are the same but for references

Two stores match along a `Matching` if what stands at references that stand for each other is the
same but for references again: cells, scopes, arrays, objects and functions. Either store may have
more than the matching speaks of.

What is read from stores that match is the same but for references: the values of variables and of
members of namespaces, and the contents of values down to the last detail (`Store.Matches.view_eq`).
A change made to both of them leaves them matching, along a matching with one more pair where
something new has been made.
-/

namespace Sigil

/-! ### Lists of members -/

/-- Members at references that stand for each other are both there, and they are related. -/
def Pairing.Heaps {ρ α : Type} (p : Pairing ρ) (index : ρ → Nat) (R : α → α → Prop)
    (xs ys : Array α) : Prop :=
  ∀ r r', p.Rel r r' → ∃ x y, xs[index r]? = some x ∧ ys[index r']? = some y ∧ R x y

namespace Pairing.Heaps

variable {ρ α : Type} {p : Pairing ρ} {index : ρ → Nat} {R R' : α → α → Prop} {xs ys : Array α}
  {r r' : ρ}

theorem mono (h : p.Heaps index R xs ys) (hR : ∀ x y, R x y → R' x y) : p.Heaps index R' xs ys := by
  intro r r' hr
  obtain ⟨x, y, hx, hy, hxy⟩ := h r r' hr
  exact ⟨x, y, hx, hy, hR x y hxy⟩

/-- References that stand for each other lead somewhere on both sides. -/
theorem lt_size (h : p.Heaps index R xs ys) (hr : p.Rel r r') :
    index r < xs.size ∧ index r' < ys.size := by
  obtain ⟨x, y, hx, hy, -⟩ := h r r' hr
  exact ⟨(Array.getElem?_eq_some_iff.1 hx).1, (Array.getElem?_eq_some_iff.1 hy).1⟩

/-- The next member of the first list stands for nothing yet. -/
private theorem not_rel_left (h : p.Heaps index R xs ys) (hr : index r = xs.size) (r' : ρ) :
    ¬ p.Rel r r' :=
  fun hrel => Nat.lt_irrefl _ (hr ▸ (h.lt_size hrel).1)

/-- Nothing stands for the next member of the second list yet. -/
theorem not_rel_right (h : p.Heaps index R xs ys) (hr' : index r' = ys.size) (r : ρ) :
    ¬ p.Rel r r' :=
  fun hrel => Nat.lt_irrefl _ (hr' ▸ (h.lt_size hrel).2)

/-- The pairing in which the next members of the two lists stand for each other, too. -/
def extend (h : p.Heaps index R xs ys) (r r' : ρ) (hr : index r = xs.size)
    (hr' : index r' = ys.size) : Pairing ρ :=
  p.insert r r' (h.not_rel_left hr) (h.not_rel_right hr')

/-- One more thing on each side, and the references to them stand for each other. -/
private theorem push (h : p.Heaps index R xs ys) (hr : index r = xs.size) (hr' : index r' = ys.size)
    {x y : α} (hxy : R x y) : (h.extend r r' hr hr').Heaps index R (xs.push x) (ys.push y) := by
  rintro q q' (hq | ⟨rfl, rfl⟩)
  · obtain ⟨u, v, hu, hv, huv⟩ := h q q' hq
    refine ⟨u, v, ?_, ?_, huv⟩
    · rw [Array.getElem?_push_lt (h.lt_size hq).1, ← hu, Array.getElem?_eq_getElem]
    · rw [Array.getElem?_push_lt (h.lt_size hq).2, ← hv, Array.getElem?_eq_getElem]
  · exact ⟨x, y, by simp [hr], by simp [hr'], hxy⟩

/-- A member more of the second list does not matter. -/
private theorem push_right (h : p.Heaps index R xs ys) (y : α) :
    p.Heaps index R xs (ys.push y) := by
  intro r r' hr
  obtain ⟨x, z, hx, hz, hxz⟩ := h r r' hr
  refine ⟨x, z, hx, ?_, hxz⟩
  rwa [Array.getElem?_push_lt (h.lt_size hr).2, ← Array.getElem?_eq_getElem]

/-- Members that stand for each other may change alike. -/
private theorem modify (h : p.Heaps index R xs ys) (hindex : Function.Injective index)
    (hr : p.Rel r r') {f g : α → α} (hfg : ∀ x y, R x y → R (f x) (g y)) :
    p.Heaps index R (xs.modify (index r) f) (ys.modify (index r') g) := by
  intro q q' hq
  obtain ⟨x, y, hx, hy, hxy⟩ := h q q' hq
  rw [Array.getElem?_modify, Array.getElem?_modify]
  by_cases heq : r = q
  · obtain rfl := (p.unique hr hq).1 heq
    rw [heq, if_pos rfl, if_pos rfl, hx, hy]
    exact ⟨f x, g y, rfl, rfl, hfg x y hxy⟩
  · rw [if_neg (hindex.ne heq), if_neg (hindex.ne (mt (p.unique hr hq).2 heq))]
    exact ⟨x, y, hx, hy, hxy⟩

/-- A member of the second list that nothing stands for may change in any way. -/
private theorem modify_right (h : p.Heaps index R xs ys) (hindex : Function.Injective index)
    (hr' : ∀ r, ¬ p.Rel r r') (g : α → α) : p.Heaps index R xs (ys.modify (index r') g) := by
  intro q q' hq
  obtain ⟨x, y, hx, hy, hxy⟩ := h q q' hq
  have hne : r' ≠ q' := by
    rintro rfl
    exact hr' q hq
  exact ⟨x, y, hx, by rw [Array.getElem?_modify, if_neg (hindex.ne hne), hy], hxy⟩

end Pairing.Heaps

/-! ### Stores -/

/-- Cells that are the same but for references. -/
structure Cell.Matches (m : Matching) (cell cell' : Cell) : Prop where
  isMutable_eq : cell'.isMutable = cell.isMutable
  value : cell.value.Matches m cell'.value

/-- Scopes that are the same but for references. -/
structure Scope.Matches (m : Matching) (scope scope' : Scope) : Prop where
  parent : Option.Rel m.scopes.Rel scope.parent scope'.parent
  names : scope.names.Matches m.cells.Rel scope'.names
  spaces : scope.spaces.Matches m.scopes.Rel scope'.spaces

/-- **Valid stores that are the same but for references.** -/
structure Store.Matches (m : Matching) (s s' : Store) : Prop where
  valid : s.Valid
  valid' : s'.Valid
  cells : m.cells.Heaps CellRef.index (Cell.Matches m) s.cells s'.cells
  scopes : m.scopes.Heaps ScopeRef.index (Scope.Matches m) s.scopes s'.scopes
  arrays : m.arrays.Heaps ArrayRef.index (Value.ItemsMatch m) s.arrays s'.arrays
  objects : m.objects.Heaps ObjectRef.index (Table.Matches (Value.Matches m)) s.objects s'.objects
  functions : m.functions.Heaps FunctionRef.index (Function.Matches m) s.functions s'.functions

section Mono

variable {m m' : Matching} (hle : m ≤ m')
include hle

theorem Cell.Matches.mono {cell cell' : Cell} (h : cell.Matches m cell') : cell.Matches m' cell' :=
  ⟨h.isMutable_eq, h.value.mono hle⟩

theorem Scope.Matches.mono {scope scope' : Scope} (h : scope.Matches m scope') :
    scope.Matches m' scope' where
  parent := rel_mono (fun _ _ => hle.scopes) h.parent
  names := h.names.mono fun _ _ => hle.cells
  spaces := h.spaces.mono fun _ _ => hle.scopes

end Mono

private theorem injective_cellRef_index : Function.Injective CellRef.index :=
  fun _ _ => CellRef.ext

private theorem injective_scopeRef_index : Function.Injective ScopeRef.index :=
  fun _ _ => ScopeRef.ext

private theorem injective_arrayRef_index : Function.Injective ArrayRef.index := by
  rintro ⟨i⟩ ⟨j⟩ rfl
  rfl

namespace Store.Matches

variable {m : Matching} {s s' : Store} {r r' : ScopeRef} {v v' : Value} (h : s.Matches m s')
include h

/-! ### What is read -/

/-- Values that match exist, each in its store. -/
theorem known (hv : v.Matches m v') : v.Known s ∧ v'.Known s' := by
  cases hv with
  | arr hr => exact h.arrays.lt_size hr
  | obj hr => exact h.objects.lt_size hr
  | fn hr => exact h.functions.lt_size hr
  | num | str | bool | null => exact ⟨trivial, trivial⟩

theorem allKnown {vs vs' : List Value} (hvs : Value.AllMatch m vs vs') :
    (∀ v ∈ vs, v.Known s) ∧ ∀ v ∈ vs', v.Known s' := by
  induction hvs with
  | nil => simp
  | cons hv _ ih =>
    exact ⟨List.forall_mem_cons.2 ⟨(h.known hv).1, ih.1⟩,
      List.forall_mem_cons.2 ⟨(h.known hv).2, ih.2⟩⟩

/-- Arrays that stand for each other have elements that match. -/
theorem items {q q' : ArrayRef} (hq : m.arrays.Rel q q') :
    Value.AllMatch m (s.items q).toList (s'.items q').toList := by
  obtain ⟨xs, ys, hxs, hys, hmatch⟩ := h.arrays q q' hq
  rw [Store.items, Store.items, hxs, hys]
  exact hmatch

/-- Objects that stand for each other have fields that match. -/
theorem fields {q q' : ObjectRef} (hq : m.objects.Rel q q') :
    (s.fields q).Matches (Value.Matches m) (s'.fields q') := by
  obtain ⟨t, t', ht, ht', hmatch⟩ := h.objects q q' hq
  rw [Store.fields, Store.fields, ht, ht']
  exact hmatch

theorem function? {q q' : FunctionRef} (hq : m.functions.Rel q q') :
    Option.Rel (Function.Matches m) (s.function? q) (s'.function? q') := by
  obtain ⟨f, f', hf, hf', hmatch⟩ := h.functions q q' hq
  rw [Store.function?, Store.function?, hf, hf']
  exact .some hmatch

theorem cell? {c c' : Option CellRef} (hc : Option.Rel m.cells.Rel c c') :
    Option.Rel (Cell.Matches m) (c.bind s.cell?) (c'.bind s'.cell?) := by
  cases hc with
  | none => exact .none
  | @some c c' hc =>
    obtain ⟨cell, cell', hcell, hcell', hmatch⟩ := h.cells c c' hc
    rw [Option.bind_some, Option.bind_some, Store.cell?, Store.cell?, hcell, hcell']
    exact .some hmatch

/-- The scopes around stand for each other. -/
theorem parent? (hr : m.scopes.Rel r r') :
    Option.Rel m.scopes.Rel (s.parent? r) (s'.parent? r') := by
  obtain ⟨scope, scope', hscope, hscope', hmatch⟩ := h.scopes r r' hr
  rw [Store.parent?, Store.parent?, Store.scope?, Store.scope?, hscope, hscope']
  exact hmatch.parent

/-- The same names are declared in scopes that stand for each other. -/
theorem ownCell? (hr : m.scopes.Rel r r') (name : String) :
    Option.Rel m.cells.Rel (s.ownCell? r name) (s'.ownCell? r' name) := by
  obtain ⟨scope, scope', hscope, hscope', hmatch⟩ := h.scopes r r' hr
  rw [Store.ownCell?, Store.ownCell?, Store.scope?, Store.scope?, hscope, hscope']
  exact hmatch.names.get? name

theorem ownSpace? (hr : m.scopes.Rel r r') (name : String) :
    Option.Rel m.scopes.Rel (s.ownSpace? r name) (s'.ownSpace? r' name) := by
  obtain ⟨scope, scope', hscope, hscope', hmatch⟩ := h.scopes r r' hr
  rw [Store.ownSpace?, Store.ownSpace?, Store.scope?, Store.scope?, hscope, hscope']
  exact hmatch.spaces.get? name

/-- Searches outwards take the same steps. -/
theorem findSome? {α : Type} {R : α → α → Prop} {own own' : ScopeRef → Option α}
    (hown : ∀ q q', m.scopes.Rel q q' → Option.Rel R (own q) (own' q')) (hr : m.scopes.Rel r r') :
    Option.Rel R ((s.chain r).findSome? own) ((s'.chain r').findSome? own') := by
  have hsearch {found : Option α} {visited : List ScopeRef} (h' : s.Searches own r visited found) :
      ∃ visited' found', s'.Searches own' r' visited' found' ∧ Option.Rel R found found' := by
    induction h' generalizing r' with
    | @found r a ha =>
      obtain ⟨b, hb, hab⟩ := exists_eq_some_of_rel (ha ▸ hown r r' hr)
      exact ⟨_, _, .found hb, .some hab⟩
    | @ended r ha hparent =>
      have hb := eq_none_of_rel (ha ▸ hown r r' hr)
      exact ⟨_, _, .ended hb (eq_none_of_rel (hparent ▸ h.parent? hr)), .none⟩
    | @outwards r outer visited found ha hparent _ ih =>
      have hb := eq_none_of_rel (ha ▸ hown r r' hr)
      obtain ⟨outer', houter', hrel⟩ := exists_eq_some_of_rel (hparent ▸ h.parent? hr)
      obtain ⟨visited', found', hrest, hfound⟩ := ih hrel
      exact ⟨_, _, .outwards hb houter' hrest, hfound⟩
  obtain ⟨visited, hvisited, -⟩ := h.valid.searchEnds own r
  obtain ⟨visited', found', hfound, hrel⟩ := hsearch hvisited
  obtain ⟨_, -, -, hunique⟩ := h.valid'.searchEnds own' r'
  rwa [(hunique _ _ hfound).2] at hrel

/-- A search comes to cells that stand for each other. -/
theorem find? (hr : m.scopes.Rel r r') (name : String) :
    Option.Rel m.cells.Rel (s.find? r name) (s'.find? r' name) :=
  h.findSome? (fun _ _ hq => h.ownCell? hq name) hr

theorem findSpace? (hr : m.scopes.Rel r r') (name : String) :
    Option.Rel m.scopes.Rel (s.findSpace? r name) (s'.findSpace? r' name) :=
  h.findSome? (fun _ _ hq => h.ownSpace? hq name) hr

/-- A name is bound to values that match, or to none. -/
theorem lookup (hr : m.scopes.Rel r r') (name : String) :
    Alike (Value.Matches m) (s.lookup r name) (s'.lookup r' name) := by
  have hcell := h.cell? (h.find? hr name)
  unfold Store.lookup
  generalize (s.find? r name).bind s.cell? = cell, (s'.find? r' name).bind s'.cell? = cell' at hcell
  cases hcell with
  | none => exact .error _
  | some hmatch => exact .ok hmatch.value

theorem lookupMember (hr : m.scopes.Rel r r') (space member : String) :
    Alike (Value.Matches m) (s.lookupMember r space member) (s'.lookupMember r' space member) := by
  have hspace := h.findSpace? hr space
  unfold Store.lookupMember
  generalize s.findSpace? r space = q, s'.findSpace? r' space = q' at hspace
  cases hspace with
  | none => exact .error _
  | @some q q' hq =>
    have hcell := h.cell? (h.ownCell? hq member)
    dsimp only
    generalize (s.ownCell? q member).bind s.cell? = cell,
      (s'.ownCell? q' member).bind s'.cell? = cell' at hcell
    cases hcell with
    | none => exact .error _
    | some hmatch => exact .ok hmatch.value

/-- An assignment writes to cells that stand for each other, or fails alike. -/
theorem target (hr : m.scopes.Rel r r') (name : String) :
    Alike m.cells.Rel (s.target r name) (s'.target r' name) := by
  have hfind := h.find? hr name
  unfold Store.target
  generalize s.find? r name = c, s'.find? r' name = c' at hfind
  cases hfind with
  | none => exact .error _
  | @some c c' hc =>
    obtain ⟨cell, cell', hcell, hcell', hmatch⟩ := h.cells c c' hc
    have hcell : s.cell? c = some cell := hcell
    have hcell' : s'.cell? c' = some cell' := hcell'
    simp only [hcell, hcell', hmatch.isMutable_eq]
    split
    · exact .ok hc
    · exact .error _

omit h

/-! ### What values look like -/

end Store.Matches

/-- Containers that stand for each other. -/
inductive Container.Matches (m : Matching) : Container → Container → Prop
  | arr {r r' : ArrayRef} : m.arrays.Rel r r' → Matches m (.arr r) (.arr r')
  | obj {r r' : ObjectRef} : m.objects.Rel r r' → Matches m (.obj r) (.obj r')

namespace Container.Matches

variable {m : Matching} {c c' d d' : Container}

/-- Matching is one to one on containers. -/
private theorem unique (hc : c.Matches m c') (hd : d.Matches m d') : c = d ↔ c' = d' := by
  cases hc with
  | arr hr =>
    cases hd with
    | arr hs => rw [arr.injEq, arr.injEq, m.arrays.unique hr hs]
    | obj => simp only [reduceCtorEq]
  | obj hr =>
    cases hd with
    | arr => simp only [reduceCtorEq]
    | obj hs => rw [obj.injEq, obj.injEq, m.objects.unique hr hs]

/-- Containers are found at the same places of ways that match. -/
private theorem idxOf?_eq {path path' : List Container}
    (hpath : List.Forall₂ (Container.Matches m) path path')
    (hc : c.Matches m c') : path'.idxOf? c' = path.idxOf? c := by
  induction hpath with
  | nil => rfl
  | cons hd _ ih =>
    rw [List.idxOf?_cons, List.idxOf?_cons, ih]
    simp only [beq_iff_eq, hd.unique hc]

end Container.Matches

/-- The same way down in two stores: through different containers that stand for each other. -/
structure Container.SameWay (m : Matching) (path path' : List Container) : Prop where
  steps : List.Forall₂ (Container.Matches m) path path'
  nodup : path.Nodup
  nodup' : path'.Nodup

theorem Container.SameWay.cons {m : Matching} {path path' : List Container} {c c' : Container}
    (h : SameWay m path path') (hc : c.Matches m c') (hnew : path.idxOf? c = none) :
    SameWay m (c :: path) (c' :: path') where
  steps := .cons hc h.steps
  nodup := List.nodup_cons.2 ⟨List.idxOf?_eq_none_iff.1 hnew, h.nodup⟩
  nodup' := by
    rw [← hc.idxOf?_eq h.steps] at hnew
    exact List.nodup_cons.2 ⟨List.idxOf?_eq_none_iff.1 hnew, h.nodup'⟩

private theorem map_eq_of_forall₂ {α β γ : Type} {R : α → β → Prop} {f : α → γ} {g : β → γ}
    {xs : List α} {ys : List β} (h : List.Forall₂ R xs ys) (hfg : ∀ a b, R a b → g b = f a) :
    ys.map g = xs.map f := by
  induction h with
  | nil => rfl
  | cons hab _ ih => rw [List.map_cons, List.map_cons, hfg _ _ hab, ih]

namespace Store.Matches

variable {m : Matching} {s s' : Store} {v v' : Value} {path path' : List Container}
  (h : s.Matches m s')
include h

/-- What is no container looks the same. -/
private theorem leaf_eq (hv : v.Matches m v') (depth : Nat) :
    s'.leaf depth v' = s.leaf depth v := by
  cases hv with
  | fn hr =>
    have hf := h.function? hr
    simp only [leaf]
    generalize s.function? _ = f, s'.function? _ = f' at hf
    cases hf with
    | none => rfl
    | some hf => cases hf <;> rfl
  | num | str | bool | null | arr | obj => rfl

/-- A way that meets no container twice is no longer than there are containers. -/
private theorem length_le (hway : Container.SameWay m path path') :
    path.length ≤ s.arrays.size + s.objects.size ∧
      path'.length ≤ s'.arrays.size + s'.objects.size := by
  have hknown {path path' : List Container}
      (hsteps : List.Forall₂ (Container.Matches m) path path') :
      (∀ c ∈ path, c.Known s) ∧ ∀ c ∈ path', c.Known s' := by
    induction hsteps with
    | nil => simp
    | @cons c c' _ _ hc _ ih =>
      have hc : c.Known s ∧ c'.Known s' := by
        cases hc with
        | arr hr => exact h.arrays.lt_size hr
        | obj hr => exact h.objects.lt_size hr
      exact ⟨List.forall_mem_cons.2 ⟨hc.1, ih.1⟩, List.forall_mem_cons.2 ⟨hc.2, ih.2⟩⟩
  exact ⟨Container.length_le_of_nodup hway.nodup (hknown hway.steps).1,
    Container.length_le_of_nodup hway.nodup' (hknown hway.steps).2⟩

/-- The levels of either side do not run out before the containers that have not been met do. -/
theorem viewWithin_eq (hway : Container.SameWay m path path') {levels levels' : Nat}
    (hlevels : s.arrays.size + s.objects.size < levels + path.length)
    (hlevels' : s'.arrays.size + s'.objects.size < levels' + path'.length)
    (hv : v.Matches m v') : s'.viewWithin levels' path' v' = s.viewWithin levels path v := by
  induction levels generalizing levels' path path' v v' with
  | zero =>
    have hlength := h.length_le hway
    omega
  | succ levels ih =>
    cases levels' with
    | zero =>
      have hlength := h.length_le hway
      omega
    | succ levels' =>
      -- inside of a container that has not been met, there is one level less on both sides
      have hinside {c c' : Container} (hc : c.Matches m c') (hnew : path.idxOf? c = none)
          (u u' : Value) (hu : u.Matches m u') :
          s'.viewWithin levels' (c' :: path') u' = s.viewWithin levels (c :: path) u :=
        ih (hway.cons hc hnew) (by rw [List.length_cons]; omega)
          (by rw [List.length_cons]; omega) hu
      cases hv with
      | arr hr =>
        have hc := Container.Matches.arr hr
        simp only [viewWithin, container?, hc.idxOf?_eq hway.steps, hway.steps.length_eq]
        split
        · rfl
        · rename_i hnew
          rw [map_eq_of_forall₂ (h.items hr) (hinside hc hnew)]
      | obj hr =>
        have hc := Container.Matches.obj hr
        simp only [viewWithin, container?, hc.idxOf?_eq hway.steps, hway.steps.length_eq]
        split
        · rfl
        · rename_i hnew
          refine congrArg Datum.obj (map_eq_of_forall₂ (h.fields hr) fun entry entry' hentry => ?_)
          rw [hentry.1, hinside hc hnew _ _ hentry.2]
      | fn hr => exact h.leaf_eq (.fn hr) 0
      | num | str | bool | null => rfl

/-- **Values that match look the same.** -/
theorem view_eq (hv : v.Matches m v') : s'.view v' = s.view v :=
  h.viewWithin_eq ⟨.nil, .nil, .nil⟩ (Nat.lt_succ_self _) (Nat.lt_succ_self _) hv

/-- **Values that match have the same text.** -/
theorem text_eq (hv : v.Matches m v') : s'.text v' = s.text v := by
  rw [text, text, h.view_eq hv]

/-! ### Changes -/

variable {r r' : ScopeRef}

/-- New scopes stand for each other in a larger matching. -/
theorem newScope (hr : m.scopes.Rel r r') :
    ∃ m', m ≤ m' ∧ m'.scopes.Rel ⟨s.scopes.size⟩ ⟨s'.scopes.size⟩ ∧
      (s.newScope (some r)).2.Matches m' (s'.newScope (some r')).2 := by
  let m' : Matching := { m with scopes := h.scopes.extend ⟨_⟩ ⟨_⟩ rfl rfl }
  have hle : m ≤ m' := ⟨id, .inl, id, id, id⟩
  have hknown := h.scopes.lt_size hr
  refine ⟨m', hle, .inr ⟨rfl, rfl⟩, ?_, ?_, ?_, ?_, ?_, ?_, ?_⟩
  · exact h.valid.newScope fun outer houter => by cases houter; exact hknown.1
  · exact h.valid'.newScope fun outer houter => by cases houter; exact hknown.2
  · exact h.cells.mono fun _ _ hc => hc.mono hle
  · exact (h.scopes.mono fun _ _ hs => hs.mono hle).push rfl rfl
      ⟨.some (.inl hr), .empty, .empty⟩
  · exact h.arrays.mono fun _ _ hi => hi.mono hle
  · exact h.objects.mono fun _ _ ht => ht.mono fun _ _ hv => hv.mono hle
  · exact h.functions.mono fun _ _ hf => hf.mono hle

/-- Cells of new variables stand for each other in a larger matching. -/
theorem define (hr : m.scopes.Rel r r') (name : String) (hv : v.Matches m v') (isMutable : Bool) :
    ∃ m', m ≤ m' ∧ (s.define r name v isMutable).Matches m' (s'.define r' name v' isMutable) := by
  let m' : Matching := { m with cells := h.cells.extend ⟨_⟩ ⟨_⟩ rfl rfl }
  have hle : m ≤ m' := ⟨.inl, id, id, id, id⟩
  refine ⟨m', hle, h.valid.define r name (h.known hv).1 isMutable,
    h.valid'.define r' name (h.known hv).2 isMutable, ?_, ?_, ?_, ?_, ?_⟩
  · exact (h.cells.mono fun _ _ hc => hc.mono hle).push rfl rfl ⟨rfl, hv.mono hle⟩
  · exact (h.scopes.mono fun _ _ hs => hs.mono hle).modify injective_scopeRef_index hr
      fun scope scope' hs => ⟨hs.parent, hs.names.insert name (.inr ⟨rfl, rfl⟩), hs.spaces⟩
  · exact h.arrays.mono fun _ _ hi => hi.mono hle
  · exact h.objects.mono fun _ _ ht => ht.mono fun _ _ hv => hv.mono hle
  · exact h.functions.mono fun _ _ hf => hf.mono hle

theorem defineSpace (hr : m.scopes.Rel r r') (name : String) {q q' : ScopeRef}
    (hq : m.scopes.Rel q q') :
    (s.defineSpace r name q).Matches m (s'.defineSpace r' name q') where
  valid := h.valid.defineSpace r name (h.scopes.lt_size hq).1
  valid' := h.valid'.defineSpace r' name (h.scopes.lt_size hq).2
  cells := h.cells
  scopes := h.scopes.modify injective_scopeRef_index hr fun _ _ hs =>
    ⟨hs.parent, hs.names, hs.spaces.insert name hq⟩
  arrays := h.arrays
  objects := h.objects
  functions := h.functions

/-- An assignment to a variable of either side. -/
theorem writeCell {name name' : String} {c c' : CellRef} (hc : s.target r name = .ok c)
    (hc' : s'.target r' name' = .ok c') (hcells : m.cells.Rel c c') (hv : v.Matches m v') :
    (s.writeCell c v).Matches m (s'.writeCell c' v') where
  valid := h.valid.writeCell hc (h.known hv).1
  valid' := h.valid'.writeCell hc' (h.known hv).2
  cells := h.cells.modify injective_cellRef_index hcells fun _ _ hcell => ⟨hcell.isMutable_eq, hv⟩
  scopes := h.scopes
  arrays := h.arrays
  objects := h.objects
  functions := h.functions

theorem newArray {items items' : Array Value} (hitems : Value.ItemsMatch m items items') :
    ∃ m', m ≤ m' ∧ m'.arrays.Rel ⟨s.arrays.size⟩ ⟨s'.arrays.size⟩ ∧
      (s.newArray items).2.Matches m' (s'.newArray items').2 := by
  let m' : Matching := { m with arrays := h.arrays.extend ⟨_⟩ ⟨_⟩ rfl rfl }
  have hle : m ≤ m' := ⟨id, id, .inl, id, id⟩
  have hknown := h.allKnown hitems
  refine ⟨m', hle, .inr ⟨rfl, rfl⟩, ?_, ?_, ?_, ?_, ?_, ?_, ?_⟩
  · exact h.valid.newArray fun v hv => hknown.1 v (Array.mem_toList_iff.2 hv)
  · exact h.valid'.newArray fun v hv => hknown.2 v (Array.mem_toList_iff.2 hv)
  · exact h.cells.mono fun _ _ hc => hc.mono hle
  · exact h.scopes.mono fun _ _ hs => hs.mono hle
  · exact (h.arrays.mono fun _ _ hi => hi.mono hle).push rfl rfl
      (hitems.mono hle)
  · exact h.objects.mono fun _ _ ht => ht.mono fun _ _ hv => hv.mono hle
  · exact h.functions.mono fun _ _ hf => hf.mono hle

/-- An array that the second store has in addition. -/
theorem newArray_right {items : Array Value} (hitems : ∀ v ∈ items, v.Known s') :
    s.Matches m (s'.newArray items).2 where
  valid := h.valid
  valid' := h.valid'.newArray hitems
  cells := h.cells
  scopes := h.scopes
  arrays := h.arrays.push_right items
  objects := h.objects
  functions := h.functions

/-- A scope that the second store has in addition. -/
theorem newScope_right (hr' : r'.Known s') : s.Matches m (s'.newScope (some r')).2 where
  valid := h.valid
  valid' := h.valid'.newScope fun outer houter => by cases houter; exact hr'
  cells := h.cells
  scopes := h.scopes.push_right _
  arrays := h.arrays
  objects := h.objects
  functions := h.functions

/-- A declaration in a scope that the second store has in addition. -/
theorem define_right (hr' : ∀ q, ¬ m.scopes.Rel q r') (name : String) (hv' : v'.Known s')
    (isMutable : Bool) : s.Matches m (s'.define r' name v' isMutable) where
  valid := h.valid
  valid' := h.valid'.define r' name hv' isMutable
  cells := h.cells.push_right _
  scopes := h.scopes.modify_right injective_scopeRef_index hr' _
  arrays := h.arrays
  objects := h.objects
  functions := h.functions

theorem newObject {fields fields' : Table Value}
    (hfields : fields.Matches (Value.Matches m) fields') :
    ∃ m', m ≤ m' ∧ m'.objects.Rel ⟨s.objects.size⟩ ⟨s'.objects.size⟩ ∧
      (s.newObject fields).2.Matches m' (s'.newObject fields').2 := by
  let m' : Matching := { m with objects := h.objects.extend ⟨_⟩ ⟨_⟩ rfl rfl }
  have hle : m ≤ m' := ⟨id, id, id, .inl, id⟩
  have hknown := h.allKnown hfields.values
  refine ⟨m', hle, .inr ⟨rfl, rfl⟩, h.valid.newObject hknown.1, h.valid'.newObject hknown.2,
    ?_, ?_, ?_, ?_, ?_⟩
  · exact h.cells.mono fun _ _ hc => hc.mono hle
  · exact h.scopes.mono fun _ _ hs => hs.mono hle
  · exact h.arrays.mono fun _ _ hi => hi.mono hle
  · exact (h.objects.mono fun _ _ ht => ht.mono fun _ _ hv => hv.mono hle).push rfl rfl
      (hfields.mono fun _ _ hv => hv.mono hle)
  · exact h.functions.mono fun _ _ hf => hf.mono hle

theorem newFunction {f f' : Function} (hf : f.Matches m f') :
    ∃ m', m ≤ m' ∧ m'.functions.Rel ⟨s.functions.size⟩ ⟨s'.functions.size⟩ ∧
      (s.newFunction f).2.Matches m' (s'.newFunction f').2 := by
  let m' : Matching := { m with functions := h.functions.extend ⟨_⟩ ⟨_⟩ rfl rfl }
  have hle : m ≤ m' := ⟨id, id, id, id, .inl⟩
  have hknown : f.Known s ∧ f'.Known s' := by
    cases hf with
    | closure params body name hr => exact h.scopes.lt_size hr
    | native f => exact ⟨trivial, trivial⟩
  refine ⟨m', hle, .inr ⟨rfl, rfl⟩, h.valid.newFunction hknown.1, h.valid'.newFunction hknown.2,
    ?_, ?_, ?_, ?_, ?_⟩
  · exact h.cells.mono fun _ _ hc => hc.mono hle
  · exact h.scopes.mono fun _ _ hs => hs.mono hle
  · exact h.arrays.mono fun _ _ hi => hi.mono hle
  · exact h.objects.mono fun _ _ ht => ht.mono fun _ _ hv => hv.mono hle
  · exact (h.functions.mono fun _ _ hf => hf.mono hle).push rfl rfl (hf.mono hle)

/-- Values that match may be pushed to arrays that stand for each other. -/
theorem push {q q' : ArrayRef} (hq : m.arrays.Rel q q') (hv : v.Matches m v') :
    (s.push q v).Matches m (s'.push q' v') where
  valid := h.valid.push q (h.known hv).1
  valid' := h.valid'.push q' (h.known hv).2
  cells := h.cells
  scopes := h.scopes
  arrays := h.arrays.modify injective_arrayRef_index hq fun _ _ hitems => hitems.push hv
  objects := h.objects
  functions := h.functions

theorem pop {q q' : ArrayRef} (hq : m.arrays.Rel q q') : (s.pop q).Matches m (s'.pop q') where
  valid := h.valid.pop q
  valid' := h.valid'.pop q'
  cells := h.cells
  scopes := h.scopes
  arrays := h.arrays.modify injective_arrayRef_index hq fun _ _ hitems => hitems.pop
  objects := h.objects
  functions := h.functions

end Store.Matches

/-! ### A store and itself -/

private theorem Pairing.Heaps.only {ρ α : Type} {index : ρ → Nat} {R : α → α → Prop} {xs : Array α}
    (h : ∀ (r : ρ) x, xs[index r]? = some x → R x x) :
    (Pairing.only fun r => index r < xs.size).Heaps index R xs xs := by
  rintro r _ ⟨rfl, hr⟩
  have hx := Array.getElem?_eq_getElem hr
  exact ⟨xs[index r], xs[index r], hx, hx, h r _ hx⟩

/-- **Everything that exists in a store stands for itself.** -/
def Matching.existing (s : Store) : Matching where
  cells := .only (CellRef.Known s)
  scopes := .only (ScopeRef.Known s)
  arrays := .only fun r => r.index < s.arrays.size
  objects := .only fun r => r.index < s.objects.size
  functions := .only fun r => r.index < s.functions.size

/-- What exists stands for itself. -/
theorem Value.Known.matches_self {s : Store} {v : Value} (h : v.Known s) :
    v.Matches (.existing s) v := by
  cases v with
  | num | str | bool | null => constructor
  | arr r => exact .arr ⟨rfl, h⟩
  | obj r => exact .obj ⟨rfl, h⟩
  | fn r => exact .fn ⟨rfl, h⟩

private theorem Table.matches_self {α : Type} {R : α → α → Prop} {t : Table α}
    (h : ∀ x ∈ t.values, R x x) : t.Matches R t :=
  List.forall₂_same.2 fun _ hentry => ⟨rfl, h _ (List.mem_map_of_mem hentry)⟩

/-- A valid store matches itself. -/
theorem Store.Valid.matches_self {s : Store} (hs : s.Valid) : s.Matches (.existing s) s where
  valid := hs
  valid' := hs
  cells := .only fun r cell hcell =>
    ⟨rfl, (hs.cells cell (Array.mem_of_getElem? hcell)).matches_self⟩
  scopes := by
    refine .only fun r scope hscope => ?_
    have hfits := hs.scopes r scope hscope
    refine ⟨?_, Table.matches_self fun c hc => ⟨rfl, hfits.names c hc⟩,
      Table.matches_self fun q hq => ⟨rfl, hfits.spaces q hq⟩⟩
    cases hparent : scope.parent with
    | none => exact .none
    | some outer =>
      have hr := (Array.getElem?_eq_some_iff.1 hscope).1
      exact .some ⟨rfl, Nat.lt_trans (hfits.parent outer hparent) hr⟩
  arrays := .only fun r items hitems => List.forall₂_same.2 fun v hv =>
    (hs.items items (Array.mem_of_getElem? hitems) v (Array.mem_toList_iff.1 hv)).matches_self
  objects := .only fun r fields hfields => Table.matches_self fun v hv =>
    (hs.fields fields (Array.mem_of_getElem? hfields) v hv).matches_self
  functions := by
    refine .only fun r f hf => ?_
    have hknown := hs.functions f (Array.mem_of_getElem? hf)
    cases f with
    | closure params body scope name => exact .closure params body name ⟨rfl, hknown⟩
    | native f => exact .native f

end Sigil
