import Mathlib.Data.List.Forall2
import Mathlib.Data.Option.Basic
import Sigil.Proofs.Validity.References

/-!
# References that stand for each other

Two stores may hold the same things at different places. A `Matching` says which references of the
one stand for which references of the other, each for at most one. Values match if they are the same
but for the references in them, and so do tables and functions.
-/

namespace Sigil

/-- Results that are related, or the same error. -/
inductive Alike {ε α β : Type} (R : α → β → Prop) : Except ε α → Except ε β → Prop
  | ok {a : α} {b : β} : R a b → Alike R (.ok a) (.ok b)
  | error (e : ε) : Alike R (.error e) (.error e)

/-- A result is like itself if it is related to itself. -/
theorem Alike.refl {ε α : Type} {R : α → α → Prop} {x : Except ε α} (h : ∀ a, x = .ok a → R a a) :
    Alike R x x := by
  cases x with
  | ok a => exact .ok (h a rfl)
  | error e => exact .error e

theorem Alike.eq_ok_or_eq_error {ε α β : Type} {R : α → β → Prop} {x : Except ε α} {y : Except ε β}
    (h : Alike R x y) :
    (∃ a b, x = .ok a ∧ y = .ok b ∧ R a b) ∨ ∃ e, x = .error e ∧ y = .error e := by
  cases h with
  | ok hab => exact .inl ⟨_, _, rfl, rfl, hab⟩
  | error e => exact .inr ⟨e, rfl, rfl⟩

section Options

variable {α β : Type} {R R' : α → β → Prop} {x : Option α} {y : Option β}

theorem rel_mono (hR : ∀ a b, R a b → R' a b) (h : Option.Rel R x y) : Option.Rel R' x y := by
  cases h with
  | none => exact .none
  | some hab => exact .some (hR _ _ hab)

/-- What is there on one side is there on the other. -/
theorem exists_eq_some_of_rel {a : α} (h : Option.Rel R (some a) y) : ∃ b, y = some b ∧ R a b := by
  cases h with
  | some hab => exact ⟨_, rfl, hab⟩

theorem eq_none_of_rel (h : Option.Rel R none y) : y = none := by
  cases h
  rfl

theorem isSome_eq_of_rel (h : Option.Rel R x y) : x.isSome = y.isSome := by
  cases h <;> rfl

end Options

/-- **References of two stores that stand for each other**, each for at most one. -/
structure Pairing (α : Type) where
  /-- The references stand for each other. -/
  Rel : α → α → Prop
  unique : ∀ {a a' b b' : α}, Rel a b → Rel a' b' → (a = a' ↔ b = b')

namespace Pairing

variable {α : Type}

/-- Everything stands for itself. -/
def refl (α : Type) : Pairing α where
  Rel := Eq
  unique := by
    rintro a a' b b' rfl rfl
    exact Iff.rfl

/-- Some references stand for themselves, and no others. -/
def only (P : α → Prop) : Pairing α where
  Rel a b := a = b ∧ P a
  unique := by
    rintro a a' b b' ⟨rfl, -⟩ ⟨rfl, -⟩
    exact Iff.rfl

/-- One more pair, of references that had no counterparts yet. -/
def insert (p : Pairing α) (a b : α) (ha : ∀ b', ¬ p.Rel a b') (hb : ∀ a', ¬ p.Rel a' b) :
    Pairing α where
  Rel a' b' := p.Rel a' b' ∨ (a' = a ∧ b' = b)
  unique := by
    rintro a₁ a₂ b₁ b₂ (h₁ | ⟨rfl, rfl⟩) (h₂ | ⟨rfl, rfl⟩)
    · exact p.unique h₁ h₂
    · constructor
      · rintro rfl
        exact absurd h₁ (ha _)
      · rintro rfl
        exact absurd h₁ (hb _)
    · constructor
      · rintro rfl
        exact absurd h₂ (ha _)
      · rintro rfl
        exact absurd h₂ (hb _)
    · exact ⟨fun _ => rfl, fun _ => rfl⟩

end Pairing

/-- **The references of two stores that stand for each other.** -/
structure Matching where
  /-- The cells. -/
  cells : Pairing CellRef
  /-- The scopes. -/
  scopes : Pairing ScopeRef
  /-- The arrays. -/
  arrays : Pairing ArrayRef
  /-- The objects. -/
  objects : Pairing ObjectRef
  /-- The functions. -/
  functions : Pairing FunctionRef

namespace Matching

/-- Everything stands for itself. -/
def refl : Matching where
  cells := .refl _
  scopes := .refl _
  arrays := .refl _
  objects := .refl _
  functions := .refl _

/-- What stands for each other in the one matching does so in the other. -/
structure Le (m m' : Matching) : Prop where
  cells : ∀ {a b}, m.cells.Rel a b → m'.cells.Rel a b
  scopes : ∀ {a b}, m.scopes.Rel a b → m'.scopes.Rel a b
  arrays : ∀ {a b}, m.arrays.Rel a b → m'.arrays.Rel a b
  objects : ∀ {a b}, m.objects.Rel a b → m'.objects.Rel a b
  functions : ∀ {a b}, m.functions.Rel a b → m'.functions.Rel a b

instance : LE Matching :=
  ⟨Le⟩

theorem le_refl (m : Matching) : m ≤ m :=
  ⟨id, id, id, id, id⟩

theorem le_trans {m₁ m₂ m₃ : Matching} (h : m₁ ≤ m₂) (h' : m₂ ≤ m₃) : m₁ ≤ m₃ :=
  ⟨fun hab => h'.cells (h.cells hab), fun hab => h'.scopes (h.scopes hab),
    fun hab => h'.arrays (h.arrays hab), fun hab => h'.objects (h.objects hab),
    fun hab => h'.functions (h.functions hab)⟩

end Matching

/-! ### Values -/

/-- Values that are the same but for the references in them. -/
inductive Value.Matches (m : Matching) : Value → Value → Prop
  | num (x : Float) : Matches m (.num x) (.num x)
  | str (s : String) : Matches m (.str s) (.str s)
  | bool (b : Bool) : Matches m (.bool b) (.bool b)
  | null : Matches m .null .null
  | arr {r r' : ArrayRef} : m.arrays.Rel r r' → Matches m (.arr r) (.arr r')
  | obj {r r' : ObjectRef} : m.objects.Rel r r' → Matches m (.obj r) (.obj r')
  | fn {r r' : FunctionRef} : m.functions.Rel r r' → Matches m (.fn r) (.fn r')

namespace Value.Matches

variable {m m' : Matching} {v v' u u' : Value}

theorem mono (h : m ≤ m') (hv : v.Matches m v') : v.Matches m' v' := by
  cases hv with
  | arr hr => exact .arr (h.arrays hr)
  | obj hr => exact .obj (h.objects hr)
  | fn hr => exact .fn (h.functions hr)
  | num | str | bool | null => constructor

/-- Values that match are of one kind. -/
theorem kind_eq (h : v.Matches m v') : v'.kind = v.kind := by
  cases h <;> rfl

/-- Values that match are equal to the same values. -/
theorem equal_eq (hv : v.Matches m v') (hu : u.Matches m u') : v'.equal u' = v.equal u := by
  cases hv with
  | arr hr =>
    cases hu with
    | arr hs =>
      simp only [equal]
      rw [Bool.eq_iff_iff, beq_iff_eq, beq_iff_eq, m.arrays.unique hr hs]
    | _ => rfl
  | obj hr =>
    cases hu with
    | obj hs =>
      simp only [equal]
      rw [Bool.eq_iff_iff, beq_iff_eq, beq_iff_eq, m.objects.unique hr hs]
    | _ => rfl
  | fn hr =>
    cases hu with
    | fn hs =>
      simp only [equal]
      rw [Bool.eq_iff_iff, beq_iff_eq, beq_iff_eq, m.functions.unique hr hs]
    | _ => rfl
  | num | str | bool | null => cases hu <;> rfl

/-- A value without references matches itself. -/
theorem of_known (h : ∀ s, v.Known s) : v.Matches m v := by
  cases v with
  | num | str | bool | null => constructor
  | arr r => exact absurd (h .empty) (Nat.not_lt_zero _)
  | obj r => exact absurd (h .empty) (Nat.not_lt_zero _)
  | fn r => exact absurd (h .empty) (Nat.not_lt_zero _)

end Value.Matches

/-- Lists of values that match one by one. -/
abbrev Value.AllMatch (m : Matching) (vs vs' : List Value) : Prop :=
  List.Forall₂ (Value.Matches m) vs vs'

/-- More may match later. -/
theorem Value.AllMatch.mono {m m' : Matching} (h : m ≤ m') {vs vs' : List Value}
    (hvs : AllMatch m vs vs') : AllMatch m' vs vs' :=
  hvs.imp fun _ _ hv => hv.mono h

namespace Value.AllMatch

variable {m : Matching} {vs vs' : List Value}

/-- Arguments at the same place match. -/
theorem arg (h : AllMatch m vs vs') (i : Nat) :
    (Native.arg vs i).Matches m (Native.arg vs' i) := by
  induction h generalizing i with
  | nil => exact .null
  | cons hv _ ih =>
    cases i with
    | zero => exact hv
    | succ i => exact ih i

theorem getElem? (h : AllMatch m vs vs') (i : Nat) :
    Option.Rel (Value.Matches m) vs[i]? vs'[i]? := by
  induction h generalizing i with
  | nil => exact .none
  | cons hv _ ih =>
    cases i with
    | zero => exact .some hv
    | succ i => exact ih i

/-- Arguments are cut off or filled up alike on both sides. -/
theorem adjustArgs (h : AllMatch m vs vs') (n : Nat) :
    AllMatch m (adjustArgs n vs) (Sigil.adjustArgs n vs') := by
  unfold Sigil.adjustArgs
  rw [← h.length_eq]
  refine List.rel_append (List.forall₂_take n h) ?_
  induction n - vs.length with
  | zero => exact .nil
  | succ k ih => exact .cons .null ih

end Value.AllMatch

/-- Arrays whose elements match one by one. -/
def Value.ItemsMatch (m : Matching) (items items' : Array Value) : Prop :=
  Value.AllMatch m items.toList items'.toList

namespace Value.ItemsMatch

variable {m m' : Matching} {items items' : Array Value} (h : ItemsMatch m items items')
include h

theorem mono (hle : m ≤ m') : ItemsMatch m' items items' :=
  Value.AllMatch.mono hle h

theorem push {v v' : Value} (hv : v.Matches m v') :
    ItemsMatch m (items.push v) (items'.push v') := by
  unfold ItemsMatch
  rw [Array.toList_push, Array.toList_push]
  exact List.rel_append h (.cons hv .nil)

theorem pop : ItemsMatch m items.pop items'.pop := by
  unfold ItemsMatch
  rw [Array.toList_pop, Array.toList_pop, List.dropLast_eq_take, List.dropLast_eq_take,
    ← List.Forall₂.length_eq h]
  exact List.forall₂_take _ h

/-- Arrays that match are equally long. -/
theorem size_eq : items.size = items'.size :=
  List.Forall₂.length_eq h

theorem getElem? (i : Nat) : Option.Rel (Value.Matches m) items[i]? items'[i]? := by
  rw [← Array.getElem?_toList, ← Array.getElem?_toList]
  exact Value.AllMatch.getElem? h i

theorem back? : Option.Rel (Value.Matches m) items.back? items'.back? := by
  rw [Array.back?, Array.back?, h.size_eq]
  exact h.getElem? _

theorem reverse : ItemsMatch m items.reverse items'.reverse := by
  unfold ItemsMatch
  rw [Array.toList_reverse, Array.toList_reverse]
  exact List.rel_reverse h

theorem append {others others' : Array Value} (h' : ItemsMatch m others others') :
    ItemsMatch m (items ++ others) (items' ++ others') := by
  unfold ItemsMatch
  rw [Array.toList_append, Array.toList_append]
  exact List.rel_append h h'

/-- Arrays that match hold values equal to values that match. -/
theorem any_eq {v v' : Value} (hv : v.Matches m v') :
    items'.any (·.equal v') = items.any (·.equal v) := by
  rw [← Array.any_toList, ← Array.any_toList]
  unfold ItemsMatch at h
  generalize items.toList = vs, items'.toList = vs' at h
  induction h with
  | nil => rfl
  | cons hu _ ih => rw [List.any_cons, List.any_cons, hu.equal_eq hv, ih]

end Value.ItemsMatch

/-! ### Tables -/

/-- Tables that have the same names in the same order, with values that match. -/
def Table.Matches {α : Type} (R : α → α → Prop) (t t' : Table α) : Prop :=
  List.Forall₂ (fun entry entry' => entry.1 = entry'.1 ∧ R entry.2 entry'.2) t.entries t'.entries

namespace Table.Matches

variable {α : Type} {R R' : α → α → Prop} {t t' : Table α}

theorem mono (h : ∀ a b, R a b → R' a b) (ht : t.Matches R t') : t.Matches R' t' :=
  List.Forall₂.imp (fun _ _ hab => ⟨hab.1, h _ _ hab.2⟩) ht

theorem empty : (Table.empty : Table α).Matches R .empty :=
  .nil

/-- Under a name both tables have values that match, or none. -/
theorem get? (h : t.Matches R t') (name : String) :
    Option.Rel R (t.get? name) (t'.get? name) := by
  have hentries {entries entries' : List (String × α)}
      (h : List.Forall₂ (fun entry entry' => entry.1 = entry'.1 ∧ R entry.2 entry'.2) entries
        entries') : Option.Rel R (entries.lookup name) (entries'.lookup name) := by
    induction h with
    | nil => exact .none
    | @cons entry entry' rest rest' hentry _ ih =>
      obtain ⟨key, value⟩ := entry
      obtain ⟨key', value'⟩ := entry'
      obtain ⟨rfl, hvalue⟩ := hentry
      rw [lookup_cons_eq_ite, lookup_cons_eq_ite]
      split
      · exact .some hvalue
      · exact ih
  exact hentries h

theorem insert (h : t.Matches R t') (name : String) {value value' : α} (hvalue : R value value') :
    (t.insert name value).Matches R (t'.insert name value') := by
  have hput {entries entries' : List (String × α)}
      (h : List.Forall₂ (fun entry entry' => entry.1 = entry'.1 ∧ R entry.2 entry'.2) entries
        entries') :
      List.Forall₂ (fun entry entry' => entry.1 = entry'.1 ∧ R entry.2 entry'.2)
        (put name value entries) (put name value' entries') := by
    induction h with
    | nil => exact .cons ⟨rfl, hvalue⟩ .nil
    | @cons entry entry' rest rest' hentry hrest ih =>
      obtain ⟨key, old⟩ := entry
      obtain ⟨key', old'⟩ := entry'
      obtain ⟨rfl, hold⟩ := hentry
      simp only [put]
      split
      · exact .cons ⟨rfl, hvalue⟩ hrest
      · exact .cons ⟨rfl, hold⟩ ih
  exact hput h

/-- Tables that match have the same names in the same order. -/
theorem keys_eq (h : t.Matches R t') : t'.keys = t.keys := by
  have hkeys {entries entries' : List (String × α)}
      (h : List.Forall₂ (fun entry entry' => entry.1 = entry'.1 ∧ R entry.2 entry'.2) entries
        entries') : entries'.map Prod.fst = entries.map Prod.fst := by
    induction h with
    | nil => rfl
    | cons hentry _ ih => rw [List.map_cons, List.map_cons, ih, hentry.1]
  exact hkeys h

theorem values (h : t.Matches R t') : List.Forall₂ R t.values t'.values :=
  List.forall₂_map_left_iff.2 (List.forall₂_map_right_iff.2 (List.Forall₂.imp (fun _ _ h => h.2) h))

end Table.Matches

/-! ### Functions, results and events -/

/-- Functions that are the same but for the scopes they were made in. -/
inductive Function.Matches (m : Matching) : Function → Function → Prop
  | closure (params : List String) (body : Node) {scope scope' : ScopeRef} (name : Option String) :
    m.scopes.Rel scope scope' →
      Matches m (.closure params body scope name) (.closure params body scope' name)
  | native (f : Native) : Matches m (.native f) (.native f)

theorem Function.Matches.mono {m m' : Matching} (h : m ≤ m') {f f' : Function}
    (hf : f.Matches m f') : f.Matches m' f' := by
  cases hf with
  | closure params body name hscope => exact .closure params body name (h.scopes hscope)
  | native f => exact .native f

/-- What evaluations came to that end alike. -/
inductive Flow.Matches {α β : Type} (R : α → β → Prop) (m : Matching) : Flow α → Flow β → Prop
  | value {a : α} {b : β} : R a b → Matches R m (.value a) (.value b)
  | signal {v v' : Value} : v.Matches m v' → Matches R m (.signal v) (.signal v')

/-- Results that end alike. -/
abbrev Result.Matches (m : Matching) : Result → Result → Prop :=
  Flow.Matches (Value.Matches m) m

/-- Results that end alike have values that match. -/
theorem Flow.Matches.result {m : Matching} {r r' : Result} (h : Result.Matches m r r') :
    r.result.Matches m r'.result := by
  cases h with
  | value hv => exact hv
  | signal hv => exact hv

/-- Events that are the same but for references. -/
inductive TraceEvent.Matches (m : Matching) : TraceEvent → TraceEvent → Prop
  | declaredFunction (name : String) : Matches m (.declaredFunction name) (.declaredFunction name)
  | declaredSpace (name : String) : Matches m (.declaredSpace name) (.declaredSpace name)
  | declaredMember (space name : String) {v v' : Value} :
    v.Matches m v' → Matches m (.declaredMember space name v) (.declaredMember space name v')
  | declaredVariable (isMutable : Bool) (name : String) {v v' : Value} :
    v.Matches m v' →
      Matches m (.declaredVariable isMutable name v) (.declaredVariable isMutable name v')
  | condition (holds : Bool) : Matches m (.condition holds) (.condition holds)
  | iteration (current total : Nat) :
    Matches m (.iteration current total) (.iteration current total)
  | calledNative (f : Native) : Matches m (.calledNative f) (.calledNative f)
  | calledClosure (name : Option String) {args args' : List Value} :
    Value.AllMatch m args args' → Matches m (.calledClosure name args) (.calledClosure name args')

/-- Namespaces that are the same but for their scopes. -/
structure OpenSpace.Matches (m : Matching) (space space' : OpenSpace) : Prop where
  name_eq : space'.name = space.name
  members_eq : space'.members = space.members
  scope : m.scopes.Rel space.scope space'.scope

/-! ### What matches only itself -/

/-- Tables are equal if what matches in them is. -/
theorem Table.Matches.eq {α : Type} {R : α → α → Prop} {t t' : Table α} (h : t.Matches R t')
    (hR : ∀ a b, R a b → a = b) : t = t' := by
  have hentries : t.entries = t'.entries := by
    refine List.forall₂_eq_eq_eq ▸ List.Forall₂.imp (fun entry entry' hentry => ?_) h
    exact Prod.ext hentry.1 (hR _ _ hentry.2)
  obtain ⟨entries, _⟩ := t
  obtain ⟨entries', _⟩ := t'
  obtain rfl : entries = entries' := hentries
  rfl

section Refl

variable {m : Matching} (hm : m ≤ .refl)
include hm

/-- Where everything matches only itself, values that match are equal. -/
theorem Value.Matches.eq {v v' : Value} (h : v.Matches m v') : v = v' := by
  cases h with
  | arr hr => exact congrArg Value.arr (hm.arrays hr)
  | obj hr => exact congrArg Value.obj (hm.objects hr)
  | fn hr => exact congrArg Value.fn (hm.functions hr)
  | num | str | bool | null => rfl

theorem Value.AllMatch.eq {vs vs' : List Value} (h : AllMatch m vs vs') : vs = vs' :=
  List.forall₂_eq_eq_eq ▸ h.imp fun _ _ hv => hv.eq hm

theorem Function.Matches.eq {f f' : Function} (h : f.Matches m f') : f = f' := by
  cases h with
  | closure params body name hscope =>
    exact congrArg (Function.closure params body · name) (hm.scopes hscope)
  | native f => rfl

theorem Flow.Matches.eq {r r' : Result} (h : Result.Matches m r r') : r = r' := by
  cases h with
  | value hv => exact congrArg Flow.value (hv.eq hm)
  | signal hv => exact congrArg Flow.signal (hv.eq hm)

theorem TraceEvent.Matches.eq {event event' : TraceEvent} (h : event.Matches m event') :
    event = event' := by
  cases h with
  | declaredMember space name hv => rw [hv.eq hm]
  | declaredVariable isMutable name hv => rw [hv.eq hm]
  | calledClosure name hargs => rw [hargs.eq hm]
  | declaredFunction | declaredSpace | condition | iteration | calledNative => rfl

end Refl

end Sigil
