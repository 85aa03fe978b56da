import Mathlib.Data.List.Chain
import Mathlib.Data.List.Nodup
import Mathlib.Data.List.Perm.Subperm
import Sigil.Proofs.Recording.Erasure
import Sigil.Proofs.Safety.Run

/-!
# Only pushing ties knots

A new container holds values that exist already, so containers can be ranked by when they were made:
what a container holds ranks below it. The one exception are elements that were pushed to an array
later on. So every cycle of containers goes through a pushed element, and as long as nothing is
pushed all values are acyclic. The text of an acyclic value can be spelled out by plain recursion,
without looking at the containers on the way (`Store.textWithin`).
-/

namespace Sigil

open Eval

/-! ### Places and cycles -/

/-- A place in a container that a value can be at. -/
inductive Place where
  /-- A position in an array, counted from zero. -/
  | item (r : ArrayRef) (i : Nat)
  /-- A key of an object. -/
  | field (r : ObjectRef) (key : String)

namespace Place

/-- The container that a place is in. -/
def owner : Place → Container
  | .item r _ => .arr r
  | .field r _ => .obj r

/-- The value at a place. -/
def value? (s : Store) : Place → Option Value
  | .item r i => (s.items r)[i]?
  | .field r key => (s.fields r).get? key

end Place

namespace Store

/-- The container is at the place. -/
def Holds (s : Store) (p : Place) (c : Container) : Prop :=
  ∃ v, p.value? s = some v ∧ container? v = some c

/-- The first container is an element or a member of the second. -/
def Inside (s : Store) (d c : Container) : Prop :=
  ∃ p : Place, p.owner = c ∧ s.Holds p d

/-- **A cycle of containers**: places each of which holds the container of the next one, and the
last that of the first. -/
def Cycle (s : Store) (ps : List Place) : Prop :=
  ∃ h : ps ≠ [], (ps.getLast h :: ps).IsChain fun p q => s.Holds p q.owner

end Store

/-- A container that exists. -/
def Container.Known (s : Store) : Container → Prop
  | .arr r => r.index < s.arrays.size
  | .obj r => r.index < s.objects.size

theorem Value.Known.container {s : Store} {v : Value} {c : Container} (h : v.Known s)
    (hc : Store.container? v = some c) : c.Known s := by
  cases v <;> cases hc <;> exact h

theorem Place.owner_known {s : Store} {p : Place} {v : Value} (h : p.value? s = some v) :
    p.owner.Known s := by
  cases p with
  | item r i =>
    by_contra hr
    have hnone : s.arrays[r.index]? = none := Array.getElem?_eq_none (Nat.le_of_not_lt hr)
    simp [value?, Store.items, hnone] at h
  | field r key =>
    by_contra hr
    have hnone : s.objects[r.index]? = none := Array.getElem?_eq_none (Nat.le_of_not_lt hr)
    simp [value?, Store.fields, hnone, Table.get?, Table.empty] at h

theorem Store.Closed.known_of_value? {s : Store} (hs : s.Closed) {p : Place} {v : Value}
    (h : p.value? s = some v) : v.Known s := by
  have hsound : s.Sound True := fun _ => hs
  cases p with
  | item r i => exact hsound.items r v (Array.mem_of_getElem? h) trivial
  | field r key => exact hsound.fields r v (Table.mem_values_of_get? h) trivial

/-! ### Pushed elements -/

/-- **An element that was stored by a push**: one of the stages is a push of the value to the array
that put it at the position, and it was not taken away since. -/
def StoredByPush (stages : List Stage) (r : ArrayRef) (i : Nat) (v : Value) : Prop :=
  ∃ before stage after args, stages = before ++ stage :: after ∧
    stage.deed = .native .arrPush args ∧ Native.arg args 0 = .arr r ∧ Native.arg args 1 = v ∧
    (stage.store.items r).size = i + 1 ∧ ∀ later ∈ after, i < (later.store.items r).size

/-- The value at the place was stored by a push. -/
def Place.Pushed (stages : List Stage) (v : Value) : Place → Prop
  | .item r i => StoredByPush stages r i v
  | .field _ _ => False

/-- A pushed element stays one as long as it is there. -/
private theorem Place.Pushed.snoc {stages : List Stage} {stage : Stage} {p : Place} {v : Value}
    (h : p.Pushed stages v) (hv : p.value? stage.store = some v) :
    p.Pushed (stages ++ [stage]) v := by
  cases p with
  | field r key => exact h
  | item r i =>
    obtain ⟨before, push, after, args, rfl, hdeed, harray, helement, hsize, hlater⟩ := h
    refine ⟨before, push, after ++ [stage], args, by simp, hdeed, harray, helement, hsize, ?_⟩
    intro later hmem
    rcases List.mem_append.1 hmem with hmem | hmem
    · exact hlater later hmem
    · obtain rfl := List.mem_singleton.1 hmem
      exact (Array.getElem?_eq_some_iff.1 hv).1

/-! ### Ranks -/

/-- **Ranks of containers**: what is at a place ranks below the container that the place is in,
unless it is marked. -/
structure Ranked (marked : Place → Value → Prop) (s : Store) (rank : Container → Nat)
    (bound : Nat) : Prop where
  lt_bound : ∀ c : Container, c.Known s → rank c < bound
  descends : ∀ p v, p.value? s = some v → ¬ marked p v →
    ∀ c, Store.container? v = some c → rank c < rank p.owner

/-! ### What changes do to places -/

namespace Place

variable {s : Store} {p : Place} {v : Value}

/-- A new array has its elements as the only new places. -/
private theorem value?_newArray {items : Array Value} (h : p.value? (s.newArray items).2 = some v) :
    p.value? s = some v ∨ p.owner = .arr ⟨s.arrays.size⟩ ∧ v ∈ items := by
  cases p with
  | field r key => exact .inl h
  | item r i =>
    by_cases hr : r.index = s.arrays.size
    · have hitems : ((s.newArray items).2.items r) = items := by
        simp [Store.newArray, Store.items, hr]
      rw [value?, hitems] at h
      refine .inr ⟨?_, Array.mem_of_getElem? h⟩
      cases r
      cases hr
      rfl
    · have hitems : (s.newArray items).2.items r = s.items r := by
        simp [Store.newArray, Store.items, Array.getElem?_push, hr]
      rw [value?, hitems] at h
      exact .inl h

/-- A new object has its fields as the only new places. -/
private theorem value?_newObject {fields : Table Value}
    (h : p.value? (s.newObject fields).2 = some v) :
    p.value? s = some v ∨ p.owner = .obj ⟨s.objects.size⟩ ∧ v ∈ fields.values := by
  cases p with
  | item r i => exact .inl h
  | field r key =>
    by_cases hr : r.index = s.objects.size
    · have hfields : ((s.newObject fields).2.fields r) = fields := by
        simp [Store.newObject, Store.fields, hr]
      rw [value?, hfields] at h
      refine .inr ⟨?_, Table.mem_values_of_get? h⟩
      cases r
      cases hr
      rfl
    · have hfields : (s.newObject fields).2.fields r = s.fields r := by
        simp [Store.newObject, Store.fields, Array.getElem?_push, hr]
      rw [value?, hfields] at h
      exact .inl h

end Place

namespace Store

private theorem items_modify (s : Store) (r q : ArrayRef) (f : Array Value → Array Value) :
    ({ s with arrays := s.arrays.modify r.index f } : Store).items q =
      if q = r ∧ r.index < s.arrays.size then f (s.items r) else s.items q := by
  simp only [items, Array.getElem?_modify]
  by_cases hq : q = r
  · subst hq
    by_cases hlt : q.index < s.arrays.size <;> simp [hlt]
  · have hne : r.index ≠ q.index := fun heq => hq (by cases q; cases r; cases heq; rfl)
    simp [hq, hne]

end Store

namespace Place

variable {s : Store} {r : ArrayRef} {p : Place} {u v : Value}

/-- Pushing makes one place. -/
private theorem value?_push (h : p.value? (s.push r v) = some u) :
    p.value? s = some u ∨
      p = .item r (s.items r).size ∧ u = v ∧
        ((s.push r v).items r).size = (s.items r).size + 1 := by
  cases p with
  | field q key => exact .inl h
  | item q i =>
    have hitems (q : ArrayRef) : (s.push r v).items q = _ := s.items_modify r q (·.push v)
    simp only [value?, hitems] at h ⊢
    split at h
    case isFalse => exact .inl h
    case isTrue hqr =>
      obtain ⟨rfl, hlt⟩ := hqr
      rw [Array.getElem?_push] at h
      split at h
      case isFalse => exact .inl h
      case isTrue hi =>
        subst hi
        exact .inr ⟨rfl, (Option.some.inj h).symm, by simp [hlt]⟩

/-- Popping makes no place. -/
private theorem value?_pop (h : p.value? (s.pop r) = some u) : p.value? s = some u := by
  cases p with
  | field q key => exact h
  | item q i =>
    have hitems : (s.pop r).items q = _ := s.items_modify r q Array.pop
    simp only [value?, hitems] at h ⊢
    split at h
    case isFalse => exact h
    case isTrue hqr =>
      obtain ⟨rfl, -⟩ := hqr
      rw [Array.getElem?_pop] at h
      split at h
      · exact h
      · cases h

end Place

/-! ### What changes do to ranks -/

theorem Container.Known.of_sizes {s s' : Store} {c : Container} (h : c.Known s')
    (harrays : s'.arrays.size = s.arrays.size) (hobjects : s'.objects.size = s.objects.size) :
    c.Known s := by
  cases c with
  | arr r => exact Nat.lt_of_lt_of_eq h harrays
  | obj r => exact Nat.lt_of_lt_of_eq h hobjects

/-- A new array is the only new container. -/
theorem Container.Known.of_newArray {s : Store} {items : Array Value} {c : Container}
    (h : c.Known (s.newArray items).2) : c = .arr ⟨s.arrays.size⟩ ∨ c.Known s := by
  cases c with
  | obj r => exact .inr h
  | arr r =>
    have hlt : r.index < s.arrays.size + 1 := by simpa [Known, Store.newArray] using h
    rcases Nat.lt_succ_iff_lt_or_eq.1 hlt with hlt | heq
    · exact .inr hlt
    · exact .inl (by cases r; cases heq; rfl)

/-- A new object is the only new container. -/
theorem Container.Known.of_newObject {s : Store} {fields : Table Value} {c : Container}
    (h : c.Known (s.newObject fields).2) : c = .obj ⟨s.objects.size⟩ ∨ c.Known s := by
  cases c with
  | arr r => exact .inr h
  | obj r =>
    have hlt : r.index < s.objects.size + 1 := by simpa [Known, Store.newObject] using h
    rcases Nat.lt_succ_iff_lt_or_eq.1 hlt with hlt | heq
    · exact .inr hlt
    · exact .inl (by cases r; cases heq; rfl)

namespace Ranked

variable {marked marked' : Place → Value → Prop} {s s' : Store} {rank : Container → Nat}
  {bound : Nat}

/-- Ranks stay when no container is made and the new places are marked. -/
theorem of_places (h : Ranked marked s rank bound) (harrays : s'.arrays.size = s.arrays.size)
    (hobjects : s'.objects.size = s.objects.size)
    (hplaces : ∀ p v, p.value? s' = some v → ¬ marked' p v → p.value? s = some v ∧ ¬ marked p v) :
    Ranked marked' s' rank bound where
  lt_bound c hc := h.lt_bound c (hc.of_sizes harrays hobjects)
  descends p v hv hmarked := by
    obtain ⟨hold, hunmarked⟩ := hplaces p v hv hmarked
    exact h.descends p v hold hunmarked

/-- **Adding a container**: it ranks above all others, as it holds values that exist already. -/
theorem add (h : Ranked marked s rank bound) (hs : s.Closed) {c : Container} (hc : ¬ c.Known s)
    (hknown : ∀ d : Container, d.Known s' → d = c ∨ d.Known s)
    (hplaces : ∀ (p : Place) (v : Value), p.value? s' = some v →
      p.value? s = some v ∨ p.owner = c ∧ v.Known s) :
    Ranked marked s' (Function.update rank c bound) (bound + 1) where
  lt_bound d hd := by
    by_cases heq : d = c
    · simp [heq]
    · have hlt := h.lt_bound d ((hknown d hd).resolve_left heq)
      rw [Function.update_of_ne heq]
      omega
  descends p v hv hmarked d hd := by
    rcases hplaces p v hv with hold | ⟨howner, hnew⟩
    · have hdc : d ≠ c := by
        rintro rfl
        exact hc ((hs.known_of_value? hold).container hd)
      have hpc : p.owner ≠ c := by
        rintro rfl
        exact hc (Place.owner_known hold)
      rw [Function.update_of_ne hdc, Function.update_of_ne hpc]
      exact h.descends p v hold hmarked d hd
    · have hdknown : d.Known s := hnew.container hd
      have hdc : d ≠ c := by
        rintro rfl
        exact hc hdknown
      rw [howner, Function.update_self, Function.update_of_ne hdc]
      exact h.lt_bound d hdknown

end Ranked

/-- Containers can be ranked. -/
def Rankable (marked : Place → Value → Prop) (s : Store) : Prop :=
  ∃ rank bound, Ranked marked s rank bound

private theorem Rankable.sparing {marked : Place → Value → Prop} {s s' : Store}
    (h : Rankable marked s) (hs : s.Closed) (hchange : s.Sparing True s') : Rankable marked s' := by
  obtain ⟨rank, bound, h⟩ := h
  cases hchange with
  | newArray hitems =>
    refine ⟨_, _, h.add hs (c := .arr ⟨s.arrays.size⟩) (Nat.lt_irrefl _)
      (fun d hd => hd.of_newArray) fun p v hv => ?_⟩
    exact (Place.value?_newArray hv).imp_right (And.imp_right fun hmem => hitems v hmem trivial)
  | newObject hfields =>
    refine ⟨_, _, h.add hs (c := .obj ⟨s.objects.size⟩) (Nat.lt_irrefl _)
      (fun d hd => hd.of_newObject) fun p v hv => ?_⟩
    exact (Place.value?_newObject hv).imp_right (And.imp_right fun hmem => hfields v hmem trivial)
  -- no other change touches a container
  | _ => exact ⟨rank, bound, h.of_places rfl rfl fun p v hv hmarked => ⟨hv, hmarked⟩⟩

/-! ### Stages and courses -/

variable {done stages : List Stage} {stage : Stage} {s s' : Store}

/-- Elements that were pushed stay marked in the next stage. -/
private theorem Rankable.snoc (h : Rankable (fun p v => p.Pushed done v) stage.store) :
    Rankable (fun p v => p.Pushed (done ++ [stage]) v) stage.store := by
  obtain ⟨rank, bound, h⟩ := h
  exact ⟨rank, bound, h.of_places rfl rfl fun p v hv hfresh => ⟨hv, fun hp => hfresh (hp.snoc hv)⟩⟩

private theorem Rankable.push (h : Rankable (fun p v => p.Pushed done v) s) {args : List Value}
    (hdeed : stage.deed = .native .arrPush args) (hstore : stage.store = s.afterPush args) :
    Rankable (fun p v => p.Pushed (done ++ [stage]) v) stage.store := by
  unfold Store.afterPush at hstore
  split at hstore
  case h_2 => exact .snoc (hstore ▸ h)
  case h_1 r harray =>
    obtain ⟨rank, bound, h⟩ := h
    refine ⟨rank, bound, h.of_places ?_ ?_ fun p v hv hfresh => ?_⟩
    · simp [hstore, Store.push]
    · simp [hstore, Store.push]
    · rcases Place.value?_push (hstore ▸ hv) with hold | ⟨rfl, rfl, hsize⟩
      · exact ⟨hold, fun hp => hfresh (hp.snoc hv)⟩
      · -- the one new place holds what this stage has pushed
        refine absurd ⟨done, stage, [], args, rfl, hdeed, harray, rfl, ?_, ?_⟩ hfresh
        · rw [hstore]
          exact hsize
        · simp

private theorem Rankable.pop (h : Rankable (fun p v => p.Pushed done v) s) (args : List Value) :
    Rankable (fun p v => p.Pushed done v) (s.afterPop args) := by
  unfold Store.afterPop
  split
  · obtain ⟨rank, bound, h⟩ := h
    refine ⟨rank, bound, h.of_places ?_ rfl fun p v hv hfresh => ⟨Place.value?_pop hv, hfresh⟩⟩
    simp [Store.pop]
  · exact h

private theorem Rankable.sparing_path {marked : Place → Value → Prop} (h : Rankable marked s)
    (hs : s.Closed) (hpath : Relation.ReflTransGen (Store.Sparing True) s s') :
    Rankable marked s' := by
  have hboth : s'.Closed ∧ Rankable marked s' := by
    induction hpath with
    | refl => exact ⟨hs, h⟩
    | tail _ hchange ih => exact ⟨hchange.closed trivial ih.1, ih.2.sparing ih.1 hchange⟩
  exact hboth.2

/-- **What a stage does**: containers can be ranked again, up to the elements pushed so far. -/
theorem Rankable.leads (h : Rankable (fun p v => p.Pushed done v) s) (hs : s.Closed)
    (hstage : stage.deed.Leads True s stage.store) :
    Rankable (fun p v => p.Pushed (done ++ [stage]) v) stage.store := by
  obtain ⟨args, hdeed, hstore, -⟩ | ⟨args, -, hstore⟩ | ⟨isMutable, -, r, name, v, hstore, -⟩ |
    ⟨-, hpath⟩ := hstage.cases
  · exact h.push hdeed hstore
  · exact .snoc (hstore ▸ h.pop args)
  · obtain ⟨rank, bound, h⟩ := h
    have hdefine : Ranked (fun p v => p.Pushed done v) (s.define r name v isMutable) rank bound :=
      h.of_places rfl rfl fun p v hv hfresh => ⟨hv, hfresh⟩
    exact .snoc (hstore ▸ ⟨rank, bound, hdefine⟩)
  · exact .snoc (h.sparing_path hs hpath)

/-- **Along a course** containers can be ranked, up to the elements pushed on the way. -/
theorem Course.rankable (h : Course True s stages s') (hs : s.Closed)
    (hrank : Rankable (fun p v => p.Pushed done v) s) :
    Rankable (fun p v => p.Pushed (done ++ stages) v) s' := by
  induction h generalizing done with
  | nil => simpa using hrank
  | @cons s s' stage stages hstage _ ih =>
    have hnext := ih (hstage.closed trivial hs) (hrank.leads hs hstage)
    rwa [List.append_assoc] at hnext

private theorem rankable_empty (marked : Place → Value → Prop) : Rankable marked .empty := by
  have hnone (c : Container) : ¬ c.Known .empty := by
    cases c <;> exact Nat.not_lt_zero _
  exact ⟨fun _ => 0, 0, fun c hc => absurd hc (hnone c),
    fun p v hv => absurd (Place.owner_known hv) (hnone p.owner)⟩

/-! ### Cycles -/

/-- A cycle goes through a marked place: otherwise the ranks would decrease all the way round. -/
theorem Ranked.exists_marked {marked : Place → Value → Prop} {rank : Container → Nat} {bound : Nat}
    (h : Ranked marked s rank bound) {ps : List Place} (hcycle : s.Cycle ps) :
    ∃ p ∈ ps, ∃ v, p.value? s = some v ∧ marked p v := by
  obtain ⟨hne, hchain⟩ := hcycle
  by_contra hnone
  have hfree : ∀ p ∈ ps.getLast hne :: ps, ∀ v, p.value? s = some v → ¬ marked p v := by
    intro p hp v hv hmarked
    rcases List.mem_cons.1 hp with rfl | hp
    · exact hnone ⟨_, List.getLast_mem hne, v, hv, hmarked⟩
    · exact hnone ⟨p, hp, v, hv, hmarked⟩
  have hdescends : (ps.getLast hne :: ps).IsChain fun p q => rank q.owner < rank p.owner := by
    refine hchain.imp_of_mem_imp fun p q hp _ hholds => ?_
    obtain ⟨v, hv, hcontainer⟩ := hholds
    exact h.descends p v hv (hfree p hp v hv) _ hcontainer
  have htrans : IsTrans Place fun p q => rank q.owner < rank p.owner :=
    ⟨fun _ _ _ hpq hqr => Nat.lt_trans hqr hpq⟩
  have hpairwise := List.isChain_iff_pairwise.1 hdescends
  exact Nat.lt_irrefl _ (List.rel_of_pairwise_cons hpairwise (List.getLast_mem hne))

/-! ### Texts by plain recursion -/

namespace Store

/-- The text of a value inside a container, spelled out by plain recursion: nothing is remembered of
the containers on the way. There is none if the value is deeper than `depth`. -/
def nestedTextWithin (s : Store) : Nat → Value → Option String
  | 0, _ => none
  | depth + 1, .arr r => do
    let texts ← (s.items r).toList.mapM (s.nestedTextWithin depth)
    return "[" ++ Datum.commaSeparated texts ++ "]"
  | depth + 1, .obj r => do
    let texts ← (s.fields r).entries.mapM fun (key, v) => do
      return key ++ ": " ++ (← s.nestedTextWithin depth v)
    return "\x7b" ++ Datum.commaSeparated texts ++ "\x7d"
  | _ + 1, v => some (s.leaf 0 v).nestedText

/-- The text of a value, spelled out by plain recursion: a text is its own. -/
def textWithin (s : Store) (depth : Nat) : Value → Option String
  | .str t => some t
  | v => s.nestedTextWithin depth v

end Store

namespace Datum

theorem itemTexts_eq_map (ds : List Datum) : itemTexts ds = ds.map nestedText := by
  induction ds with
  | nil => rfl
  | cons d ds ih => rw [itemTexts, ih, List.map_cons]

theorem fieldTexts_eq_map (ds : List (String × Datum)) :
    fieldTexts ds = ds.map fun (key, d) => key ++ ": " ++ nestedText d := by
  induction ds with
  | nil => rfl
  | cons d ds ih => rw [fieldTexts, ih, List.map_cons]

end Datum

private theorem mapM_eq_some_map {α β : Type} {f : α → Option β} {g : α → β} {l : List α}
    (h : ∀ a ∈ l, f a = some (g a)) : l.mapM f = some (l.map g) := by
  induction l with
  | nil => rfl
  | cons a l ih =>
    rw [List.mapM_cons, h a List.mem_cons_self, ih fun b hb => h b (List.mem_cons_of_mem a hb)]
    rfl

namespace Container

/-- Where a container stands in the list of all arrays and then all objects. -/
def position (s : Store) : Container → Nat
  | .arr r => r.index
  | .obj r => s.arrays.size + r.index

theorem position_injective {c d : Container} (hc : c.Known s) (hd : d.Known s)
    (h : c.position s = d.position s) : c = d := by
  cases c <;> cases d <;> simp only [position, Known] at h hc hd
  case arr.arr q r => cases q; cases r; cases h; rfl
  case arr.obj => omega
  case obj.arr => omega
  case obj.obj q r => cases q; cases r; simp_all

/-- Different containers are at most as many as there are. -/
theorem length_le_of_nodup {path : List Container} (hnodup : path.Nodup)
    (hknown : ∀ c ∈ path, c.Known s) : path.length ≤ s.arrays.size + s.objects.size := by
  have hpositions : (path.map (position s)).Nodup :=
    List.Nodup.map_on (fun c hc d hd => position_injective (hknown c hc) (hknown d hd)) hnodup
  have hsubset : path.map (position s) ⊆ List.range (s.arrays.size + s.objects.size) := by
    intro n hn
    obtain ⟨c, hc, rfl⟩ := List.mem_map.1 hn
    have hlt := hknown c hc
    cases c <;> simp only [Known, position, List.mem_range] at hlt ⊢ <;> omega
  simpa using (List.subperm_of_subset hpositions hsubset).length_le

end Container

/-- The path to a value: different containers that exist, all of a higher rank than the value. -/
structure RankedPath (s : Store) (rank : Container → Nat) (path : List Container) (v : Value) :
    Prop where
  nodup : path.Nodup
  known : ∀ c ∈ path, c.Known s
  above : ∀ c ∈ path, ∀ d, Store.container? v = some d → rank d < rank c

namespace RankedPath

variable {rank : Container → Nat} {path : List Container} {v : Value} {c : Container}

private theorem not_mem (h : RankedPath s rank path v) (hc : Store.container? v = some c) :
    c ∉ path :=
  fun hmem => Nat.lt_irrefl _ (h.above c hmem c hc)

/-- The path goes on into a container. -/
theorem cons {bound : Nat} (h : RankedPath s rank path v)
    (hrank : Ranked (fun _ _ => False) s rank bound) (hc : Store.container? v = some c)
    (hknown : c.Known s) {p : Place} {u : Value} (howner : p.owner = c)
    (hu : p.value? s = some u) : RankedPath s rank (c :: path) u := by
  have hbelow : ∀ d, Store.container? u = some d → rank d < rank c :=
    howner ▸ hrank.descends p u hu id
  refine ⟨List.nodup_cons.2 ⟨h.not_mem hc, h.nodup⟩, List.forall_mem_cons.2 ⟨hknown, h.known⟩,
    List.forall_mem_cons.2 ⟨hbelow, fun d hd e he => ?_⟩⟩
  exact Nat.lt_trans (hbelow e he) (h.above d hd c hc)

end RankedPath

private theorem Store.nestedTextWithin_of_container?_eq_none {v : Value} (h : container? v = none)
    (depth : Nat) :
    s.nestedTextWithin (depth + 1) v = some (s.leaf 0 v).nestedText := by
  cases v with
  | arr r => cases h
  | obj r => cases h
  | _ => rfl

theorem Store.mem_items_iff {r : ArrayRef} {u : Value} :
    u ∈ (s.items r).toList ↔ ∃ i, (Place.item r i).value? s = some u := by
  rw [Array.mem_toList_iff, Array.mem_iff_getElem?]
  rfl

theorem Store.value?_of_mem_entries {r : ObjectRef} {key : String} {u : Value}
    (h : (key, u) ∈ (s.fields r).entries) : (Place.field r key).value? s = some u := by
  obtain ⟨before, after, heq⟩ := List.append_of_mem h
  have hnodup := (s.fields r).nodup
  refine List.lookup_eq_some_iff.2 ⟨before, after, heq, fun entry hentry => ?_⟩
  rw [heq, List.map_append, List.map_cons] at hnodup
  have hne := List.disjoint_of_nodup_append hnodup (List.mem_map_of_mem hentry)
  simpa using fun hkey : key = entry.1 => hne (by simp [hkey])

/-- The text of an array, from the texts of its elements. -/
private theorem Store.nestedTextWithin_arr {r : ArrayRef} {depth levels : Nat}
    {path : List Container} (hfresh : .arr r ∉ path)
    (h : ∀ u ∈ (s.items r).toList,
      s.nestedTextWithin depth u = some (s.viewWithin levels (.arr r :: path) u).nestedText) :
    s.nestedTextWithin (depth + 1) (.arr r) =
      some (s.viewWithin (levels + 1) path (.arr r)).nestedText := by
  simp only [viewWithin, container?, List.idxOf?_eq_none_iff.2 hfresh, nestedTextWithin,
    mapM_eq_some_map h, Datum.nestedText, Datum.itemTexts_eq_map, List.map_map]
  rfl

/-- The text of an object, from the texts of its fields. -/
private theorem Store.nestedTextWithin_obj {r : ObjectRef} {depth levels : Nat}
    {path : List Container} (hfresh : .obj r ∉ path)
    (h : ∀ key u, (key, u) ∈ (s.fields r).entries →
      s.nestedTextWithin depth u = some (s.viewWithin levels (.obj r :: path) u).nestedText) :
    s.nestedTextWithin (depth + 1) (.obj r) =
      some (s.viewWithin (levels + 1) path (.obj r)).nestedText := by
  have hfields : ((s.fields r).entries.mapM fun (key, v) => do
      return key ++ ": " ++ (← s.nestedTextWithin depth v)) = some _ :=
    mapM_eq_some_map (g := fun (key, v) => key ++ ": " ++
        (s.viewWithin levels (.obj r :: path) v).nestedText) fun (key, u) hu => by
      simp only [h key u hu]
      rfl
  simp only [viewWithin, container?, List.idxOf?_eq_none_iff.2 hfresh, nestedTextWithin, hfields,
    Datum.nestedText, Datum.fieldTexts_eq_map, List.map_map]
  rfl

/-- **Plain recursion ends** where no place is marked: to a depth above the rank of a value it gives
the text of the value's view. -/
theorem Ranked.nestedTextWithin_eq {rank : Container → Nat} {bound : Nat} (hs : s.Closed)
    (hrank : Ranked (fun _ _ => False) s rank bound) (n : Nat) :
    ∀ (v : Value) (levels : Nat) (path : List Container), v.Known s → RankedPath s rank path v →
      (∀ c, Store.container? v = some c → rank c < n) →
      path.length + levels = s.arrays.size + s.objects.size + 1 →
        s.nestedTextWithin (n + 1) v = some (s.viewWithin levels path v).nestedText := by
  -- induction on the rank: what a container holds has a smaller one
  induction n with
  | zero =>
    intro v levels path hv hpath hlt hlevels
    have hnone : Store.container? v = none := by
      cases hc : Store.container? v with
      | none => rfl
      | some c => exact absurd (hlt c hc) (Nat.not_lt_zero _)
    rw [Store.nestedTextWithin_of_container?_eq_none hnone]
    cases levels <;> simp only [Store.viewWithin, hnone]
  | succ n ih =>
    intro v levels path hv hpath hlt hlevels
    -- the path is shorter than there are levels, so there is a level left to look inside
    have hlength := Container.length_le_of_nodup hpath.nodup hpath.known
    obtain ⟨levels, rfl⟩ : ∃ m, levels = m + 1 := ⟨levels - 1, by omega⟩
    have hinside {p : Place} {u : Value} {c : Container} (hc : Store.container? v = some c)
        (howner : p.owner = c) (hu : p.value? s = some u) :
        s.nestedTextWithin (n + 1) u = some (s.viewWithin levels (c :: path) u).nestedText := by
      refine ih u levels (c :: path) (hs.known_of_value? hu)
        (hpath.cons hrank hc (hv.container hc) howner hu) (fun d hd => ?_) ?_
      · have hbelow : rank d < rank p.owner := hrank.descends p u hu id d hd
        have habove := hlt c hc
        rw [howner] at hbelow
        omega
      · rw [List.length_cons]
        omega
    cases hc : Store.container? v with
    | none =>
      rw [Store.nestedTextWithin_of_container?_eq_none hc]
      simp only [Store.viewWithin, hc]
    | some c =>
      have hfresh : c ∉ path := hpath.not_mem hc
      cases v with
      | arr r =>
        cases hc
        refine Store.nestedTextWithin_arr hfresh fun u hu => ?_
        obtain ⟨i, hi⟩ := Store.mem_items_iff.1 hu
        exact hinside rfl rfl hi
      | obj r =>
        cases hc
        exact Store.nestedTextWithin_obj hfresh fun key u hu =>
          hinside rfl rfl (Store.value?_of_mem_entries hu)
      | _ => cases hc

/-- To a depth above all ranks, plain recursion gives the text of every value, if no place is
marked. -/
theorem Ranked.textWithin_eq {rank : Container → Nat} {bound : Nat} (hs : s.Closed)
    (hrank : Ranked (fun _ _ => False) s rank bound) {v : Value} (hv : v.Known s) :
    s.textWithin (bound + 1) v = some (s.text v) := by
  have hroot : RankedPath s rank [] v := ⟨List.nodup_nil, by simp, by simp⟩
  have hnested : s.nestedTextWithin (bound + 1) v = some (s.view v).nestedText :=
    hrank.nestedTextWithin_eq hs bound v _ [] hv hroot
      (fun c hc => hrank.lt_bound c (hv.container hc)) (by simp)
  cases v with
  | str t => rfl
  | _ => exact hnested

private theorem Ranked.exists_textWithin_eq {rank : Container → Nat} {bound : Nat} (hs : s.Closed)
    (hrank : Ranked (fun _ _ => False) s rank bound) {v : Value} (hv : v.Known s) :
    ∃ depth, s.textWithin depth v = some (s.text v) :=
  ⟨bound + 1, hrank.textWithin_eq hs hv⟩

/-! ### Cyclic values have no such text -/

/-- Each container of a cycle holds another one of it. -/
private theorem Store.Cycle.exists_holds {ps : List Place} (h : s.Cycle ps) {p : Place}
    (hp : p ∈ ps) :
    ∃ q ∈ ps, s.Holds p q.owner := by
  obtain ⟨hne, hchain⟩ := h
  obtain ⟨i, hi, rfl⟩ := List.mem_iff_getElem.1 hp
  rw [List.isChain_iff_getElem] at hchain
  by_cases hlast : i + 1 < ps.length
  · exact ⟨ps[i + 1], List.getElem_mem hlast, hchain (i + 1) (by simpa using hlast)⟩
  · have hpos : 0 < ps.length := List.length_pos_iff.2 hne
    have heq : ps.getLast hne = ps[i] := by
      rw [List.getLast_eq_getElem]
      congr 1
      omega
    exact ⟨ps[0], List.getElem_mem hpos, heq ▸ hchain 0 (by simpa using hpos)⟩

private theorem mapM_eq_none {α β : Type} {f : α → Option β} {l : List α} {a : α} (ha : a ∈ l)
    (h : f a = none) : l.mapM f = none := by
  induction l with
  | nil => cases ha
  | cons b l ih =>
    rw [List.mapM_cons]
    rcases List.mem_cons.1 ha with rfl | ha
    · rw [h]
      rfl
    · rw [ih ha]
      cases f b <;> rfl

/-- **Plain recursion does not end on a cycle**: to no depth it gives the text of a container of
the cycle. -/
theorem Store.Cycle.nestedTextWithin_eq_none {ps : List Place} (h : s.Cycle ps) (depth : Nat) :
    ∀ p ∈ ps, ∀ v, container? v = some p.owner → s.nestedTextWithin depth v = none := by
  induction depth with
  | zero => exact fun _ _ _ _ => rfl
  | succ depth ih =>
    intro p hp v hv
    obtain ⟨q, hq, u, hu, hcontainer⟩ := h.exists_holds hp
    have hnone := ih q hq u hcontainer
    cases p with
    | item r i =>
      cases v <;> cases hv
      simp only [nestedTextWithin, mapM_eq_none (mem_items_iff.2 ⟨i, hu⟩) hnone]
      rfl
    | field r key =>
      cases v <;> cases hv
      obtain ⟨before, after, hentries, -⟩ := List.lookup_eq_some_iff.1 hu
      have hmem : (key, u) ∈ (s.fields r).entries := by simp [hentries]
      have hfields : ((s.fields r).entries.mapM fun (key, v) => do
          return key ++ ": " ++ (← s.nestedTextWithin depth v)) = none :=
        mapM_eq_none hmem (by simp only [hnone]; rfl)
      simp only [nestedTextWithin, hfields]
      rfl

/-! ### Sessions -/

/-- Whether a deed pushes to an array. -/
def Deed.isPush : Deed → Bool
  | .native .arrPush _ => true
  | _ => false

/-- **Only pushing ties knots** in a store that some stages lead to: each cycle goes through an
element that one of them has pushed. If none of them pushes, there are no cycles, and the text of
every value there is can be spelled out by plain recursion. -/
structure TiedByPush (done : List Stage) (s : Store) : Prop where
  closed : s.Closed
  pushed : ∀ ps, s.Cycle ps → ∃ r i v, Place.item r i ∈ ps ∧ (s.items r)[i]? = some v ∧
    StoredByPush done r i v
  acyclic : (∀ stage ∈ done, stage.deed.isPush = false) → ∀ ps, ¬ s.Cycle ps
  text : (∀ stage ∈ done, stage.deed.isPush = false) → ∀ v : Value, v.Known s →
    ∃ depth, s.textWithin depth v = some (s.text v)

/-- Without a push nothing is marked. -/
theorem Place.not_pushed (h : ∀ stage ∈ done, stage.deed.isPush = false) (p : Place) (v : Value) :
    ¬ p.Pushed done v := by
  intro hp
  cases p with
  | field r key => exact hp
  | item r i =>
    obtain ⟨before, stage, after, args, rfl, hdeed, -⟩ := hp
    have hpush := h stage (by simp)
    rw [hdeed] at hpush
    cases hpush

private theorem Course.tiedByPush (h : Course True .empty done s) : TiedByPush done s := by
  have hclosed : s.Closed := h.closed trivial Store.closed_empty
  obtain ⟨rank, bound, hrank⟩ : Rankable (fun p v => p.Pushed done v) s :=
    h.rankable Store.closed_empty (rankable_empty fun p v => p.Pushed [] v)
  refine ⟨hclosed, fun ps hcycle => ?_, fun hquiet ps hcycle => ?_, fun hquiet v hv => ?_⟩
  · obtain ⟨p, hp, v, hv, hpushed⟩ := hrank.exists_marked hcycle
    cases p with
    | field r key => cases hpushed
    | item r i => exact ⟨r, i, v, hp, hv, hpushed⟩
  · obtain ⟨p, -, v, -, hpushed⟩ := hrank.exists_marked hcycle
    exact p.not_pushed hquiet v hpushed
  · have hunmarked : Ranked (fun _ _ => False) s rank bound :=
      hrank.of_places rfl rfl fun p v hv _ => ⟨hv, p.not_pushed hquiet v⟩
    exact hunmarked.exists_textWithin_eq hclosed hv

/-- **Only pushing ties knots.** A session that starts from plain host variables is recorded stage
by stage. In every store on the way each cycle of containers goes through an element that was stored
by a push; as long as nothing was pushed there are no cycles, and the text of every value can be
spelled out by plain recursion. -/
theorem cycles_tied_by_push (fuel : Nat) {level : Nat} {earlier : Option String}
    {given : List (String × Json)} {start : Session}
    (hstart : Session.start level earlier given = .ok start) (host : ScopeRef → Host)
    (hhost : (host start.globals).Careful fuel start.world) :
    (Recording.session fuel given host (Session.emptyWorld level earlier)).2 =
        (host start.globals).serve fuel start.world ∧
      storeAt .empty (Recording.session fuel given host (Session.emptyWorld level earlier)).1 =
        storeAfter ((host start.globals).serve fuel start.world) ∧
      ∀ done rest,
        (Recording.session fuel given host (Session.emptyWorld level earlier)).1 = done ++ rest →
          TiedByPush done (storeAt .empty done) := by
  obtain ⟨herases, hcourse⟩ := Recording.session_eq True fuel hstart host fun _ => hhost
  refine ⟨herases, hcourse.storeAt_eq, fun done rest hstages => ?_⟩
  rw [hstages] at hcourse
  exact hcourse.of_append.1.tiedByPush

/-- A program that pushes an array to itself. -/
theorem cycles_tied_by_push_self :
    let given : List (String × Json) := [("x", .arr [.arr [], .null])]
    let program : Node := .program [.varDecl "a" (.array [.ident "x"]) false,
      .call (.spaceMember "Arr" "push") [.ident "a", .ident "a"]]
    let host (scope : ScopeRef) : Host := .ask (.run program scope) fun _ => .finished
    ∃ start, Session.start 0 none given = .ok start ∧ (host start.globals).Careful 9 start.world ∧
      ∀ done rest, (Recording.session 9 given host (Session.emptyWorld 0 none)).1 = done ++ rest →
        TiedByPush done (storeAt .empty done) := by
  intro given program host
  have hgiven : ∀ entry ∈ given, entry.2.holdsDoubles = true :=
    List.forall_mem_singleton.2 (by decide)
  obtain ⟨start, hstart, -⟩ := exists_start 0 none hgiven
  -- a request to run a program hands over no values
  have hhost : (host start.globals).Careful 9 start.world :=
    ⟨fun v hv => absurd hv List.not_mem_nil, fun _ _ _ => trivial⟩
  exact ⟨start, hstart, hhost, (cycles_tied_by_push 9 hstart host hhost).2.2⟩

end Sigil
