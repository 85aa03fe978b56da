import Mathlib.Logic.Relation
import Sigil.Proofs.Grammar.Token
import Sigil.Proofs.Knots

/-!
# Data and their texts

Data are values made of numbers, texts, truth values, null, arrays and objects whose keys are names
(`Value.IsData`). There may be functions and cycles elsewhere in the store. Data look the same
wherever they are met, since no container of data is inside of itself (`Store.viewWithin_eq`), so
the text of a container is made of the texts of what is in it (`Store.spelling_arr`,
`Store.spelling_obj`).
-/

namespace Sigil

/-! ### Data -/

/-- **Data**: numbers, texts, truth values, null, arrays of data, and objects of data whose keys are
names. They are spelled out in finitely many steps, so no container is inside of itself. -/
inductive Value.IsData (s : Store) : Value → Prop
  | num (x : Float) : IsData s (.num x)
  | str (t : String) : IsData s (.str t)
  | bool (b : Bool) : IsData s (.bool b)
  | null : IsData s .null
  | arr {r : ArrayRef} : (∀ v ∈ (s.items r).toList, IsData s v) → IsData s (.arr r)
  | obj {r : ObjectRef} : (∀ key ∈ (s.fields r).keys, IsName key.toList) →
    (∀ v ∈ (s.fields r).values, IsData s v) → IsData s (.obj r)

/-! ### What data look like -/

namespace Store

variable {s : Store} {v u : Value} {path : List Container} {c d : Container}

/-- What is inside of data is data, so there is no way from a container of data back to it. -/
private theorem acc_inside (h : v.IsData s) (hc : container? v = some c) : Acc s.Inside c := by
  induction h generalizing c with
  | num | str | bool | null => cases hc
  | @arr r _ ih =>
    cases hc
    refine .intro _ ?_
    rintro d ⟨p, howner, v, hv, hd⟩
    cases p with
    | item q i =>
      cases howner
      exact ih v (mem_items_iff.2 ⟨i, hv⟩) hd
    | field q key => cases howner
  | @obj r _ _ ih =>
    cases hc
    refine .intro _ ?_
    rintro d ⟨p, howner, v, hv, hd⟩
    cases p with
    | item q i => cases howner
    | field q key =>
      cases howner
      exact ih v (Table.mem_values_of_get? hv) hd

/-- A way down to a value: different containers that exist, and the value is somewhere inside of
each of them. -/
structure WayTo (s : Store) (path : List Container) (v : Value) : Prop where
  nodup : path.Nodup
  known : ∀ c ∈ path, c.Known s
  inside : ∀ c ∈ path, ∀ d, container? v = some d → Relation.TransGen s.Inside d c

namespace WayTo

theorem nil (s : Store) (v : Value) : s.WayTo [] v :=
  ⟨.nil, List.forall_mem_nil _, List.forall_mem_nil _⟩

private theorem notMem (h : s.WayTo path v) (hv : v.IsData s) (hc : container? v = some c) :
    c ∉ path := by
  intro hmem
  -- otherwise the container is somewhere inside of itself, and there is a way down without an end
  have hacc := (acc_inside hv hc).transGen
  have hcycle := h.inside c hmem c hc
  induction hacc with
  | intro c _ ih => exact ih c hcycle hc hmem hcycle

theorem cons (h : s.WayTo path v) (hv : v.IsData s) (hc : container? v = some c) {p : Place}
    (howner : p.owner = c) (hu : p.value? s = some u) : s.WayTo (c :: path) u := by
  have hinside : ∀ d, container? u = some d → s.Inside d c := fun d hd => ⟨p, howner, u, hu, hd⟩
  refine ⟨List.nodup_cons.2 ⟨h.notMem hv hc, h.nodup⟩,
    List.forall_mem_cons.2 ⟨howner ▸ Place.owner_known hu, h.known⟩,
    List.forall_mem_cons.2 ⟨fun d hd => .single (hinside d hd), fun e he d hd => ?_⟩⟩
  exact (h.inside e he c hc).head (hinside d hd)

private theorem length_le (h : s.WayTo path v) : path.length ≤ s.arrays.size + s.objects.size :=
  Container.length_le_of_nodup h.nodup h.known

end WayTo

private theorem viewWithin_of_container?_eq_none (h : container? v = none) (levels : Nat)
    (path : List Container) : s.viewWithin levels path v = s.leaf 0 v := by
  cases levels with
  | zero => rfl
  | succ levels => rw [viewWithin, h]

private theorem viewWithin_arr {r : ArrayRef} (hfresh : .arr r ∉ path) (levels : Nat) :
    s.viewWithin (levels + 1) path (.arr r) =
      .arr ((s.items r).toList.map (s.viewWithin levels (.arr r :: path))) := by
  simp only [viewWithin, container?, List.idxOf?_eq_none_iff.2 hfresh]

private theorem viewWithin_obj {r : ObjectRef} (hfresh : .obj r ∉ path) (levels : Nat) :
    s.viewWithin (levels + 1) path (.obj r) = .obj ((s.fields r).entries.map fun entry =>
      (entry.1, s.viewWithin levels (.obj r :: path) entry.2)) := by
  simp only [viewWithin, container?, List.idxOf?_eq_none_iff.2 hfresh]

/-- There is a level left for a value that there is a way to. -/
private theorem WayTo.exists_levels_eq (h : s.WayTo path v) {levels : Nat}
    (hlevels : s.arrays.size + s.objects.size < levels + path.length) :
    ∃ n, levels = n + 1 ∧ s.arrays.size + s.objects.size < n + (path.length + 1) := by
  have hlength := h.length_le
  exact ⟨levels - 1, by omega, by omega⟩

/-- **Data look the same from wherever one looks at them**: the way to them does not matter. -/
theorem viewWithin_eq (h : v.IsData s) {path' : List Container} (hway : s.WayTo path v)
    (hway' : s.WayTo path' v) {levels levels' : Nat}
    (hlevels : s.arrays.size + s.objects.size < levels + path.length)
    (hlevels' : s.arrays.size + s.objects.size < levels' + path'.length) :
    s.viewWithin levels path v = s.viewWithin levels' path' v := by
  -- neither way holds the container at hand, so both go on into it, with a level less each
  induction h generalizing path path' levels levels' with
  | num | str | bool | null =>
    rw [viewWithin_of_container?_eq_none rfl, viewWithin_of_container?_eq_none rfl]
  | arr hitems ih =>
    have hdata := Value.IsData.arr hitems
    obtain ⟨n, rfl, hn⟩ := hway.exists_levels_eq hlevels
    obtain ⟨n', rfl, hn'⟩ := hway'.exists_levels_eq hlevels'
    rw [viewWithin_arr (hway.notMem hdata rfl), viewWithin_arr (hway'.notMem hdata rfl)]
    refine congrArg Datum.arr (List.map_congr_left fun u hu => ?_)
    obtain ⟨i, hi⟩ := mem_items_iff.1 hu
    exact ih u hu (hway.cons hdata rfl rfl hi) (hway'.cons hdata rfl rfl hi) hn hn'
  | obj hkeys hvalues ih =>
    have hdata := Value.IsData.obj hkeys hvalues
    obtain ⟨n, rfl, hn⟩ := hway.exists_levels_eq hlevels
    obtain ⟨n', rfl, hn'⟩ := hway'.exists_levels_eq hlevels'
    rw [viewWithin_obj (hway.notMem hdata rfl), viewWithin_obj (hway'.notMem hdata rfl)]
    refine congrArg Datum.obj (List.map_congr_left fun entry hentry => ?_)
    have hi := value?_of_mem_entries hentry
    rw [ih entry.2 (List.mem_map_of_mem hentry) (hway.cons hdata rfl rfl hi)
      (hway'.cons hdata rfl rfl hi) hn hn']

/-- What is at a place in data looks as it does by itself. -/
private theorem viewWithin_eq_view (h : v.IsData s) (hc : container? v = some c) {p : Place}
    (howner : p.owner = c) (hu : p.value? s = some u) (hdata : u.IsData s) :
    s.viewWithin (s.arrays.size + s.objects.size) [c] u = s.view u :=
  viewWithin_eq hdata ((WayTo.nil s v).cons h hc howner hu) (.nil s u) (Nat.lt_succ_self _)
    (Nat.lt_succ_self _)

/-- An array of data shows its elements. -/
private theorem view_arr {r : ArrayRef} (h : ∀ v ∈ (s.items r).toList, v.IsData s) :
    s.view (.arr r) = .arr ((s.items r).toList.map s.view) := by
  rw [view, viewWithin_arr List.not_mem_nil]
  refine congrArg Datum.arr (List.map_congr_left fun u hu => ?_)
  obtain ⟨i, hi⟩ := mem_items_iff.1 hu
  exact viewWithin_eq_view (.arr h) rfl rfl hi (h u hu)

/-- An object of data shows its members. -/
private theorem view_obj {r : ObjectRef} (hkeys : ∀ key ∈ (s.fields r).keys, IsName key.toList)
    (h : ∀ v ∈ (s.fields r).values, v.IsData s) :
    s.view (.obj r) = .obj ((s.fields r).entries.map fun entry => (entry.1, s.view entry.2)) := by
  rw [view, viewWithin_obj List.not_mem_nil]
  refine congrArg Datum.obj (List.map_congr_left fun entry hentry => ?_)
  have hdata := h entry.2 (List.mem_map_of_mem hentry)
  rw [viewWithin_eq_view (.obj hkeys h) rfl rfl (value?_of_mem_entries hentry) hdata]

end Store

/-! ### Texts -/

/-- Texts with a comma and a blank between them. -/
def withCommas : List (List Char) → List Char
  | [] => []
  | t :: ts => t ++ ts.flatMap fun u => ',' :: ' ' :: u

private theorem toList_commaSeparated (texts : List String) :
    (Datum.commaSeparated texts).toList = withCommas (texts.map String.toList) := by
  cases texts with
  | nil => rfl
  | cons t ts =>
    rw [Datum.commaSeparated, List.map_cons, withCommas]
    induction ts generalizing t with
    | nil => simp
    | cons u ts ih => simp [String.intercalate_cons_cons, ih u]

namespace Store

variable {s : Store} {r : ArrayRef} {q : ObjectRef}

/-- The characters of the text that a value has inside of a container. -/
def spelling (s : Store) (v : Value) : List Char :=
  (s.view v).nestedText.toList

/-- The characters of the text of a key with its value. -/
def memberSpelling (s : Store) (entry : String × Value) : List Char :=
  entry.1.toList ++ ':' :: ' ' :: s.spelling entry.2

theorem spelling_num (s : Store) (x : Float) :
    s.spelling (.num x) = (NumberFormat.plain.write x).toList :=
  rfl

theorem spelling_bool (s : Store) (b : Bool) :
    s.spelling (.bool b) = if b then "yes".toList else "no".toList := by
  cases b <;> rfl

theorem spelling_null (s : Store) : s.spelling .null = "_".toList :=
  rfl

theorem spelling_str (s : Store) (t : String) : s.spelling (.str t) = Quoted.encode t.toList :=
  String.toList_ofList

theorem spelling_arr (h : ∀ v ∈ (s.items r).toList, v.IsData s) :
    s.spelling (.arr r) = '[' :: (withCommas ((s.items r).toList.map s.spelling) ++ [']']) := by
  have htexts : (Datum.itemTexts ((s.items r).toList.map s.view)).map String.toList =
      (s.items r).toList.map s.spelling := by
    rw [Datum.itemTexts_eq_map, List.map_map, List.map_map]
    rfl
  rw [spelling, view_arr h, Datum.nestedText, String.toList_append, String.toList_append,
    toList_commaSeparated, htexts]
  rfl

theorem spelling_obj (hkeys : ∀ key ∈ (s.fields q).keys, IsName key.toList)
    (h : ∀ v ∈ (s.fields q).values, v.IsData s) :
    s.spelling (.obj q) =
      '\x7b' :: (withCommas ((s.fields q).entries.map s.memberSpelling) ++ ['\x7d']) := by
  have htexts : (Datum.fieldTexts ((s.fields q).entries.map fun entry =>
      (entry.1, s.view entry.2))).map String.toList =
        (s.fields q).entries.map s.memberSpelling := by
    rw [Datum.fieldTexts_eq_map, List.map_map, List.map_map]
    refine List.map_congr_left fun entry _ => ?_
    simp [memberSpelling, spelling]
  rw [spelling, view_obj hkeys h, Datum.nestedText, String.toList_append, String.toList_append,
    toList_commaSeparated, htexts]
  rfl

end Store

end Sigil
