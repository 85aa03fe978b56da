import Sigil.Proofs.Calls.Snapshots
import Sigil.Proofs.Hoisting

/-!
# Objects as ordered maps

An object literal may name a key several times. The object that it makes has the key once, at the
place of its first mention and with the value of its last one (`Table.Collects`). Putting one more
entry into a table keeps that up, and so it holds of literals, whose entries are evaluated one after
another (`EntriesTo`), and of objects that a host hands over. The functions that read objects and
access to a member agree on what an object holds (`ReadAlike`).
-/

namespace Sigil

open Eval

/-! ### Tables -/

namespace Table

variable {α : Type}

/-- **A table that collects entries**: each key stands once, the keys stand in the order in which
they are mentioned first, and each has the value that it is mentioned with last. -/
structure Collects (entries : List (String × α)) (t : Table α) : Prop where
  nodup : t.keys.Nodup
  mem_keys : ∀ key, key ∈ t.keys ↔ key ∈ entries.map Prod.fst
  first : ∀ a ∈ t.keys, ∀ b ∈ t.keys, t.keys.idxOf a < t.keys.idxOf b ↔
    (entries.map Prod.fst).idxOf a < (entries.map Prod.fst).idxOf b
  last : ∀ key, t.get? key = entries.reverse.lookup key

private theorem collects_empty : (empty : Table α).Collects [] where
  nodup := List.nodup_nil
  mem_keys _ := Iff.rfl
  first _ h := absurd h List.not_mem_nil
  last _ := rfl

private theorem keys_insert (t : Table α) (name : String) (value : α) :
    (t.insert name value).keys = if name ∈ t.keys then t.keys else t.keys ++ [name] :=
  keys_put name value t.entries

private theorem Collects.first_insert {entries : List (String × α)} {t : Table α}
    (h : t.Collects entries) (name : String) (value : α) {a b : String}
    (ha : a ∈ (t.insert name value).keys) (hb : b ∈ (t.insert name value).keys) :
    (t.insert name value).keys.idxOf a < (t.insert name value).keys.idxOf b ↔
      (entries.map Prod.fst ++ [name]).idxOf a < (entries.map Prod.fst ++ [name]).idxOf b := by
  -- a key that was mentioned before keeps its place on both sides
  have hold {key : String} (hkey : key ∈ t.keys) :
      (entries.map Prod.fst ++ [name]).idxOf key = (entries.map Prod.fst).idxOf key :=
    List.idxOf_append_of_mem ((h.mem_keys key).1 hkey)
  rw [keys_insert] at ha hb ⊢
  by_cases hname : name ∈ t.keys
  · rw [if_pos hname] at ha hb ⊢
    rw [hold ha, hold hb]
    exact h.first a ha b hb
  · rw [if_neg hname] at ha hb ⊢
    -- a new key stands after all others on both sides
    have hnew : name ∉ entries.map Prod.fst := fun hmem => hname ((h.mem_keys name).2 hmem)
    have hkeys (key : String) (hkey : key ∈ t.keys) :
        (t.keys ++ [name]).idxOf key = t.keys.idxOf key ∧ t.keys.idxOf key < t.keys.length ∧
          (entries.map Prod.fst).idxOf key < (entries.map Prod.fst).length :=
      ⟨List.idxOf_append_of_mem hkey, List.idxOf_lt_length_of_mem hkey,
        List.idxOf_lt_length_of_mem ((h.mem_keys key).1 hkey)⟩
    have hlast : (t.keys ++ [name]).idxOf name = t.keys.length := by
      rw [List.idxOf_append_of_notMem hname, List.idxOf_cons_self, Nat.add_zero]
    have hlast' : (entries.map Prod.fst ++ [name]).idxOf name = (entries.map Prod.fst).length := by
      rw [List.idxOf_append_of_notMem hnew, List.idxOf_cons_self, Nat.add_zero]
    rw [List.mem_append, List.mem_singleton] at ha hb
    rcases ha with ha | rfl <;> rcases hb with hb | rfl
    · rw [hold ha, hold hb, (hkeys a ha).1, (hkeys b hb).1]
      exact h.first a ha b hb
    · rw [hold ha, hlast, hlast', (hkeys a ha).1]
      exact iff_of_true (hkeys a ha).2.1 (hkeys a ha).2.2
    · rw [hold hb, hlast, hlast', (hkeys b hb).1]
      exact iff_of_false (Nat.lt_asymm (hkeys b hb).2.1) (Nat.lt_asymm (hkeys b hb).2.2)
    · exact iff_of_false (Nat.lt_irrefl _) (Nat.lt_irrefl _)

/-- **One more entry.** -/
theorem Collects.insert {entries : List (String × α)} {t : Table α} (h : t.Collects entries)
    (name : String) (value : α) :
    (t.insert name value).Collects (entries ++ [(name, value)]) where
  nodup := (t.insert name value).nodup
  mem_keys key := by
    rw [keys_insert, List.map_append, List.mem_append, ← h.mem_keys]
    by_cases hname : name ∈ t.keys
    · rw [if_pos hname, List.map_singleton, List.mem_singleton]
      refine ⟨.inl, fun hkey => hkey.elim id ?_⟩
      rintro rfl
      exact hname
    · rw [if_neg hname, List.mem_append]
      rfl
  first a ha b hb := by
    rw [List.map_append]
    exact h.first_insert name value ha hb
  last key := by
    rw [get?_insert, List.reverse_append, List.reverse_singleton, List.singleton_append,
      lookup_cons_eq_ite, h.last]

private theorem ofList_append_singleton (entries : List (String × α)) (name : String) (value : α) :
    ofList (entries ++ [(name, value)]) = (ofList entries).insert name value := by
  rw [ofList, ofList, List.foldl_append]
  rfl

/-- The table of a list of entries collects them. -/
private theorem collects_ofList (entries : List (String × α)) :
    (ofList entries).Collects entries := by
  induction entries using List.reverseRecOn with
  | nil => exact collects_empty
  | append_singleton entries entry ih =>
    rw [ofList_append_singleton]
    exact ih.insert entry.1 entry.2

/-! ### Keys and values by position -/

private theorem entries_eq_zip (t : Table α) : t.entries = t.keys.zip t.values := by
  rw [keys, values, List.zip_map']
  exact (List.map_id' t.entries).symm

private theorem length_keys (t : Table α) : t.keys.length = t.values.length := by
  simp [keys, values]

/-- The value of a key is the one at its position. -/
private theorem get?_eq_getElem? (t : Table α) (key : String) :
    t.get? key = t.values[t.keys.idxOf key]? := by
  unfold get? values keys
  induction t.entries with
  | nil => rfl
  | cons entry rest ih =>
    obtain ⟨first, value⟩ := entry
    rw [lookup_cons_eq_ite, List.map_cons, List.map_cons, List.idxOf_cons]
    by_cases hkey : key = first
    · simp [hkey]
    · simp [hkey, beq_false_of_ne (Ne.symm hkey), ih]

end Table

/-! ### Object literals -/

/-- **The trees of some entries evaluate to values**, one after another in the order in which they
are written. -/
inductive EntriesTo (eval : Evaluator) (scope : ScopeRef) (w : World) :
    List (String × Node) → List (String × Value) → World → Prop
  /-- No entries yet. -/
  | none : EntriesTo eval scope w [] [] w
  /-- One more entry. -/
  | next {entries : List (String × Node)} {pairs : List (String × Value)} {key : String} {n : Node}
    {v : Value} {w₁ w' : World} :
    EntriesTo eval scope w entries pairs w₁ → eval n scope w₁ = .ok (.value v) w' →
      EntriesTo eval scope w (entries ++ [(key, n)]) (pairs ++ [(key, v)]) w'

/-- Once the first entries have come to values, these are in the table. -/
private theorem EntriesTo.evalEntries_eq {eval : Evaluator} {scope : ScopeRef} {w w' : World}
    {entries : List (String × Node)} {pairs : List (String × Value)}
    (h : EntriesTo eval scope w entries pairs w') (rest : List (String × Node)) :
    evalEntries eval scope .empty (entries ++ rest) w =
      evalEntries eval scope (.ofList pairs) rest w' := by
  induction h generalizing rest with
  | none => rfl
  | next _ heval ih =>
    rw [List.append_assoc, ih, Table.ofList_append_singleton]
    exact onValue_of_eq_value heval

/-- **An object literal collects its entries.** -/
theorem EntriesTo.evalWithin_object {fuel : Nat} {scope : ScopeRef} {w w' : World}
    {entries : List (String × Node)} {pairs : List (String × Value)}
    (h : EntriesTo (evalWithin fuel) scope w entries pairs w') :
    ∃ r w'', evalWithin (fuel + 1) (.object entries) scope w = .ok (.value (.obj r)) w'' ∧
      (w''.store.fields r).Collects pairs := by
  have hentries := h.evalEntries_eq []
  rw [List.append_nil] at hentries
  refine ⟨⟨w'.store.objects.size⟩, _, onValue_of_eq_value hentries, ?_⟩
  simpa [Store.newObject, Store.fields] using Table.collects_ofList pairs

/-! ### Objects from a host -/

private theorem keys_of_plainFields {fields : List (String × Json)} {w w' : World}
    {pairs : List (String × Value)} (h : plainFields fields w = .ok pairs w') :
    pairs.map Prod.fst = fields.map Prod.fst := by
  induction fields generalizing w pairs with
  | nil =>
    rw [plainFields] at h
    cases h
    rfl
  | cons field fields ih =>
    rw [plainFields] at h
    obtain ⟨v, w₁, -, h⟩ := exists_of_bind_eq_ok h
    obtain ⟨rest, w₂, hrest, h⟩ := exists_of_bind_eq_ok h
    cases h
    rw [List.map_cons, List.map_cons, ih hrest]

/-- **An object from a host collects its fields.** -/
theorem plainValue_obj {fields : List (String × Json)} {w w' : World}
    {pairs : List (String × Value)} (h : plainFields fields w = .ok pairs w') :
    ∃ r w'', plainValue (.obj fields) w = .ok (.obj r) w'' ∧
      (w''.store.fields r).Collects pairs := by
  rw [plainValue]
  refine ⟨⟨w'.store.objects.size⟩, _, bind_eq_of_ok h, ?_⟩
  simpa [Store.newObject, Store.fields] using Table.collects_ofList pairs

/-! ### The functions that read objects -/

/-- Some pairs are put into new arrays, and those there are stay as they are. -/
private theorem exists_mapM_newArray (entries : List (String × Value)) (w : World) :
    ∃ (qs : List ArrayRef) (w' : World),
      (entries.mapM fun entry => newArray #[.str entry.1, entry.2] : Eval (List Value)) w =
        .ok (qs.map .arr) w' ∧
      (∀ q ∈ qs, q.index < w'.store.arrays.size) ∧
      qs.map w'.store.items = (entries.map fun entry => #[.str entry.1, entry.2]) ∧
      ∀ q : ArrayRef, q.index < w.store.arrays.size →
        q.index < w'.store.arrays.size ∧ w'.store.items q = w.store.items q := by
  induction entries generalizing w with
  | nil => exact ⟨[], w, rfl, List.forall_mem_nil _, rfl, fun q hq => ⟨hq, rfl⟩⟩
  | cons entry entries ih =>
    obtain ⟨key, v⟩ := entry
    let w₁ : World := { w with store := (w.store.newArray #[.str key, v]).2 }
    obtain ⟨qs, w', hrun, hqs, hitems, hkept⟩ := ih w₁
    have hnew := hkept (w.store.newArray #[.str key, v]).1 (by simp [w₁, Store.newArray])
    refine ⟨(w.store.newArray #[.str key, v]).1 :: qs, w', ?_, ?_, ?_, fun q hq => ?_⟩
    · rw [List.mapM_cons, bind_eq_of_ok (newArray_eq _ _), bind_eq_of_ok hrun]
      rfl
    · exact List.forall_mem_cons.2 ⟨hnew.1, hqs⟩
    · rw [List.map_cons, List.map_cons, hitems, hnew.2]
      exact congrArg (· :: _) (Store.items_newArray _ _)
    · have hlt : q.index < w₁.store.arrays.size := by
        simp only [w₁, Store.newArray, Array.size_push]
        omega
      exact ⟨(hkept q hlt).1, (hkept q hlt).2.trans (Store.items_newArray_of_lt hq _)⟩

/-- The pairs of key and value are arrays of two in a new array. -/
private theorem exists_pairs_eq (entries : List (String × Value)) (w : World) :
    ∃ (a : ArrayRef) (qs : List ArrayRef) (w' : World),
      Native.pairs entries w = .ok (.arr a) w' ∧
      (w'.store.items a).toList = qs.map .arr ∧
      qs.map w'.store.items = entries.map fun entry => #[.str entry.1, entry.2] := by
  obtain ⟨qs, w', hrun, hqs, hitems, -⟩ := exists_mapM_newArray entries w
  refine ⟨_, qs, _, (bind_eq_of_ok hrun).trans (newArray_eq _ _), ?_, ?_⟩
  · rw [Store.items_newArray]
  · rw [← hitems]
    exact List.map_congr_left fun q hq => Store.items_newArray_of_lt (hqs q hq) _

/-- The functions of the standard library that read objects. -/
def objectReaders : List Native :=
  [.objKeys, .objVals, .objKvs, .objHas]

/-- **The readers of an object agree** in a world. Its keys, all different, are the elements of one
array and its values those of another; the pairs are made of both position by position; it has the
keys that are listed; and access to a member gives the value at the position of the key, or null
without such a key. -/
def ReadAlike (fuel : Nat) (library : Native → FunctionRef) (w : World) (r : ObjectRef) : Prop :=
  let keys := (w.store.fields r).keys
  let values := (w.store.fields r).values
  keys.Nodup ∧ keys.length = values.length ∧
    (∃ a w', callWithin (fuel + 1) (.fn (library .objKeys)) [.obj r] w = .ok (.arr a) w' ∧
      (w'.store.items a).toList = keys.map .str) ∧
    (∃ a w', callWithin (fuel + 1) (.fn (library .objVals)) [.obj r] w = .ok (.arr a) w' ∧
      (w'.store.items a).toList = values) ∧
    (∃ (a : ArrayRef) (qs : List ArrayRef) (w' : World),
      callWithin (fuel + 1) (.fn (library .objKvs)) [.obj r] w = .ok (.arr a) w' ∧
      (w'.store.items a).toList = qs.map .arr ∧
      qs.map w'.store.items = (keys.zip values).map fun entry => #[.str entry.1, entry.2]) ∧
    ∀ key,
      (∃ log, callWithin (fuel + 1) (.fn (library .objHas)) [.obj r, .str key] w =
        .ok (.bool (decide (key ∈ keys))) { w with log }) ∧
      ∀ target scope w₀, evalWithin fuel target scope w₀ = .ok (.value (.obj r)) w →
        (key ∈ keys → ∃ v, values[keys.idxOf key]? = some v ∧
          evalWithin (fuel + 1) (.member target key) scope w₀ = .ok (.value v) w) ∧
        (key ∉ keys →
          evalWithin (fuel + 1) (.member target key) scope w₀ = .ok (.value .null) w)

/-- Access to a member once the object is there. -/
private theorem evalWithin_member {fuel : Nat} {target : Node} {scope : ScopeRef} {w₀ w : World}
    {r : ObjectRef} (h : evalWithin fuel target scope w₀ = .ok (.value (.obj r)) w)
    (key : String) : evalWithin (fuel + 1) (.member target key) scope w₀ =
      .ok (.value (((w.store.fields r).get? key).getD .null)) w :=
  onValue_of_eq_value h

/-- The readers of every object agree. -/
private theorem readAlike (fuel : Nat) {library : Native → FunctionRef} {w : World}
    (hlibrary : w.store.Offers library objectReaders) (r : ObjectRef) :
    ReadAlike fuel library w r := by
  refine ⟨(w.store.fields r).nodup, Table.length_keys _, ?_, ?_, ?_, fun key => ⟨?_, ?_⟩⟩
  · have hf := hlibrary .objKeys (by decide)
    obtain ⟨a, w', hcall, hitems, -⟩ := exists_callWithin_newArray fuel hf
      [.obj r] ((w.store.fields r).keys.map .str).toArray fun _ => rfl
    exact ⟨a, w', hcall, by rw [hitems]⟩
  · have hf := hlibrary .objVals (by decide)
    obtain ⟨a, w', hcall, hitems, -⟩ := exists_callWithin_newArray fuel hf
      [.obj r] (w.store.fields r).values.toArray fun _ => rfl
    exact ⟨a, w', hcall, by rw [hitems]⟩
  · have hf := hlibrary .objKvs (by decide)
    obtain ⟨log, hcall⟩ := exists_callWithin_native fuel hf [.obj r]
    obtain ⟨a, qs, w', hpairs, hitems, hqs⟩ :=
      exists_pairs_eq (w.store.fields r).entries { w with log }
    refine ⟨a, qs, w', hcall.trans hpairs, hitems, ?_⟩
    rw [hqs, Table.entries_eq_zip]
  · have hf := hlibrary .objHas (by decide)
    obtain ⟨log, hcall⟩ := exists_callWithin_native fuel hf [.obj r, .str key]
    refine ⟨log, hcall.trans ?_⟩
    rw [← List.contains_eq_mem]
    rfl
  · intro target scope w₀ htarget
    rw [evalWithin_member htarget, Table.get?_eq_getElem?]
    constructor
    · intro hkey
      have hlt := List.idxOf_lt_length_of_mem hkey
      rw [Table.length_keys] at hlt
      exact ⟨_, List.getElem?_eq_getElem hlt, by rw [List.getElem?_eq_getElem hlt]; rfl⟩
    · intro hkey
      rw [List.idxOf_eq_length hkey, Table.length_keys, List.getElem?_eq_none (Nat.le_refl _)]
      rfl

/-- **Objects are ordered maps.** An object literal whose entries evaluate to values makes an object
that has each key once, at the place of its first mention and with the value of its last one, and so
does a host that hands over an object. Whatever the state is and wherever an object in it comes
from, the functions that read it and access to its members agree on its keys, their order and their
values. -/
theorem objects_are_ordered_maps (fuel : Nat) :
    (∀ scope w entries pairs w', EntriesTo (evalWithin fuel) scope w entries pairs w' →
      ∃ r w'', evalWithin (fuel + 1) (.object entries) scope w = .ok (.value (.obj r)) w'' ∧
        (w''.store.fields r).Collects pairs) ∧
    (∀ fields w pairs w', plainFields fields w = .ok pairs w' →
      pairs.map Prod.fst = fields.map Prod.fst ∧
        ∃ r w'', plainValue (.obj fields) w = .ok (.obj r) w'' ∧
          (w''.store.fields r).Collects pairs) ∧
    ∀ (w : World) (library : Native → FunctionRef), w.store.Offers library objectReaders →
      ∀ r, ReadAlike fuel library w r :=
  ⟨fun _ _ _ _ _ h => h.evalWithin_object,
    fun _ _ _ _ h => ⟨keys_of_plainFields h, plainValue_obj h⟩,
    fun _ _ hlibrary r => readAlike fuel hlibrary r⟩

/-- A literal that mentions a key twice, with another key in between. -/
theorem objects_are_ordered_maps_repeated :
    let library (f : Native) : FunctionRef := ⟨objectReaders.idxOf f⟩
    let w : World := ⟨{ Store.empty with functions := (objectReaders.map .native).toArray },
      #[], .fresh 0 none⟩
    let literal (b : Bool) : Node := .literal (.bool b) (.str "bool")
    let entries := [("b", literal true), ("a", literal true), ("b", literal false)]
    let pairs := [("b", .bool true), ("a", .bool true), ("b", .bool false)]
    EntriesTo (evalWithin 1) ⟨0⟩ w entries pairs w ∧
      ∃ r w', evalWithin 2 (.object entries) ⟨0⟩ w = .ok (.value (.obj r)) w' ∧
        (w'.store.fields r).entries = [("b", .bool false), ("a", .bool true)] ∧
        (w'.store.fields r).Collects pairs ∧ w'.store.Offers library objectReaders ∧
        ReadAlike 1 library w' r := by
  intro library w literal entries pairs
  have hentries : EntriesTo (evalWithin 1) ⟨0⟩ w entries pairs w :=
    .next (.next (.next .none rfl) rfl) rfl
  obtain ⟨hliteral, -, hread⟩ := objects_are_ordered_maps 1
  obtain ⟨r, w', hobject, hcollects⟩ := hliteral _ _ _ _ _ hentries
  cases hobject
  have hoffers : w.store.Offers library objectReaders := by
    simp only [Store.Offers, objectReaders, List.forall_mem_cons]
    exact ⟨rfl, rfl, rfl, rfl, List.forall_mem_nil _⟩
  refine ⟨hentries, _, _, rfl, rfl, hcollects, hoffers, hread _ _ ?_ _⟩
  exact hoffers

end Sigil
