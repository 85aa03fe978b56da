/-!
# Tables in order of insertion

A `Table` maps names to values, each name at most once, and remembers the order in which the names
were first put in. Putting a value under a name that is there keeps the place of the name.
-/

namespace Sigil

universe u

/-- A map from names to values that keeps the order in which the names came in. -/
structure Table (α : Type u) where
  /-- The names with their values, in the order in which the names came in. -/
  entries : List (String × α)
  /-- No name stands twice. -/
  nodup : (entries.map Prod.fst).Nodup := by simp

namespace Table

variable {α : Type u}

/-- The table without names. -/
def empty : Table α where
  entries := []

instance : Inhabited (Table α) :=
  ⟨empty⟩

/-- The names in order. -/
def keys (t : Table α) : List String :=
  t.entries.map Prod.fst

/-- The values in the order of their names. -/
def values (t : Table α) : List α :=
  t.entries.map Prod.snd

/-- The value of a name. -/
def get? (t : Table α) (name : String) : Option α :=
  t.entries.lookup name

/-- Whether the table has a name. -/
def contains (t : Table α) (name : String) : Bool :=
  t.keys.contains name

/-- Puts a value under a name into a list of entries. -/
def put (name : String) (value : α) : List (String × α) → List (String × α)
  | [] => [(name, value)]
  | (key, old) :: rest =>
    if key = name then (key, value) :: rest else (key, old) :: put name value rest

/-- Putting a value under a name adds the name at the end if it is new and leaves the names as they
are otherwise. -/
theorem keys_put (name : String) (value : α) (entries : List (String × α)) :
    (put name value entries).map Prod.fst =
      if name ∈ entries.map Prod.fst then entries.map Prod.fst
      else entries.map Prod.fst ++ [name] := by
  induction entries with
  | nil => simp [put]
  | cons entry rest ih =>
    obtain ⟨key, old⟩ := entry
    by_cases h : key = name
    · simp [put, h]
    · have h' : ¬ name = key := fun e => h e.symm
      simp only [put, h, if_false, List.map_cons, ih, List.mem_cons, h', false_or]
      split <;> simp

/-- Putting a value under a name keeps every name single. -/
theorem nodup_put (name : String) (value : α) {entries : List (String × α)}
    (h : (entries.map Prod.fst).Nodup) : ((put name value entries).map Prod.fst).Nodup := by
  rw [keys_put]
  split
  · exact h
  · rename_i hn
    rw [List.nodup_append]
    refine ⟨h, by simp, ?_⟩
    intro a ha b hb
    rw [List.mem_singleton.1 hb]
    exact fun e => hn (e ▸ ha)

/-- Puts a value under a name. A name that is there keeps its place. -/
def insert (t : Table α) (name : String) (value : α) : Table α where
  entries := put name value t.entries
  nodup := nodup_put name value t.nodup

theorem lookup_cons_eq_ite (key first : String) (value : α) (rest : List (String × α)) :
    ((first, value) :: rest).lookup key = if key = first then some value else rest.lookup key := by
  rw [List.lookup_cons]
  split <;> simp_all

theorem lookup_put (key name : String) (value : α) (entries : List (String × α)) :
    (put name value entries).lookup key =
      if key = name then some value else entries.lookup key := by
  induction entries with
  | nil => exact lookup_cons_eq_ite key name value []
  | cons entry rest ih =>
    obtain ⟨first, old⟩ := entry
    unfold put
    split <;> grind [lookup_cons_eq_ite]

/-- Putting a value under a name changes what is found under that name and nothing else. -/
theorem get?_insert (t : Table α) (name key : String) (value : α) :
    (t.insert name value).get? key = if key = name then some value else t.get? key :=
  lookup_put key name value t.entries

/-- The table of a list of names and values: a name stands where it came first and has the value
that came last. -/
def ofList (entries : List (String × α)) : Table α :=
  entries.foldl (fun t (name, value) => t.insert name value) empty

end Table

end Sigil
