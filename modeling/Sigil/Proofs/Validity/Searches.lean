import Sigil.Proofs.Validity.References

/-!
# Searches end

Names are searched for from a scope outwards, scope by scope. `Store.Searches` spells the search out
as it happens, with the scopes that it visits; nothing in it bounds the number of steps. In a valid
store every search ends, visits no scope twice and finds what `Store.find?` and `Store.findSpace?`
give, because the scope around a scope is always an older one.
-/

namespace Sigil

namespace Store

variable {α : Type} {s : Store} {own : ScopeRef → Option α} {r : ScopeRef}

/-- **A search outwards**, with the scopes that it visits and what it finds: it looks into a scope
and goes on to the scope around it if there is nothing and if there is one. -/
inductive Searches (s : Store) (own : ScopeRef → Option α) :
    ScopeRef → List ScopeRef → Option α → Prop
  /-- There is something in this scope. -/
  | found {r : ScopeRef} {a : α} : own r = some a → Searches s own r [r] (some a)
  /-- There is nothing in this scope and none around it. -/
  | ended {r : ScopeRef} : own r = none → s.parent? r = none → Searches s own r [r] none
  /-- There is nothing in this scope, and the search goes on. -/
  | outwards {r outer : ScopeRef} {visited : List ScopeRef} {found : Option α} :
    own r = none → s.parent? r = some outer → Searches s own outer visited found →
      Searches s own r (r :: visited) found

/-- **A search ends** and finds this: it is the only search from this scope on, and all scopes that
it visits are different. -/
def SearchEnds (s : Store) (own : ScopeRef → Option α) (r : ScopeRef) (found : Option α) : Prop :=
  ∃ visited, s.Searches own r visited found ∧ visited.Nodup ∧
    ∀ visited' found', s.Searches own r visited' found' → visited' = visited ∧ found' = found

/-- A search has no choice. -/
private theorem Searches.unique {visited visited' : List ScopeRef} {found found' : Option α}
    (h : s.Searches own r visited found) (h' : s.Searches own r visited' found') :
    visited' = visited ∧ found' = found := by
  induction h generalizing visited' with
  | found hown =>
    cases h' with
    | found hown' =>
      rw [hown] at hown'
      exact ⟨rfl, hown'.symm⟩
    | ended hown' _ | outwards hown' _ _ =>
      rw [hown] at hown'
      cases hown'
  | ended hown hparent =>
    cases h' with
    | found hown' =>
      rw [hown] at hown'
      cases hown'
    | ended _ _ => exact ⟨rfl, rfl⟩
    | outwards _ hparent' _ =>
      rw [hparent] at hparent'
      cases hparent'
  | outwards hown hparent _ ih =>
    cases h' with
    | found hown' =>
      rw [hown] at hown'
      cases hown'
    | ended _ hparent' =>
      rw [hparent] at hparent'
      cases hparent'
    | outwards _ hparent' hrest =>
      rw [hparent] at hparent'
      cases hparent'
      obtain ⟨hvisited, hfound⟩ := ih hrest
      exact ⟨by rw [hvisited], hfound⟩

/-- A search starts in the scope itself. -/
theorem chainUpTo_eq_cons (s : Store) (n : Nat) (r : ScopeRef) :
    ∃ outer, s.chainUpTo n r = r :: outer := by
  cases n with
  | zero => exact ⟨[], rfl⟩
  | succ n =>
    rw [chainUpTo]
    split
    · exact ⟨_, rfl⟩
    · exact ⟨[], rfl⟩

namespace Valid

variable (hs : s.Valid)
include hs

/-- The scope around a scope is older. -/
theorem index_lt_of_parent? {outer : ScopeRef} (h : s.parent? r = some outer) :
    outer.index < r.index := by
  obtain ⟨scope, hscope, hparent⟩ := Option.bind_eq_some_iff.1 h
  exact (hs.scopes r scope hscope).parent outer hparent

/-- A search visits ever older scopes. -/
private theorem pairwise_of_searches {visited : List ScopeRef} {found : Option α}
    (h : s.Searches own r visited found) :
    visited.Pairwise (fun p q => q.index < p.index) ∧ ∀ q ∈ visited, q.index ≤ r.index := by
  induction h with
  | found | ended => simp
  | @outwards r outer visited found _ hparent _ ih =>
    have houter := hs.index_lt_of_parent? hparent
    obtain ⟨hpairwise, hle⟩ := ih
    have hlt (q : ScopeRef) (hq : q ∈ visited) : q.index < r.index :=
      Nat.lt_of_le_of_lt (hle q hq) houter
    exact ⟨List.pairwise_cons.2 ⟨hlt, hpairwise⟩,
      List.forall_mem_cons.2 ⟨Nat.le_refl _, fun q hq => Nat.le_of_lt (hlt q hq)⟩⟩

/-- The bound on the scopes that are looked into is never reached: there are at most as many around
a scope as are older than it. -/
private theorem exists_searches (own : ScopeRef → Option α) (bound : Nat) (h : r.index ≤ bound) :
    ∃ visited, s.Searches own r visited ((s.chainUpTo bound r).findSome? own) := by
  induction bound generalizing r with
  | zero =>
    have hparent : s.parent? r = none := by
      cases hparent : s.parent? r with
      | none => rfl
      | some outer =>
        have houter := hs.index_lt_of_parent? hparent
        omega
    cases hown : own r with
    | none => exact ⟨[r], by simpa [chainUpTo, hown] using .ended hown hparent⟩
    | some a => exact ⟨[r], by simpa [chainUpTo, hown] using .found hown⟩
  | succ bound ih =>
    cases hown : own r with
    | some a =>
      refine ⟨[r], ?_⟩
      rw [chainUpTo]
      split <;> simpa [hown] using .found hown
    | none =>
      cases hparent : s.parent? r with
      | none => exact ⟨[r], by simpa [chainUpTo, hown, hparent] using .ended hown hparent⟩
      | some outer =>
        have houter := hs.index_lt_of_parent? hparent
        obtain ⟨visited, hvisited⟩ := ih (r := outer) (by omega)
        exact ⟨r :: visited,
          by simpa [chainUpTo, hown, hparent] using .outwards hown hparent hvisited⟩

/-- **In a valid store every search ends**, and it finds what the chain of scopes gives. -/
theorem searchEnds (own : ScopeRef → Option α) (r : ScopeRef) :
    s.SearchEnds own r ((s.chain r).findSome? own) := by
  obtain ⟨visited, hvisited⟩ := hs.exists_searches own r.index (Nat.le_refl _)
  refine ⟨visited, hvisited, ?_, fun _ _ h => hvisited.unique h⟩
  refine (hs.pairwise_of_searches hvisited).1.imp fun hlt heq => ?_
  exact absurd hlt (by simp [heq])

/-- Where there is nothing in a scope, a search finds what one from the scope around it finds. -/
theorem findSome?_chain_of_parent? {outer : ScopeRef} (hown : own r = none)
    (hparent : s.parent? r = some outer) :
    (s.chain r).findSome? own = (s.chain outer).findSome? own := by
  obtain ⟨visited, hvisited, -⟩ := hs.searchEnds own outer
  obtain ⟨_, -, -, hunique⟩ := hs.searchEnds own r
  exact (hunique _ _ (.outwards hown hparent hvisited)).2.symm

/-- The cell that a name stands for exists. -/
theorem known_of_find? {name : String} {cell : CellRef} (h : s.find? r name = some cell) :
    cell.Known s := by
  obtain ⟨q, -, hq⟩ := List.exists_of_findSome?_eq_some h
  obtain ⟨scope, hscope, hcell⟩ := Option.bind_eq_some_iff.1 hq
  exact (hs.scopes q scope hscope).names cell (Table.mem_values_of_get? hcell)

/-- The scope of the namespace that a name stands for exists. -/
theorem known_of_findSpace? {name : String} {space : ScopeRef}
    (h : s.findSpace? r name = some space) : space.Known s := by
  obtain ⟨q, -, hq⟩ := List.exists_of_findSome?_eq_some h
  obtain ⟨scope, hscope, hspace⟩ := Option.bind_eq_some_iff.1 hq
  exact (hs.scopes q scope hscope).spaces space (Table.mem_values_of_get? hspace)

end Valid

end Store

end Sigil
