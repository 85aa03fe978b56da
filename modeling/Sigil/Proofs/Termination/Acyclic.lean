import Mathlib.Data.Set.Card
import Sigil.Proofs.Knots

/-!
# Acyclic stores

In a store without cycles of containers every container has a rank: the number of containers below
it. What is in a container ranks below it, and no rank reaches the number of all containers. So
plain recursion, which remembers nothing of the containers on its way, spells out the text of every
value, and it goes no deeper than there are containers (`Store.Acyclic.textWithin_eq`). A store
stays acyclic along every course on which nothing is pushed (`Course.acyclic`).
-/

namespace Sigil

namespace Store

/-- **An acyclic store** has no cycles of containers. -/
def Acyclic (s : Store) : Prop :=
  ∀ ps, ¬s.Cycle ps

/-- The number of all containers. -/
def containerCount (s : Store) : Nat :=
  s.arrays.size + s.objects.size

/-- The containers below a container, at any depth. -/
def below (s : Store) (d : Container) : Set Container :=
  { c | Relation.TransGen s.Inside c d }

variable {s : Store}

/-! ### Containers below a container -/

theorem position_lt {c : Container} (h : c.Known s) : c.position s < s.containerCount := by
  cases c with
  | arr r => exact Nat.lt_add_right _ h
  | obj r => exact Nat.add_lt_add_left h _

private theorem mapsTo_position (s : Store) :
    Set.MapsTo (Container.position s) { c | c.Known s } (Finset.range s.containerCount) :=
  fun _ hc => Finset.mem_coe.2 (Finset.mem_range.2 (position_lt hc))

private theorem injOn_position (s : Store) : Set.InjOn (Container.position s) { c | c.Known s } :=
  fun _ hc _ hd heq => Container.position_injective hc hd heq

private theorem finite_known (s : Store) : { c : Container | c.Known s }.Finite :=
  .of_injOn (mapsTo_position s) (injOn_position s) (Finset.finite_toSet _)

private theorem ncard_known_le (s : Store) :
    { c : Container | c.Known s }.ncard ≤ s.containerCount := by
  have hle := Set.ncard_le_ncard_of_injOn (Container.position s) (mapsTo_position s)
    (injOn_position s) (Finset.finite_toSet _)
  rwa [Set.ncard_coe_finset, Finset.card_range] at hle

/-- Only containers that exist are in others. -/
private theorem Closed.below_subset (hs : s.Closed) (d : Container) :
    s.below d ⊆ { c | c.Known s } := by
  intro c hc
  obtain ⟨_, ⟨p, -, v, hv, hcontainer⟩, -⟩ := Relation.TransGen.head'_iff.1 hc
  exact (hs.known_of_value? hv).container hcontainer

/-- A way from a container down to another goes through places, each of which holds the container of
the next one. -/
private theorem exists_chain_of_mem_below {c d : Container} (h : c ∈ s.below d) :
    ∃ (p : Place) (ps : List Place), p.owner = d ∧
      (p :: ps).IsChain (fun p q => s.Holds p q.owner) ∧
      s.Holds ((p :: ps).getLast (List.cons_ne_nil p ps)) c := by
  induction h with
  | single hinside =>
    obtain ⟨p, howner, hholds⟩ := hinside
    exact ⟨p, [], howner, .singleton p, hholds⟩
  | tail _ hinside ih =>
    obtain ⟨q, qs, hq, hchain, hlast⟩ := ih
    obtain ⟨p, howner, hholds⟩ := hinside
    refine ⟨p, q :: qs, howner, .cons_cons (hq ▸ hholds) hchain, ?_⟩
    rwa [List.getLast_cons_cons]

/-- No container of an acyclic store is below itself. -/
private theorem Acyclic.not_mem_below (h : s.Acyclic) (c : Container) : c ∉ s.below c := by
  intro hbelow
  obtain ⟨p, ps, howner, hchain, hlast⟩ := exists_chain_of_mem_below hbelow
  exact h (p :: ps) ⟨List.cons_ne_nil p ps, .cons_cons (howner ▸ hlast) hchain⟩

/-- There is less below a container than below one that it is in. -/
private theorem Acyclic.ncard_below_lt (h : s.Acyclic) (hs : s.Closed) {c d : Container}
    (hinside : s.Inside c d) : (s.below c).ncard < (s.below d).ncard := by
  have hsubset : s.below c ⊆ s.below d := fun e he => Relation.TransGen.tail he hinside
  have hfinite : (s.below d).Finite := s.finite_known.subset (hs.below_subset d)
  exact Set.ncard_lt_ncard
    ((Set.ssubset_iff_of_subset hsubset).2 ⟨c, .single hinside, h.not_mem_below c⟩) hfinite

/-! ### Ranks -/

/-- **The containers of an acyclic store are ranked** by how many are below them. -/
theorem Acyclic.ranked (h : s.Acyclic) (hs : s.Closed) :
    Ranked (fun _ _ => False) s (fun c => (s.below c).ncard) s.containerCount where
  lt_bound c hc := by
    have hproper : s.below c ⊂ { c | c.Known s } :=
      (Set.ssubset_iff_of_subset (hs.below_subset c)).2 ⟨c, hc, h.not_mem_below c⟩
    exact (Set.ncard_lt_ncard hproper s.finite_known).trans_le s.ncard_known_le
  descends p v hv _ c hc := h.ncard_below_lt hs ⟨p, rfl, v, hv, hc⟩

/-- **Plain recursion spells out every text** of an acyclic store, no deeper than there are
containers. -/
theorem Acyclic.textWithin_eq (h : s.Acyclic) (hs : s.Closed) {v : Value} (hv : v.Known s) :
    s.textWithin (s.containerCount + 1) v = some (s.text v) :=
  (h.ranked hs).textWithin_eq hs hv

theorem acyclic_of_rankable (h : Rankable (fun _ _ => False) s) : s.Acyclic := by
  intro ps hcycle
  obtain ⟨rank, bound, hrank⟩ := h
  obtain ⟨p, -, v, -, hmarked⟩ := hrank.exists_marked hcycle
  exact hmarked

end Store

/-- Nothing but a push makes an acyclic store cyclic. -/
theorem Course.acyclic {s s' : Store} {stages : List Stage} (h : Course True s stages s')
    (hs : s.Closed) (hacyclic : s.Acyclic)
    (hquiet : ∀ stage ∈ stages, stage.deed.isPush = false) : s'.Acyclic := by
  have hstart : Rankable (fun p v => p.Pushed [] v) s := by
    refine ⟨_, _, (hacyclic.ranked hs).of_places rfl rfl fun p v hv _ => ⟨hv, id⟩⟩
  obtain ⟨rank, bound, hrank⟩ := h.rankable hs hstart
  refine Store.acyclic_of_rankable ⟨rank, bound, hrank.of_places rfl rfl fun p v hv _ => ?_⟩
  exact ⟨hv, p.not_pushed hquiet v⟩

end Sigil
