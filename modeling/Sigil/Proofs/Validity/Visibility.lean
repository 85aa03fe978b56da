import Sigil.Proofs.Immutability
import Sigil.Proofs.Validity.Sessions

/-!
# Where declarations and assignments are seen

A declaration in a scope `f` is **seen** from a scope `g` if one comes to `f` on the way outwards
from `g` and no scope before it declares the name (`Store.Sees`). `Store.Around` spells this way out
with the scopes that are passed, without a bound on their number.

A declaration makes a new cell, which the name is found in from where the declaration is seen; all
other names are found in the cells that they were found in. An assignment changes the value of one
cell, and so the value of every variable and of every member of a namespace that is found in it.
The main statement says this of every world that a host can bring about (`World.Reachable`).
-/

namespace Sigil

open Eval

namespace Store

variable {s : Store} {f g : ScopeRef} {name other space : String} {v : Value} {isMutable : Bool}

/-! ### The way outwards -/

/-- **The way outwards** from a scope to one around it, with the scopes that are passed before,
innermost first. -/
inductive Around (s : Store) : ScopeRef → List ScopeRef → ScopeRef → Prop
  /-- The scope itself. -/
  | here {g : ScopeRef} : Around s g [] g
  /-- A scope around the scope around this one. -/
  | outwards {g outer f : ScopeRef} {nearer : List ScopeRef} :
    s.parent? g = some outer → Around s outer nearer f → Around s g (g :: nearer) f

/-- **A declaration of a name in `f` is seen from `g`**: `f` is `g` or a scope around it, and no
scope nearer to `g` declares the name. -/
def Sees (s : Store) (g f : ScopeRef) (name : String) : Prop :=
  ∃ nearer, s.Around g nearer f ∧ ∀ q ∈ nearer, s.ownCell? q name = none

theorem Sees.refl (s : Store) (g : ScopeRef) (name : String) : s.Sees g g name :=
  ⟨[], .here, List.forall_mem_nil _⟩

/-- What is seen from the scope around a scope is seen from that scope, unless it declares the name
itself. -/
private theorem Sees.outwards {outer : ScopeRef} (hown : s.ownCell? g name = none)
    (hparent : s.parent? g = some outer) (h : s.Sees outer f name) : s.Sees g f name := by
  obtain ⟨nearer, haround, hnearer⟩ := h
  exact ⟨g :: nearer, .outwards hparent haround, List.forall_mem_cons.2 ⟨hown, hnearer⟩⟩

/-- The cell of a member of a namespace. Only the variables of the namespace's own scope are its
members. -/
def memberCell? (s : Store) (g : ScopeRef) (space member : String) : Option CellRef :=
  (s.findSpace? g space).bind fun inner => s.ownCell? inner member

/-- In a valid store a search finds what looking through the chain of scopes gives. -/
theorem Valid.findSome?_chain_eq (hs : s.Valid) {own : ScopeRef → Option CellRef}
    {visited : List ScopeRef} {found : Option CellRef} (h : s.Searches own g visited found) :
    (s.chain g).findSome? own = found := by
  obtain ⟨_, -, -, hunique⟩ := hs.searchEnds own g
  exact (hunique visited found h).2.symm

/-- The scopes around a scope are told by the scope around each of them. -/
private theorem chain_congr {s' : Store} (h : ∀ q, s'.parent? q = s.parent? q) (g : ScopeRef) :
    s'.chain g = s.chain g := by
  have hupTo (bound : Nat) (q : ScopeRef) : s'.chainUpTo bound q = s.chainUpTo bound q := by
    induction bound generalizing q with
    | zero => rfl
    | succ bound ih => simp only [chainUpTo, h, ih]
  exact hupTo g.index g

/-- The cell that a name is found in has contents. -/
private theorem Valid.exists_cell_of_find? (hs : s.Valid) {ref : CellRef}
    (h : s.find? g name = some ref) : ∃ cell, s.cell? ref = some cell :=
  ⟨_, Array.getElem?_eq_getElem (hs.known_of_find? h)⟩

/-! ### Declarations -/

/-- The cell that the next declaration makes. -/
def nextCell (s : Store) : CellRef :=
  ⟨s.cells.size⟩

@[simp]
theorem parent?_define (s : Store) (f : ScopeRef) (name : String) (v : Value) (isMutable : Bool)
    (q : ScopeRef) : (s.define f name v isMutable).parent? q = s.parent? q := by
  rw [parent?, parent?, scope?_define]
  split
  · cases s.scope? q <;> rfl
  · rfl

@[simp]
theorem ownSpace?_define (s : Store) (f : ScopeRef) (name : String) (v : Value) (isMutable : Bool)
    (q : ScopeRef) (space : String) :
    (s.define f name v isMutable).ownSpace? q space = s.ownSpace? q space := by
  rw [ownSpace?, ownSpace?, scope?_define]
  split
  · cases s.scope? q <;> rfl
  · rfl

/-- A declaration gives one name of one scope another cell. -/
theorem ownCell?_define (hf : f.Known s) (q : ScopeRef) (other : String) :
    (s.define f name v isMutable).ownCell? q other =
      if q = f ∧ other = name then some s.nextCell else s.ownCell? q other := by
  rw [ownCell?, ownCell?, scope?_define]
  by_cases hq : q = f
  · subst hq
    obtain ⟨scope, hscope⟩ : ∃ scope, s.scope? q = some scope :=
      ⟨_, Array.getElem?_eq_getElem hf⟩
    simp [hscope, Table.get?_insert, nextCell]
  · rw [if_neg (Ne.symm hq), if_neg fun h => hq h.1]

/-- A declaration puts no scope around another. -/
private theorem chain_define (s : Store) (f : ScopeRef) (name : String) (v : Value)
    (isMutable : Bool) (g : ScopeRef) : (s.define f name v isMutable).chain g = s.chain g :=
  chain_congr (parent?_define s f name v isMutable) g

/-- A declaration changes no namespace. -/
@[simp]
theorem findSpace?_define (s : Store) (f : ScopeRef) (name : String) (v : Value) (isMutable : Bool)
    (g : ScopeRef) (space : String) :
    (s.define f name v isMutable).findSpace? g space = s.findSpace? g space := by
  simp only [findSpace?, chain_define, ownSpace?_define]

/-- Where a declaration is seen, a search finds its cell. -/
private theorem Sees.searches_define (hf : f.Known s) (h : s.Sees g f name) (v : Value)
    (isMutable : Bool) :
    ∃ visited, s.Searches ((s.define f name v isMutable).ownCell? · name) g visited
      (some s.nextCell) := by
  obtain ⟨nearer, haround, hnearer⟩ := h
  induction haround with
  | here => exact ⟨_, .found (by rw [ownCell?_define hf, if_pos ⟨rfl, rfl⟩])⟩
  | @outwards g outer f nearer hparent _ ih =>
    by_cases hg : g = f
    · exact ⟨_, .found (by rw [ownCell?_define hf, if_pos ⟨hg, rfl⟩])⟩
    · obtain ⟨hown, hnearer⟩ := List.forall_mem_cons.1 hnearer
      obtain ⟨visited, hvisited⟩ := ih hf hnearer
      have hown' : (s.define f name v isMutable).ownCell? g name = none := by
        rw [ownCell?_define hf, if_neg fun h => hg h.1, hown]
      exact ⟨_, .outwards hown' hparent hvisited⟩

/-- Where a declaration is not seen, a search goes on as it did. -/
private theorem Searches.define (hf : f.Known s) {visited : List ScopeRef} {found : Option CellRef}
    (h : s.Searches (s.ownCell? · other) g visited found)
    (hunseen : ¬ (other = name ∧ s.Sees g f name)) :
    s.Searches ((s.define f name v isMutable).ownCell? · other) g visited found := by
  -- the scope of the declaration would see it
  have hown {q : ScopeRef} (hq : ¬ (other = name ∧ s.Sees q f name)) :
      (s.define f name v isMutable).ownCell? q other = s.ownCell? q other := by
    rw [ownCell?_define hf, if_neg]
    rintro ⟨rfl, hname⟩
    exact hq ⟨hname, .refl s q name⟩
  induction h with
  | found hfound => exact .found ((hown hunseen).trans hfound)
  | ended hnone hparent => exact .ended ((hown hunseen).trans hnone) hparent
  | @outwards g outer visited found hnone hparent _ ih =>
    refine .outwards ((hown hunseen).trans hnone) hparent (ih ?_)
    rintro ⟨rfl, hsees⟩
    exact hunseen ⟨rfl, hsees.outwards hnone hparent⟩

section Valid

variable (hs : s.Valid) (hf : f.Known s)
include hs hf

/-- Where a declaration is seen, the name stands for the new cell. -/
private theorem find?_define_of_sees (h : s.Sees g f name) :
    (s.define f name v isMutable).find? g name = some s.nextCell := by
  obtain ⟨visited, hvisited⟩ := h.searches_define hf v isMutable
  rw [find?, chain_define]
  exact hs.findSome?_chain_eq hvisited

/-- Where a declaration is not seen, a name stands for the cell that it stood for. -/
private theorem find?_define_of_not_sees (h : ¬ (other = name ∧ s.Sees g f name)) :
    (s.define f name v isMutable).find? g other = s.find? g other := by
  obtain ⟨visited, hvisited, -⟩ := hs.searchEnds (s.ownCell? · other) g
  rw [find?, chain_define]
  exact hs.findSome?_chain_eq (hvisited.define hf h)

/-- A name stands for another cell exactly where the declaration is seen. -/
private theorem find?_define_ne_iff :
    (s.define f name v isMutable).find? g other ≠ s.find? g other ↔
      other = name ∧ s.Sees g f name := by
  constructor
  · intro hne
    by_contra hunseen
    exact hne (find?_define_of_not_sees hs hf hunseen)
  · rintro ⟨rfl, hsees⟩ heq
    rw [find?_define_of_sees hs hf hsees] at heq
    -- no name stands for a cell that is yet to be made
    exact Nat.lt_irrefl _ (hs.known_of_find? heq.symm)

end Valid

/-- The members of the namespaces with this scope are the ones that change. -/
private theorem memberCell?_define (hf : f.Known s) (g : ScopeRef) (space member : String) :
    (s.define f name v isMutable).memberCell? g space member =
      if member = name ∧ s.findSpace? g space = some f then some s.nextCell
      else s.memberCell? g space member := by
  rw [memberCell?, memberCell?, findSpace?_define]
  cases s.findSpace? g space with
  | none => simp
  | some inner => simp only [Option.bind_some, ownCell?_define hf, Option.some.injEq, and_comm]

/-- The cell of a member of a namespace exists. -/
private theorem Valid.known_of_memberCell? (hs : s.Valid) {member : String} {ref : CellRef}
    (h : s.memberCell? g space member = some ref) : ref.Known s := by
  obtain ⟨inner, -, hown⟩ := Option.bind_eq_some_iff.1 h
  obtain ⟨scope, hscope, hcell⟩ := Option.bind_eq_some_iff.1 hown
  exact (hs.scopes inner scope hscope).names ref (Table.mem_values_of_get? hcell)

private theorem memberCell?_define_ne_iff (hs : s.Valid) (hf : f.Known s) (g : ScopeRef)
    (space member : String) :
    (s.define f name v isMutable).memberCell? g space member ≠ s.memberCell? g space member ↔
      member = name ∧ s.findSpace? g space = some f := by
  rw [memberCell?_define hf]
  split
  · rename_i hmember
    refine iff_of_true (fun heq => ?_) hmember
    exact Nat.lt_irrefl _ (hs.known_of_memberCell? heq.symm)
  · rename_i hmember
    exact iff_of_false (fun h => h rfl) hmember

/-! ### Values of variables and members -/

/-- The value of a variable is that of the cell it is found in. -/
theorem lookup_of_cell? {ref : CellRef} {cell : Cell} (hfind : s.find? g name = some ref)
    (hcell : s.cell? ref = some cell) : s.lookup g name = .ok cell.value := by
  simp only [lookup, hfind, Option.bind_some, hcell]

/-- The value of a member is that of its cell. -/
private theorem lookupMember_of_cell? {member : String} {ref : CellRef} {cell : Cell}
    (hfind : s.memberCell? g space member = some ref) (hcell : s.cell? ref = some cell) :
    s.lookupMember g space member = .ok cell.value := by
  obtain ⟨inner, hinner, hown⟩ := Option.bind_eq_some_iff.1 hfind
  simp only [lookupMember, hinner, hown, Option.bind_some, hcell]

/-- The value of a variable depends on the cell it is found in and on what is in the cell. -/
theorem lookup_congr {s' : Store} (hfind : s'.find? g name = s.find? g name)
    (hcell : ∀ ref, s.find? g name = some ref → s'.cell? ref = s.cell? ref) :
    s'.lookup g name = s.lookup g name := by
  rw [lookup, lookup, hfind]
  cases href : s.find? g name with
  | none => rfl
  | some ref => simp only [Option.bind_some, hcell ref href]

/-- The value of a member depends on the namespace, on the member's cell and on what is in it. -/
private theorem lookupMember_congr {s' : Store} {member : String}
    (hspace : s'.findSpace? g space = s.findSpace? g space)
    (hfind : s'.memberCell? g space member = s.memberCell? g space member)
    (hcell : ∀ ref, s.memberCell? g space member = some ref → s'.cell? ref = s.cell? ref) :
    s'.lookupMember g space member = s.lookupMember g space member := by
  rw [lookupMember, lookupMember, hspace]
  rw [memberCell?, memberCell?, hspace] at hfind
  rw [memberCell?] at hcell
  cases hinner : s.findSpace? g space with
  | none => rfl
  | some inner =>
    simp only [hinner, Option.bind_some] at hfind hcell ⊢
    rw [hfind]
    cases href : s.ownCell? inner member with
    | none => rfl
    | some ref => simp only [Option.bind_some, hcell ref href]

/-! ### What is seen from everywhere -/

/-- **What a declaration changes.** A name in a scope gets a new cell, in a store `s'` that was `s`
before. -/
structure Declared (s : Store) (f : ScopeRef) (name : String) (v : Value) (isMutable : Bool)
    (s' : Store) : Prop where
  /-- The cell is a new one. -/
  new_cell : s.cell? s.nextCell = none ∧ s'.cell? s.nextCell = some ⟨v, isMutable⟩
  /-- All cells that there were are as they were. -/
  old_cells : ∀ ref, ref ≠ s.nextCell → s'.cell? ref = s.cell? ref
  /-- A name stands for another cell exactly where the declaration is seen. -/
  find?_ne_iff : ∀ g other, s'.find? g other ≠ s.find? g other ↔ other = name ∧ s.Sees g f name
  /-- There it stands for the new cell. -/
  find?_eq : ∀ g, s.Sees g f name → s'.find? g name = some s.nextCell ∧ s'.lookup g name = .ok v
  /-- Everywhere else variables have the values that they had. -/
  lookup_eq : ∀ g other, ¬ (other = name ∧ s.Sees g f name) →
    s'.lookup g other = s.lookup g other
  /-- Namespaces are the ones that they were. -/
  findSpace?_eq : ∀ g space, s'.findSpace? g space = s.findSpace? g space
  /-- A member stands for another cell exactly if it has the name and its namespace has the
  scope. -/
  memberCell?_ne_iff : ∀ g space member,
    s'.memberCell? g space member ≠ s.memberCell? g space member ↔
      member = name ∧ s.findSpace? g space = some f
  /-- Then it stands for the new cell. -/
  memberCell?_eq : ∀ g space, s.findSpace? g space = some f →
    s'.memberCell? g space name = some s.nextCell ∧ s'.lookupMember g space name = .ok v
  /-- All other members have the values that they had. -/
  lookupMember_eq : ∀ g space member, ¬ (member = name ∧ s.findSpace? g space = some f) →
    s'.lookupMember g space member = s.lookupMember g space member

/-- **What an assignment changes.** A cell gets another value, in a store `s'` that was `s`
before. -/
structure Assigned (s : Store) (ref : CellRef) (v : Value) (s' : Store) : Prop where
  /-- Names stand for the cells that they stood for. -/
  find?_eq : ∀ g other, s'.find? g other = s.find? g other
  /-- Namespaces are the ones that they were. -/
  findSpace?_eq : ∀ g space, s'.findSpace? g space = s.findSpace? g space
  /-- A cell that can be assigned to stays so, and one that cannot stays so. -/
  isMutable_eq : ∀ q, (s'.cell? q).map Cell.isMutable = (s.cell? q).map Cell.isMutable
  /-- Members stand for the cells that they stood for. -/
  memberCell?_eq : ∀ g space member, s'.memberCell? g space member = s.memberCell? g space member
  /-- The variables that stand for the cell have the new value, and all others that which they
  had. -/
  lookup_eq : ∀ g other,
    s'.lookup g other = if s.find? g other = some ref then .ok v else s.lookup g other
  /-- So it is with members of namespaces. -/
  lookupMember_eq : ∀ g space member,
    s'.lookupMember g space member =
      if s.memberCell? g space member = some ref then .ok v else s.lookupMember g space member

/-- **Why an assignment is refused.** -/
inductive Refuses (s : Store) (f : ScopeRef) (name : String) : ScopeError → Prop
  /-- The name stands for nothing. -/
  | undefinedVariable : s.find? f name = none → Refuses s f name (.undefinedVariable name)
  /-- The name stands for the cell of an immutable variable. -/
  | immutableVariable {ref : CellRef} {cell : Cell} :
    s.find? f name = some ref → s.cell? ref = some cell → cell.isMutable = false →
      Refuses s f name (.immutableVariable name)

theorem Valid.declared_define (hs : s.Valid) (hf : f.Known s) (name : String) (v : Value)
    (isMutable : Bool) : s.Declared f name v isMutable (s.define f name v isMutable) := by
  have hnew : (s.define f name v isMutable).cell? s.nextCell = some ⟨v, isMutable⟩ := by
    rw [cell?_define, if_pos (show s.nextCell.index = s.cells.size from rfl)]
  have hold (ref : CellRef) (href : ref ≠ s.nextCell) :
      (s.define f name v isMutable).cell? ref = s.cell? ref := by
    rw [cell?_define, if_neg fun h : ref.index = s.cells.size => href (CellRef.ext h)]
  have hne {ref : CellRef} (href : ref.Known s) : ref ≠ s.nextCell := by
    rintro rfl
    exact Nat.lt_irrefl _ href
  refine ⟨⟨Array.getElem?_eq_none (Nat.le_refl _), hnew⟩, hold,
    fun g other => find?_define_ne_iff hs hf, fun g hsees => ?_, fun g other hunseen => ?_,
    fun g space => findSpace?_define .., fun g space member => memberCell?_define_ne_iff hs hf ..,
    fun g space hspace => ?_, fun g space member hmember => ?_⟩
  · have hfind : (s.define f name v isMutable).find? g name = some s.nextCell :=
      find?_define_of_sees hs hf hsees
    exact ⟨hfind, lookup_of_cell? hfind hnew⟩
  · refine lookup_congr (find?_define_of_not_sees hs hf hunseen) fun ref href => ?_
    exact hold ref (hne (hs.known_of_find? href))
  · have hfind : (s.define f name v isMutable).memberCell? g space name = some s.nextCell := by
      rw [memberCell?_define hf, if_pos ⟨rfl, hspace⟩]
    exact ⟨hfind, lookupMember_of_cell? hfind hnew⟩
  · have hfind : (s.define f name v isMutable).memberCell? g space member =
        s.memberCell? g space member := by
      rw [memberCell?_define hf, if_neg hmember]
    refine lookupMember_congr (findSpace?_define ..) hfind fun ref href => ?_
    exact hold ref (hne (hs.known_of_memberCell? href))

/-- Writing to a cell leaves the scopes alone. -/
private theorem assigned_writeCell {ref : CellRef} {cell : Cell} (hcell : s.cell? ref = some cell)
    (v : Value) : s.Assigned ref v (s.writeCell ref v) := by
  have hnew : (s.writeCell ref v).cell? ref = some { cell with value := v } := by
    rw [cell?_writeCell, if_pos rfl, hcell, Option.map_some]
  have hold (q : CellRef) (hq : q ≠ ref) : (s.writeCell ref v).cell? q = s.cell? q := by
    rw [cell?_writeCell, if_neg (Ne.symm hq)]
  -- searches read the scopes only, so they all come to the same cells as before
  have hchain : ∀ g, (s.writeCell ref v).chain g = s.chain g := chain_congr fun _ => rfl
  have hfinds (g : ScopeRef) (other : String) :
      (s.writeCell ref v).find? g other = s.find? g other := by
    rw [find?, hchain]
    rfl
  have hspaces (g : ScopeRef) (space : String) :
      (s.writeCell ref v).findSpace? g space = s.findSpace? g space := by
    rw [findSpace?, hchain]
    rfl
  have hmembers (g : ScopeRef) (space member : String) :
      (s.writeCell ref v).memberCell? g space member = s.memberCell? g space member := by
    rw [memberCell?, hspaces]
    rfl
  refine ⟨hfinds, hspaces, fun q => ?_, hmembers, fun g other => ?_, fun g space member => ?_⟩
  · rw [cell?_writeCell]
    split
    · rw [Option.map_map]
      rfl
    · rfl
  · split
    · rename_i hfind
      exact lookup_of_cell? ((hfinds g other).trans hfind) hnew
    · rename_i hfind
      refine lookup_congr (hfinds g other) fun q hq => hold q ?_
      rintro rfl
      exact hfind hq
  · split
    · rename_i hfind
      exact lookupMember_of_cell? ((hmembers g space member).trans hfind) hnew
    · rename_i hfind
      refine lookupMember_congr (hspaces g space) (hmembers g space member) fun q hq => hold q ?_
      rintro rfl
      exact hfind hq

/-- An assignment finds no cell to write to exactly if there is a reason to refuse it. -/
private theorem Valid.target_eq_error_iff (hs : s.Valid) {e : ScopeError} :
    s.target f name = .error e ↔ s.Refuses f name e := by
  constructor
  · intro h
    cases hfind : s.find? f name with
    | none =>
      simp only [target, hfind] at h
      cases h
      exact .undefinedVariable hfind
    | some ref =>
      obtain ⟨cell, hcell⟩ := hs.exists_cell_of_find? hfind
      simp only [target, hfind, hcell] at h
      split at h
      · cases h
      · rename_i hmutable
        cases h
        exact .immutableVariable hfind hcell (Bool.eq_false_of_not_eq_true hmutable)
  · rintro (hfind | ⟨hfind, hcell, hmutable⟩)
    · simp only [target, hfind]
    · simp only [target, hfind, hcell, hmutable, Bool.false_eq_true, if_false]

/-- The cell that an assignment writes to is the one that the name stands for. -/
private theorem find?_of_target_eq_ok {ref : CellRef} (h : s.target f name = .ok ref) :
    s.find? f name = some ref ∧ ∃ cell, s.cell? ref = some cell := by
  unfold target at h
  split at h
  · cases h
  · rename_i found hfind
    split at h
    · cases h
    · rename_i cell hcell
      split at h
      · cases h
        exact ⟨hfind, cell, hcell⟩
      · cases h

end Store

/-! ### Worlds -/

namespace World

/-- **The worlds that a host can bring about**: it sets up interpreters, makes scopes without a
scope around them, and makes requests that hand over what exists, however these end. -/
inductive Reachable : World → Prop
  /-- The world before anything is in it. -/
  | fresh (level : Nat) (earlier : Option String) :
    Reachable (Session.emptyWorld level earlier)
  /-- A session is set up, with host variables. -/
  | setup {w : World} (given : List (String × Json)) :
    Reachable w → Reachable (worldAfter (Session.setup given w))
  /-- A scope is made that is in no other. -/
  | outermost {w : World} : Reachable w → Reachable (worldAfter (add (Store.newScope none) w))
  /-- A request is made. -/
  | step {w w' : World} : Reachable w → w.Step w' → Reachable w'

theorem Reachable.valid {w : World} (h : w.Reachable) : w.Valid := by
  induction h with
  | fresh level => exact ⟨Store.valid_empty, fun p hp => by cases Array.not_mem_empty p hp⟩
  | setup given _ ih => exact ((keeps_setup given).valid_worldAfter (.refl _) ih).1
  | @outermost w _ ih =>
    have hnew : Keeps w.store ScopeRef.Known (add (Store.newScope none)) :=
      keeps_add_newScope fun outer houter => by cases houter
    exact (hnew.valid_worldAfter (.refl _) ih).1
  | step _ hstep ih => exact (hstep.valid ih).1

end World

/-- An assignment is made if there is a cell to write to. -/
theorem Eval.assign_eq (f : ScopeRef) (name : String) (v : Value) (w : World) :
    assign f name v w =
      match w.store.target f name with
      | .ok ref => .ok () { w with store := w.store.writeCell ref v }
      | .error e => .error (.script (.scope e)) w := by
  simp only [assign, Eval.read, bind, EStateM.bind]
  cases w.store.target f name <;> rfl

private theorem Eval.assign_eq_error_iff {f : ScopeRef} {name : String} {v : Value} {w w' : World}
    {stop : Stop} :
    assign f name v w = .error stop w' ↔
      w' = w ∧ ∃ e, stop = .script (.scope e) ∧ w.store.target f name = .error e := by
  rw [assign_eq]
  cases w.store.target f name with
  | ok ref => exact iff_of_false nofun fun ⟨_, _, _, h⟩ => nomatch h
  | error e =>
    constructor
    · rintro ⟨⟩
      exact ⟨rfl, e, rfl, rfl⟩
    · rintro ⟨rfl, _, rfl, ⟨⟩⟩
      rfl

/-- **Where declarations and assignments are seen.** In every world that can come about, a
declaration in a scope that exists is made, and it changes what names stand for exactly where it is
seen. An assignment fails, and then changes nothing, exactly if the name stands for nothing or for
the cell of an immutable variable. Otherwise it changes the values of exactly the variables and
members that stand for the same cell. -/
theorem define_and_assign_seen {w : World} (hw : w.Reachable) {f : ScopeRef}
    (hf : f.Known w.store) (name : String) (v : Value) :
    (∀ isMutable, ∃ s', define f name v isMutable w = .ok () { w with store := s' } ∧
      w.store.Declared f name v isMutable s') ∧
    (∀ stop w', assign f name v w = .error stop w' ↔
      w' = w ∧ ∃ e, stop = .script (.scope e) ∧ w.store.Refuses f name e) ∧
    ∀ w', assign f name v w = .ok () w' →
      ∃ ref s', w.store.find? f name = some ref ∧ w' = { w with store := s' } ∧
        w.store.Assigned ref v s' := by
  have hs := hw.valid.store
  refine ⟨fun isMutable => ⟨_, rfl, hs.declared_define hf name v isMutable⟩, fun stop w' => ?_,
    fun w' hok => ?_⟩
  · simp only [assign_eq_error_iff, hs.target_eq_error_iff]
  · rw [assign_eq] at hok
    split at hok
    · rename_i ref htarget
      obtain ⟨hfind, cell, hcell⟩ := Store.find?_of_target_eq_ok htarget
      cases hok
      exact ⟨ref, _, hfind, rfl, Store.assigned_writeCell hcell v⟩
    · cases hok

/-- A variable `x` in an outermost scope 0, and another one in the scope 1 inside it: the second is
seen in the inner scope only. -/
theorem define_and_assign_seen_inner :
    ∃ w : World, (w.Reachable ∧ ScopeRef.Known w.store ⟨1⟩) ∧
      ∃ s', define ⟨1⟩ "x" (.bool true) false w = .ok () { w with store := s' } ∧
        s'.lookup ⟨1⟩ "x" = .ok (.bool true) ∧ s'.lookup ⟨0⟩ "x" = .ok .null ∧
        w.store.lookup ⟨1⟩ "x" = .ok .null := by
  let w₀ := worldAfter (add (Store.newScope none) (Session.emptyWorld 0 none))
  let w₁ := Request.after 0 (.newScope ⟨0⟩) w₀
  let w₂ := Request.after 0 (.define ⟨0⟩ "x" .null true) w₁
  have houter : ScopeRef.Known w₀.store ⟨0⟩ := Nat.zero_lt_one
  have houter' : ScopeRef.Known w₁.store ⟨0⟩ := Nat.zero_lt_two
  have hinner : ScopeRef.Known w₂.store ⟨1⟩ := Nat.one_lt_two
  have hw₀ : w₀.Reachable := .outermost (.fresh 0 none)
  have hw₁ : w₁.Reachable :=
    hw₀.step ⟨0, .newScope ⟨0⟩, ⟨List.forall_mem_singleton.2 houter, List.forall_mem_nil _⟩, rfl⟩
  have hw₂ : w₂.Reachable :=
    hw₁.step ⟨0, .define ⟨0⟩ "x" .null true,
      ⟨List.forall_mem_singleton.2 houter', List.forall_mem_singleton.2 trivial⟩, rfl⟩
  obtain ⟨hdefine, -, -⟩ := define_and_assign_seen hw₂ hinner "x" (.bool true)
  obtain ⟨s', hs', hdeclared⟩ := hdefine false
  have hunseen : ¬ w₂.store.Sees ⟨0⟩ ⟨1⟩ "x" := by
    rintro ⟨nearer, haround, -⟩
    -- there is no scope around the outermost one
    cases haround with
    | outwards hparent => cases hparent
  refine ⟨w₂, ⟨hw₂, hinner⟩, s', hs', (hdeclared.find?_eq ⟨1⟩ (.refl _ ⟨1⟩ "x")).2, ?_, rfl⟩
  rw [hdeclared.lookup_eq ⟨0⟩ "x" fun h => hunseen h.2]
  rfl

end Sigil
