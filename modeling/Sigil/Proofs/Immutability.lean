import Sigil.Proofs.Grammar.Constants
import Sigil.Proofs.Recording.Erasure
import Sigil.Proofs.Safety.Run

/-!
# Immutable variables never change

The record of a session shows every cell from the stage in which it is made. From then on it stays
mutable or immutable as it was made, and the cell of an immutable variable keeps its value, whatever
the host asks for and however that ends. Cells of mutable variables come from declarations only that
say so: parameters, loop variables, hoisted functions, the members of the standard library and host
variables are immutable, and so are the members of the namespaces of program texts.
-/

namespace Sigil

open Eval

namespace Store

variable {strict : Prop} {s s₁ s' : Store}

/-- Every cell is still there, mutable or immutable as before, and an immutable one has the value
that it had. -/
def KeepsCells (s s' : Store) : Prop :=
  ∀ r cell, s.cell? r = some cell → ∃ cell', s'.cell? r = some cell' ∧ cell.Extends cell'

/-- All cells that are new in a store are immutable. -/
def NewImmutable (s s' : Store) : Prop :=
  ∀ r cell, s.cell? r = none → s'.cell? r = some cell → cell.isMutable = false

theorem cell?_define (r : ScopeRef) (name : String) (v : Value) (isMutable : Bool) (q : CellRef) :
    (s.define r name v isMutable).cell? q =
      if q.index = s.cells.size then some ⟨v, isMutable⟩ else s.cell? q := by
  simp only [cell?, define, newCell, Array.getElem?_push]

private theorem newImmutable_of_eq (h : s'.cells = s.cells) : s.NewImmutable s' := by
  intro r cell hnone hsome
  simp only [cell?, h] at hnone hsome
  rw [hnone] at hsome
  cases hsome

private theorem newImmutable_define (r : ScopeRef) (name : String) (v : Value) :
    s.NewImmutable (s.define r name v false) := by
  intro q cell hnone hsome
  rw [cell?_define] at hsome
  split at hsome
  · cases hsome
    rfl
  · rw [hnone] at hsome
    cases hsome

private theorem Sparing.newImmutable (h : Sparing strict s s') : s.NewImmutable s' := by
  cases h with
  | define r name => exact newImmutable_define r name _
  | @writeCell r name ref value =>
    -- a cell that is written was there before
    intro q cell hnone hsome
    rw [cell?_writeCell, hnone] at hsome
    split at hsome <;> cases hsome
  | _ => exact newImmutable_of_eq rfl

/-- Cells that are new in the middle keep being immutable to the end. -/
theorem NewImmutable.trans (h : s.NewImmutable s₁) (hkeeps : s₁.KeepsCells s')
    (h' : s₁.NewImmutable s') : s.NewImmutable s' := by
  intro r cell hnone hsome
  cases hmiddle : s₁.cell? r with
  | none => exact h' r cell hmiddle hsome
  | some middle =>
    obtain ⟨cell', hcell', hextends⟩ := hkeeps r middle hmiddle
    rw [hsome] at hcell'
    cases hcell'
    exact hextends.isMutable_eq.trans (h r middle hnone hmiddle)

private theorem newImmutable_of_path (h : Relation.ReflTransGen (Sparing strict) s s') :
    s.NewImmutable s' := by
  induction h with
  | refl => exact newImmutable_of_eq rfl
  | tail _ hstep ih =>
    exact ih.trans (fun _ _ hcell => hstep.step.exists_cell hcell) hstep.newImmutable

end Store

/-- Every deed but the declaration of a mutable variable makes immutable cells only. -/
private theorem Deed.Leads.newImmutable {strict : Prop} {deed : Deed} {s s' : Store}
    (h : deed.Leads strict s s') (hdeed : deed ≠ .declare true) : s.NewImmutable s' := by
  obtain ⟨args, -, rfl, -⟩ | ⟨args, -, rfl⟩ | ⟨isMutable, rfl, r, name, v, rfl, -⟩ | ⟨-, hpath⟩ :=
    h.cases
  · refine Store.newImmutable_of_eq ?_
    unfold Store.afterPush
    split <;> rfl
  · refine Store.newImmutable_of_eq ?_
    unfold Store.afterPop
    split <;> rfl
  · cases isMutable with
    | true => exact absurd rfl hdeed
    | false => exact Store.newImmutable_define r name v
  · exact Store.newImmutable_of_path hpath

/-- **Immutable variables do not change along a record** that starts in the empty store. -/
structure KeepsImmutable (stages : List Stage) : Prop where
  /-- Between any two moments cells stay mutable or immutable, and immutable ones keep their
  values. -/
  keeps : ∀ first second third, stages = first ++ second ++ third →
    (storeAt .empty first).KeepsCells (storeAt .empty (first ++ second))
  /-- Only declarations of mutable variables make mutable cells. -/
  made : ∀ first stage third, stages = first ++ [stage] ++ third → stage.deed ≠ .declare true →
    (storeAt .empty first).NewImmutable stage.store

private theorem Course.keepsImmutable {strict : Prop} {stages : List Stage} {s : Store}
    (h : Course strict .empty stages s) : KeepsImmutable stages where
  keeps _ _ _ hstages _ _ hcell := (h.between hstages).reaches.exists_cell hcell
  made _ _ _ hstages hdeed := (h.between hstages).leads_of_singleton.newImmutable hdeed

/-- **Immutable cells never change.** Take any session and any host, whatever it asks for and
however that ends. The record of the session ends as the session does, and along it cells stay
mutable or immutable as they were made, and immutable ones keep their values. No namespace of a
program text declares a mutable variable. -/
theorem immutable_cells_never_change (fuel : Nat) {level : Nat} {earlier : Option String}
    {given : List (String × Json)} {start : Session}
    (hstart : Session.start level earlier given = .ok start) (host : ScopeRef → Host) :
    (Recording.session fuel given host (Session.emptyWorld level earlier)).2 =
        (host start.globals).serve fuel start.world ∧
      storeAt .empty (Recording.session fuel given host (Session.emptyWorld level earlier)).1 =
        storeAfter ((host start.globals).serve fuel start.world) ∧
      KeepsImmutable (Recording.session fuel given host (Session.emptyWorld level earlier)).1 ∧
      ∀ text program, parseProgram text = .ok program → program.ConstantSpaces := by
  obtain ⟨herases, hcourse⟩ := Recording.session_eq False fuel hstart host False.elim
  exact ⟨herases, hcourse.storeAt_eq, hcourse.keepsImmutable, fun _ _ =>
    constantSpaces_of_parseProgram⟩

/-- A host variable that the host tries to assign to. -/
theorem immutable_cells_never_change_assign :
    let given : List (String × Json) := [("x", .int 3)]
    let host (scope : ScopeRef) : Host := .ask (.assign scope "x" .null) fun _ => .finished
    ∃ start, Session.start 0 none given = .ok start ∧
      (Recording.session 9 given host (Session.emptyWorld 0 none)).2 =
        (host start.globals).serve 9 start.world ∧
      KeepsImmutable (Recording.session 9 given host (Session.emptyWorld 0 none)).1 := by
  intro given host
  have hgiven : ∀ entry ∈ given, entry.2.holdsDoubles = true :=
    List.forall_mem_singleton.2 (by decide)
  obtain ⟨start, hstart, -⟩ := exists_start 0 none hgiven
  obtain ⟨herases, -, hkeeps, -⟩ := immutable_cells_never_change 9 hstart host
  exact ⟨start, hstart, herases, hkeeps⟩

end Sigil
