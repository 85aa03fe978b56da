import Sigil.Proofs.Nesting
import Sigil.Proofs.Safety.Evaluation

/-!
# Programs do not go wrong

A session starts with the standard library and the variables of the host, and all its functions can
be called. A program text that is read has a tree of evaluable statements. So a run of it comes to
an end with a value or with a mistake of the script, unless it does not come to an end at all.
-/

namespace Sigil

open Eval

/-! ### Sessions -/

mutual

/-- Whether all whole numbers in plain data have a double. -/
def Json.holdsDoubles : Json → Bool
  | .int n => (floatOfInt? n).isSome
  | .arr items => itemsHoldDoubles items
  | .obj fields => fieldsHoldDoubles fields
  | .null | .bool _ | .float _ | .str _ => true

/-- Whether all whole numbers in plain items have a double. -/
def Json.itemsHoldDoubles : List Json → Bool
  | [] => true
  | item :: items => item.holdsDoubles && itemsHoldDoubles items

/-- Whether all whole numbers in plain fields have a double. -/
def Json.fieldsHoldDoubles : List (String × Json) → Bool
  | [] => true
  | (_, value) :: fields => value.holdsDoubles && fieldsHoldDoubles fields

end

section Start

variable {stops : Stop → Prop}

mutual

private theorem safe_plainValue :
    ∀ data : Json, data.holdsDoubles = true → Safe stops (plainValue data)
  | .null, _ | .bool _, _ | .float _, _ | .str _, _ => by
    rw [plainValue]
    exact safe_pure _
  | .int n, h => by
    rw [Json.holdsDoubles] at h
    obtain ⟨x, hx⟩ := Option.isSome_iff_exists.1 h
    rw [plainValue, hx]
    exact safe_pure _
  | .arr items, h => by
    rw [Json.holdsDoubles] at h
    rw [plainValue]
    exact (safe_plainItems items h).bind fun _ => safe_newArray _
  | .obj fields, h => by
    rw [Json.holdsDoubles] at h
    rw [plainValue]
    exact (safe_plainFields fields h).bind fun _ => safe_newObject _

private theorem safe_plainItems :
    ∀ items : List Json, Json.itemsHoldDoubles items = true → Safe stops (plainItems items)
  | [], _ => by
    rw [plainItems]
    exact safe_pure []
  | item :: items, h => by
    rw [Json.itemsHoldDoubles, Bool.and_eq_true] at h
    rw [plainItems]
    exact (safe_plainValue item h.1).bind fun _ => (safe_plainItems items h.2).bind fun _ =>
      safe_pure _

private theorem safe_plainFields :
    ∀ fields : List (String × Json), Json.fieldsHoldDoubles fields = true →
      Safe stops (plainFields fields)
  | [], _ => by
    rw [plainFields]
    exact safe_pure []
  | (name, value) :: fields, h => by
    rw [Json.fieldsHoldDoubles, Bool.and_eq_true] at h
    rw [plainFields]
    exact (safe_plainValue value h.1).bind fun _ => (safe_plainFields fields h.2).bind fun _ =>
      safe_pure _

end

private theorem safe_defineVariables (scope : ScopeRef) {given : List (String × Json)}
    (h : ∀ entry ∈ given, entry.2.holdsDoubles = true) :
    Safe stops (defineVariables scope given) := by
  induction given with
  | nil => exact safe_pure ()
  | cons entry rest ih =>
    simp only [List.forall_mem_cons] at h
    exact (safe_plainValue entry.2 h.1).bind fun _ => (safe_define _ _ _ _).bind fun _ => ih h.2

private theorem safe_defineMember (scope : ScopeRef) (name : String) (member : LibraryMember) :
    Safe stops (defineMember scope name member) := by
  cases member with
  | function native =>
    have hnative : (Function.native native).Callable := trivial
    exact (safe_newFunction hnative).bind fun _ => safe_define _ _ _ _
  | constant v => exact (safe_pure v).bind fun _ => safe_define _ _ _ _

private theorem safe_defineLibrary (scope : ScopeRef) : Safe stops (defineLibrary scope) := by
  unfold defineLibrary
  generalize library = spaces
  refine Safe.bind ?_ fun _ => safe_defineMember _ _ _
  refine safe_forM ?_
  rintro ⟨space, members⟩ -
  refine (safe_newScope scope).bind fun inner => ?_
  exact (safe_forM fun member _ => safe_defineMember inner member.1 member.2).bind fun _ =>
    safe_defineSpace _ _ _

private theorem safe_newGlobals : Safe stops Session.newGlobals := by
  have hscope : Safe stops (add (Store.newScope none)) := safe_add fun _ => rfl
  exact hscope.bind fun scope => (safe_defineLibrary scope).bind fun _ => safe_pure scope

end Start

/-- **A session can be started** with any host variables whose numbers are doubles, and all its
functions can be called. -/
theorem exists_start (level : Nat) (earlier : Option String) {given : List (String × Json)}
    (h : ∀ entry ∈ given, entry.2.holdsDoubles = true) :
    ∃ session, Session.start level earlier given = .ok session ∧ session.world.store.Callable := by
  have hsetup : Safe (fun _ => False) (do
      let scope ← Session.newGlobals
      defineVariables scope given
      return scope) :=
    safe_newGlobals.bind fun scope => (safe_defineVariables scope h).bind fun _ => safe_pure scope
  have hempty : (Session.emptyWorld level earlier).store.Callable := fun f hf => nomatch hf
  obtain ⟨globals, world, hstart, hcallable, -⟩ := hsetup.exists_ok hempty
  refine ⟨⟨world, globals⟩, ?_, hcallable⟩
  simp only [Session.start, hstart]

/-! ### Runs -/

private theorem safe_runProgram (fuel : Nat) {body : List Node} (h : ∀ s ∈ body, s.Evaluable)
    (scope : ScopeRef) : Safe Stop.Expected (runProgram fuel (.program body) scope) := by
  have hblock := safe_evalBlock (safe_within fuel).1 h scope
  have hrun : Safe Stop.Expected (runStatements fuel body scope) := by
    refine hblock.bind fun result => ?_
    split
    · exact (safe_note _).bind fun _ => safe_pure _
    · exact (safe_note _).bind fun _ => (safe_note _).bind fun _ => safe_pure _
  exact (safe_changeLog _).bind fun _ => (safe_note _).bind fun _ => hrun.closingFile

/-- **A computation runs safely** from a world if it ends with a value or with a mistake of the
script, or if it runs out of every bound on the nesting, which is not to come to an end. -/
def Eval.RunsSafely {α : Type} (x : Nat → Eval α) (w : World) : Prop :=
  (∀ fuel, RanOut (x fuel w)) ∨ (∃ a w', Ends x w (.ok a w')) ∨
    ∃ e w', Ends x w (.error (.script e) w')

private theorem runsSafely_of_safe {α : Type} {x : Nat → Eval α} {w : World} (hw : w.store.Callable)
    (hsafe : ∀ fuel, Safe Stop.Expected (x fuel))
    (happrox : ∀ fuel, Approx (x fuel) (x (fuel + 1))) : RunsSafely x w := by
  rcases ranOut_or_ends happrox w with hout | ⟨r, hends⟩
  · exact .inl hout
  · obtain ⟨hfinished, least, hleast⟩ := id hends
    have hresult := (hsafe least).ends w hw
    rw [hleast least le_rfl] at hresult
    cases r with
    | ok a w' => exact .inr (.inl ⟨a, w', hends⟩)
    | error stop w' =>
      cases stop with
      | script e => exact .inr (.inr ⟨e, w', hends⟩)
      | outOfFuel => exact absurd trivial hfinished
      | tree e => exact hresult.2.elim
      | fault f => exact hresult.2.elim

/-- **Programs do not go wrong.** A text is rejected with a syntax error, or it is read as a program
and runs safely in every session that starts with host variables whose numbers are doubles, at every
level of tracing. Malformed trees, numbers without a whole part, divisors that are zero, missing
elements and numbers too large for a double do not come up. -/
theorem rejected_or_runsSafely (text : String) :
    (∃ e, parseProgram text = .error e) ∨
      ∃ body, parseProgram text = .ok (.program body) ∧
        ∀ level earlier given, (∀ entry ∈ given, entry.2.holdsDoubles = true) →
          ∃ session, Session.start level earlier given = .ok session ∧
            RunsSafely (fun fuel => runProgram fuel (.program body) session.globals)
              session.world := by
  cases hparse : parseProgram text with
  | error e => exact .inl ⟨e, rfl⟩
  | ok program =>
    obtain ⟨body, rfl, hbody⟩ := evaluable_of_parseProgram hparse
    refine .inr ⟨body, rfl, fun level earlier given hgiven => ?_⟩
    obtain ⟨session, hstart, hcallable⟩ := exists_start level earlier hgiven
    exact ⟨session, hstart, runsSafely_of_safe hcallable
      (fun fuel => safe_runProgram fuel hbody _) (fun fuel => approx_runProgram fuel _ _)⟩

/-- An output statement is read, and it runs safely on an array that holds NaN. -/
theorem rejected_or_runsSafely_output :
    let given : List (String × Json) := [("x", .arr [.int 3, .float notANumber])]
    let body : List Node := [.output (.ident "x")]
    parseProgram "<: x" = .ok (.program body) ∧
      (∀ entry ∈ given, entry.2.holdsDoubles = true) ∧
      ∃ session, Session.start 3 none given = .ok session ∧
        RunsSafely (fun fuel => runProgram fuel (.program body) session.globals)
          session.world := by
  intro given body
  have hparse : parseProgram "<: x" = .ok (.program body) := by
    have hfirst : (Cursor.start "<: x".toList).skipLayout = ⟨[], "<: x".toList⟩ :=
      Cursor.skipLayout_of_none rfl
    have hlength : (['<', ':'] : List Char).length = 2 := rfl
    have hsecond : (Cursor.advance 2 ⟨[], "<: x".toList⟩).skipLayout =
        ⟨[' ', ':', '<'], ['x']⟩ :=
      (Cursor.skipLayout_blank _ _).trans (Cursor.skipLayout_of_none rfl)
    rw [parseProgram, Reading.readText,
      Reading.read_of_lexeme? (l := ⟨.outputSign, ['<', ':']⟩)
        (by rw [hfirst]; exact List.cons_ne_nil _ _) (by rw [hfirst]; decide) rfl rfl, hfirst,
      Reading.read_of_lexeme? (l := ⟨.name, ['x']⟩)
        (by rw [hlength, hsecond]; exact List.cons_ne_nil _ _)
        (by rw [hlength, hsecond]; decide) rfl rfl,
      Reading.read_of_end (by rw [hlength, hsecond]; simp [Cursor.advance])]
    rfl
  have hgiven : ∀ entry ∈ given, entry.2.holdsDoubles = true := by
    simp only [given, List.forall_mem_singleton, Json.holdsDoubles, Json.itemsHoldDoubles]
    decide
  rcases rejected_or_runsSafely "<: x" with ⟨e, he⟩ | ⟨body', hbody, hrun⟩
  · rw [hparse] at he
    cases he
  · cases hparse.symm.trans hbody
    exact ⟨hparse, hgiven, hrun 3 none given hgiven⟩

end Sigil
