import Sigil.Proofs.Renaming.Loops
import Sigil.Proofs.Calls.Snapshots

/-!
# Callbacks and calls in loops

A function of the standard library that is given a function calls it just as a script does. So
`Arr:map(a, f)` does what the loop `~~ #x, a f(x)` does, but for references made on the way: the
loop makes a scope for each of its iterations, in which the loop variable is declared, and nobody
else ever sees these scopes (`Renames.aside`). The function may do anything in the meantime. The
name `f` stands for it in each of the iterations all the same, because calls declare nothing in
scopes that are there already, and an immutable variable keeps its value (`Store.Fixes`).
-/

namespace Sigil

open Eval

/-! ### Names that stand for one value for good -/

namespace Store

variable {opened : ScopeRef → Prop} {s s' : Store} {scope : ScopeRef} {name : String} {v : Value}

/-- The name stands for an immutable variable with this value. -/
def Fixes (s : Store) (scope : ScopeRef) (name : String) (v : Value) : Prop :=
  ∃ ref, s.find? scope name = some ref ∧ s.cell? ref = some ⟨v, false⟩

private theorem Fixes.lookup_eq (h : s.Fixes scope name v) : s.lookup scope name = .ok v := by
  obtain ⟨ref, hfind, hcell⟩ := h
  exact lookup_of_cell? hfind hcell

theorem Fixes.known (h : s.Fixes scope name v) (hs : s.Valid) : v.Known s := by
  obtain ⟨ref, -, hcell⟩ := h
  exact hs.cells _ (Array.mem_of_getElem? hcell)

/-- A search outwards from a scope takes the same steps as long as the scopes that it can come to
are what they were. -/
private theorem Searches.of_scope?_eq {visited : List ScopeRef} {found : Option CellRef}
    (h : s.Searches (s.ownCell? · name) scope visited found) (hs : s.Valid)
    (hscope : scope.Known s) (hscopes : ∀ q : ScopeRef, q.Known s → s'.scope? q = s.scope? q) :
    s'.Searches (s'.ownCell? · name) scope visited found := by
  have hown {q : ScopeRef} (hq : q.Known s) : s'.ownCell? q name = s.ownCell? q name := by
    rw [ownCell?, ownCell?, hscopes q hq]
  have hparent {q : ScopeRef} (hq : q.Known s) : s'.parent? q = s.parent? q := by
    rw [parent?, parent?, hscopes q hq]
  induction h with
  | found ha => exact .found ((hown hscope).trans ha)
  | ended ha hp => exact .ended ((hown hscope).trans ha) ((hparent hscope).trans hp)
  | outwards ha hp _ ih =>
    have houter := Nat.lt_trans (hs.index_lt_of_parent? hp) hscope
    exact .outwards ((hown hscope).trans ha) ((hparent hscope).trans hp) (ih houter)

/-- **A name goes on to stand for an immutable variable** as long as nothing is declared in the
scopes that are there already. -/
theorem Fixes.of_reaches (h : s.Fixes scope name v) (hs : s.Valid) (hs' : s'.Valid)
    (hscope : scope.Known s) (hreaches : s.Reaches opened s')
    (hopened : ∀ q : ScopeRef, q.Known s → ¬ opened q) : s'.Fixes scope name v := by
  obtain ⟨ref, hfind, hcell⟩ := h
  have hscopes (q : ScopeRef) (hq : q.Known s) : s'.scope? q = s.scope? q := by
    have hold : s.scope? q = some s.scopes[q.index] := Array.getElem?_eq_getElem hq
    obtain ⟨new, hnew, -, heq⟩ := hreaches.exists_scope hold
    rw [hnew, hold, heq (hopened q hq)]
  obtain ⟨visited, hvisited, -⟩ := hs.searchEnds (s.ownCell? · name) scope
  have hfind' : s'.find? scope name = s.find? scope name :=
    hs'.findSome?_chain_eq (hvisited.of_scope?_eq hs hscope hscopes)
  obtain ⟨⟨v', isMutable⟩, hcell', hextends⟩ := hreaches.exists_cell hcell
  obtain rfl : isMutable = false := hextends.isMutable_eq
  obtain rfl : v' = v := hextends.value_eq rfl
  exact ⟨ref, hfind'.trans hfind, hcell'⟩

/-- In the scope of an iteration the loop variable has its value, and all others have the values
that they have around it. -/
private theorem Valid.lookup_iteration (hs : s.Valid) (hscope : scope.Known s) (x : String)
    (item : Value) :
    let inner : ScopeRef := ⟨s.scopes.size⟩
    let s' := (s.newScope (some scope)).2.define inner x item false
    s'.lookup inner x = .ok item ∧
      ∀ name, name ≠ x → s'.lookup inner name = s.lookup scope name := by
  intro inner s'
  have hs₁ : (s.newScope (some scope)).2.Valid := hs.newScope fun outer houter => by
    cases houter
    exact hscope
  have hinner : inner.Known (s.newScope (some scope)).2 := by
    simp [inner, ScopeRef.Known, Store.newScope]
  have hdeclared := hs₁.declared_define hinner x item false
  refine ⟨(hdeclared.find?_eq inner (.refl _ _ _)).2, fun name hname => ?_⟩
  rw [hdeclared.lookup_eq inner name fun h => hname h.1, hs.lookup_newScope hscope]

end Store

/-! ### Loops whose body is a call -/

/-- An iteration of a loop in which a function is called with the loop variable. -/
def callRound (fuel : Nat) (x : String) (f : Value) (scope : ScopeRef) (item : Value) :
    Eval Result := do
  let inner ← newScope scope
  define inner x item false
  value (← callWithin fuel f [item])

section Rounds

variable {fuel : Nat} {w : World} {scope : ScopeRef} {x name : String} {f item : Value}

private theorem onValue_of_eq {y z : Eval Result} (h : y w = z w) (k : Value → Eval Result) :
    onValue y k w = onValue z k w := by
  simp only [onValue, Bind.bind, EStateM.bind, h]

private theorem evalWithin_ident (hname : w.store.lookup scope name = .ok f) :
    evalWithin (fuel + 1) (.ident name) scope w = .ok (.value f) w := by
  change (do value (← lookup scope name)) w = _
  simp only [lookup, Eval.read, Bind.bind, EStateM.bind, hname]
  rfl

private theorem evalAll_ident (hname : w.store.lookup scope name = .ok f) :
    evalAll (evalWithin (fuel + 1)) scope [.ident name] w = .ok (.value [f]) w := by
  rw [evalAll, onValue_of_eq_value (evalWithin_ident hname)]
  rfl

/-- A call by names, where the names are known to stand for a function and its argument. -/
private theorem evalWithin_call_names (hname : w.store.lookup scope name = .ok f)
    (hx : w.store.lookup scope x = .ok item) :
    evalWithin (fuel + 1) (.call (.ident name) [.ident x]) scope w =
      (do value (← callWithin fuel f [item])) w := by
  cases fuel with
  -- without fuel neither the names nor the call come to anything
  | zero => rfl
  | succ fuel =>
    change onValue (evalWithin (fuel + 1) (.ident name) scope) _ w = _
    rw [onValue_of_eq_value (evalWithin_ident hname), onValue_of_eq_value (evalAll_ident hx)]

/-- **An iteration calls the function**, whatever else the iterations before it have done. -/
theorem itemRound_eq_callRound (fuel : Nat) (item : Value) (hw : w.Valid)
    (hscope : scope.Known w.store) (hx : x ≠ name) (hf : w.store.Fixes scope name f) :
    itemRound (fuel + 1) x (.call (.ident name) [.ident x]) scope item w =
      callRound fuel x f scope item w := by
  obtain ⟨hitem, hothers⟩ := hw.store.lookup_iteration hscope x item
  exact evalWithin_call_names
    (w := { w with store := (w.store.newScope (some scope)).2.define ⟨_⟩ x item false })
    ((hothers name hx.symm).trans hf.lookup_eq) hitem

/-- An iteration leaves a valid world, in which the name still stands for the function. -/
private theorem fixes_of_callRound (hw : w.Valid) (hscope : scope.Known w.store)
    (hitem : item.Known w.store) (hf : w.store.Fixes scope name f) {w' : World} {flow : Result}
    (hrun : callRound fuel x f scope item w = .ok flow w') :
    w'.Valid ∧ w.store.Before w'.store ∧ w'.store.Fixes scope name f := by
  have hkeeps : Keeps w.store (Flow.Known Value.Known) (callRound fuel x f scope item) := by
    refine (keeps_newScope hscope).bind fun s₁ inner hs₁ _ => ?_
    refine (keeps_define inner x (hitem.of_before hs₁) false).bind fun s₂ _ hs₂ _ => ?_
    refine Keeps.toResult ((keeps_within fuel).2 s₂ f [item] (List.forall_mem_singleton.2 ?_))
    exact hitem.of_before (hs₁.trans hs₂)
  have hleaves := hkeeps.leaves w (.refl _) hw
  rw [hrun] at hleaves
  obtain ⟨hbefore, hvalid, -⟩ := hleaves
  -- the scopes that are opened are those that are not there yet
  have hcall : Changes (fun q => w.store.scopes.size ≤ q.index) (fun _ => True)
      (callWithin fuel f [item]) := ((Law.changes _).obeys_within fuel).2 f [item]
  have hchanges : Changes (fun q => w.store.scopes.size ≤ q.index) (fun _ => True)
      (callRound fuel x f scope item) := by
    refine (Changes.newScope (some scope)).bind fun inner hinner => ?_
    refine (Changes.of_step fun w => .inr (.define w.store x item false hinner)).bind fun _ _ => ?_
    exact hcall.bind fun _ _ => Changes.pure trivial
  have hreaches := hchanges.reaches_of_eq_ok (fun _ hq => hq) hrun
  exact ⟨hvalid, hbefore, hf.of_reaches hw.store hvalid.store hscope hreaches fun _ hq =>
    Nat.not_le.2 hq⟩

/-- From any iteration on. -/
private theorem eachBody_itemRound_eq (hw : w.Valid) (hscope : scope.Known w.store) (hx : x ≠ name)
    (hf : w.store.Fixes scope name f) {items : List Value} (hitems : ∀ v ∈ items, v.Known w.store)
    (done : Array Value) :
    eachBody (itemRound (fuel + 1) x (.call (.ident name) [.ident x]) scope) items done w =
      eachBody (callRound fuel x f scope) items done w := by
  induction items generalizing w done with
  | nil => rfl
  | cons item rest ih =>
    obtain ⟨hitem, hrest⟩ := List.forall_mem_cons.1 hitems
    have hround := itemRound_eq_callRound fuel item hw hscope hx hf
    rw [eachBody, eachBody, onValue_of_eq hround]
    refine onValue_congr fun v w' hrun => ?_
    obtain ⟨hw', hbefore, hf'⟩ := fixes_of_callRound hw hscope hitem hf hrun
    exact ih hw' (hscope.of_before hbefore) hf' (fun u hu => (hrest u hu).of_before hbefore) _

private theorem onValue_callRound (k : Value → Eval Result) :
    onValue (callRound fuel x f scope item) k = (do
      let inner ← newScope scope
      define inner x item false
      let v ← callWithin fuel f [item]
      k v) := by
  simp only [onValue, callRound, bind_assoc, value, pure_bind]

end Rounds

/-! ### Calls with a scope aside -/

namespace Renames

variable {m : Matching} {r r' : ScopeRef}

/-- **A scope that only one side makes does not matter**, nor what is declared in it. -/
theorem aside {α β : Type} {post : Matching → α → β → Prop} {x : Eval α} {y : Eval β}
    (h : Renames m post x y) (hr : m.scopes.Rel r r') (name : String) {v v' : Value}
    (hv : v.Matches m v') :
    Renames m post x (do
      let inner ← Eval.newScope r'
      Eval.define inner name v' false
      y) := by
  intro w w' hw
  have hr' : r'.Known w'.store := (hw.store.scopes.lt_size hr).2
  have hv' := (hw.store.known hv).2
  have hnew : ∀ q, ¬ m.scopes.Rel q ⟨w'.store.scopes.size⟩ := hw.store.scopes.not_rel_right rfl
  have hstore := (hw.store.newScope_right hr').define_right hnew name
    (hv'.of_before (Store.before_newScope w'.store (some r'))) false
  exact h w _ ⟨hstore, hw.printed, hw.log_eq⟩

/-- **Calls on the elements of a list and a loop that makes these calls**, from any element on. -/
theorem callbacks (fuel : Nat) (hr : m.scopes.Rel r r') (x : String) {f f' : Value}
    (hf : f.Matches m f') {items items' : List Value} (hitems : Value.AllMatch m items items')
    {done done' : Array Value} (hdone : Value.ItemsMatch m done done') :
    Renames m Result.Matches
      (do
        let vs ← items.mapM fun item => callWithin fuel f [item]
        value (← Eval.newArray (done ++ vs.toArray)))
      (eachBody (callRound fuel x f' r') items' done') := by
  induction items generalizing m items' done done' with
  | nil =>
    cases hitems
    simp only [List.mapM_nil, pure_bind, Array.append_empty]
    exact Correspondence.toResult (c := Renames.correspondence) (newArray hdone)
  | cons item items ih =>
    obtain ⟨item', rest', hitem, hrest, rfl⟩ := List.forall₂_cons_left_iff.1 hitems
    rw [eachBody, onValue_callRound, List.mapM_cons]
    simp only [bind_assoc, pure_bind]
    refine aside ?_ hr x hitem
    have hcall := (Correspondence.within (c := Renames.correspondence) fuel).2 m f f' [item]
      [item'] hf (.cons hitem .nil)
    rw [(Operations.within_world fuel).2] at hcall
    refine hcall.bind fun m₁ v v' hle hv => ?_
    have happend (vs : List Value) : done ++ (v :: vs).toArray = done.push v ++ vs.toArray := by
      simp
    simp only [happend]
    exact ih (hle.scopes hr) (hf.mono hle) (Value.AllMatch.mono hle hrest)
      ((hdone.mono hle).push hv)

end Renames

section Map

variable {fuel : Nat} {w w₁ : World} {scope : ScopeRef} {name x : String} {a : Node} {r : ArrayRef}
  {q g : FunctionRef} (ha : evalWithin (fuel + 1) a scope w = .ok (.value (.arr r)) w₁)
include ha

private theorem evalWithin_eachLoop (body : Node) :
    evalWithin (fuel + 2) (.eachLoop x a body) scope w =
      eachBody (itemRound (fuel + 1) x body scope) (w₁.store.items r).toList #[] w₁ := by
  change evalEachLoop (evalWithin (fuel + 1)) x a body scope w = _
  rw [evalEachLoop, onValue_of_eq_value ha]
  rfl

/-- A map calls the function on the elements that the array has once the arguments are known. -/
private theorem evalWithin_map (hmap : w.store.lookupMember scope "Arr" "map" = .ok (.fn q))
    (hq : w₁.store.function? q = some (.native .arrMap))
    (hg : w₁.store.lookup scope name = .ok (.fn g)) {w₂ : World}
    (hnote : note (.calledNative .arrMap) w₁ = .ok () w₂) :
    evalWithin (fuel + 2) (.call (.spaceMember "Arr" "map") [a, .ident name]) scope w = (do
      let vs ← (w₂.store.items r).toList.mapM fun item => callWithin fuel (.fn g) [item]
      value (← newArray vs.toArray)) w₂ := by
  have hcallee : evalWithin (fuel + 1) (.spaceMember "Arr" "map") scope w =
      .ok (.value (.fn q)) w := by
    change (do value (← lookupMember scope "Arr" "map")) w = _
    simp only [lookupMember, Eval.read, Bind.bind, EStateM.bind, hmap]
    rfl
  have hargs : evalAll (evalWithin (fuel + 1)) scope [a, .ident name] w =
      .ok (.value [.arr r, .fn g]) w₁ := by
    rw [evalAll, onValue_of_eq_value ha, onValue_of_eq_value (evalAll_ident hg)]
    rfl
  have hcall : callWithin (fuel + 1) (.fn q) [.arr r, .fn g] w₁ = (do
      newArray (← (w₂.store.items r).toList.mapM fun item =>
        callWithin fuel (.fn g) [item]).toArray) w₂ :=
    callWithin_native fuel hq hnote _
  change onValue (evalWithin (fuel + 1) (.spaceMember "Arr" "map") scope) _ w = _
  rw [onValue_of_eq_value hcallee, onValue_of_eq_value hargs]
  simp only [Bind.bind, EStateM.bind] at hcall ⊢
  rw [hcall]
  cases (w₂.store.items r).toList.mapM (fun item => callWithin fuel (.fn g) [item]) w₂ <;> rfl

end Map

/-- **A callback runs exactly like a call written in the script.** Let `Arr:map` stand for the
function of the standard library and let `name` stand for an immutable variable that holds a
function, whatever that function does. Then `Arr:map(a, name)` and the loop `~~ #x, a name(x)` end
alike wherever `a` comes to an array: with the same error or with arrays that match, and in worlds
that match, where everything that there was before the first call stands for itself. -/
theorem callback_as_script_call (fuel : Nat) {w w₁ : World} (hw : w.Valid) {scope : ScopeRef}
    (hscope : scope.Known w.store) {a : Node} {r : ArrayRef} {q g : FunctionRef} {name x : String}
    (hx : x ≠ name) (hmap : w.store.lookupMember scope "Arr" "map" = .ok (.fn q))
    (hq : w.store.function? q = some (.native .arrMap))
    (ha : evalWithin fuel a scope w = .ok (.value (.arr r)) w₁)
    (hg : w₁.store.Fixes scope name (.fn g)) :
    ∃ m, Matching.existing w₁.store ≤ m ∧
      EndsAlike m (Result.Matches m)
        (evalWithin (fuel + 1) (.call (.spaceMember "Arr" "map") [a, .ident name]) scope w)
        (evalWithin (fuel + 1) (.eachLoop x a (.call (.ident name) [.ident x])) scope w) := by
  cases fuel with
  | zero => cases ha
  | succ fuel =>
    have hleaves := ((keeps_within (fuel + 1)).1 w.store a scope hscope).leaves w (.refl _) hw
    rw [ha] at hleaves
    obtain ⟨hbefore, hw₁, hr⟩ := hleaves
    have hscope₁ := hscope.of_before hbefore
    have hreaches := Law.evolves_of_eq_ok
      ((Law.evolves.obeys_within (fuel + 1)).1 a scope (.inl trivial)) ha
    obtain ⟨w₂, hnote, hmatches⟩ := hw₁.matches_self.note_left (.calledNative .arrMap)
    have hitems := hmatches.store.items ⟨rfl, hr⟩
    rw [evalWithin_map ha hmap (hreaches.function?_eq hq) hg.lookup_eq hnote,
      evalWithin_eachLoop ha,
      eachBody_itemRound_eq hw₁ hscope₁ hx hg (hmatches.store.allKnown hitems).2]
    have hrel : (Matching.existing w₁.store).scopes.Rel scope scope := ⟨rfl, hscope₁⟩
    have hnone : Value.ItemsMatch (.existing w₁.store) #[] #[] := .nil
    have hloops := Renames.callbacks fuel hrel x (hg.known hw₁.store).matches_self hitems hnone
      w₂ w₁ hmatches
    simpa only [Array.empty_append] using hloops

/-- An array `a` that holds itself twice, and `f` takes the last element from an array: in
`Arr:map(a, f)` and in `~~ #x, a f(x)` the calls empty `a` while they go through its elements. -/
theorem callback_as_script_call_pop :
    ∃ w : World, (w.Valid ∧ ScopeRef.Known w.store ⟨0⟩ ∧
        w.store.lookupMember ⟨0⟩ "Arr" "map" = .ok (.fn ⟨0⟩) ∧
        w.store.function? ⟨0⟩ = some (.native .arrMap) ∧
        evalWithin 8 (.ident "a") ⟨0⟩ w = .ok (.value (.arr ⟨0⟩)) w ∧
        w.store.Fixes ⟨0⟩ "f" (.fn ⟨1⟩)) ∧
      (∃ m, Matching.existing w.store ≤ m ∧
        EndsAlike m (Result.Matches m)
          (evalWithin 9 (.call (.spaceMember "Arr" "map") [.ident "a", .ident "f"]) ⟨0⟩ w)
          (evalWithin 9 (.eachLoop "x" (.ident "a") (.call (.ident "f") [.ident "x"])) ⟨0⟩ w)) ∧
      ∃ w', evalWithin 9 (.call (.spaceMember "Arr" "map") [.ident "a", .ident "f"]) ⟨0⟩ w =
          .ok (.value (.arr ⟨1⟩)) w' ∧
        w'.store.arrays = #[#[], #[.arr ⟨0⟩, .arr ⟨0⟩]] := by
  let s : Store :=
    { cells := #[⟨.fn ⟨0⟩, false⟩, ⟨.fn ⟨1⟩, false⟩, ⟨.arr ⟨0⟩, false⟩]
      scopes := #[⟨none, ⟨[("f", ⟨1⟩), ("a", ⟨2⟩)], by decide⟩, ⟨[("Arr", ⟨1⟩)], by decide⟩⟩,
        ⟨none, ⟨[("map", ⟨0⟩)], by decide⟩, .empty⟩]
      arrays := #[#[.arr ⟨0⟩, .arr ⟨0⟩]]
      objects := #[]
      functions := #[.native .arrMap, .native .arrPop] }
  let w : World := ⟨s, #[], .fresh 0 none⟩
  have hs : s.Valid := by
    refine ⟨⟨?_, ?_, ?_⟩, ?_, ?_⟩
    · simp [s, Value.Known]
    · simp [s, Value.Known]
    · simp [s]
    · rintro ⟨_ | _ | i⟩ scope hscope
      · cases hscope
        refine ⟨fun outer houter => (by cases houter), ?_, ?_⟩
        · simp [s, CellRef.Known, Table.values]
        · simp [s, ScopeRef.Known, Table.values]
      · cases hscope
        refine ⟨fun outer houter => (by cases houter), ?_, ?_⟩
        · simp [s, CellRef.Known, Table.values]
        · simp [s, Table.values, Table.empty]
      · cases hscope
    · simp [s, Function.Known]
  have hw : w.Valid := ⟨hs, fun p hp => by cases Array.not_mem_empty p hp⟩
  have hscope : ScopeRef.Known w.store ⟨0⟩ := Nat.zero_lt_two
  have hmap : w.store.lookupMember ⟨0⟩ "Arr" "map" = .ok (.fn ⟨0⟩) := rfl
  have ha : evalWithin 8 (.ident "a") ⟨0⟩ w = .ok (.value (.arr ⟨0⟩)) w := evalWithin_ident rfl
  have hf : w.store.Fixes ⟨0⟩ "f" (.fn ⟨1⟩) := ⟨⟨1⟩, rfl, rfl⟩
  exact ⟨w, ⟨hw, hscope, hmap, rfl, ha, hf⟩,
    callback_as_script_call 8 hw hscope (by decide) hmap rfl ha hf, _, rfl, rfl⟩

end Sigil
