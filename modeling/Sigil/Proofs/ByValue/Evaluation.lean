import Sigil.Proofs.ByValue.Pins
import Sigil.Proofs.Generic.Correspondence

/-!
# Evaluation by value is evaluation

Started in a world whose store agrees with the pins, evaluation by value does what evaluation does:
it ends with the same result or for the same reason, in the same world, and the store agrees with
the pins again (`ByValue`). It takes one lemma for each operation (`ByValue.correspondence`). The
code that declares a name in a scope is known when the scope is made, so a pinned name is never
declared; and assignments do not reach the cells that pinned values are kept in.
-/

namespace Sigil

open Eval

namespace Pinned

/-- **A later state**: the scopes are still there, with the pins that they had. -/
structure Later (s s' : Pinned) : Prop where
  scopes_le : s.world.store.scopes.size ≤ s'.world.store.scopes.size
  pins_eq : ∀ r, r.Known s.world.store → s'.pins r = s.pins r

theorem Later.refl (s : Pinned) : s.Later s :=
  ⟨Nat.le_refl _, fun _ _ => rfl⟩

theorem Later.known {s s' : Pinned} (h : s.Later s') {r : ScopeRef} (hr : r.Known s.world.store) :
    r.Known s'.world.store :=
  Nat.lt_of_lt_of_le hr h.scopes_le

theorem Later.trans {s s₁ s' : Pinned} (h : s.Later s₁) (h' : s₁.Later s') : s.Later s' where
  scopes_le := Nat.le_trans h.scopes_le h'.scopes_le
  pins_eq r hr := (h'.pins_eq r (h.known hr)).trans (h.pins_eq r hr)

/-- Both meanings use the same references; scopes have to exist. -/
def matching (s : Pinned) : Matching :=
  { Matching.refl with scopes := .only (ScopeRef.Known s.world.store) }

theorem matching_le_refl (s : Pinned) : s.matching ≤ .refl :=
  ⟨id, And.left, id, id, id⟩

private theorem Later.matching_le {s s' : Pinned} (h : s.Later s') : s.matching ≤ s'.matching :=
  ⟨id, fun hr => ⟨hr.1, h.known hr.2⟩, id, id, id⟩

private theorem matches_self (s : Pinned) (v : Value) : v.Matches s.matching v := by
  cases v with
  | num | str | bool | null => constructor
  | arr r => exact .arr rfl
  | obj r => exact .obj rfl
  | fn r => exact .fn rfl

/-- Functions match themselves if their scopes exist. -/
private theorem matches_iff_known {s : Pinned} {f : Function} :
    f.Matches s.matching f ↔ f.Known s.world.store := by
  constructor
  · rintro (⟨params, body, name, hscope⟩ | _)
    · exact hscope.2
    · trivial
  · intro hf
    cases f with
    | closure params body scope name => exact .closure params body name ⟨rfl, hf⟩
    | native f => exact .native f

/-- A name can be declared in a scope: it is not pinned there. -/
def Opened (s : Pinned) (r : ScopeRef) (name : String) : Prop :=
  r.Known s.world.store ∧ s.pins r name = none

theorem Later.opened {s s' : Pinned} (h : s.Later s') {r : ScopeRef} {name : String}
    (hr : s.Opened r name) : s'.Opened r name :=
  ⟨h.known hr.1, by rw [h.pins_eq r hr.1, hr.2]⟩

/-- A scope that has just been made, with these pins. -/
structure Made (s : Pinned) (values : String → Option Value) (q q' : ScopeRef) : Prop where
  eq : q = q'
  known : q.Known s.world.store
  pins_eq : s.pins q = values

/-- In a new scope the names can be declared that its pins hide. -/
theorem Made.opened {s : Pinned} {names : List String} {values : String → Option Value}
    {q q' : ScopeRef} (h : s.Made (hideNames names values) q q') :
    s.matching.scopes.Rel q q' ∧ ∀ name ∈ names, s.Opened q name := by
  refine ⟨⟨h.eq, h.known⟩, fun name hname => ⟨h.known, ?_⟩⟩
  simp [h.pins_eq, hideNames, hname]

end Pinned

/-- Ends of a computation by value and one in the store that agree. -/
inductive EndsByValue {α β : Type} (s : Pinned) (post : Pinned → α → β → Prop) :
    EStateM.Result Stop Pinned α → EStateM.Result Stop World β → Prop
  | ok {a : α} {b : β} {s' : Pinned} : s.Later s' → s'.world.store.Upholds s'.pins → post s' a b →
    EndsByValue s post (.ok a s') (.ok b s'.world)
  | error (e : Stop) {s' : Pinned} : s.Later s' → s'.world.store.Upholds s'.pins →
    EndsByValue s post (.error e s') (.error e s'.world)

theorem EndsByValue.of_later {α β : Type} {s s₁ : Pinned} {post : Pinned → α → β → Prop}
    {out : EStateM.Result Stop Pinned α} {out' : EStateM.Result Stop World β} (hs : s.Later s₁)
    (h : EndsByValue s₁ post out out') : EndsByValue s post out out' := by
  cases h with
  | ok hlater hs' hpost => exact .ok (hs.trans hlater) hs' hpost
  | error e hlater hs' => exact .error e (hs.trans hlater) hs'

/-- **A computation by value does what a computation in the store does.** -/
def ByValue {α β : Type} (s : Pinned) (post : Pinned → α → β → Prop) (x : Pinning α)
    (y : Eval β) : Prop :=
  s.world.store.Upholds s.pins → EndsByValue s post (x s) (y s.world)

namespace ByValue

variable {α β γ δ : Type} {s : Pinned} {post : Pinned → α → β → Prop}
  {post' : Pinned → γ → δ → Prop} {x : Pinning α} {y : Eval β}

theorem of_pure {a : α} {b : β} (h : post s a b) : ByValue s post (pure a) (pure b) :=
  fun hs => .ok (.refl s) hs h

theorem of_throw (e : Stop) : ByValue s post (Pinning.lift (throw e)) (throw e) :=
  fun hs => .error e (.refl s) hs

theorem bind {f : α → Pinning γ} {g : β → Eval δ} (hx : ByValue s post x y)
    (hf : ∀ s' a b, s.Later s' → post s' a b → ByValue s' post' (f a) (g b)) :
    ByValue s post' (x >>= f) (y >>= g) := by
  intro hs
  have hends := hx hs
  simp only [Bind.bind, EStateM.bind]
  generalize x s = out, y s.world = out' at hends ⊢
  cases hends with
  | @ok a b s₁ hlater hs₁ hpost =>
    exact (hf s₁ a b hlater hpost hs₁).of_later hlater
  | error e hlater hs₁ => exact .error e hlater hs₁

theorem weaken {post' : Pinned → α → β → Prop} (hx : ByValue s post x y)
    (h : ∀ s' a b, post s' a b → post' s' a b) : ByValue s post' x y := by
  intro hs
  have hends := hx hs
  generalize x s = out, y s.world = out' at hends ⊢
  cases hends with
  | ok hlater hs' hpost => exact .ok hlater hs' (h _ _ _ hpost)
  | error e hlater hs' => exact .error e hlater hs'

/-! ### What leaves the pins alone -/

/-- Scopes are there to stay, and the store goes on to agree with the pins. -/
theorem lift {x : Eval α} {post : Pinned → α → α → Prop}
    (hafter : s.world.store.Upholds s.pins →
      (worldAfter (x s.world)).store.Upholds s.pins ∧
        s.world.store.scopes.size ≤ (worldAfter (x s.world)).store.scopes.size)
    (hpost : s.world.store.Upholds s.pins → ∀ a w', x s.world = .ok a w' →
      post { s with world := w' } a a) :
    ByValue s post (Pinning.lift x) x := by
  intro hs
  obtain ⟨hs', hle⟩ := hafter hs
  simp only [Pinning.lift]
  cases hrun : x s.world with
  | ok a w' =>
    rw [hrun] at hs' hle
    have hlater : s.Later { s with world := w' } := ⟨hle, fun _ _ => rfl⟩
    exact .ok hlater hs' (hpost hs a w' hrun)
  | error e w' =>
    rw [hrun] at hs' hle
    have hlater : s.Later { s with world := w' } := ⟨hle, fun _ _ => rfl⟩
    exact .error e hlater hs'

/-- What changes arrays and objects only. -/
theorem of_frame {x : Eval α} {post : Pinned → α → α → Prop} (hx : ContainerLaw.frame.Obeys x)
    (hpost : s.world.store.Upholds s.pins → ∀ a w', x s.world = .ok a w' →
      post { s with world := w' } a a) :
    ByValue s post (Pinning.lift x) x := by
  refine lift (fun hs => ?_) hpost
  have hframes := hx.frames s.world
  refine ⟨hs.of_eq hframes.cells hframes.scopes hframes.functions, ?_⟩
  rw [hframes.scopes]

theorem read (f : Store → α) {post : Pinned → α → α → Prop}
    (h : s.world.store.Upholds s.pins → post s (f s.world.store) (f s.world.store)) :
    ByValue s post (Pinning.lift (Eval.read f)) (Eval.read f) :=
  fun hs => .ok (.refl s) hs (h hs)

/-- What changes arrays and objects only and comes to a value. -/
theorem value_of_frame {x : Eval Value} (hx : ContainerLaw.frame.Obeys x) :
    ByValue s (fun s' => Value.Matches s'.matching) (Pinning.lift x) x :=
  of_frame hx fun _ v w' _ => Pinned.matches_self { s with world := w' } v

/-- What changes the output and the log only. -/
theorem of_store_eq {x : Eval Unit} (hx : (worldAfter (x s.world)).store = s.world.store) :
    ByValue s (fun _ _ _ => True) (Pinning.lift x) x := by
  refine lift (fun hs => ?_) fun _ _ _ _ => trivial
  rw [hx]
  exact ⟨hs, Nat.le_refl _⟩

/-- A change of the store that keeps all scopes. -/
theorem change {f : Store → Store}
    (hf : s.world.store.Upholds s.pins → (f s.world.store).Upholds s.pins)
    (hsize : (f s.world.store).scopes.size = s.world.store.scopes.size) :
    ByValue s (fun _ _ _ => True) (Pinning.lift (Eval.change f)) (Eval.change f) :=
  lift (fun hs => ⟨hf hs, Nat.le_of_eq hsize.symm⟩) fun _ _ _ _ => trivial

/-! ### Operations -/

variable {r r' : ScopeRef} {v v' : Value}

theorem note (event : TraceEvent) :
    ByValue s (fun _ _ _ => True) (Pinning.lift (Eval.note event)) (Eval.note event) := by
  obtain ⟨log, hlog⟩ := exists_note_eq_ok event s.world
  exact of_store_eq (by rw [hlog]; rfl)

theorem emit (v : Value) :
    ByValue s (fun _ _ _ => True) (Pinning.lift (Eval.emit v)) (Eval.emit v) := by
  obtain ⟨log, hlog⟩ := exists_note_eq_ok (.printed v) s.world
  refine of_store_eq ?_
  simp only [Eval.emit, Bind.bind, EStateM.bind, hlog]
  rfl

/-- Names that are not pinned are declared. -/
theorem define {name : String} (hname : s.Opened r name) (v : Value) (isMutable : Bool) :
    ByValue s (fun _ _ _ => True) (Pinning.lift (Eval.define r name v isMutable))
      (Eval.define r name v isMutable) :=
  change (fun hs => hs.define hname.1 hname.2 v isMutable) (Array.size_modify ..)

theorem defineSpace (r : ScopeRef) (name : String) (space : ScopeRef) :
    ByValue s (fun _ _ _ => True) (Pinning.lift (Eval.defineSpace r name space))
      (Eval.defineSpace r name space) :=
  change (fun hs => hs.defineSpace r name space) (Array.size_modify ..)

theorem assign (r : ScopeRef) (name : String) (v : Value) :
    ByValue s (fun _ _ _ => True) (Pinning.lift (Eval.assign r name v)) (Eval.assign r name v) := by
  refine lift (fun hs => ?_) fun _ _ _ _ => trivial
  rw [assign_eq]
  cases htarget : s.world.store.target r name with
  | ok ref => exact ⟨hs.writeCell htarget v, Nat.le_refl _⟩
  | error e => exact ⟨hs, Nat.le_refl _⟩

theorem newFunction {f : Function} (hf : f.Known s.world.store) :
    ByValue s (fun s' => Value.Matches s'.matching) (Pinning.lift (Eval.newFunction f))
      (Eval.newFunction f) :=
  lift (fun hs => ⟨hs.newFunction hf, Nat.le_refl _⟩)
    fun _ v w' _ => Pinned.matches_self { s with world := w' } v

/-- The scopes of functions exist. -/
theorem function? (q : FunctionRef) :
    ByValue s (fun s' => Option.Rel (Function.Matches s'.matching))
      (Pinning.lift (Eval.function? q)) (Eval.function? q) := by
  refine read (·.function? q) fun hs => ?_
  cases hf : s.world.store.function? q with
  | none => exact .none
  | some f =>
    have hknown := hs.functions f (Array.mem_of_getElem? hf)
    exact .some (Pinned.matches_iff_known.2 hknown)

/-- A pinned name has the value that is found in the store. -/
theorem lookup (r : ScopeRef) (name : String) :
    ByValue s (fun s' => Value.Matches s'.matching) (Pinning.lookup r name)
      (Eval.lookup r name) := by
  intro hs
  simp only [Pinning.lookup]
  cases hpin : s.pins r name with
  | none => exact value_of_frame (ContainerLaw.frame.obeys_lookup r name) hs
  | some v =>
    have hread : Eval.lookup r name s.world = .ok v s.world := by
      simp only [Eval.lookup, Eval.read, Bind.bind, EStateM.bind, hs.lookup_eq hpin]
      rfl
    rw [hread]
    exact .ok (.refl s) hs (s.matches_self v)

/-- The functions of the standard library that take no functions. -/
theorem run (f : Native) (hf : f.takesFunction = false) (args : List Value) :
    ByValue s (fun s' => Value.Matches s'.matching)
      (Pinning.lift (f.run (fun _ _ => throw .outOfFuel) args))
      (f.run (fun _ _ => throw .outOfFuel) args) := by
  by_cases hprint : f = .print
  · subst hprint
    refine lift (fun hs => ?_) fun _ v w' _ => Pinned.matches_self { s with world := w' } v
    obtain ⟨log, hlog⟩ := exists_note_eq_ok (.printed (Native.arg args 0)) s.world
    simp only [Native.run, Eval.emit, Bind.bind, EStateM.bind, hlog]
    exact ⟨hs, Nat.le_refl _⟩
  · exact value_of_frame
      (ContainerLaw.frame.obeys_run f args hprint fun _ _ => ContainerLaw.frame.of_throw _)

/-- A scope is made and gets pins that the store agrees with. -/
private theorem ends_made (w' : World) {values : String → Option Value}
    (hsize : w'.store.scopes.size = s.world.store.scopes.size + 1)
    (hs : w'.store.Upholds (Function.update s.pins ⟨s.world.store.scopes.size⟩ values)) :
    EndsByValue s (fun s' => s'.Made values)
      (.ok ⟨s.world.store.scopes.size⟩
        ⟨w', Function.update s.pins ⟨s.world.store.scopes.size⟩ values⟩)
      (.ok ⟨s.world.store.scopes.size⟩ w') := by
  refine .ok ⟨hsize ▸ Nat.le_succ _, fun q hq => ?_⟩ hs ⟨rfl, ?_, Function.update_self ..⟩
  · refine Function.update_of_ne ?_ _ _
    rintro rfl
    exact Nat.lt_irrefl _ hq
  · simp [ScopeRef.Known, hsize]

theorem newScope (names : List String) (hr : r.Known s.world.store) :
    ByValue s (fun s' => s'.Made (hideNames names (s.pins r)))
      (Operations.byValue.newScope names r) (Eval.newScope r) := by
  intro hs
  let w' : World := { s.world with store := (s.world.store.newScope (some r)).2 }
  have hsize : w'.store.scopes.size = s.world.store.scopes.size + 1 := Array.size_push _
  exact ends_made w' hsize (hs.newScope_hideNames hr names)

/-- The scope of an iteration, with the loop variable. -/
theorem newIteration (body : Node) (item : Option LoopItem) (hr : r.Known s.world.store) :
    ByValue s (fun s' => s'.Made (hideNames body.names (addItem item (s.pins r))))
      (Operations.byValue.newIteration body item r)
      (Operations.world.newIteration body item r) := by
  cases item with
  | none => exact newScope body.names hr
  | some item =>
    obtain ⟨name, value⟩ := item
    intro hs
    cases value with
    | ok v =>
      let s₁ := (s.world.store.newScope (some r)).2
      let w' : World :=
        { s.world with store := s₁.define ⟨s.world.store.scopes.size⟩ name v false }
      have hsize : w'.store.scopes.size = s.world.store.scopes.size + 1 :=
        (Array.size_modify ..).trans (Array.size_push _)
      exact ends_made w' hsize (hs.newIteration hr body.names name v)
    | error e =>
      -- the scope is made, and then there is no value for the loop variable
      let w' : World := { s.world with store := (s.world.store.newScope (some r)).2 }
      have hlater : s.Later { s with world := w' } := by
        refine ⟨?_, fun _ _ => rfl⟩
        simp [w', Store.newScope]
      refine .error _ hlater (hs.newScope_self fun outer houter => ?_)
      cases houter
      exact hr

end ByValue

/-- **Evaluation by value is evaluation.** -/
def ByValue.correspondence : Correspondence Operations.byValue Operations.world where
  Stage := Pinned
  Later := Pinned.Later
  matching := Pinned.matching
  Opened := Pinned.Opened
  Holds := ByValue
  later_refl := Pinned.Later.refl
  later_trans := Pinned.Later.trans
  matching_le := Pinned.Later.matching_le
  opened_later h := h.opened
  of_pure h := ByValue.of_pure (h _ (.refl _))
  of_bind := ByValue.bind
  of_throw := ByValue.of_throw
  of_newScope names := by
    rintro r _ ⟨rfl, hr⟩
    exact (ByValue.newScope names hr).weaken fun _ _ _ hq => hq.opened
  of_newIteration {i} body {item item' r r'} hitem hr := by
    obtain ⟨rfl, hr⟩ := hr
    obtain rfl := LoopItem.Matches.eq_of_rel i.matching_le_refl hitem
    exact (ByValue.newIteration body item hr).weaken fun _ _ _ hq => hq.opened
  of_lookup name hr := by
    obtain ⟨rfl, -⟩ := hr
    exact ByValue.lookup _ name
  of_lookupMember space member hr := by
    obtain ⟨rfl, -⟩ := hr
    exact ByValue.value_of_frame (ContainerLaw.frame.obeys_lookupMember _ space member)
  of_define {i r r' name v v'} hr hname hv := by
    obtain ⟨rfl, -⟩ := hr
    obtain rfl := hv.eq i.matching_le_refl
    exact ByValue.define hname v false
  of_declare {i r r' name v v'} isMutable hr hname hv := by
    obtain ⟨rfl, -⟩ := hr
    obtain rfl := hv.eq i.matching_le_refl
    exact ByValue.define hname v isMutable
  of_defineSpace {i r r' q q'} name hr hq := by
    obtain ⟨rfl, -⟩ := hr
    obtain ⟨rfl, -⟩ := hq
    exact ByValue.defineSpace r name q
  of_assign {i r r'} name {v v'} hr hv := by
    obtain ⟨rfl, -⟩ := hr
    obtain rfl := hv.eq i.matching_le_refl
    exact ByValue.assign r name v
  of_declares {i r r'} name hr := by
    obtain ⟨rfl, -⟩ := hr
    exact ByValue.read (fun s => (s.ownCell? r name).isSome) fun _ => rfl
  of_declaresSpace {i r r'} name hr := by
    obtain ⟨rfl, -⟩ := hr
    exact ByValue.read (fun s => (s.ownSpace? r name).isSome) fun _ => rfl
  of_newArray {i items items'} hitems := by
    obtain rfl : items = items' := Array.toList_inj.1 (Value.AllMatch.eq i.matching_le_refl hitems)
    exact ByValue.value_of_frame (ContainerLaw.frame.of_newArray items)
  of_newObject {i fields fields'} hfields := by
    obtain rfl := hfields.eq fun _ _ hv => hv.eq i.matching_le_refl
    exact ByValue.value_of_frame (ContainerLaw.frame.of_newObject fields)
  of_newFunction {i f f'} hf := by
    obtain rfl := hf.eq i.matching_le_refl
    exact ByValue.newFunction (Pinned.matches_iff_known.1 hf)
  of_items {i r r'} hr := by
    obtain rfl : r = r' := hr
    exact ByValue.read (·.items r) fun _ => List.forall₂_same.2 fun v _ => i.matches_self v
  of_function? {i r r'} hr := by
    obtain rfl : r = r' := hr
    exact ByValue.function? r
  of_text {i v v'} hv := by
    obtain rfl := hv.eq i.matching_le_refl
    exact ByValue.read (·.text v) fun _ => rfl
  of_note {i event event'} hevent := by
    obtain rfl := hevent.eq i.matching_le_refl
    exact ByValue.note event
  of_emit {i v v'} hv := by
    obtain rfl := hv.eq i.matching_le_refl
    exact ByValue.emit v
  of_memberValue {i v v'} name hv := by
    obtain rfl := hv.eq i.matching_le_refl
    exact ByValue.value_of_frame (ContainerLaw.frame.obeys_memberValue v name)
  of_indexValue {i v v' u u'} hv hu := by
    obtain rfl := hv.eq i.matching_le_refl
    obtain rfl := hu.eq i.matching_le_refl
    exact ByValue.value_of_frame (ContainerLaw.frame.obeys_indexValue v u)
  of_native {i} f {args args'} hf hargs := by
    obtain rfl := Value.AllMatch.eq i.matching_le_refl hargs
    exact ByValue.run f hf args

namespace ByValue

variable {s : Pinned} {r : ScopeRef}

/-- Where its names can be declared, a tree comes to the same by value. -/
theorem evalWithin (fuel : Nat) {n : Node} (hr : r.Known s.world.store)
    (hn : ∀ name ∈ n.names, s.Opened r name) :
    ByValue s (fun _ => Eq) (Operations.byValue.evalWithin fuel n r)
      (Sigil.evalWithin fuel n r) := by
  have h := (Correspondence.within (c := correspondence) fuel).1 s n r r ⟨rfl, hr⟩ hn
  rw [(Operations.within_world fuel).1] at h
  exact h.weaken fun s' _ _ hresult => hresult.eq s'.matching_le_refl

/-- Calls come to the same by value. -/
theorem callWithin (fuel : Nat) (f : Value) (args : List Value) :
    ByValue s (fun _ => Eq) (Operations.byValue.callWithin fuel f args)
      (Sigil.callWithin fuel f args) := by
  have hargs : Value.AllMatch s.matching args args :=
    List.forall₂_same.2 fun v _ => s.matches_self v
  have h := (Correspondence.within (c := correspondence) fuel).2 s f f args args (s.matches_self f)
    hargs
  rw [(Operations.within_world fuel).2] at h
  exact h.weaken fun s' _ _ hv => hv.eq s'.matching_le_refl

theorem evalBlock (fuel : Nat) {statements : List Node} (hr : r.Known s.world.store)
    (hstatements : ∀ name ∈ Node.namesAll statements, s.Opened r name) :
    ByValue s (fun _ => Eq)
      (Operations.byValue.evalBlock (Operations.byValue.evalWithin fuel) statements r)
      (Sigil.evalBlock (Sigil.evalWithin fuel) statements r) := by
  have h := Correspondence.evalBlock (c := correspondence) (i := s)
    (Correspondence.within (c := correspondence) fuel).1 ⟨rfl, hr⟩ hstatements
  rw [(Operations.within_world fuel).1, Operations.world_evalBlock] at h
  exact h.weaken fun s' _ _ hresult => hresult.eq s'.matching_le_refl

end ByValue

end Sigil
