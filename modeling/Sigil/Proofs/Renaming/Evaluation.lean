import Sigil.Proofs.Generic.Correspondence
import Sigil.Proofs.Renaming.Stores
import Sigil.Proofs.Trace.Messages
import Sigil.Proofs.Validity.Logic

/-!
# Evaluation in worlds that are the same but for references

Computations started in worlds that match end alike: with results that match, or for the same
reason, and in worlds that match again, along a matching of more references (`Renames`). Each
operation on the world does, and so does evaluation (`Renames.correspondence`): no program can tell
worlds apart that differ in the places where things are kept. In worlds that trace nothing the
traces agree as well.
-/

namespace Sigil

open Eval

/-- Values that match and looked the same when they were put out. -/
structure Printed.Matches (m : Matching) (p p' : Printed) : Prop where
  value : p.value.Matches m p'.value
  datum_eq : p'.datum = p.datum

/-- **Worlds that are the same but for references.** The traces are only compared where nothing is
traced. -/
structure World.Matches (m : Matching) (w w' : World) : Prop where
  store : w.store.Matches m w'.store
  printed : List.Forall₂ (Printed.Matches m) w.printed.toList w'.printed.toList
  log_eq : w.log.level = 0 → w'.log = w.log

/-- Ends of computations that are the same but for references. -/
inductive EndsAlike {α β : Type} (m : Matching) (post : α → β → Prop) :
    EStateM.Result Stop World α → EStateM.Result Stop World β → Prop
  | ok {a : α} {b : β} {w w' : World} : post a b → w.Matches m w' →
    EndsAlike m post (.ok a w) (.ok b w')
  | error (e : Stop) {w w' : World} : w.Matches m w' → EndsAlike m post (.error e w) (.error e w')

/-- **Computations that are the same but for references**: from worlds that match they end alike,
along a matching of more references. -/
def Renames {α β : Type} (m : Matching) (post : Matching → α → β → Prop) (x : Eval α) (y : Eval β) :
    Prop :=
  ∀ w w', w.Matches m w' → ∃ m', m ≤ m' ∧ EndsAlike m' (post m') (x w) (y w')

/-- No event is traced at level zero. -/
private theorem TraceEvent.level_pos (event : TraceEvent) : 0 < event.level := by
  cases event <;> exact Nat.succ_pos _

namespace World.Matches

variable {m m' : Matching} {w w' : World} (h : w.Matches m w')
include h

/-- Worlds go on to match when their stores change alike. -/
private theorem of_store (hle : m ≤ m') {s s' : Store} (hs : s.Matches m' s') :
    (World.mk s w.printed w.log).Matches m' ⟨s', w'.printed, w'.log⟩ where
  store := hs
  printed := h.printed.imp fun _ _ hp => ⟨hp.value.mono hle, hp.datum_eq⟩
  log_eq := h.log_eq

/-- What is noted on one side does not matter. -/
theorem note_left (event : TraceEvent) : ∃ w₁, note event w = .ok () w₁ ∧ w₁.Matches m w' := by
  simp only [note]
  split
  · rename_i hlevel
    refine ⟨_, rfl, h.store, h.printed, fun hzero => ?_⟩
    rw [Log.level_add] at hzero
    have hpos := event.level_pos
    omega
  · exact ⟨_, rfl, h⟩

/-- Tracing on one side only leaves the worlds matching. -/
private theorem note_right (event : TraceEvent) :
    ∃ w₁, note event w' = .ok () w₁ ∧ w.Matches m w₁ := by
  simp only [note]
  split
  · rename_i hlevel
    refine ⟨_, rfl, h.store, h.printed, fun hzero => ?_⟩
    rw [h.log_eq hzero] at hlevel
    have hpos := event.level_pos
    omega
  · exact ⟨_, rfl, h⟩

end World.Matches

namespace Renames

variable {α β γ δ : Type} {m : Matching} {post : Matching → α → β → Prop}
  {post' : Matching → γ → δ → Prop} {x : Eval α} {y : Eval β}

/-! ### Computations -/

/-- Results that match already. -/
private theorem of_pure {a : α} {b : β} (h : post m a b) : Renames m post (pure a) (pure b) :=
  fun _ _ hw => ⟨m, m.le_refl, .ok h hw⟩

private theorem of_throw (e : Stop) : Renames m post (throw e) (throw e) :=
  fun _ _ hw => ⟨m, m.le_refl, .error e hw⟩

/-- In sequence, what matches may grow. -/
theorem bind {f : α → Eval γ} {g : β → Eval δ} (hx : Renames m post x y)
    (hf : ∀ m' a b, m ≤ m' → post m' a b → Renames m' post' (f a) (g b)) :
    Renames m post' (x >>= f) (y >>= g) := by
  intro w w' hw
  obtain ⟨m₁, hle, hends⟩ := hx w w' hw
  simp only [Bind.bind, EStateM.bind]
  generalize x w = out, y w' = out' at hends
  cases hends with
  | @ok a b w₁ w₁' hpost hw₁ =>
    obtain ⟨m₂, hle', hends⟩ := hf m₁ a b hle hpost w₁ w₁' hw₁
    exact ⟨m₂, Matching.le_trans hle hle', hends⟩
  | error e hw₁ => exact ⟨m₁, hle, .error e hw₁⟩

/-- Less may be known of the results. -/
theorem weaken {post' : Matching → α → β → Prop} (hx : Renames m post x y)
    (h : ∀ m' a b, post m' a b → post' m' a b) : Renames m post' x y := by
  intro w w' hw
  obtain ⟨m', hle, hends⟩ := hx w w' hw
  refine ⟨m', hle, ?_⟩
  generalize x w = out, y w' = out' at hends
  cases hends with
  | ok hpost hw' => exact .ok (h _ _ _ hpost) hw'
  | error e hw' => exact .error e hw'

private theorem map {f : α → γ} {g : β → δ} (hx : Renames m post x y)
    (h : ∀ m' a b, post m' a b → post' m' (f a) (g b)) : Renames m post' (f <$> x) (g <$> y) := by
  rw [map_eq_pure_bind, map_eq_pure_bind]
  exact hx.bind fun m' a b _ hab => of_pure (h m' a b hab)

/-- Searches that come to matching results or fail alike. -/
private theorem ofScope {x : Except ScopeError α} {y : Except ScopeError β}
    (h : Alike (post m) x y) :
    Renames m post (Eval.ofScope x) (Eval.ofScope y) := by
  cases h with
  | ok hpost => exact of_pure hpost
  | error e => exact of_throw _

private theorem ofPartial {x : Except Fault α} {y : Except Fault β} (h : Alike (post m) x y) :
    Renames m post (Eval.ofPartial x) (Eval.ofPartial y) := by
  cases h with
  | ok hpost => exact of_pure hpost
  | error e => exact of_throw _

/-- The same operation on both sides. -/
private theorem ofPartial_self (x : Except Fault α) :
    Renames m (fun _ a b => a = b) (Eval.ofPartial x) (Eval.ofPartial x) :=
  ofPartial (.refl fun _ _ => rfl)

/-- Reading from stores that match. -/
theorem read {f : Store → α} {g : Store → β}
    (h : ∀ s s', s.Matches m s' → post m (f s) (g s')) :
    Renames m post (Eval.read f) (Eval.read g) :=
  fun _ _ hw => ⟨m, m.le_refl, .ok (h _ _ hw.store) hw⟩

/-- What is found in scopes. -/
private theorem readScope {f : Store → Except ScopeError α} {g : Store → Except ScopeError β}
    (h : ∀ s s', s.Matches m s' → Alike (post m) (f s) (g s')) :
    Renames m post (do Eval.ofScope (← Eval.read f)) (do Eval.ofScope (← Eval.read g)) := by
  intro w w' hw
  exact ofScope (h w.store w'.store hw.store) w w' hw

/-- Changing stores so that they still match, with more references perhaps. -/
private theorem change {f g : Store → Store}
    (h : ∀ s s', s.Matches m s' → ∃ m', m ≤ m' ∧ (f s).Matches m' (g s')) :
    Renames m (fun _ _ _ => True) (Eval.change f) (Eval.change g) := by
  intro w w' hw
  obtain ⟨m', hle, hs⟩ := h w.store w'.store hw.store
  exact ⟨m', hle, .ok trivial (hw.of_store hle hs)⟩

/-- Adding to both stores what then matches. -/
private theorem add {f : Store → α × Store} {g : Store → β × Store}
    (h : ∀ s s', s.Matches m s' →
      ∃ m', m ≤ m' ∧ post m' (f s).1 (g s').1 ∧ (f s).2.Matches m' (g s').2) :
    Renames m post (Eval.add f) (Eval.add g) := by
  intro w w' hw
  obtain ⟨m', hle, hpost, hs⟩ := h w.store w'.store hw.store
  exact ⟨m', hle, .ok hpost (hw.of_store hle hs)⟩

private theorem note (event event' : TraceEvent) :
    Renames m (fun _ _ _ => True) (Eval.note event) (Eval.note event') := by
  intro w w' hw
  obtain ⟨w₁, hnote, hw₁⟩ := hw.note_left event
  obtain ⟨w₁', hnote', hw₁'⟩ := hw₁.note_right event'
  rw [hnote, hnote']
  exact ⟨m, m.le_refl, .ok trivial hw₁'⟩

/-- A list of computations. -/
private theorem mapM {P : Matching → α → β → Prop} {f : α → Eval γ} {g : β → Eval δ}
    (hP : ∀ m m' a b, m ≤ m' → P m a b → P m' a b)
    (hpost : ∀ m m' c d, m ≤ m' → post' m c d → post' m' c d)
    (hf : ∀ m a b, P m a b → Renames m post' (f a) (g b)) {xs : List α} {ys : List β}
    (h : List.Forall₂ (P m) xs ys) :
    Renames m (fun m' => List.Forall₂ (post' m')) (xs.mapM f) (ys.mapM g) := by
  induction xs generalizing m ys with
  | nil =>
    cases h
    exact of_pure .nil
  | cons a xs ih =>
    obtain ⟨b, ys', hab, hrest, rfl⟩ := List.forall₂_cons_left_iff.1 h
    rw [List.mapM_cons, List.mapM_cons]
    refine (hf m a b hab).bind fun m₁ c d hle hcd => ?_
    refine (ih (hrest.imp fun _ _ => hP _ _ _ _ hle)).bind fun m₂ cs ds hle' hcds => ?_
    exact of_pure (.cons (hpost _ _ _ _ hle' hcd) hcds)

/-! ### Operations -/

variable {r r' : ScopeRef} {v v' : Value}

/-- New scopes stand for each other. -/
theorem newScope (hr : m.scopes.Rel r r') :
    Renames m (fun m' => m'.scopes.Rel) (Eval.newScope r) (Eval.newScope r') :=
  add fun _ _ hs => hs.newScope hr

theorem define (hr : m.scopes.Rel r r') (name : String) (hv : v.Matches m v') (isMutable : Bool) :
    Renames m (fun _ _ _ => True) (Eval.define r name v isMutable)
      (Eval.define r' name v' isMutable) :=
  change fun _ _ hs => hs.define hr name hv isMutable

/-- The search comes to cells that stand for each other. -/
private theorem assign (hr : m.scopes.Rel r r') (name : String) (hv : v.Matches m v') :
    Renames m (fun _ _ _ => True) (Eval.assign r name v) (Eval.assign r' name v') := by
  intro w w' hw
  simp only [Eval.assign, Eval.read, Bind.bind, EStateM.bind]
  obtain ⟨c, c', hc, hc', hcells⟩ | ⟨e, he, he'⟩ := (hw.store.target hr name).eq_ok_or_eq_error
  · rw [hc, hc']
    exact ⟨m, m.le_refl, .ok trivial (hw.of_store m.le_refl (hw.store.writeCell hc hc' hcells hv))⟩
  · rw [he, he']
    exact ⟨m, m.le_refl, .error _ hw⟩

theorem declares (hr : m.scopes.Rel r r') (name : String) :
    Renames m (fun _ b b' => b = b') (Eval.declares r name) (Eval.declares r' name) :=
  read fun _ _ hs => isSome_eq_of_rel (hs.ownCell? hr name)

private theorem declaresSpace (hr : m.scopes.Rel r r') (name : String) :
    Renames m (fun _ b b' => b = b') (Eval.declaresSpace r name) (Eval.declaresSpace r' name) :=
  read fun _ _ hs => isSome_eq_of_rel (hs.ownSpace? hr name)

/-- New arrays stand for each other. -/
theorem newArray {items items' : Array Value} (h : Value.ItemsMatch m items items') :
    Renames m Value.Matches (Eval.newArray items) (Eval.newArray items') :=
  (add fun _ _ hs => hs.newArray h).map fun _ _ _ hr => .arr hr

private theorem newObject {fields fields' : Table Value}
    (h : fields.Matches (Value.Matches m) fields') :
    Renames m Value.Matches (Eval.newObject fields) (Eval.newObject fields') :=
  (add fun _ _ hs => hs.newObject h).map fun _ _ _ hr => .obj hr

/-- New functions stand for each other if their scopes do. -/
private theorem newFunction {f f' : Function} (h : f.Matches m f') :
    Renames m Value.Matches (Eval.newFunction f) (Eval.newFunction f') :=
  (add fun _ _ hs => hs.newFunction h).map fun _ _ _ hr => .fn hr

/-- Arrays that stand for each other have elements that match. -/
theorem items {q q' : ArrayRef} (hq : m.arrays.Rel q q') :
    Renames m Value.ItemsMatch (Eval.items q) (Eval.items q') :=
  read fun _ _ hs => hs.items hq

private theorem fields {q q' : ObjectRef} (hq : m.objects.Rel q q') :
    Renames m (fun m' => Table.Matches (Value.Matches m')) (Eval.fields q) (Eval.fields q') :=
  read fun _ _ hs => hs.fields hq

private theorem function? {q q' : FunctionRef} (hq : m.functions.Rel q q') :
    Renames m (fun m' => Option.Rel (Function.Matches m')) (Eval.function? q) (Eval.function? q') :=
  read fun _ _ hs => hs.function? hq

/-- Values that match have the same text: it shows no reference. -/
private theorem text (hv : v.Matches m v') :
    Renames m (fun _ s s' => s = s') (Eval.text v) (Eval.text v') :=
  read fun _ _ hs => (hs.text_eq hv).symm

private theorem emit (hv : v.Matches m v') :
    Renames m (fun _ _ _ => True) (Eval.emit v) (Eval.emit v') := by
  refine (note _ _).bind fun m' _ _ hle _ => ?_
  intro w w' hw
  refine ⟨m', m'.le_refl, .ok trivial ⟨hw.store, ?_, hw.log_eq⟩⟩
  rw [Array.toList_push, Array.toList_push]
  exact List.rel_append hw.printed (.cons ⟨hv.mono hle, hw.store.view_eq (hv.mono hle)⟩ .nil)

/-- Objects that stand for each other have fields that match. -/
private theorem memberValue (name : String) (hv : v.Matches m v') :
    Renames m Value.Matches (Sigil.memberValue v name) (Sigil.memberValue v' name) := by
  cases hv with
  | obj hq =>
    refine (fields hq).bind fun m' t t' _ ht => of_pure ?_
    have hvalue := ht.get? name
    generalize t.get? name = u, t'.get? name = u' at hvalue
    cases hvalue with
    | none => exact .null
    | some hu => exact hu
  | _ => exact of_throw _

/-- The same positions are out of range on both sides. -/
private theorem indexValue {u u' : Value} (hv : v.Matches m v') (hu : u.Matches m u') :
    Renames m Value.Matches (Sigil.indexValue v u) (Sigil.indexValue v' u') := by
  cases hv with
  | arr hq =>
    cases hu with
    | num x =>
      refine (items hq).bind fun m' xs xs' _ hxs => ?_
      rw [← hxs.size_eq]
      split
      · refine (ofPartial_self _).bind fun m₁ i i' hle hi => ?_
        obtain rfl : i = i' := hi
        have hplace := (hxs.mono hle).getElem? (i - 1).toNat
        generalize xs[(i - 1).toNat]? = u, xs'[(i - 1).toNat]? = u' at hplace
        cases hplace with
        | none => exact of_throw _
        | some hu => exact of_pure hu
      · exact of_throw _
    | _ => exact of_throw _
  | _ => cases hu <;> exact of_throw _

/-! ### The standard library -/

section Library

variable {args args' : List Value} (hargs : Value.AllMatch m args args')
include hargs

/-- Arguments that match are of one kind, here and in the lemmas below. -/
private theorem arrayArg (f : Native) (i : Nat) :
    Renames m (fun m' => m'.arrays.Rel) (Native.arrayArg f args i) (Native.arrayArg f args' i) := by
  have harg := hargs.arg i
  unfold Native.arrayArg Native.wrongArg
  generalize Native.arg args i = v, Native.arg args' i = v' at harg
  cases harg with
  | arr hr => exact of_pure hr
  | _ => exact of_throw _

private theorem objectArg (f : Native) (i : Nat) :
    Renames m (fun m' => m'.objects.Rel) (Native.objectArg f args i)
      (Native.objectArg f args' i) := by
  have harg := hargs.arg i
  unfold Native.objectArg Native.wrongArg
  generalize Native.arg args i = v, Native.arg args' i = v' at harg
  cases harg with
  | obj hr => exact of_pure hr
  | _ => exact of_throw _

private theorem textArg (f : Native) (i : Nat) :
    Renames m (fun _ s s' => s = s') (Native.textArg f args i) (Native.textArg f args' i) := by
  have harg := hargs.arg i
  unfold Native.textArg Native.wrongArg
  generalize Native.arg args i = v, Native.arg args' i = v' at harg
  cases harg with
  | str s => exact of_pure rfl
  | _ => exact of_throw _

private theorem numberArg (f : Native) (i : Nat) :
    Renames m (fun _ x x' => x = x') (Native.numberArg f args i) (Native.numberArg f args' i) := by
  have harg := hargs.arg i
  unfold Native.numberArg Native.wrongArg
  generalize Native.arg args i = v, Native.arg args' i = v' at harg
  cases harg with
  | num x => exact of_pure rfl
  | _ => exact of_throw _

private theorem truthArg (f : Native) (i : Nat) :
    Renames m (fun _ b b' => b = b') (Native.truthArg f args i) (Native.truthArg f args' i) := by
  have harg := hargs.arg i
  unfold Native.truthArg Native.wrongArg
  generalize Native.arg args i = v, Native.arg args' i = v' at harg
  cases harg with
  | bool b => exact of_pure rfl
  | _ => exact of_throw _

omit hargs in
/-- Texts match themselves. -/
private theorem newTexts (texts : List String) :
    Renames m Value.Matches (Eval.newArray (texts.map Value.str).toArray)
      (Eval.newArray (texts.map Value.str).toArray) := by
  refine newArray ?_
  unfold Value.ItemsMatch
  induction texts with
  | nil => exact .nil
  | cons s texts ih => exact .cons (.str s) ih

omit hargs in
/-- Elements that match are the same texts, if they are texts. -/
private theorem joinTexts {vs vs' : List Value} (h : Value.AllMatch m vs vs') :
    Renames m (fun _ ss ss' => ss = ss') (Native.joinTexts vs) (Native.joinTexts vs') := by
  have hmap : Renames m (fun _ => List.Forall₂ Eq) (Native.joinTexts vs)
      (Native.joinTexts vs') := by
    refine mapM (P := Value.Matches) (fun _ _ _ _ hle hv => hv.mono hle) (fun _ _ _ _ _ heq => heq)
      (fun m v v' hv => ?_) h
    cases hv with
    | str s => exact of_pure rfl
    | _ => exact of_throw _
  exact hmap.weaken fun _ ss ss' heq => by rwa [List.forall₂_eq_eq_eq] at heq

omit hargs in
/-- The fields in order, each with its name. -/
private theorem pairs {t t' : Table Value} (h : t.Matches (Value.Matches m) t') :
    Renames m Value.Matches (Native.pairs t.entries) (Native.pairs t'.entries) := by
  refine (mapM
    (P := fun m (entry entry' : String × Value) =>
      entry.1 = entry'.1 ∧ entry.2.Matches m entry'.2)
    (fun _ _ _ _ hle hentry => ⟨hentry.1, hentry.2.mono hle⟩) (fun _ _ _ _ hle hv => hv.mono hle)
    (fun m entry entry' hentry => ?_) h).bind fun m' rows rows' _ hrows => newArray hrows
  obtain ⟨key, v⟩ := entry
  obtain ⟨key', v'⟩ := entry'
  obtain ⟨rfl, hv⟩ := hentry
  exact newArray (.cons (.str key) (.cons hv .nil))

/-- Functions that make a number whole. -/
private theorem integral (f : Native) (part : Float → Except Fault Int) :
    Renames m Value.Matches
      (do return .num (← Eval.ofPartial (Sigil.integral part (← Native.numberArg f args 0))))
      (do return .num (← Eval.ofPartial (Sigil.integral part (← Native.numberArg f args' 0)))) := by
  refine (numberArg hargs f 0).bind fun _ x x' _ hx => ?_
  obtain rfl : x = x' := hx
  refine (ofPartial_self _).bind fun _ y y' _ hy => of_pure ?_
  obtain rfl : y = y' := hy
  exact .num y

/-- The functions of the standard library that take no functions. -/
theorem run (f : Native) (hf : f.takesFunction = false) (call : Caller) :
    Renames m Value.Matches (f.run call args) (f.run call args') := by
  have harg := hargs.arg
  cases f with
  | arrMap | arrFilter | arrReduce => cases hf
  | print => exact (emit (harg 0)).bind fun _ _ _ _ _ => of_pure .null
  | coreType =>
    simp only [Native.run, (harg 0).kind_eq]
    exact of_pure (.str _)
  | coreNot =>
    refine (truthArg hargs .coreNot 0).bind fun _ b b' _ hb => of_pure ?_
    obtain rfl : b = b' := hb
    exact .bool _
  | coreEq =>
    simp only [Native.run, (harg 0).equal_eq (harg 1)]
    exact of_pure (.bool _)
  | coreNeq =>
    simp only [Native.run, (harg 0).equal_eq (harg 1)]
    exact of_pure (.bool _)
  | coreToStr =>
    refine (text (harg 0)).bind fun _ s s' _ hs => of_pure ?_
    obtain rfl : s = s' := hs
    exact .str s
  | arrLen =>
    refine (arrayArg hargs .arrLen 0).bind fun _ q q' _ hq => ?_
    refine (items hq).bind fun _ xs xs' _ hxs => of_pure ?_
    rw [← hxs.size_eq]
    exact .num _
  | arrPush =>
    refine (arrayArg hargs .arrPush 0).bind fun m₁ q q' hle hq => ?_
    have hv := (harg 1).mono hle
    refine (change fun _ _ hs => ⟨m₁, m₁.le_refl, hs.push hq hv⟩).bind fun m₂ _ _ hle' _ => ?_
    exact of_pure (.arr (hle'.arrays hq))
  | arrPop =>
    refine (arrayArg hargs .arrPop 0).bind fun _ q q' _ hq => ?_
    refine (items hq).bind fun m₁ xs xs' hle hxs => ?_
    have hback := hxs.back?
    generalize xs.back? = last, xs'.back? = last' at hback
    cases hback with
    | none => exact of_pure .null
    | some hlast =>
      refine (change fun _ _ hs => ⟨m₁, m₁.le_refl, hs.pop (hle.arrays hq)⟩).bind
        fun m₂ _ _ hle' _ => ?_
      exact of_pure (hlast.mono hle')
  | arrIncl =>
    refine (arrayArg hargs .arrIncl 0).bind fun _ q q' hle hq => ?_
    refine (items hq).bind fun _ xs xs' hle' hxs => of_pure ?_
    have hv := (harg 1).mono (Matching.le_trans hle hle')
    rw [hxs.any_eq hv]
    exact .bool _
  | arrReverse =>
    refine (arrayArg hargs .arrReverse 0).bind fun _ q q' _ hq => ?_
    exact (items hq).bind fun _ xs xs' _ hxs => newArray hxs.reverse
  | arrConcat =>
    refine (arrayArg hargs .arrConcat 0).bind fun m₁ q q' hle hq => ?_
    refine (arrayArg (hargs.mono hle) .arrConcat 1).bind fun _ p p' hle' hp => ?_
    refine (items (hle'.arrays hq)).bind fun _ xs xs' hle₁ hxs => ?_
    refine (items (hle₁.arrays hp)).bind fun _ ys ys' hle₂ hys => ?_
    exact newArray ((hxs.mono hle₂).append hys)
  | arrJoin =>
    refine (arrayArg hargs .arrJoin 0).bind fun m₁ q q' hle hq => ?_
    have hrest (separator : String) : Renames m₁ Value.Matches
        (do return .str (separator.intercalate (← Native.joinTexts (← Eval.items q).toList)))
        (do return .str (separator.intercalate (← Native.joinTexts (← Eval.items q').toList))) := by
      refine (items hq).bind fun _ xs xs' _ hxs => ?_
      refine (joinTexts hxs).bind fun _ parts parts' _ hparts => of_pure ?_
      obtain rfl : parts = parts' := hparts
      exact .str _
    have hseparator := (harg 1).mono hle
    simp only [Native.textArg, Native.wrongArg]
    generalize Native.arg args 1 = v, Native.arg args' 1 = v' at hseparator
    cases hseparator with
    | null => exact hrest ""
    | str s => exact hrest s
    | _ => exact of_throw _
  | objKeys =>
    refine (objectArg hargs .objKeys 0).bind fun _ q q' _ hq => ?_
    refine (fields hq).bind fun _ t t' _ ht => ?_
    rw [ht.keys_eq]
    exact newTexts _
  | objVals =>
    refine (objectArg hargs .objVals 0).bind fun _ q q' _ hq => ?_
    exact (fields hq).bind fun _ t t' _ ht => newArray ht.values
  | objKvs =>
    refine (objectArg hargs .objKvs 0).bind fun _ q q' _ hq => ?_
    exact (fields hq).bind fun _ t t' _ ht => pairs ht
  | objHas =>
    refine (objectArg hargs .objHas 0).bind fun _ q q' hle hq => ?_
    refine (textArg (hargs.mono hle) .objHas 1).bind fun _ key key' hle' hkey => ?_
    obtain rfl : key = key' := hkey
    refine (fields (hle'.objects hq)).bind fun _ t t' _ ht => of_pure ?_
    simp only [Table.contains, ht.keys_eq]
    exact .bool _
  | strLen =>
    refine (textArg hargs .strLen 0).bind fun _ s s' _ hs => of_pure ?_
    obtain rfl : s = s' := hs
    exact .num _
  | strPick =>
    refine (textArg hargs .strPick 0).bind fun _ s s' hle hs => ?_
    obtain rfl : s = s' := hs
    refine (numberArg (hargs.mono hle) .strPick 1).bind fun _ x x' _ hx => ?_
    obtain rfl : x = x' := hx
    dsimp only
    split
    · refine (ofPartial_self _).bind fun _ i i' _ hi => ?_
      obtain rfl : i = i' := hi
      refine (ofPartial_self _).bind fun _ t t' _ ht => of_pure ?_
      obtain rfl : t = t' := ht
      exact .str t
    · exact of_throw _
  | strSplit =>
    refine (textArg hargs .strSplit 0).bind fun _ s s' _ hs => ?_
    obtain rfl : s = s' := hs
    exact newTexts _
  | strIncl =>
    refine (textArg hargs .strIncl 0).bind fun _ s s' hle hs => ?_
    obtain rfl : s = s' := hs
    refine (textArg (hargs.mono hle) .strIncl 1).bind fun _ t t' _ ht => of_pure ?_
    obtain rfl : t = t' := ht
    exact .bool _
  | mathFloor => exact integral hargs .mathFloor Native.floor
  | mathCeil => exact integral hargs .mathCeil Native.ceil
  | mathRound => exact integral hargs .mathRound Native.roundHalfUp
  | mathAbs =>
    refine (numberArg hargs .mathAbs 0).bind fun _ x x' _ hx => of_pure ?_
    obtain rfl : x = x' := hx
    exact .num _

end Library

/-- The scope of an iteration, with the loop variable. -/
private theorem newIteration (body : Node) {item item' : Option LoopItem} (hr : m.scopes.Rel r r')
    (hitem : Option.Rel (LoopItem.Matches m) item item') :
    Renames m (fun m' => m'.scopes.Rel) (Operations.world.newIteration body item r)
      (Operations.world.newIteration body item' r') := by
  refine (newScope hr).bind fun m₁ q q' hle hq => ?_
  cases hitem with
  | none => exact of_pure hq
  | some hitem =>
    cases hitem with
    | ok name hv =>
      exact (define hq name (hv.mono hle) false).bind fun m₂ _ _ hle' _ => of_pure (hle'.scopes hq)
    | error name e => exact of_throw _

end Renames

/-- **Evaluation cannot tell worlds apart that are the same but for references.** -/
def Renames.correspondence : Correspondence Operations.world Operations.world where
  Stage := Matching
  Later m m' := m ≤ m'
  matching m := m
  Opened _ _ _ := True
  Holds := Renames
  later_refl := Matching.le_refl
  later_trans := Matching.le_trans
  matching_le := id
  opened_later _ := id
  of_pure h := Renames.of_pure (h _ (Matching.le_refl _))
  of_bind hx hf := hx.bind hf
  of_throw := Renames.of_throw
  of_newScope _ := fun hr =>
    (Renames.newScope hr).weaken fun _ _ _ hq => ⟨hq, fun _ _ => trivial⟩
  of_newIteration body := fun hitem hr =>
    (Renames.newIteration body hr hitem).weaken fun _ _ _ hq => ⟨hq, fun _ _ => trivial⟩
  of_lookup name hr := Renames.readScope fun _ _ hs => hs.lookup hr name
  of_lookupMember space member hr := Renames.readScope fun _ _ hs => hs.lookupMember hr space member
  of_define hr _ hv := Renames.define hr _ hv false
  of_declare isMutable hr _ hv := Renames.define hr _ hv isMutable
  of_defineSpace name := fun hr hq =>
    Renames.change fun _ _ hs => ⟨_, Matching.le_refl _, hs.defineSpace hr name hq⟩
  of_assign name := fun hr hv => Renames.assign hr name hv
  of_declares name hr := Renames.declares hr name
  of_declaresSpace name hr := Renames.declaresSpace hr name
  of_newArray := Renames.newArray
  of_newObject := Renames.newObject
  of_newFunction := Renames.newFunction
  of_items := Renames.items
  of_function? := Renames.function?
  of_text := Renames.text
  of_note _ := Renames.note _ _
  of_emit := Renames.emit
  of_memberValue := Renames.memberValue
  of_indexValue := Renames.indexValue
  of_native f := fun hf hargs => Renames.run hargs f hf (fun _ _ => throw Stop.outOfFuel : Caller)

/-- In scopes that stand for each other a tree is evaluated alike. -/
theorem Renames.evalWithin {m : Matching} {r r' : ScopeRef} (hr : m.scopes.Rel r r') (fuel : Nat)
    (n : Node) :
    Renames m Result.Matches (Sigil.evalWithin fuel n r) (Sigil.evalWithin fuel n r') := by
  have h := (Correspondence.within (c := Renames.correspondence) fuel).1 m n r r' hr
    fun _ _ => trivial
  rwa [(Operations.within_world fuel).1] at h

/-- A valid world matches itself. -/
theorem World.Valid.matches_self {w : World} (hw : w.Valid) : w.Matches (.existing w.store) w where
  store := hw.store.matches_self
  printed := List.forall₂_same.2 fun p hp =>
    ⟨(hw.printed p (Array.mem_toList_iff.1 hp)).matches_self, rfl⟩
  log_eq _ := rfl

end Sigil
