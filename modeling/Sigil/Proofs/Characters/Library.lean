import Sigil.Proofs.Calls.Snapshots
import Sigil.Proofs.Characters.Boundaries
import Sigil.Proofs.Hoisting
import Sigil.Proofs.Safety.Guards

/-!
# Functions on characters

The standard library splits a text into its characters, counts them and picks one by its position.
The three agree with one another and with what arrays offer: the characters put together are the
text, their array is as long as the text, and a number picks a character of the text exactly when it
is the position of an element of the array (`characters_of_texts`).
-/

namespace Sigil

open Eval Grapheme

/-! ### Positions -/

/-- A number is the position of an item in a list, counted from one. -/
def PositionOf {α : Type} (x : Float) (items : List α) (item : α) : Prop :=
  ∃ i : Nat, wholeNumber? x = some ((i + 1 : Nat) : Int) ∧ items[i]? = some item

section Positions

variable {α : Type} {x : Float} {items : List α}

/-- A position where something stands passes the check. -/
private theorem PositionOf.isPosition {item : α} (h : PositionOf x items item) :
    isPosition x items.length = true := by
  obtain ⟨i, hx, hi⟩ := h
  have hlt : i < items.length := (List.getElem?_eq_some_iff.1 hi).1
  simp only [Sigil.isPosition, hx]
  exact decide_eq_true ⟨by omega, by omega⟩

/-- What is at a position can be taken. -/
private theorem PositionOf.exists_take {item : α} (h : PositionOf x items item) :
    ∃ i, (∀ w, ofPartial (wholePart Binary.truncate x) w = .ok i w) ∧
      ∀ w, ofPartial (required .noSuchPlace items[(i - 1).toNat]?) w = .ok item w := by
  obtain ⟨i, hx, hi⟩ := h
  refine ⟨(i + 1 : Nat), fun w => ?_, fun w => ?_⟩
  · rw [truncate_of_wholeNumber? hx]
    rfl
  · have hplace : (((i + 1 : Nat) : Int) - 1).toNat = i := by omega
    rw [hplace, hi]
    rfl

private theorem isPosition_eq_false (h : ¬∃ item, PositionOf x items item) :
    isPosition x items.length = false := by
  cases hx : wholeNumber? x with
  | none => simp only [isPosition, hx]
  | some n =>
    simp only [isPosition, hx, decide_eq_false_iff_not]
    rintro ⟨hpos, hle⟩
    have hlt : (n - 1).toNat < items.length := by omega
    refine h ⟨items[(n - 1).toNat], (n - 1).toNat, ?_, List.getElem?_eq_getElem hlt⟩
    rw [hx, Option.some_inj]
    omega

/-- Positions do not depend on what the elements are. -/
private theorem positionOf_map {β : Type} {f : α → β} {y : β} :
    PositionOf x (items.map f) y ↔ ∃ item, PositionOf x items item ∧ f item = y := by
  simp only [PositionOf, List.getElem?_map, Option.map_eq_some_iff]
  constructor
  · rintro ⟨i, hx, item, hitem, rfl⟩
    exact ⟨item, ⟨i, hx, hitem⟩, rfl⟩
  · rintro ⟨item, ⟨i, hx, hitem⟩, rfl⟩
    exact ⟨i, hx, item, hitem, rfl⟩

end Positions

/-- A computation ends with the mistake of a position out of range. -/
def OutOfRange {α : Type} (x : EStateM.Result Stop World α) : Prop :=
  ∃ e w, x = .error (.script e) w ∧ e.category = .outOfRange

section Picking

variable (call : Caller) {s : String} {x : Float} (w : World)

/-- What `Str:pick` does, with the check of the position in front. -/
private theorem run_strPick (s : String) (x : Float) :
    Native.run call .strPick [.str s, .num x] w =
      (if isPosition x (graphemes s).length then do
        let i ← ofPartial (wholePart Binary.truncate x)
        return .str (← ofPartial (required .noSuchPlace (graphemes s)[(i - 1).toNat]?))
      else fail (.pickRange x (graphemes s).length) : Eval Value) w :=
  rfl

private theorem run_strPick_of_positionOf {c : String} (h : PositionOf x (graphemes s) c) :
    Native.run call .strPick [.str s, .num x] w = .ok (.str c) w := by
  obtain ⟨i, hi, hc⟩ := h.exists_take
  rw [run_strPick, if_pos h.isPosition, bind_eq_of_ok (hi w), bind_eq_of_ok (hc w)]
  rfl

private theorem outOfRange_run_strPick (h : ¬∃ c, PositionOf x (graphemes s) c) :
    OutOfRange (Native.run call .strPick [.str s, .num x] w) := by
  rw [run_strPick, isPosition_eq_false h]
  exact ⟨_, w, rfl, rfl⟩

end Picking

section Indexing

variable {a : ArrayRef} {x : Float} {w : World}

/-- What an index does, with the same check. -/
private theorem indexValue_arr_num (a : ArrayRef) (x : Float) (w : World) :
    indexValue (.arr a) (.num x) w =
      (if isPosition x (w.store.items a).toList.length then do
        let i ← ofPartial (wholePart Binary.truncate x)
        ofPartial (required .noSuchPlace (w.store.items a).toList[(i - 1).toNat]?)
      else fail (.indexRange x (w.store.items a).size) : Eval Value) w := by
  simp only [Array.length_toList, Array.getElem?_toList]
  rfl

private theorem indexValue_of_positionOf {v : Value} (h : PositionOf x (w.store.items a).toList v) :
    indexValue (.arr a) (.num x) w = .ok v w := by
  obtain ⟨i, hi, hv⟩ := h.exists_take
  rw [indexValue_arr_num, if_pos h.isPosition, bind_eq_of_ok (hi w), hv]

private theorem outOfRange_indexValue (h : ¬∃ v, PositionOf x (w.store.items a).toList v) :
    OutOfRange (indexValue (.arr a) (.num x) w) := by
  rw [indexValue_arr_num, isPosition_eq_false h]
  exact ⟨_, w, rfl, rfl⟩

/-- An index expression once its target and its position have values. -/
private theorem evalWithin_index {fuel : Nat} {target position : Node} {scope : ScopeRef}
    {w₀ w₁ : World} {v i : Value} (htarget : evalWithin fuel target scope w₀ = .ok (.value v) w₁)
    (hposition : evalWithin fuel position scope w₁ = .ok (.value i) w) :
    evalWithin (fuel + 1) (.index target position) scope w₀ =
      (do value (← indexValue v i) : Eval Result) w :=
  (onValue_of_eq_value htarget).trans (onValue_of_eq_value hposition)

/-- Access to an element of an array of texts. -/
private theorem evalWithin_index_of_texts {fuel : Nat} {target position : Node} {scope : ScopeRef}
    {w₀ w₁ : World} (htarget : evalWithin fuel target scope w₀ = .ok (.value (.arr a)) w₁)
    (hposition : evalWithin fuel position scope w₁ = .ok (.value (.num x)) w)
    {cs : List String} (hitems : (w.store.items a).toList = cs.map .str) :
    (∀ c, PositionOf x cs c →
        evalWithin (fuel + 1) (.index target position) scope w₀ = .ok (.value (.str c)) w) ∧
      ((¬∃ c, PositionOf x cs c) →
        OutOfRange (evalWithin (fuel + 1) (.index target position) scope w₀)) := by
  rw [evalWithin_index htarget hposition]
  constructor
  · intro c hc
    have helement : PositionOf x (w.store.items a).toList (.str c) := by
      rw [hitems]
      exact positionOf_map.2 ⟨c, hc, rfl⟩
    exact bind_eq_of_ok (indexValue_of_positionOf helement)
  · intro hno
    have hnone : ¬∃ v, PositionOf x (w.store.items a).toList v := by
      rintro ⟨v, hv⟩
      rw [hitems] at hv
      obtain ⟨c, hc, -⟩ := positionOf_map.1 hv
      exact hno ⟨c, hc⟩
    obtain ⟨e, w', hfails, he⟩ := outOfRange_indexValue hnone
    exact ⟨e, w', bind_eq_of_error hfails, he⟩

end Indexing

/-! ### Putting characters together -/

private theorem joinTexts_map_str (cs : List String) (w : World) :
    Native.joinTexts (cs.map .str) w = .ok cs w := by
  induction cs with
  | nil => rfl
  | cons c cs ih =>
    have hfirst : (pure c : Eval String) w = .ok c w := rfl
    rw [List.map_cons, Native.joinTexts, List.mapM_cons, bind_eq_of_ok hfirst]
    exact (bind_eq_of_ok ih).trans rfl

/-- Joining with an empty separator puts the texts one after another. -/
private theorem intercalate_empty (cs : List String) : "".intercalate cs = String.join cs := by
  induction cs with
  | nil => rfl
  | cons c cs ih =>
    cases cs with
    | nil => simp
    | cons d cs => rw [String.intercalate_cons_cons, ih]; simp

private theorem run_arrJoin_graphemes (call : Caller) {s : String} {a : ArrayRef} {w : World}
    (h : (w.store.items a).toList = (graphemes s).map .str) :
    Native.run call .arrJoin [.arr a] w = .ok (.str s) w := by
  have hparts : Native.joinTexts (w.store.items a).toList w = .ok (graphemes s) w := by
    rw [h, joinTexts_map_str]
  refine (bind_eq_of_ok hparts).trans ?_
  rw [intercalate_empty, join_graphemes]
  rfl

/-! ### Texts and their characters -/

/-- **The characters of a text**: put together they are the text, none of them is empty, and they
part the text between two code points exactly when the rules put a boundary there. -/
structure CharactersOf (s : String) (cs : List String) : Prop where
  join : String.join cs = s
  nonempty : "" ∉ cs
  parted : ∀ (front back : List Char) (a b : Char), s.toList = front ++ a :: b :: back →
    (CutAt (cs.map String.toList) (front ++ [a]) ↔
      Boundary ((front ++ [a]).map breakClass) (breakClass b))

/-- The segments that the library works with are the characters of the text. -/
private theorem charactersOf_graphemes (s : String) : CharactersOf s (graphemes s) where
  join := join_graphemes s
  nonempty h := ne_empty_of_mem_graphemes h rfl
  parted _ _ _ _ h := cutAt_graphemes h

/-- The functions of the standard library that texts and their characters go through. -/
def characterFunctions : List Native :=
  [.strSplit, .strLen, .strPick, .arrJoin, .arrLen]

/-- **The functions on the characters of a text agree** in a world. Splitting makes an array of the
characters. Joining the array gives the text back, and the text counts as many characters as the
array has elements. A number that is the position of a character picks it from the text, and as an
index it takes it from the array; every other number is out of range for both. -/
def SplitAlike (fuel : Nat) (library : Native → FunctionRef) (w : World) (s : String) : Prop :=
  ∃ cs a w', CharactersOf s cs ∧
    callWithin (fuel + 1) (.fn (library .strSplit)) [.str s] w = .ok (.arr a) w' ∧
    (w'.store.items a).toList = cs.map .str ∧
    (∃ log, callWithin (fuel + 1) (.fn (library .arrJoin)) [.arr a] w' =
      .ok (.str s) { w' with log }) ∧
    (∃ log, callWithin (fuel + 1) (.fn (library .strLen)) [.str s] w =
      .ok (.num (Float.ofNat cs.length)) { w with log }) ∧
    (∃ log, callWithin (fuel + 1) (.fn (library .arrLen)) [.arr a] w' =
      .ok (.num (Float.ofNat cs.length)) { w' with log }) ∧
    ∀ x,
      let pick := callWithin (fuel + 1) (.fn (library .strPick)) [.str s, .num x] w
      (∀ c, PositionOf x cs c → ∃ log, pick = .ok (.str c) { w with log }) ∧
      ((¬∃ c, PositionOf x cs c) → OutOfRange pick) ∧
      ∀ target position scope w₀ w₁ w₂,
        evalWithin fuel target scope w₀ = .ok (.value (.arr a)) w₁ →
        evalWithin fuel position scope w₁ = .ok (.value (.num x)) w₂ →
        (w₂.store.items a).toList = cs.map .str →
          let element := evalWithin (fuel + 1) (.index target position) scope w₀
          (∀ c, PositionOf x cs c → element = .ok (.value (.str c)) w₂) ∧
          ((¬∃ c, PositionOf x cs c) → OutOfRange element)

/-- **Texts and their characters.** In every state and for every text, the functions that split a
text, count its characters and pick one of them agree with one another and with arrays, and the
characters are those that the rules for boundaries ask for. -/
theorem characters_of_texts (fuel : Nat) {w : World} {library : Native → FunctionRef}
    (h : w.store.Offers library characterFunctions) (s : String) :
    SplitAlike fuel library w s := by
  obtain ⟨a, w', hsplit, hitems, hfunctions⟩ := exists_callWithin_newArray fuel
    (h .strSplit (by decide)) [.str s] ((graphemes s).map .str).toArray fun _ => rfl
  have h' : w'.store.Offers library characterFunctions := by
    intro f hf
    rw [Store.function?, hfunctions]
    exact h f hf
  have hlist : (w'.store.items a).toList = (graphemes s).map .str := by rw [hitems]
  refine ⟨graphemes s, a, w', charactersOf_graphemes s, hsplit, hlist, ?_, ?_, ?_, fun x => ?_⟩
  · obtain ⟨log, hcall⟩ := exists_callWithin_native fuel (h' .arrJoin (by decide)) [.arr a]
    refine ⟨log, hcall.trans (run_arrJoin_graphemes _ ?_)⟩
    exact hlist
  · obtain ⟨log, hcall⟩ := exists_callWithin_native fuel (h .strLen (by decide)) [.str s]
    exact ⟨log, hcall⟩
  · obtain ⟨log, hcall⟩ := exists_callWithin_native fuel (h' .arrLen (by decide)) [.arr a]
    have hsize : (w'.store.items a).size = (graphemes s).length := by simp [hitems]
    refine ⟨log, hcall.trans ?_⟩
    rw [← hsize]
    rfl
  · intro pick
    obtain ⟨log, hcall⟩ :=
      exists_callWithin_native fuel (h .strPick (by decide)) [.str s, .num x]
    refine ⟨fun c hc => ⟨log, hcall.trans (run_strPick_of_positionOf _ _ hc)⟩, fun hno => ?_, ?_⟩
    · obtain ⟨e, w₁, hfails, he⟩ := outOfRange_run_strPick (callWithin fuel) { w with log } hno
      exact ⟨e, w₁, hcall.trans hfails, he⟩
    · intro target position scope w₀ w₁ w₂ htarget hposition hcs
      exact evalWithin_index_of_texts htarget hposition hcs

/-- Two flags of two regional indicators each, a family of pictographs with joiners, and a letter
with an accent of its own. -/
theorem characters_of_texts_flags :
    let library (f : Native) : FunctionRef := ⟨characterFunctions.idxOf f⟩
    let w : World := ⟨{ Store.empty with functions := (characterFunctions.map .native).toArray },
      #[], .fresh 0 none⟩
    let s := "🇯🇵🇫🇷👨\u200d👩\u200d👧e\u0301"
    w.store.Offers library characterFunctions ∧ SplitAlike 1 library w s ∧
      graphemes s = ["🇯🇵", "🇫🇷", "👨\u200d👩\u200d👧", "e\u0301"] := by
  intro library w s
  have hoffers : w.store.Offers library characterFunctions := by
    simp only [Store.Offers, characterFunctions, List.forall_mem_cons]
    exact ⟨rfl, rfl, rfl, rfl, rfl, List.forall_mem_nil _⟩
  exact ⟨hoffers, characters_of_texts 1 hoffers s, by decide +kernel⟩

end Sigil
