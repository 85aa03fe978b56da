import Sigil.Proofs.Hoisting
import Sigil.Proofs.Renaming.Evaluation
import Sigil.Proofs.Safety.Guards

/-!
# Counted loops and loops over numbers

A loop that counts to `n` does what a loop over the array of the numbers from one to `n` does, but
for references that are made on the way: the second one has made one array more. Both evaluate their
body once for each of the numbers, in order, until the first error or signal. A value that is no
count is refused before anything of the body is evaluated.
-/

namespace Sigil

open Eval

/-! ### Iterations -/

/-- The double of a natural number. -/
def numeral (k : Nat) : Float :=
  Binary.nearest false k 1

private theorem doubleOf_eq_numeral {k : Nat} (h : k ≤ Binary.largest) :
    doubleOf k = .ok (numeral k) := by
  have hbits := Binary.nearestBits_lt h
  rw [doubleOf, floatOfInt?, Int.natAbs_natCast, if_neg (Nat.not_le.2 hbits)]
  rfl

/-- **An iteration of a counted loop**: the body in a new scope, in which the counter, if there is
one, stands for the number of the iteration. -/
def countedRound (fuel : Nat) (counter : Option String) (body : Node) (scope : ScopeRef)
    (total k : Nat) : Eval Result := do
  let inner ← newScope scope
  if let some name := counter then
    define inner name (.num (← ofPartial (doubleOf k))) false
  note (.iteration k total)
  evalWithin fuel body inner

/-- An iteration of a loop over an array. -/
def itemRound (fuel : Nat) (name : String) (body : Node) (scope : ScopeRef) (item : Value) :
    Eval Result := do
  let inner ← newScope scope
  define inner name item false
  evalWithin fuel body inner

namespace Renames

variable {m : Matching} {r r' : ScopeRef}

/-- What is noted before a computation does not matter. -/
private theorem note_bind {α β : Type} {post : Matching → α → β → Prop} {x : Eval α} {y : Eval β}
    (event : TraceEvent) (h : Renames m post x y) :
    Renames m post (do Eval.note event; x) y := by
  intro w w' hw
  obtain ⟨w₁, hnote, hw₁⟩ := hw.note_left event
  simp only [Bind.bind, EStateM.bind, hnote]
  exact h w₁ w' hw₁

private theorem round (hr : m.scopes.Rel r r') (fuel : Nat) (i : String) (body : Node) (total : Nat)
    {k : Nat} (hk : k ≤ Binary.largest) :
    Renames m Result.Matches (countedRound fuel (some i) body r total k)
      (itemRound fuel i body r' (.num (numeral k))) := by
  have hk : Eval.ofPartial (doubleOf k) = pure (numeral k) := by
    rw [doubleOf_eq_numeral hk]
    rfl
  simp only [countedRound, hk, pure_bind]
  refine (newScope hr).bind fun m₁ q q' _ hq => ?_
  refine (define hq i (.num _) false).bind fun m₂ _ _ hle _ => ?_
  exact note_bind _ (Renames.evalWithin (hle.scopes hq) fuel body)

/-- The two loops, from any iteration on. -/
private theorem loops (hr : m.scopes.Rel r r') (fuel : Nat) (i : String) (body : Node) (total : Nat)
    {remaining next : Nat} (hle : next + remaining ≤ Binary.largest + 1) {done done' : Array Value}
    (hdone : Value.ItemsMatch m done done') :
    Renames m Result.Matches
      (repeatBody (countedRound fuel (some i) body r total) remaining next done)
      (eachBody (itemRound fuel i body r')
        ((List.range' next remaining).map fun k => .num (numeral k)) done') := by
  induction remaining generalizing m next done done' with
  | zero => exact Correspondence.toResult (c := Renames.correspondence) (newArray hdone)
  | succ remaining ih =>
    rw [List.range'_succ, List.map_cons]
    refine Correspondence.onValue (c := Renames.correspondence)
      (round hr fuel i body total (by omega)) fun m₁ v v' hle' hv => ?_
    exact ih (hle'.scopes hr) (by omega) ((hdone.mono hle').push hv)

end Renames

/-! ### The course of a loop -/

/-- **Iterations one after the other**, from a number on, each of which comes to a value. -/
inductive Rounds (round : Nat → Eval Result) : Nat → List Value → World → World → Prop
  /-- No more iterations. -/
  | done (k : Nat) (w : World) : Rounds round k [] w w
  /-- One iteration, and the others in the world that it leaves. -/
  | next {k : Nat} {v : Value} {vs : List Value} {w w₁ w' : World} :
    round k w = .ok (.value v) w₁ → Rounds round (k + 1) vs w₁ w' → Rounds round k (v :: vs) w w'

/-- An iteration that ends the whole loop, by an error or a signal. -/
def EndsLoop : EStateM.Result Stop World Result → Prop
  | .ok (.value _) _ => False
  | .ok (.signal _) _ => True
  | .error _ _ => True

/-- **A loop over the numbers from one to `n`**: it goes through the iterations in order. Either all
of them come to values, which are the elements of a new array, or the loop ends with the first that
does not, and in the same way. -/
def GoesThrough (round : Nat → Eval Result) (n : Nat) (w : World)
    (out : EStateM.Result Stop World Result) : Prop :=
  ∃ vs w', Rounds round 1 vs w w' ∧
    (vs.length = n ∧ out = (do value (← newArray vs.toArray)) w' ∨
      vs.length < n ∧ EndsLoop (round (vs.length + 1) w') ∧ out = round (vs.length + 1) w')

section Flow

variable {x : Eval Result} {f : Value → Eval Result} {w : World}

private theorem onValue_of_endsLoop (h : EndsLoop (x w)) : onValue x f w = x w := by
  simp only [onValue, Bind.bind, EStateM.bind]
  cases hx : x w with
  | error e w₁ => rfl
  | ok flow w₁ =>
    cases flow with
    | value v =>
      rw [hx] at h
      exact h.elim
    | signal v => rfl

/-- An iteration comes to a value, or it ends the loop. -/
private theorem exists_eq_ok_or_endsLoop (out : EStateM.Result Stop World Result) :
    (∃ v w₁, out = .ok (.value v) w₁) ∨ EndsLoop out := by
  cases out with
  | error e w₁ => exact .inr trivial
  | ok flow w₁ =>
    cases flow with
    | value v => exact .inl ⟨v, w₁, rfl⟩
    | signal v => exact .inr trivial

end Flow

/-- From any iteration on. -/
private theorem repeatBody_rounds (round : Nat → Eval Result) (remaining next : Nat)
    (done : Array Value) (w : World) :
    ∃ vs w', Rounds round next vs w w' ∧
      (vs.length = remaining ∧
          repeatBody round remaining next done w =
            (do value (← newArray (done ++ vs.toArray))) w' ∨
        vs.length < remaining ∧ EndsLoop (round (next + vs.length) w') ∧
          repeatBody round remaining next done w = round (next + vs.length) w') := by
  induction remaining generalizing next done w with
  | zero => exact ⟨[], w, .done next w, .inl ⟨rfl, by rw [Array.append_empty]; rfl⟩⟩
  | succ remaining ih =>
    rw [repeatBody]
    obtain ⟨v, w₁, hround⟩ | hends := exists_eq_ok_or_endsLoop (round next w)
    · rw [onValue_of_eq_value hround]
      obtain ⟨vs, w', hrounds, hend⟩ := ih (next + 1) (done.push v) w₁
      refine ⟨v :: vs, w', .next hround hrounds, ?_⟩
      have hnumber : next + 1 + vs.length = next + (vs.length + 1) := by omega
      have hvalues : done.push v ++ vs.toArray = done ++ (v :: vs).toArray := by simp
      rw [hnumber, hvalues] at hend
      rwa [List.length_cons, Nat.add_right_cancel_iff, Nat.add_lt_add_iff_right]
    · exact ⟨[], w, .done next w, .inr ⟨Nat.succ_pos _, hends, onValue_of_endsLoop hends⟩⟩

theorem goesThrough_repeatBody (round : Nat → Eval Result) (n : Nat) (w : World) :
    GoesThrough round n w (repeatBody round n 1 #[] w) := by
  obtain ⟨vs, w', hrounds, hend⟩ := repeatBody_rounds round n 1 #[] w
  rw [Array.empty_append, Nat.add_comm 1] at hend
  exact ⟨vs, w', hrounds, hend⟩

/-! ### The two loops -/

section Loops

variable (fuel : Nat) (body : Node) (scope : ScopeRef) (w : World)

/-- A loop whose count is known. -/
theorem evalWithin_countLoop (counter : Option String) {count : Node} {v : Value} {n : Nat}
    {w₁ : World} (hcount : evalWithin fuel count scope w = .ok (.value v) w₁)
    (hn : loopCount v = .ok n) :
    evalWithin (fuel + 1) (.countLoop counter count body) scope w =
      repeatBody (countedRound fuel counter body scope n) n 1 #[] w₁ := by
  change evalCountLoop (evalWithin fuel) counter count body scope w = _
  rw [evalCountLoop, onValue_of_eq_value hcount, hn]
  rfl

/-- A value that is no count is refused. -/
theorem evalWithin_countLoop_error (counter : Option String) {count : Node} {v : Value} {e : Stop}
    {w₁ : World} (hcount : evalWithin fuel count scope w = .ok (.value v) w₁)
    (he : loopCount v = .error e) :
    evalWithin (fuel + 1) (.countLoop counter count body) scope w = .error e w₁ := by
  change evalCountLoop (evalWithin fuel) counter count body scope w = _
  rw [evalCountLoop, onValue_of_eq_value hcount, he]
  rfl

theorem evalWithin_number (x : Float) :
    evalWithin (fuel + 1) (.number x) scope w = .ok (.value (.num x)) w :=
  rfl

private theorem evalAll_numbers (xs : List Float) :
    evalAll (evalWithin (fuel + 1)) scope (xs.map Node.number) w =
      .ok (.value (xs.map Value.num)) w := by
  induction xs with
  | nil => rfl
  | cons x xs ih =>
    rw [List.map_cons, evalAll, onValue_of_eq_value (evalWithin_number fuel scope w x),
      onValue_of_eq_value ih]
    rfl

/-- The world with one array more. -/
def World.withArray (items : Array Value) : World :=
  { w with store := (w.store.newArray items).2 }

private theorem items_withArray (items : Array Value) :
    (w.withArray items).store.items ⟨w.store.arrays.size⟩ = items := by
  simp [World.withArray, Store.items, Store.newArray]

/-- A valid world matches itself with one array more. -/
private theorem World.Valid.matches_withArray {w : World} (hw : w.Valid) {xs : Array Value}
    (hxs : ∀ v ∈ xs, v.Known w.store) : w.Matches (.existing w.store) (w.withArray xs) :=
  ⟨hw.store.matches_self.newArray_right hxs, hw.matches_self.printed, fun _ => rfl⟩

/-- A loop over numbers makes the array of them first. -/
theorem evalWithin_eachLoop_numbers (i : String) (xs : List Float) :
    evalWithin (fuel + 3) (.eachLoop i (.array (xs.map Node.number)) body) scope w =
      eachBody (itemRound (fuel + 2) i body scope) (xs.map Value.num) #[]
        (w.withArray (xs.map Value.num).toArray) := by
  have harray : evalWithin (fuel + 2) (.array (xs.map Node.number)) scope w =
      .ok (.value (.arr ⟨w.store.arrays.size⟩)) (w.withArray (xs.map Value.num).toArray) := by
    change onValue (evalAll (evalWithin (fuel + 1)) scope (xs.map Node.number)) _ w = _
    rw [onValue_of_eq_value (evalAll_numbers fuel scope w xs)]
    rfl
  change evalEachLoop (evalWithin (fuel + 2)) i (.array (xs.map Node.number)) body scope w = _
  rw [evalEachLoop, onValue_of_eq_value harray]
  change eachBody (itemRound (fuel + 2) i body scope)
    ((w.withArray (xs.map Value.num).toArray).store.items ⟨w.store.arrays.size⟩).toList #[] _ = _
  rw [items_withArray]

end Loops

/-- The literals of the numbers from one to `n`. -/
def numerals (n : Nat) : List Node :=
  (List.range' 1 n).map fun k => .number (numeral k)

/-- **Counted loops agree with loops over numbers.** In any valid world, a loop that counts to a
whole number `n` and the loop over the array of the numbers from one to `n` with the same body end
alike: with the same error, or with a signal or a new array that match, and in worlds that match,
where everything that existed before stands for itself. The counted loop evaluates its body once for
each number from one to `n`, in order, until the first error or signal. If the count is anything
else, the loop ends with an error right after the count has been evaluated. -/
theorem counted_loop_as_array_loop (fuel : Nat) {w : World} (hw : w.Valid) {scope : ScopeRef}
    (hscope : scope.Known w.store) (i : String) (body : Node) :
    (∀ (x : Float) (n : Nat), wholeNumber? x = some (n : Int) →
      (∃ m, Matching.existing w.store ≤ m ∧
        EndsAlike m (Result.Matches m)
          (evalWithin (fuel + 3) (.countLoop (some i) (.number x) body) scope w)
          (evalWithin (fuel + 3) (.eachLoop i (.array (numerals n)) body) scope w)) ∧
      GoesThrough (countedRound (fuel + 2) (some i) body scope n) n w
        (evalWithin (fuel + 3) (.countLoop (some i) (.number x) body) scope w)) ∧
    (∀ (counter : Option String) (count : Node) (v : Value) (w₁ : World),
      evalWithin (fuel + 2) count scope w = .ok (.value v) w₁ →
      (v.kind ≠ .num →
        ∃ error : ScriptError, error.category = .typeMismatch ∧
          evalWithin (fuel + 3) (.countLoop counter count body) scope w =
            .error (.script error) w₁) ∧
      (∀ x, v = .num x → (∀ n : Nat, wholeNumber? x ≠ some (n : Int)) →
        ∃ error : ScriptError, error.category = .loopRange ∧
          evalWithin (fuel + 3) (.countLoop counter count body) scope w =
            .error (.script error) w₁)) := by
  refine ⟨fun x n hx => ?_, fun counter count v w₁ hcount => ⟨fun hv => ?_, ?_⟩⟩
  · have hn := loopCount_of_wholeNumber? hx
    rw [evalWithin_countLoop (fuel + 2) body scope w (some i) (evalWithin_number _ _ _ x) hn]
    refine ⟨?_, goesThrough_repeatBody _ n w⟩
    have hnumerals : numerals n = ((List.range' 1 n).map numeral).map Node.number := by
      rw [List.map_map]
      rfl
    rw [hnumerals, evalWithin_eachLoop_numbers, List.map_map]
    have hle : n ≤ Binary.largest := natAbs_le_of_wholeNumber? hx
    have hr : (Matching.existing w.store).scopes.Rel scope scope := ⟨rfl, hscope⟩
    -- the loop over the array starts with one array more, for which nothing stands
    refine Renames.loops hr (fuel + 2) i body n (by omega) .nil _ _ (hw.matches_withArray ?_)
    intro v hv
    obtain ⟨k, -, rfl⟩ := List.mem_map.1 (List.mem_toArray.1 hv)
    trivial
  · exact ⟨_, rfl, evalWithin_countLoop_error _ body scope w counter hcount (loopCount_eq_error hv)⟩
  · rintro x rfl hx
    exact ⟨_, rfl, evalWithin_countLoop_error _ body scope w counter hcount
      (loopCount_num_eq_error hx)⟩

/-- In the outermost scope 0, the loop `~ #i, 2 <: i` and the loop `~~ #i, [1, 2] <: i` end alike,
and a loop that counts to a text ends with an error. -/
theorem counted_loop_as_array_loop_output :
    ∃ w : World, (w.Valid ∧ ScopeRef.Known w.store ⟨0⟩) ∧
      wholeNumber? (numeral 2) = some ((2 : Nat) : Int) ∧
      (∃ m, Matching.existing w.store ≤ m ∧
        EndsAlike m (Result.Matches m)
          (evalWithin 9 (.countLoop (some "i") (.number (numeral 2)) (.output (.ident "i"))) ⟨0⟩ w)
          (evalWithin 9 (.eachLoop "i" (.array (numerals 2)) (.output (.ident "i"))) ⟨0⟩ w)) ∧
      ∃ error : ScriptError, error.category = .typeMismatch ∧
        evalWithin 9 (.countLoop none (.text "two") (.output (.ident "i"))) ⟨0⟩ w =
          .error (.script error) w := by
  let w : World := ⟨(Store.empty.newScope none).2, #[], .fresh 0 none⟩
  have hw : w.Valid := by
    refine ⟨Store.valid_empty.newScope fun outer houter => ?_, fun p hp => ?_⟩
    · cases houter
    · cases Array.not_mem_empty p hp
  have hscope : ScopeRef.Known w.store ⟨0⟩ := Nat.zero_lt_one
  have hcount : wholeNumber? (numeral 2) = some ((2 : Nat) : Int) := by decide
  obtain ⟨hloops, hrefused⟩ :=
    counted_loop_as_array_loop 6 hw hscope "i" (.output (.ident "i"))
  exact ⟨w, ⟨hw, hscope⟩, hcount, (hloops (numeral 2) 2 hcount).1,
    (hrefused none (.text "two") (.str "two") w rfl).1 (by decide)⟩

end Sigil
