import Sigil.Proofs.Grammar.Throughout
import Sigil.Proofs.Renaming.Loops
import Sigil.Proofs.Termination.Acyclic
import Sigil.Proofs.Termination.Calm

/-!
# Evaluation without calls

A tree without calls is evaluated to the end (`only_calls_run_forever`). Its parts are smaller than
it is, so a bound on the nesting that is as large as the tree does not run out. It pushes nothing to
any array, so the stores on the way stay acyclic and the texts of values are finite. And a loop goes
through iterations that are fixed when it starts, whatever its body does.
-/

namespace Sigil

open Eval

/-! ### Trees without calls -/

namespace Node

/-- **A tree without calls**, at any depth. -/
def CallFree (n : Node) : Prop :=
  n.Throughout fun n => n.isCall = false

/-- A tree without calls that is not larger than a bound. -/
def CallFreeWithin (fuel : Nat) (n : Node) : Prop :=
  n.CallFree ∧ sizeOf n ≤ fuel

private theorem CallFree.parts {n : Node} (h : n.CallFree) :
    (∀ c ∈ n.statements, c.CallFree) ∧ ∀ c ∈ n.operands, c.CallFree := by
  cases h with
  | intro _ hstatements hoperands => exact ⟨hstatements, hoperands⟩

private theorem CallFree.isCall_eq_false {n : Node} (h : n.CallFree) : n.isCall = false := by
  cases h with
  | intro hn _ _ => exact hn

/-- The parts of a tree are smaller than it is. -/
private theorem CallFreeWithin.parts {fuel : Nat} {n : Node} (h : n.CallFreeWithin (fuel + 1)) :
    (∀ c ∈ n.statements, c.CallFreeWithin fuel) ∧ ∀ c ∈ n.operands, c.CallFreeWithin fuel := by
  obtain ⟨hn, hsize⟩ := h
  refine ⟨fun c hc => ⟨hn.parts.1 c hc, ?_⟩, fun c hc => ⟨hn.parts.2 c hc, ?_⟩⟩
  · have := sizeOf_lt_of_mem_statements hc
    omega
  · have := sizeOf_lt_of_mem_operands hc
    omega

theorem CallFreeWithin.mono {fuel fuel' : Nat} (hle : fuel ≤ fuel') {n : Node}
    (h : n.CallFreeWithin fuel) : n.CallFreeWithin fuel' :=
  ⟨h.1, h.2.trans hle⟩

end Node

namespace Recording

open Recorded

/-- **A bound that is as large as the tree is enough.** -/
theorem calm_evalWithin (fuel : Nat) :
    ∀ n : Node, n.CallFreeWithin fuel → ∀ scope, Calm (evalWithin fuel n scope) := by
  induction fuel with
  | zero =>
    intro n h
    have hpos : 0 < sizeOf n := by cases n <;> simp +arith
    exact absurd h.2 (Nat.not_le.2 hpos)
  | succ fuel ih =>
    intro n h scope
    rw [evalWithin]
    have hparts (n : Node) (hn : n.CallFreeWithin fuel) :
        (∀ c ∈ n.statements, c.CallFreeWithin fuel) ∧ ∀ c ∈ n.operands, c.CallFreeWithin fuel :=
      (hn.mono (Nat.le_succ fuel)).parts
    exact calm_evalNode hparts ih h.1.isCall_eq_false h.parts.1 h.parts.2 scope

end Recording

/-! ### Ends -/

/-- **A legible store**: it is acyclic, and plain recursion spells out the text of every value there
is, no deeper than there are containers. -/
structure Store.Legible (s : Store) : Prop where
  acyclic : s.Acyclic
  text : ∀ v : Value, v.Known s → s.textWithin (s.containerCount + 1) v = some (s.text v)

/-- **An evaluation that ends**, with a value, a signal or an error: for all bounds on the nesting
from some bound on it has this one result. Every store on its record is legible, so that whatever
text is asked for on the way, plain recursion comes to it. -/
structure EndsLegibly (x : Nat → Eval Result) (record : Nat → Recorded Result) (w : World)
    (r : EStateM.Result Stop World Result) : Prop where
  ends : Eval.Ends x w r
  known : ∀ flow w', r = .ok flow w' → flow.result.Known w'.store
  legible : ∃ least, ∀ fuel ≥ least, (record fuel w).2 = r ∧
    ∀ done rest, (record fuel w).1 = done ++ rest → (storeAt w.store done).Legible

/-- A calm computation ends. -/
private theorem exists_endsLegibly {x : Nat → Eval Result} {record : Nat → Recorded Result}
    {w : World} (hs : w.store.Closed) (hacyclic : w.store.Acyclic)
    (happrox : ∀ fuel, Approx (x fuel) (x (fuel + 1)))
    (hagrees : ∀ fuel, Agrees True w (Same (Flow.Sound True)) (record fuel) (x fuel)) {least : Nat}
    (hcalm : ∀ fuel ≥ least, (record fuel).Calm) : ∃ r, EndsLegibly x record w r := by
  have hlasts : ¬RanOut (x least w) := by
    rw [← (hagrees least).erases]
    exact (hcalm least (Nat.le_refl least)).lasts w
  have hends := ends_of_not_ranOut happrox hlasts
  obtain ⟨enough, hsame⟩ := hends.2
  refine ⟨x least w, hends, fun flow w' hr => ?_, max least enough, fun fuel hfuel => ⟨?_, ?_⟩⟩
  · exact (hagrees least).result hr trivial
  · rw [(hagrees fuel).erases]
    exact hsame fuel (le_of_max_le_right hfuel)
  · intro done rest hstages
    have hcourse := (hagrees fuel).course
    have hquiet := (hcalm fuel (le_of_max_le_left hfuel)).quiet w
    rw [hstages] at hcourse hquiet
    have hdone := hcourse.of_append.1
    have hacyclic' := hdone.acyclic hs hacyclic (List.forall_mem_append.1 hquiet).1
    exact ⟨hacyclic', fun v hv => hacyclic'.textWithin_eq (hdone.closed trivial hs) hv⟩

/-! ### Loops -/

/-- A loop over elements counts through them. -/
private theorem eachBody_eq_repeatBody (body : Value → Eval Result) (before items : List Value)
    (done : Array Value) :
    eachBody body items done =
      repeatBody (fun k => body ((before ++ items).getD (k - 1) .null)) items.length
        (before.length + 1) done := by
  induction items generalizing before done with
  | nil => rfl
  | cons item rest ih =>
    have hitem : (before ++ item :: rest).getD (before.length + 1 - 1) .null = item := by simp
    rw [eachBody, List.length_cons, repeatBody, hitem]
    refine congrArg (onValue (body item)) (funext fun v => ?_)
    rw [ih (before ++ [item]) (done.push v)]
    simp

/-- **The iterations of a loop are fixed when it starts**: a counted loop goes through the numbers
up to the one that its count has come to, and a loop over an array goes through the elements that
the array has before the first iteration. What the body does makes no difference to that. -/
structure FixesIterations (fuel : Nat) : Prop where
  counted : ∀ counter count body scope w v w₁ total,
    evalWithin fuel count scope w = .ok (.value v) w₁ → loopCount v = .ok total →
      GoesThrough (countedRound fuel counter body scope total) total w₁
        (evalWithin (fuel + 1) (.countLoop counter count body) scope w)
  each : ∀ item collection body scope w r w₁,
    evalWithin fuel collection scope w = .ok (.value (.arr r)) w₁ →
      GoesThrough
        (fun k => itemRound fuel item body scope ((w₁.store.items r).toList.getD (k - 1) .null))
        (w₁.store.items r).size w₁
        (evalWithin (fuel + 1) (.eachLoop item collection body) scope w)

private theorem fixesIterations (fuel : Nat) : FixesIterations fuel where
  counted counter count body scope w v w₁ total hcount htotal := by
    rw [evalWithin_countLoop fuel body scope w counter hcount htotal]
    exact goesThrough_repeatBody _ total w₁
  each item collection body scope w r w₁ hcollection := by
    have hloop : evalWithin (fuel + 1) (.eachLoop item collection body) scope w =
        eachBody (itemRound fuel item body scope) (w₁.store.items r).toList #[] w₁ := by
      change evalEachLoop (evalWithin fuel) item collection body scope w = _
      rw [evalEachLoop, onValue_of_eq_value hcollection]
      rfl
    rw [hloop, eachBody_eq_repeatBody _ [], Array.length_toList]
    exact goesThrough_repeatBody _ _ w₁

/-! ### Only calls run forever -/

/-- **Only calls can make a program run forever.** From a store without cycles, a tree without calls
is evaluated to the end in every scope, and so is a block of such trees: there is a value, a signal
or an error. All stores on the way are without cycles, too, so that the texts of values are spelled
out by plain recursion. In every loop, whatever its body is, the iterations are fixed before the
first of them. -/
theorem only_calls_run_forever {w : World} (hs : w.store.Closed) (hacyclic : w.store.Acyclic)
    (scope : ScopeRef) :
    (∀ n : Node, n.CallFree → ∃ r,
      EndsLegibly (evalWithin · n scope) (Recording.evalWithin · n scope) w r) ∧
    (∀ statements : List Node, (∀ n ∈ statements, n.CallFree) → ∃ r,
      EndsLegibly (fun fuel => evalBlock (evalWithin fuel) statements scope)
        (fun fuel => Recording.evalBlock (Recording.evalWithin fuel) statements scope) w r) ∧
    ∀ fuel, FixesIterations fuel := by
  have holder := Store.Older.refl w.store
  refine ⟨fun n hn => ?_, fun statements hstatements => ?_, fixesIterations⟩
  · refine exists_endsLegibly hs hacyclic (fun fuel => (approx_within fuel).1 n scope)
      (fun fuel => (Recording.records_within True fuel).1 w.store n scope w holder fun _ => hs)
      fun fuel hfuel => Recording.calm_evalWithin fuel n ⟨hn, hfuel⟩ scope
  · refine exists_endsLegibly hs hacyclic
      (fun fuel => approx_evalBlock (approx_within fuel).1 statements scope)
      (fun fuel => Recording.records_evalBlock fuel statements scope w holder fun _ => hs)
      fun fuel (hfuel : sizeOf statements ≤ fuel) => ?_
    refine Recording.calm_evalBlock (fun n hn => (hn.mono (Nat.le_succ fuel)).parts)
      (Recording.calm_evalWithin fuel) (fun n hn => ⟨hstatements n hn, ?_⟩) scope
    have hlt := List.sizeOf_lt_of_mem hn
    omega

/-- A variable holds an array in an array, and a loop over it puts out the text of each element, in
a template. -/
theorem only_calls_run_forever_template :
    let s : Store :=
      { cells := #[⟨.arr ⟨1⟩, false⟩]
        scopes := #[⟨none, ⟨[("a", ⟨0⟩)], by decide⟩, .empty⟩]
        arrays := #[#[.bool true], #[.arr ⟨0⟩]]
        objects := #[]
        functions := #[] }
    let w : World := ⟨s, #[], .fresh 0 none⟩
    let n : Node := .eachLoop "x" (.ident "a") (.output (.template [.inr (.ident "x")]))
    w.store.Closed ∧ w.store.Acyclic ∧ n.CallFree ∧
      (∃ r, EndsLegibly (evalWithin · n ⟨0⟩) (Recording.evalWithin · n ⟨0⟩) w r) ∧
      ∃ w', evalWithin 4 n ⟨0⟩ w = .ok (.value (.arr ⟨2⟩)) w' ∧ w'.printed.size = 1 := by
  intro s w n
  have hs : s.Closed := by
    refine ⟨?_, ?_, ?_⟩ <;> simp [s, Value.Known]
  have hacyclic : s.Acyclic := by
    -- an array ranks by its number
    refine Store.acyclic_of_rankable ⟨fun c => c.position s, 2, fun c hc => ?_, ?_⟩
    · exact Store.position_lt hc
    · rintro (⟨⟨_ | _ | k⟩, i⟩ | ⟨r, key⟩) v hv - c hc
      · have hmem : v ∈ #[Value.bool true] := Array.mem_of_getElem? hv
        obtain rfl := Array.mem_singleton.1 hmem
        cases hc
      · have hmem : v ∈ #[Value.arr ⟨0⟩] := Array.mem_of_getElem? hv
        obtain rfl := Array.mem_singleton.1 hmem
        cases hc
        exact Nat.zero_lt_one
      · have hlt : k + 2 < 2 := Place.owner_known hv
        omega
      · exact absurd (Place.owner_known hv) (Nat.not_lt_zero _)
  have hident (name : String) : (Node.ident name).CallFree :=
    .of_operands rfl rfl (List.forall_mem_nil _)
  have hcallFree : n.CallFree := by
    refine .of_operands rfl rfl (List.forall_mem_cons.2 ⟨hident "a", ?_⟩)
    refine List.forall_mem_singleton.2 (.of_operands rfl rfl (List.forall_mem_singleton.2 ?_))
    exact .of_operands rfl rfl (List.forall_mem_singleton.2 (hident "x"))
  obtain ⟨htrees, -, -⟩ := only_calls_run_forever (w := w) hs hacyclic ⟨0⟩
  exact ⟨hs, hacyclic, hcallFree, htrees n hcallFree, _, rfl, rfl⟩

end Sigil
