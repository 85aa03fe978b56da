import Sigil.Proofs.Host

/-!
# Tracing does not influence execution

`Eval.visible` is what is left of the end of a computation when nobody looks at the trace: its
result, the store and what was put out. A computation that ignores the log has the same visible end
whatever the log is like, its level included. That is a law of evaluation, so programs, trees, calls
and whole sequences of requests to a session do the same at every level of tracing.
-/

namespace Sigil

namespace Eval

variable {α β : Type}

/-- **What is visible of the end of a computation** without its trace: the result or the reason to
stop, the store, and what has been put out. -/
def visible : EStateM.Result Stop World α → Except Stop α × Store × Array Printed
  | .ok a w => (.ok a, w.store, w.printed)
  | .error stop w => (.error stop, w.store, w.printed)

/-- Ends that look the same differ in the log only. -/
private theorem exists_of_visible_eq {r r' : EStateM.Result Stop World α}
    (h : visible r = visible r') :
    ∃ store printed log log',
      (∃ a, r = .ok a ⟨store, printed, log⟩ ∧ r' = .ok a ⟨store, printed, log'⟩) ∨
        ∃ stop, r = .error stop ⟨store, printed, log⟩ ∧
          r' = .error stop ⟨store, printed, log'⟩ := by
  rcases r with ⟨a, store, printed, log⟩ | ⟨stop, store, printed, log⟩ <;>
    rcases r' with ⟨a', store', printed', log'⟩ | ⟨stop', store', printed', log'⟩ <;> cases h
  · exact ⟨_, _, _, _, .inl ⟨_, rfl, rfl⟩⟩
  · exact ⟨_, _, _, _, .inr ⟨_, rfl, rfl⟩⟩

/-- A computation **ignores the log**: what is visible of its end is the same for any two logs. -/
structure IgnoresLog (post : α → Prop) (x : Eval α) : Prop where
  /-- The same is visible. -/
  visible_eq : ∀ store printed log log',
    visible (x ⟨store, printed, log⟩) = visible (x ⟨store, printed, log'⟩)
  /-- What is known of the results. -/
  result : ∀ w a w', x w = .ok a w' → post a

namespace IgnoresLog

private theorem pure {post : α → Prop} {a : α} (h : post a) :
    IgnoresLog post (pure a : Eval α) where
  visible_eq _ _ _ _ := rfl
  result _ _ _ hresult := by
    cases hresult
    exact h

private theorem throw {post : α → Prop} (stop : Stop) : IgnoresLog post (throw stop : Eval α) where
  visible_eq _ _ _ _ := rfl
  result _ _ _ hresult := by cases hresult

/-- What is done after two runs of `x` starts from worlds that differ in the log only. -/
theorem bind {post : α → Prop} {post' : β → Prop} {x : Eval α} {f : α → Eval β}
    (hx : IgnoresLog post x) (hf : ∀ a, post a → IgnoresLog post' (f a)) :
    IgnoresLog post' (x >>= f) where
  visible_eq store printed log log' := by
    simp only [Bind.bind, EStateM.bind]
    obtain ⟨store', printed', l, l', ⟨a, hrun, hrun'⟩ | ⟨stop, hrun, hrun'⟩⟩ :=
      exists_of_visible_eq (hx.visible_eq store printed log log')
    · rw [hrun, hrun']
      exact (hf a (hx.result _ _ _ hrun)).visible_eq _ _ _ _
    · rw [hrun, hrun']
      rfl
  result w b w' hresult := by
    obtain ⟨a, w₁, hrun, hrest⟩ := exists_of_bind_eq_ok hresult
    exact (hf a (hx.result _ _ _ hrun)).result _ _ _ hrest

/-- An attempt makes a result of how the computation ended, which is visible. -/
private theorem attempt {x : Eval α} (hx : IgnoresLog (fun _ => True) x) :
    IgnoresLog (fun _ => True) (attempt x) where
  visible_eq store printed log log' := by
    simp only [Eval.attempt]
    obtain ⟨store', printed', l, l', ⟨a, hrun, hrun'⟩ | ⟨stop, hrun, hrun'⟩⟩ :=
      exists_of_visible_eq (hx.visible_eq store printed log log')
    · rw [hrun, hrun']
      rfl
    · rw [hrun, hrun']
      rfl
  result _ _ _ _ := trivial

/-- A computation that does the same to the store whatever the log is. -/
private theorem of_visible_eq {x : Eval α}
    (h : ∀ store printed log log',
      visible (x ⟨store, printed, log⟩) = visible (x ⟨store, printed, log'⟩)) :
    IgnoresLog (fun _ => True) x where
  visible_eq := h
  result _ _ _ _ := trivial

/-- An event is taken or not, and in both cases only the log changes. -/
private theorem note (event : TraceEvent) : IgnoresLog (fun _ => True) (note event) := by
  have hvisible (store : Store) (printed : Array Printed) (log : Log) :
      visible (Eval.note event ⟨store, printed, log⟩) = (.ok (), store, printed) := by
    simp only [Eval.note]
    split <;> rfl
  exact of_visible_eq fun store printed log log' =>
    (hvisible store printed log).trans (hvisible store printed log').symm

/-- Whether there is something to assign to depends on the store. -/
private theorem assign (scope : ScopeRef) (name : String) (value : Value) :
    IgnoresLog (fun _ => True) (assign scope name value) := by
  refine of_visible_eq fun store printed log log' => ?_
  simp only [Eval.assign, Bind.bind, EStateM.bind, read]
  cases store.target scope name <;> rfl

end IgnoresLog

end Eval

open Eval

/-- **Ignoring the log is a law of evaluation.** -/
def Law.ignoresLog : SessionLaw (fun _ => True) where
  Holds := IgnoresLog
  of_pure := .pure
  of_bind := .bind
  of_throw := .throw
  of_attempt := .attempt
  of_read _ := .of_visible_eq fun _ _ _ _ => rfl
  of_newScope _ := .of_visible_eq fun _ _ _ _ => rfl
  of_define _ _ _ _ := .of_visible_eq fun _ _ _ _ => rfl
  of_defineSpace _ _ _ _ := .of_visible_eq fun _ _ _ _ => rfl
  of_assign := .assign
  of_newArray _ := .of_visible_eq fun _ _ _ _ => rfl
  of_newObject _ := .of_visible_eq fun _ _ _ _ => rfl
  of_newFunction _ := .of_visible_eq fun _ _ _ _ => rfl
  of_push _ _ := .of_visible_eq fun _ _ _ _ => rfl
  of_pop _ := .of_visible_eq fun _ _ _ _ => rfl
  of_note event _ := .note event
  of_emit _ := .bind (.note _) fun _ _ => .of_visible_eq fun _ _ _ _ => rfl
  of_changeLog _ := .of_visible_eq fun _ _ _ _ => rfl

/-! ### Sessions -/

/-- What is visible of a session: it starts with variables at a level of tracing, where a text may
stand in the trace file, and then serves a host, which is given the outermost scope. -/
def Session.visible (fuel level : Nat) (earlier : Option String) (given : List (String × Json))
    (host : ScopeRef → Host) :
    Except Stop (Except Stop (List (Except Stop Answer)) × Store × Array Printed) :=
  (Session.start level earlier given).map fun session =>
    Eval.visible ((host session.globals).serve fuel session.world)

/-- Sessions that start at different levels differ in the log only. -/
private theorem Session.start_cases (level level' : Nat) (earlier earlier' : Option String)
    (given : List (String × Json)) :
    (∃ store printed log log' globals,
      Session.start level earlier given = .ok ⟨⟨store, printed, log⟩, globals⟩ ∧
        Session.start level' earlier' given = .ok ⟨⟨store, printed, log'⟩, globals⟩) ∨
      ∃ stop, Session.start level earlier given = .error stop ∧
        Session.start level' earlier' given = .error stop := by
  have hsetup : Law.ignoresLog.Obeys (Session.setup given) :=
    Law.ignoresLog.holds_newGlobals.bind fun scope =>
      (Law.ignoresLog.obeys_defineVariables trivial given).bind fun _ =>
        Law.ignoresLog.obeys_pure scope
  obtain ⟨store, printed, log, log', ⟨globals, hrun, hrun'⟩ | ⟨stop, hrun, hrun'⟩⟩ :=
    exists_of_visible_eq (hsetup.visible_eq .empty #[] (.fresh level earlier)
      (.fresh level' earlier'))
  · refine .inl ⟨store, printed, log, log', globals, ?_, ?_⟩
    · simp only [Session.start_eq, Session.emptyWorld, hrun]
    · simp only [Session.start_eq, Session.emptyWorld, hrun']
  · refine .inr ⟨stop, ?_, ?_⟩
    · simp only [Session.start_eq, Session.emptyWorld, hrun]
    · simp only [Session.start_eq, Session.emptyWorld, hrun']

/-- **Tracing does not influence execution.** Running a program, evaluating a tree, calling a value
and serving a host have the same visible end whatever the log is, for every bound on the nesting:
the same result or reason to stop, the same store and the same output in the same order. So whole
sessions look the same at all levels of tracing. -/
theorem visible_eq_of_logs (fuel : Nat) :
    (∀ store printed log log',
      (∀ program scope,
        visible (runProgram fuel program scope ⟨store, printed, log⟩) =
          visible (runProgram fuel program scope ⟨store, printed, log'⟩)) ∧
      (∀ n scope,
        visible (evalWithin fuel n scope ⟨store, printed, log⟩) =
          visible (evalWithin fuel n scope ⟨store, printed, log'⟩)) ∧
      (∀ f args,
        visible (callWithin fuel f args ⟨store, printed, log⟩) =
          visible (callWithin fuel f args ⟨store, printed, log'⟩)) ∧
      ∀ host : Host,
        visible (host.serve fuel ⟨store, printed, log⟩) =
          visible (host.serve fuel ⟨store, printed, log'⟩)) ∧
    ∀ level level' earlier earlier' given host,
      Session.visible fuel level earlier given host =
        Session.visible fuel level' earlier' given host := by
  have hserve (host : Host) := Law.ignoresLog.obeys_serve (fun _ => trivial) fuel host
  refine ⟨fun store printed log log' => ⟨fun program scope => ?_, fun n scope => ?_,
    fun f args => ?_, fun host => ?_⟩, fun level level' earlier earlier' given host => ?_⟩
  · exact (Law.ignoresLog.obeys_runProgram fuel program trivial).visible_eq _ _ _ _
  · exact ((Law.ignoresLog.obeys_within fuel).1 n scope (.inl trivial)).visible_eq _ _ _ _
  · exact ((Law.ignoresLog.obeys_within fuel).2 f args).visible_eq _ _ _ _
  · exact (hserve host).visible_eq _ _ _ _
  · rcases Session.start_cases level level' earlier earlier' given with
      ⟨store, printed, log, log', globals, hstart, hstart'⟩ | ⟨stop, hstart, hstart'⟩
    · simp only [Session.visible, hstart, hstart', Except.map]
      rw [(hserve (host globals)).visible_eq store printed log log']
    · simp only [Session.visible, hstart, hstart']

end Sigil
