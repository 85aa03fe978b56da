import Sigil.Proofs.Host

/-!
# What evaluations say

The messages of an evaluation do not depend on the log that takes them: for every store there is one
list of lines, and each log takes those that are within its level (`Eval.Tells`). All lines are
lines of events, so a message shows its level by its first words (`messageLevel_text`), and the
messages about output are those of the values that are put out, one for each and in the same order.
This is a law of evaluation (`Law.tells`). A run is an evaluation that is told to the trace file,
which is opened before it and closed after it (`worldAfter_runProgram`).
-/

namespace Sigil

/-! ### Messages -/

/-- Whether a text opens with another one. -/
def opensWith (opening text : String) : Bool :=
  opening.toList.isPrefixOf text.toList

/-- The level of a message, by its first words. -/
def messageLevel (message : String) : Nat :=
  if opensWith "declare " message then 2
  else if opensWith "if condition " message || opensWith "loop iteration " message ||
    opensWith "call " message then 3
  else 1

/-- Whether a message is about output. -/
def isOutputMessage (message : String) : Bool :=
  opensWith "out " message

namespace TraceEvent

/-- The line of an event. -/
def line (s : Store) (event : TraceEvent) : TraceLine :=
  ⟨event.level, event.text s⟩

/-- The first words of the text of an event. -/
def opening : TraceEvent → String
  | .runStarted _ => "run program ("
  | .topLevelReturn => "top-level return"
  | .runFinished _ => "finished -> "
  | .printed _ => "out "
  | .declaredFunction _ => "declare function "
  | .declaredSpace _ => "declare namespace "
  | .declaredMember .. | .declaredVariable .. => "declare "
  | .condition _ => "if condition -> "
  | .iteration .. => "loop iteration "
  | .calledNative _ | .calledClosure .. => "call "

private theorem exists_text_eq (s : Store) (event : TraceEvent) :
    ∃ rest, event.text s = event.opening ++ rest := by
  delta text
  cases event with
  | topLevelReturn => exact ⟨"", rfl⟩
  | runStarted | declaredMember | declaredVariable | iteration | calledClosure =>
    dsimp only [opening]
    simp only [String.append_assoc]
    exact ⟨_, rfl⟩
  | _ => exact ⟨_, rfl⟩

/-- **A message shows its level**: the first words of the text of an event tell its level. -/
theorem messageLevel_text (s : Store) (event : TraceEvent) :
    messageLevel (event.text s) = event.level := by
  obtain ⟨rest, hrest⟩ := event.exists_text_eq s
  rw [hrest]
  cases event <;> simp [opening, level, messageLevel, opensWith, List.isPrefixOf]

private theorem isOutputMessage_text (s : Store) (event : TraceEvent) :
    isOutputMessage (event.text s) = event.isOutput := by
  obtain ⟨rest, hrest⟩ := event.exists_text_eq s
  rw [hrest]
  cases event <;> simp [opening, isOutput, isOutputMessage, opensWith, List.isPrefixOf]

theorem level_le_three (event : TraceEvent) : event.level ≤ 3 := by
  cases event <;> simp [level]

end TraceEvent

/-- The line of a value that has been put out. -/
def Printed.line (p : Printed) : TraceLine :=
  ⟨1, "out " ++ p.datum.text⟩

/-! ### Logs -/

namespace Log

/-- The lines of the trace file, none if it has never been opened. -/
def fileLines (log : Log) : List TraceLine :=
  (log.file.getD #[]).toList

/-- Those of the lines that are within the level of the log. -/
def within (log : Log) (lines : List TraceLine) : List TraceLine :=
  lines.filter fun line => line.level ≤ log.level

/-- Takes those of the lines that are within the level of the log. -/
def record (lines : List TraceLine) (log : Log) : Log :=
  (log.within lines).foldl (fun log line => log.add line) log

variable (log : Log) (line : TraceLine) (lines more : List TraceLine)

@[simp]
theorem level_add : (log.add line).level = log.level := by
  rcases log with ⟨level, earlier, file, _ | _, errors⟩ <;> rfl

private theorem level_foldl_add :
    (lines.foldl (fun log line => log.add line) log).level = log.level := by
  induction lines generalizing log with
  | nil => rfl
  | cons line lines ih => rw [List.foldl_cons, ih, level_add]

@[simp]
theorem record_nil : log.record [] = log :=
  rfl

theorem record_append : log.record (lines ++ more) = (log.record lines).record more := by
  simp only [record, within, List.filter_append, List.foldl_append, level_foldl_add]

theorem record_singleton :
    log.record [line] = if line.level ≤ log.level then log.add line else log := by
  simp only [record, within, List.filter_cons, List.filter_nil, decide_eq_true_eq]
  split <;> rfl

/-- An open file takes the lines. -/
theorem record_of_isOpen (hopen : log.isOpen = true) (hfile : log.file.isSome) :
    log.record lines =
      { log with file := some (log.fileLines ++ log.within lines).toArray } := by
  have hfold (taken : List TraceLine) :
      taken.foldl (fun log line => log.add line) log =
        { log with file := some (log.fileLines ++ taken).toArray } := by
    rcases log with ⟨level, earlier, file, _, errors⟩
    cases hopen
    obtain ⟨file, rfl⟩ := Option.isSome_iff_exists.1 hfile
    induction taken generalizing file with
    | nil => simp [fileLines]
    | cons line taken ih =>
      refine (ih (file.push line) rfl).trans ?_
      simp [fileLines]
  exact hfold _

/-- The error stream takes the lines while no file is open. -/
theorem record_of_isClosed (hclosed : log.isOpen = false) :
    log.record lines = { log with errors := log.errors ++ (log.within lines).toArray } := by
  have hfold (taken : List TraceLine) :
      taken.foldl (fun log line => log.add line) log =
        { log with errors := log.errors ++ taken.toArray } := by
    rcases log with ⟨level, earlier, file, _, errors⟩
    cases hclosed
    induction taken generalizing errors with
    | nil => simp
    | cons line taken ih =>
      refine (ih (errors.push line)).trans ?_
      simp
  exact hfold _

end Log

/-! ### Tellings -/

/-- **What comes of a computation**, whatever log it is told to: how it ends, the store that it
leaves, the lines that it says and the values that it puts out. -/
structure Telling (α : Type) where
  /-- How it ends. -/
  result : Except Stop α
  /-- The store that it leaves. -/
  store : Store
  /-- The lines that it says, of all levels. -/
  lines : List TraceLine
  /-- The values that it puts out. -/
  printed : List Printed

namespace Telling

variable {α β : Type}

/-- The end of the computation, after what has been put out before and told to a log. -/
def ending (t : Telling α) (printed : Array Printed) (log : Log) : EStateM.Result Stop World α :=
  match t.result with
  | .ok a => .ok a ⟨t.store, printed ++ t.printed.toArray, log.record t.lines⟩
  | .error stop => .error stop ⟨t.store, printed ++ t.printed.toArray, log.record t.lines⟩

/-- The lines are those of events, and the ones about output are those of the values that are put
out. -/
structure Faithful (t : Telling α) : Prop where
  events : ∀ line ∈ t.lines, ∃ s event, line = TraceEvent.line s event
  outputs : (t.lines.filter fun line => isOutputMessage line.text) = t.printed.map Printed.line

/-- A computation that ends at once and says nothing. -/
def silent (result : Except Stop α) (store : Store) : Telling α :=
  ⟨result, store, [], []⟩

theorem faithful_silent (result : Except Stop α) (store : Store) : (silent result store).Faithful :=
  ⟨List.forall_mem_nil _, rfl⟩

private theorem ending_silent (result : Except Stop α) (store : Store) (printed : Array Printed)
    (log : Log) :
    (silent result store).ending printed log =
      match result with
      | .ok a => .ok a ⟨store, printed, log⟩
      | .error stop => .error stop ⟨store, printed, log⟩ := by
  cases result <;> simp [silent, ending]

/-- What comes of a computation after another one has said and put out something. -/
def after (t : Telling β) (lines : List TraceLine) (printed : List Printed) : Telling β :=
  ⟨t.result, t.store, lines ++ t.lines, printed ++ t.printed⟩

private theorem ending_after (t : Telling β) (lines : List TraceLine) (fresh : List Printed)
    (printed : Array Printed) (log : Log) :
    (t.after lines fresh).ending printed log =
      t.ending (printed ++ fresh.toArray) (log.record lines) := by
  simp [after, ending, Log.record_append]

private theorem Faithful.after {t : Telling β} (h : t.Faithful) {first : Telling α}
    (hfirst : first.Faithful) : (t.after first.lines first.printed).Faithful where
  events line hline := (List.mem_append.1 hline).elim (hfirst.events line) (h.events line)
  outputs := by
    rw [Telling.after, List.filter_append, List.map_append, hfirst.outputs, h.outputs]

end Telling

namespace Eval

variable {α β : Type}

/-- A computation **tells one thing**: what comes of it is the same for every log, and the lines it
says are faithful. -/
def Tells (post : α → Prop) (x : Eval α) : Prop :=
  ∀ store, ∃ t : Telling α, (∀ printed log, x ⟨store, printed, log⟩ = t.ending printed log) ∧
    t.Faithful ∧ ∀ a, t.result = .ok a → post a

namespace Tells

private theorem of_silent {post : α → Prop} {x : Eval α}
    (h : ∀ store, ∃ result store', (∀ printed log, x ⟨store, printed, log⟩ =
      (Telling.silent result store').ending printed log) ∧ ∀ a, result = .ok a → post a) :
    Tells post x := by
  intro store
  obtain ⟨result, store', hx, hpost⟩ := h store
  exact ⟨.silent result store', hx, Telling.faithful_silent result store', hpost⟩

/-- A computation that says nothing and comes to a result. -/
private theorem of_eq_ok {x : Eval α} (f : Store → α × Store)
    (h : ∀ store printed log, x ⟨store, printed, log⟩ =
      .ok (f store).1 ⟨(f store).2, printed, log⟩) : Tells (fun _ => True) x :=
  of_silent fun store => ⟨.ok (f store).1, (f store).2, fun printed log => by
    rw [h, Telling.ending_silent], fun _ _ => trivial⟩

private theorem pure {post : α → Prop} {a : α} (h : post a) : Tells post (pure a : Eval α) :=
  of_silent fun store => ⟨.ok a, store, fun printed log => by
    rw [Telling.ending_silent]
    rfl, fun _ hresult => by
    cases hresult
    exact h⟩

private theorem throw {post : α → Prop} (stop : Stop) : Tells post (throw stop : Eval α) :=
  of_silent fun store => ⟨.error stop, store, fun printed log => by
    rw [Telling.ending_silent]
    rfl, fun _ hresult => nomatch hresult⟩

/-- What comes second is told after what came first. -/
theorem bind {post : α → Prop} {post' : β → Prop} {x : Eval α} {f : α → Eval β}
    (hx : Tells post x) (hf : ∀ a, post a → Tells post' (f a)) : Tells post' (x >>= f) := by
  intro store
  obtain ⟨first, hfirst, hfaithful, hpost⟩ := hx store
  cases hresult : first.result with
  | error stop =>
    refine ⟨⟨.error stop, first.store, first.lines, first.printed⟩, fun printed log => ?_,
      ⟨hfaithful.events, hfaithful.outputs⟩, fun _ h => nomatch h⟩
    simp only [Bind.bind, EStateM.bind, hfirst, Telling.ending, hresult]
  | ok a =>
    obtain ⟨t, ht, hfaithful', hpost'⟩ := hf a (hpost a hresult) first.store
    refine ⟨t.after first.lines first.printed, fun printed log => ?_,
      hfaithful'.after hfaithful, hpost'⟩
    rw [Telling.ending_after, ← ht]
    simp only [Bind.bind, EStateM.bind, hfirst, Telling.ending, hresult]

/-- To note an event is to record its line. -/
private theorem note_eq (event : TraceEvent) (store : Store) (printed : Array Printed) (log : Log) :
    Eval.note event ⟨store, printed, log⟩ =
      .ok () ⟨store, printed, log.record [event.line store]⟩ := by
  simp only [Eval.note, Log.record_singleton, TraceEvent.line]
  split <;> rfl

/-- An event that is not about output says one line. -/
private theorem note {event : TraceEvent} (h : event.isOutput = false) :
    Tells (fun _ => True) (note event) := by
  intro store
  refine ⟨⟨.ok (), store, [event.line store], []⟩, fun printed log => ?_, ⟨?_, ?_⟩,
    fun _ _ => trivial⟩
  · simp [note_eq, Telling.ending]
  · exact List.forall_mem_singleton.2 ⟨store, event, rfl⟩
  · simp [TraceEvent.line, TraceEvent.isOutputMessage_text, h]

/-- To put out a value says one line, which is the one about the value. -/
private theorem emit (v : Value) : Tells (fun _ => True) (emit v) := by
  intro store
  refine ⟨⟨.ok (), store, [TraceEvent.line store (.printed v)], [⟨v, store.view v⟩]⟩,
    fun printed log => ?_, ⟨?_, ?_⟩, fun _ _ => trivial⟩
  · simp [Eval.emit, Bind.bind, EStateM.bind, note_eq, Telling.ending]
  · exact List.forall_mem_singleton.2 ⟨store, .printed v, rfl⟩
  · have houtput : isOutputMessage (TraceEvent.text store (.printed v)) = true :=
      TraceEvent.isOutputMessage_text store (.printed v)
    simp only [TraceEvent.line, houtput, List.filter_cons, List.filter_nil, if_true]
    rfl

/-- Whether there is something to assign to depends on the store. -/
private theorem assign (scope : ScopeRef) (name : String) (value : Value) :
    Tells (fun _ => True) (assign scope name value) := by
  refine of_silent fun store => ?_
  cases htarget : store.target scope name with
  | ok cell =>
    refine ⟨.ok (), store.writeCell cell value, fun printed log => ?_, fun _ _ => trivial⟩
    rw [Telling.ending_silent]
    simp only [Eval.assign, Bind.bind, EStateM.bind, read, htarget]
    rfl
  | error e =>
    refine ⟨.error (.script (.scope e)), store, fun printed log => ?_, fun _ _ => trivial⟩
    rw [Telling.ending_silent]
    simp only [Eval.assign, Bind.bind, EStateM.bind, read, htarget]
    rfl

end Tells

end Eval

open Eval

/-- **To tell one thing is a law of evaluation.** -/
def Law.tells : Law (fun _ => True) where
  Holds := Tells
  of_pure := .pure
  of_bind := .bind
  of_throw := .throw
  of_read f := .of_eq_ok (fun s => (f s, s)) fun _ _ _ => rfl
  of_newScope parent := .of_eq_ok (Store.newScope parent) fun _ _ _ => rfl
  of_define _ _ _ _ := .of_eq_ok (fun s => ((), s.define _ _ _ _)) fun _ _ _ => rfl
  of_defineSpace _ _ _ _ := .of_eq_ok (fun s => ((), s.defineSpace _ _ _)) fun _ _ _ => rfl
  of_assign := .assign
  of_newArray items :=
    .of_eq_ok (fun s => (.arr (s.newArray items).1, (s.newArray items).2)) fun _ _ _ => rfl
  of_newObject fields :=
    .of_eq_ok (fun s => (.obj (s.newObject fields).1, (s.newObject fields).2)) fun _ _ _ => rfl
  of_newFunction f :=
    .of_eq_ok (fun s => (.fn (s.newFunction f).1, (s.newFunction f).2)) fun _ _ _ => rfl
  of_push r value := .of_eq_ok (fun s => ((), s.push r value)) fun _ _ _ => rfl
  of_pop r := .of_eq_ok (fun s => ((), s.pop r)) fun _ _ _ => rfl
  of_note _ h := .note h
  of_emit := .emit

/-! ### Runs -/

theorem Telling.worldAfter_ending {α : Type} (t : Telling α) (printed : Array Printed) (log : Log) :
    worldAfter (t.ending printed log) =
      ⟨t.store, printed ++ t.printed.toArray, log.record t.lines⟩ := by
  unfold ending
  split <;> rfl

/-- What a program says and does from its start to its end, wherever it is told. -/
def tellProgram (fuel : Nat) (body : List Node) (scope : ScopeRef) : Eval Value := do
  note (.runStarted body.length)
  runStatements fuel body scope

theorem tells_tellProgram (fuel : Nat) (body : List Node) (scope : ScopeRef) :
    Tells (fun _ => True) (tellProgram fuel body scope) :=
  (Law.tells.of_note _ (by rfl)).bind fun _ => Law.tells.obeys_runStatements fuel body trivial

/-- A run tells the program to the trace file: it opens the file before and closes it after. -/
theorem worldAfter_runProgram (fuel : Nat) (body : List Node) (scope : ScopeRef) {store : Store}
    {t : Telling Value}
    (ht : ∀ printed log, tellProgram fuel body scope ⟨store, printed, log⟩ = t.ending printed log)
    (printed : Array Printed) (log : Log) :
    worldAfter (runProgram fuel (.program body) scope ⟨store, printed, log⟩) =
      ⟨t.store, printed ++ t.printed.toArray, (log.openFile.record t.lines).closeFile⟩ := by
  have hworld : worldAfter (tellProgram fuel body scope ⟨store, printed, log.openFile⟩) =
      ⟨t.store, printed ++ t.printed.toArray, log.openFile.record t.lines⟩ := by
    rw [ht, Telling.worldAfter_ending]
  simp only [tellProgram, runProgram, Bind.bind, EStateM.bind, changeLog, Tells.note_eq,
    closingFile] at hworld ⊢
  cases hrun : runStatements fuel body scope
      ⟨store, printed, log.openFile.record [TraceEvent.line store (.runStarted body.length)]⟩ with
  | ok a w | error stop w =>
    rw [hrun] at hworld
    obtain rfl : w = _ := hworld
    rfl

end Sigil
