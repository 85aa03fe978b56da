import Sigil.Proofs.Safety.Run
import Sigil.Proofs.Trace.Messages

/-!
# The life of the trace file

What a request says is what it would say to the error stream if there were no trace file
(`Request.messages`). In a session that traces, a run says all of it to the file and any other
request all of it to the error stream (`Request.log_after`), so after any requests, whichever of
them failed, the file is closed and holds what the runs have said. What stood in it before the
session is there until the first run and discarded by it.
-/

namespace Sigil

open Eval

/-! ### What requests say -/

/-- What a computation says to the error stream while there is no trace file. -/
def Eval.spoken {α : Type} (x : Eval α) (w : World) : List TraceLine :=
  (worldAfter (x { w with log := .fresh w.log.level none })).log.errors.toList

/-- What a request says: a run what its program says. -/
def Request.messages (fuel : Nat) (request : Request) (w : World) : List TraceLine :=
  match request with
  | .run (.program body) scope => spoken (tellProgram fuel body scope) w
  | request => spoken (request.perform fuel) w

/-- What requests say that are performed one after another. -/
def World.journal (fuel : Nat) : List Request → World → List (Request × List TraceLine)
  | [], _ => []
  | request :: rest, w =>
    (request, request.messages fuel w) :: (request.after fuel w).journal fuel rest

/-- A request that runs no tree but a program. -/
def Request.RunsPrograms : Request → Prop
  | .run program _ => ∃ body, program = .program body
  | _ => True

/-- What is said to a closed log is the same that is said to any other. -/
private theorem spoken_eq {α : Type} {x : Eval α} {w : World} {t : Telling α}
    (h : ∀ printed log, x ⟨w.store, printed, log⟩ = t.ending printed log) :
    spoken x w = w.log.within t.lines := by
  rw [spoken, h, Telling.worldAfter_ending, Log.record_of_isClosed _ _ rfl]
  simp only [Log.fresh, Array.empty_append, List.toList_toArray]
  rfl

/-! ### One request -/

/-- The log takes what a run says into the file, where the first run discards what was there before,
and what any other request says into the error stream. -/
def Log.taking (log : Log) (request : Request) (lines : List TraceLine) : Log :=
  if request.isRun then
    { log with
      earlier := if log.file.isSome then log.earlier else none
      file := some (log.file.getD #[] ++ lines.toArray) }
  else { log with errors := log.errors ++ lines.toArray }

/-- A file that is opened, told lines and closed has taken what is within the level. -/
private theorem Log.closeFile_record_openFile {log : Log} (hlevel : 0 < log.level)
    (hclosed : log.isOpen = false) (lines : List TraceLine) :
    (log.openFile.record lines).closeFile =
      { log with
        earlier := if log.file.isSome then log.earlier else none
        file := some (log.file.getD #[] ++ (log.within lines).toArray) } := by
  have hopen : log.openFile =
      { log with
        earlier := if log.file.isSome then log.earlier else none
        file := some (log.file.getD #[])
        isOpen := true } := by
    cases hfile : log.file <;> simp [openFile, hlevel, hclosed, hfile]
  rw [hopen, Log.record_of_isOpen _ _ rfl rfl]
  simp [closeFile, fileLines, within, hclosed]

private theorem worldAfter_bind_pure {α β : Type} (x : Eval α) (f : α → β) (w : World) :
    worldAfter ((do return f (← x)) w) = worldAfter (x w) := by
  simp only [Bind.bind, EStateM.bind]
  cases x w <;> rfl

/-- **What a request says goes to one place**: into the trace file if it is a run, which leaves the
file closed, and into the error stream otherwise. -/
theorem Request.log_after (fuel : Nat) {request : Request} (h : request.RunsPrograms) {w : World}
    (hlevel : 0 < w.log.level) (hclosed : w.log.isOpen = false) :
    (request.after fuel w).log = w.log.taking request (request.messages fuel w) := by
  cases hrun : request.isRun with
  | true =>
    cases request with
    | run program scope =>
      obtain ⟨body, rfl⟩ := h
      obtain ⟨t, ht, -, -⟩ := tells_tellProgram fuel body scope w.store
      have hworld := worldAfter_runProgram fuel body scope ht w.printed w.log
      rw [Request.messages, spoken_eq ht, Request.after, Request.perform, worldAfter_bind_pure,
        hworld]
      exact Log.closeFile_record_openFile hlevel hclosed t.lines
    | _ => cases hrun
  | false =>
    obtain ⟨t, ht, -, -⟩ := Law.tells.obeys_perform (fun _ => trivial) fuel hrun w.store
    have hmessages : request.messages fuel w = w.log.within t.lines := by
      rw [← spoken_eq ht]
      cases request with
      | run => cases hrun
      | _ => rfl
    rw [hmessages, Request.after, ht, Telling.worldAfter_ending, Log.taking, hrun]
    exact w.log.record_of_isClosed t.lines hclosed

/-! ### The start of a session -/

/-- A computation **leaves the log** as it is. -/
def Eval.LeavesLog {α : Type} (x : Eval α) : Prop :=
  ∀ w, (worldAfter (x w)).log = w.log

namespace Eval.LeavesLog

variable {α β : Type}

private theorem pure (a : α) : LeavesLog (pure a : Eval α) :=
  fun _ => rfl

theorem bind {x : Eval α} {f : α → Eval β} (hx : LeavesLog x) (hf : ∀ a, LeavesLog (f a)) :
    LeavesLog (x >>= f) := by
  intro w
  have hw := hx w
  simp only [Bind.bind, EStateM.bind]
  cases hrun : x w with
  | ok a w' =>
    rw [hrun] at hw
    exact (hf a w').trans hw
  | error stop w' => rwa [hrun] at hw

private theorem forM {f : α → Eval PUnit} (h : ∀ a, LeavesLog (f a)) (xs : List α) :
    LeavesLog (xs.forM f) := by
  induction xs with
  | nil => exact .pure _
  | cons x xs ih => exact (h x).bind fun _ => ih

private theorem plainValue (data : Json) : LeavesLog (plainValue data) :=
  fun w => ((ContainerLaw.frame.obeys_plainValue data).frames w).log

private theorem defineVariables (scope : ScopeRef) (given : List (String × Json)) :
    LeavesLog (defineVariables scope given) := by
  induction given with
  | nil => exact .pure _
  | cons entry rest ih =>
    exact (plainValue entry.2).bind fun _ => bind (fun _ => rfl) fun _ => ih

private theorem defineMember (scope : ScopeRef) (name : String) (member : LibraryMember) :
    LeavesLog (defineMember scope name member) := by
  cases member <;> exact fun _ => rfl

private theorem newGlobals : LeavesLog Session.newGlobals := by
  refine bind (fun _ => rfl) fun scope => bind (bind (forM (fun space => ?_) library) fun _ =>
    defineMember scope _ _) fun _ => .pure _
  exact bind (fun _ => rfl) fun inner => bind (forM (fun member => defineMember inner _ _) _)
    fun _ _ => rfl

end Eval.LeavesLog

/-- Nothing is said when a session starts. -/
private theorem log_of_start {level : Nat} {earlier : Option String} {given : List (String × Json)}
    {start : Session} (h : Session.start level earlier given = .ok start) :
    start.world.log = .fresh level earlier := by
  have hsetup : LeavesLog (Session.setup given) :=
    LeavesLog.newGlobals.bind fun scope =>
      (LeavesLog.defineVariables scope given).bind fun _ => .pure scope
  have hlog := hsetup (Session.emptyWorld level earlier)
  rwa [Session.setup_of_start h] at hlog

/-! ### Sessions -/

/-- What has been said in runs, or by all other requests. -/
def linesOf (isRun : Bool) (journal : List (Request × List TraceLine)) : List TraceLine :=
  (journal.filter fun entry => entry.1.isRun == isRun).flatMap Prod.snd

private theorem linesOf_concat (isRun : Bool) (journal : List (Request × List TraceLine))
    (request : Request) (lines : List TraceLine) :
    linesOf isRun (journal ++ [(request, lines)]) =
      linesOf isRun journal ++ if request.isRun == isRun then lines else [] := by
  rw [linesOf, List.filter_append, List.flatMap_append, List.filter_cons, List.filter_nil]
  congr 1
  split <;> simp

private theorem linesOf_true_eq_nil {journal : List (Request × List TraceLine)}
    (h : ¬ journal.any (·.1.isRun) = true) : linesOf true journal = [] := by
  have hnone : (journal.filter fun entry => entry.1.isRun == true) = [] := by
    simpa using h
  rw [linesOf, hnone, List.flatMap_nil]

/-- **The trace of a session** by its journal: the file is closed, and from the first run on it
holds what the runs have said and nothing from before the session; all else has been said to the
error stream. -/
structure Log.TellsApart (earlier : Option String) (journal : List (Request × List TraceLine))
    (log : Log) : Prop where
  isClosed : log.isOpen = false
  earlier_eq : log.earlier = if journal.any (·.1.isRun) then none else earlier
  file_eq : log.file =
    if journal.any (·.1.isRun) then some (linesOf true journal).toArray else none
  errors_eq : log.errors = (linesOf false journal).toArray

private theorem Log.tellsApart_fresh (level : Nat) (earlier : Option String) :
    (fresh level earlier).TellsApart earlier [] :=
  ⟨rfl, rfl, rfl, rfl⟩

/-- One more request is taken to its place. -/
private theorem Log.TellsApart.taking {earlier : Option String}
    {journal : List (Request × List TraceLine)} {log : Log} (h : log.TellsApart earlier journal)
    (request : Request) (lines : List TraceLine) :
    (log.taking request lines).TellsApart earlier (journal ++ [(request, lines)]) := by
  obtain ⟨hclosed, hearlier, hfile, herrors⟩ := h
  cases hrun : request.isRun with
  | true =>
    have hlines : log.file.getD #[] = (linesOf true journal).toArray := by
      rw [hfile]
      split
      · rfl
      · rename_i hnone
        rw [linesOf_true_eq_nil hnone]
        rfl
    have htaking : log.taking request lines =
        { log with
          earlier := if log.file.isSome then log.earlier else none
          file := some (log.file.getD #[] ++ lines.toArray) } := if_pos hrun
    -- if the file is there, there was a run, which has discarded what was in it
    have hdiscarded : (if log.file.isSome then log.earlier else none) = none := by
      rw [hearlier, hfile]
      split <;> simp_all
    rw [htaking, hdiscarded]
    refine ⟨hclosed, ?_, ?_, ?_⟩
    · simp [hrun]
    · simp [linesOf_concat, hrun, hlines]
    · simp [linesOf_concat, hrun, herrors]
  | false =>
    have htaking : log.taking request lines =
        { log with errors := log.errors ++ lines.toArray } := if_neg (by simp [hrun])
    have hany : (journal ++ [(request, lines)]).any (·.1.isRun) = journal.any (·.1.isRun) := by
      simp [List.any_append, hrun]
    rw [htaking]
    refine ⟨hclosed, ?_, ?_, ?_⟩
    · rw [hany, hearlier]
    · rw [hany, linesOf_concat, hrun, hfile]
      simp
    · simp [linesOf_concat, hrun, herrors]

/-- The text of messages, each ended by a line feed. -/
def messageText (lines : List TraceLine) : String :=
  String.join (lines.map fun line => line.text ++ "\n")

private theorem Log.textOf_toArray (lines : List TraceLine) :
    textOf lines.toArray = messageText lines := by
  have hfold (start : String) : lines.foldl (fun text line => text ++ line.text ++ "\n") start =
      start ++ messageText lines := by
    induction lines generalizing start with
    | nil => simp [messageText]
    | cons line lines ih =>
      rw [List.foldl_cons, ih]
      simp [messageText, String.append_assoc]
  rw [textOf, List.foldl_toArray, hfold, String.empty_append]

/-- After any requests the log tells apart what they have said. -/
private theorem World.tellsApart_after (fuel : Nat) {requests : List Request}
    (h : ∀ request ∈ requests, request.RunsPrograms) {w : World} (hlevel : 0 < w.log.level)
    {earlier : Option String} {journal : List (Request × List TraceLine)}
    (hlog : w.log.TellsApart earlier journal) :
    (w.after fuel requests).log.TellsApart earlier (journal ++ w.journal fuel requests) := by
  induction requests generalizing w journal with
  | nil => simpa [World.after, World.journal] using hlog
  | cons request rest ih =>
    rw [List.forall_mem_cons] at h
    have hafter := request.log_after fuel h.1 hlevel hlog.isClosed
    have hnext : (request.after fuel w).log.TellsApart earlier
        (journal ++ [(request, request.messages fuel w)]) := by
      rw [hafter]
      exact hlog.taking request _
    have hlevel' : 0 < (request.after fuel w).log.level := by
      rw [hafter, Log.taking]
      split <;> exact hlevel
    have hrest := ih h.2 hlevel' hnext
    rwa [List.append_assoc] at hrest

private theorem World.any_journal (fuel : Nat) (requests : List Request) (w : World) :
    ((w.journal fuel requests).any fun entry => entry.1.isRun) = requests.any Request.isRun := by
  induction requests generalizing w with
  | nil => rfl
  | cons request rest ih => rw [World.journal, List.any_cons, List.any_cons, ih]

/-- **The trace file holds what the runs have said.** Take any session that traces and any requests
to it, whichever of them fail. Afterwards the file is closed. If there has been a run, it holds the
messages of all runs in order, each ended by a line feed, and nothing else; before the first run
what was there earlier is left as it was. The messages of all other requests are on the error
stream, and there is nothing else on it. -/
theorem trace_file_holds_run_messages (fuel : Nat) {level : Nat} (hlevel : 0 < level)
    {earlier : Option String} {given : List (String × Json)} {start : Session}
    (hstart : Session.start level earlier given = .ok start) {requests : List Request}
    (hrequests : ∀ request ∈ requests, request.RunsPrograms) :
    (start.world.after fuel requests).log.isOpen = false ∧
      (start.world.after fuel requests).log.fileText =
        (if requests.any Request.isRun then
          some (messageText (linesOf true (start.world.journal fuel requests)))
        else earlier) ∧
      Log.textOf (start.world.after fuel requests).log.errors =
        messageText (linesOf false (start.world.journal fuel requests)) := by
  have hlog := log_of_start hstart
  have hlevel' : 0 < start.world.log.level := by
    rw [hlog]
    exact hlevel
  have hfresh : start.world.log.TellsApart earlier [] := by
    rw [hlog]
    exact Log.tellsApart_fresh level earlier
  obtain ⟨hclosed, hearlier, hfile, herrors⟩ :=
    World.tellsApart_after fuel hrequests hlevel' hfresh
  rw [List.nil_append] at hearlier hfile herrors
  rw [World.any_journal] at hearlier hfile
  refine ⟨hclosed, ?_, ?_⟩
  · rw [Log.fileText, hfile, hearlier]
    cases requests.any Request.isRun with
    | true => simp [Log.textOf_toArray]
    | false => rfl
  · rw [herrors, Log.textOf_toArray]

/-- A host evaluates, runs a program that fails, declares what was missing and runs again. -/
theorem trace_file_holds_run_messages_failing :
    let requests : List Request :=
      [.evaluate (.output (.text "a")) ⟨0⟩,
        .run (.program [.output (.text "b"), .output (.ident "x")]) ⟨0⟩,
        .define ⟨0⟩ "x" .null true, .run (.program [.output (.ident "x")]) ⟨0⟩]
    ∃ start, 0 < 1 ∧ Session.start 1 (some "earlier") [] = .ok start ∧
      (∀ request ∈ requests, request.RunsPrograms) ∧
      start.world.log.fileText = some "earlier" ∧
      (start.world.after 9 requests).log.fileText = some
        "run program (2 statements)\nout b\nrun program (1 statements)\nout _\nfinished -> _\n" ∧
      (start.world.after 9 requests).log.isOpen = false ∧
      (start.world.after 9 requests).log.fileText =
        some (messageText (linesOf true (start.world.journal 9 requests))) ∧
      Log.textOf (start.world.after 9 requests).log.errors =
        messageText (linesOf false (start.world.journal 9 requests)) := by
  intro requests
  obtain ⟨start, hstart, -⟩ := exists_start 1 (some "earlier") (List.forall_mem_nil _)
  have hrequests : ∀ request ∈ requests, request.RunsPrograms := by
    simp [requests, Request.RunsPrograms]
  have hbefore : start.world.log.fileText = some "earlier" := by
    rw [log_of_start hstart]
    rfl
  have hafter : (match Session.start 1 (some "earlier") [] with
      | .ok start => (start.world.after 9 requests).log.fileText
      | .error _ => none) = some
      "run program (2 statements)\nout b\nrun program (1 statements)\nout _\nfinished -> _\n" := by
    decide +kernel
  rw [hstart] at hafter
  exact ⟨start, by decide, hstart, hrequests, hbefore, hafter,
    trace_file_holds_run_messages 9 (by decide) hstart hrequests⟩

end Sigil
