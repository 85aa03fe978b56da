import Sigil.Proofs.Trace.Messages

/-!
# Traces of different levels nest

A run says the same at every level of tracing, and its log takes what is within the level. So the
messages of a run at one level are those among its messages at the highest level that are of this
level or below, and the messages about output are one for each value that is put out.
-/

namespace Sigil

open Eval

/-! ### What a log has taken -/

namespace Log

/-- The lines that a log has taken since an earlier one, into the trace file and into the error
stream. -/
def since (old new : Log) : List TraceLine :=
  new.fileLines.drop old.fileLines.length ++ new.errors.toList.drop old.errors.size

variable (log : Log) (lines : List TraceLine)

private theorem openFile_eq :
    log.openFile.fileLines = log.fileLines ∧ log.openFile.errors = log.errors ∧
      log.openFile.level = log.level := by
  unfold openFile fileLines
  split
  · cases log.file <;> exact ⟨rfl, rfl, rfl⟩
  · exact ⟨rfl, rfl, rfl⟩

/-- An open file takes the lines, also if it is still to be made. -/
private theorem fileLines_record (hopen : log.isOpen = true) :
    (log.record lines).fileLines = log.fileLines ++ log.within lines ∧
      (log.record lines).errors = log.errors := by
  cases hfile : log.file with
  | some file =>
    rw [log.record_of_isOpen lines hopen (by rw [hfile]; rfl)]
    exact ⟨rfl, rfl⟩
  | none =>
    rcases log with ⟨level, earlier, _, _, errors⟩
    cases hopen
    cases hfile
    cases hwithin : within ⟨level, earlier, none, true, errors⟩ lines with
    | nil => simp [record, hwithin]
    | cons line rest =>
      -- a line that is taken makes the file, as if it had been there and empty
      have hrecord : record lines ⟨level, earlier, none, true, errors⟩ =
          record lines ⟨level, earlier, some #[], true, errors⟩ := by
        have hwithin' : within ⟨level, earlier, some #[], true, errors⟩ lines = line :: rest :=
          hwithin
        rw [record, record, hwithin, hwithin']
        rfl
      rw [hrecord, record_of_isOpen _ _ rfl rfl, ← hwithin]
      exact ⟨rfl, rfl⟩

/-- A log whose file is opened before and closed after has taken what is within its level. -/
private theorem since_record :
    log.since (log.openFile.record lines).closeFile = log.within lines := by
  obtain ⟨hlines, herrors, hlevel⟩ := log.openFile_eq
  have hwithin : log.openFile.within lines = log.within lines := by
    simp only [within, hlevel]
  -- the lines go into the file if it is open now and into the error stream otherwise
  have hsplit : ∃ first second, log.within lines = first ++ second ∧
      (log.openFile.record lines).fileLines = log.fileLines ++ first ∧
        (log.openFile.record lines).errors.toList = log.errors.toList ++ second := by
    rw [← hwithin, ← hlines, ← herrors]
    cases hopen : log.openFile.isOpen with
    | true =>
      obtain ⟨hfile, herrors'⟩ := log.openFile.fileLines_record lines hopen
      exact ⟨_, [], (List.append_nil _).symm, hfile, by rw [herrors', List.append_nil]⟩
    | false =>
      have hrecord := log.openFile.record_of_isClosed lines hopen
      refine ⟨[], log.openFile.within lines, rfl, ?_, by simp [hrecord]⟩
      rw [hrecord, List.append_nil]
      rfl
  obtain ⟨first, second, hall, hfirst, hsecond⟩ := hsplit
  rw [hall, since]
  congr 1
  · exact (congrArg (List.drop _) hfirst).trans List.drop_left
  · exact (congrArg (List.drop _) hsecond).trans List.drop_left

end Log

/-! ### Runs -/

/-- The messages of a run. -/
def runMessages (fuel : Nat) (program : Node) (scope : ScopeRef) (w : World) : List String :=
  (w.log.since (worldAfter (runProgram fuel program scope w)).log).map TraceLine.text

/-- The values that a run puts out. -/
def runOutput (fuel : Nat) (program : Node) (scope : ScopeRef) (w : World) : List Printed :=
  (worldAfter (runProgram fuel program scope w)).printed.toList.drop w.printed.size

/-- The world with another level of tracing. -/
def World.atLevel (w : World) (level : Nat) : World :=
  { w with log := { w.log with level } }

/-- **What a run says** is one list of lines for all levels, and its messages at a level are those
within the level. -/
theorem exists_runMessages_eq (fuel : Nat) (program : Node) (scope : ScopeRef) (w : World) :
    ∃ t : Telling Value, t.Faithful ∧ ∀ level,
      runMessages fuel program scope (w.atLevel level) =
          (t.lines.filter fun line => line.level ≤ level).map TraceLine.text ∧
        runOutput fuel program scope (w.atLevel level) = t.printed := by
  cases program with
  | program body =>
    obtain ⟨t, ht, hfaithful, -⟩ := tells_tellProgram fuel body scope w.store
    refine ⟨t, hfaithful, fun level => ?_⟩
    have hworld := worldAfter_runProgram fuel body scope ht w.printed { w.log with level }
    constructor
    · rw [runMessages, World.atLevel, hworld, Log.since_record]
      rfl
    · rw [runOutput, World.atLevel, hworld]
      simp
  | _ =>
    -- what is no program is not run and says nothing
    refine ⟨.silent (.error .outOfFuel) w.store, Telling.faithful_silent _ _, fun level => ?_⟩
    have hsince := ({ w.log with level } : Log).since_record []
    constructor
    · exact congrArg (List.map TraceLine.text) hsince
    · exact List.drop_length

namespace Telling.Faithful

variable {α : Type} {t : Telling α} {line : TraceLine}

/-- The level of a line that is said is the one that its message shows. -/
private theorem messageLevel_eq (h : t.Faithful) (hline : line ∈ t.lines) :
    messageLevel line.text = line.level := by
  obtain ⟨s, event, rfl⟩ := h.events line hline
  exact event.messageLevel_text s

private theorem level_le_three (h : t.Faithful) (hline : line ∈ t.lines) : line.level ≤ 3 := by
  obtain ⟨s, event, rfl⟩ := h.events line hline
  exact event.level_le_three

/-- Messages about output are within every level from one on. -/
private theorem filter_outputs (h : t.Faithful) {level : Nat} (hlevel : 1 ≤ level) :
    ((t.lines.filter fun line => line.level ≤ level).filter fun line =>
        isOutputMessage line.text) = t.printed.map Printed.line := by
  rw [← h.outputs, List.filter_filter]
  refine List.filter_congr fun line hline => ?_
  cases houtput : isOutputMessage line.text with
  | false => rfl
  | true =>
    have hmem : line ∈ t.lines.filter fun line => isOutputMessage line.text :=
      List.mem_filter.2 ⟨hline, houtput⟩
    rw [h.outputs] at hmem
    obtain ⟨p, -, rfl⟩ := List.mem_map.1 hmem
    exact decide_eq_true hlevel

end Telling.Faithful

/-- **Traces of different levels nest, and the trace records every output.** The messages of a run
at a level are those of its messages at level three that are of this level or below, in the same
order. The messages about output are one for each value that is put out, in the same order, and show
its text. -/
theorem messages_nest_by_level (fuel : Nat) (program : Node) (scope : ScopeRef) (w : World)
    {level : Nat} (hlevel : 1 ≤ level) :
    runMessages fuel program scope (w.atLevel level) =
        (runMessages fuel program scope (w.atLevel 3)).filter
          (fun message => messageLevel message ≤ level) ∧
      (runMessages fuel program scope (w.atLevel level)).filter isOutputMessage =
        (runOutput fuel program scope (w.atLevel level)).map fun p => "out " ++ p.datum.text := by
  obtain ⟨t, hfaithful, ht⟩ := exists_runMessages_eq fuel program scope w
  have hall : (t.lines.filter fun line => line.level ≤ 3) = t.lines :=
    List.filter_eq_self.2 fun line hline => decide_eq_true (hfaithful.level_le_three hline)
  constructor
  · rw [(ht level).1, (ht 3).1, hall, List.filter_map]
    congr 1
    refine List.filter_congr fun line hline => ?_
    rw [Function.comp_apply, hfaithful.messageLevel_eq hline]
  · rw [(ht level).1, (ht level).2, List.filter_map]
    exact (congrArg (List.map TraceLine.text) (hfaithful.filter_outputs hlevel)).trans
      List.map_map

/-- A function that puts out its argument is declared and called under a condition. -/
theorem messages_nest_by_level_call :
    let program : Node := .program
      [.functionDecl "f" ["x"] (.block [.output (.ident "x")]),
        .conditional [(.truth true, .call (.ident "f") [.text "a"])] .absent]
    let w : World := ⟨(Store.empty.newScope none).2, #[], .fresh 0 none⟩
    1 ≤ 2 ∧
      runMessages 9 program ⟨0⟩ (w.atLevel 3) =
        ["run program (2 statements)", "declare function f", "if condition -> yes", "call f(a)",
          "out a", "finished -> _"] ∧
      runMessages 9 program ⟨0⟩ (w.atLevel 2) =
        (runMessages 9 program ⟨0⟩ (w.atLevel 3)).filter
          (fun message => messageLevel message ≤ 2) ∧
      (runMessages 9 program ⟨0⟩ (w.atLevel 2)).filter isOutputMessage =
        (runOutput 9 program ⟨0⟩ (w.atLevel 2)).map fun p => "out " ++ p.datum.text :=
  ⟨by decide, rfl, messages_nest_by_level 9 _ _ _ (by decide)⟩

end Sigil
