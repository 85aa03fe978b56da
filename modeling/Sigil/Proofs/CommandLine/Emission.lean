import Sigil.Proofs.CommandLine.Files
import Sigil.Proofs.Json.Trees
import Sigil.Proofs.Walk

/-!
# Emitted trees run as their programs

A program file can be run, or its tree can be emitted to a file beside it and that file be run. Both
say and do the same (`emitted_tree_runs_as_program`): the same text on the two streams, the same
ending and the same trace file, at every verbosity and whatever becomes of the program. The program
file may lie anywhere, under an absolute name or one that starts from the working directory. The
emitted document is read back as the tree of the program, and it is never kept under the name of the
trace file.
-/

namespace Sigil.CommandLine

open Node

/-! ### The arguments -/

/-- Options for more verbosity, each with one letter or more: `-v`, `-vv` and so on. -/
def verboseOptions (counts : List Nat) : List String :=
  counts.map fun n => String.ofList ('-' :: List.replicate (n + 1) 'v')

/-- The verbosity that the options ask for together. -/
def verbosityOf (counts : List Nat) : Nat :=
  (counts.map (· + 1)).sum

/-- **A name of a path**, as an argument: it does not look like an option and names no directory by
itself. -/
structure Names (name : String) (p : Path) : Prop where
  path : Path.ofString name = p
  parts_ne : p.parts ≠ []
  head_ne : ∀ rest, name.toList ≠ '-' :: rest

private theorem Names.ne_empty {name : String} {p : Path} (h : Names name p) : name ≠ "" := by
  rintro rfl
  exact h.parts_ne (h.path ▸ rfl)

private theorem Names.head_append_ne {name : String} {p : Path} (h : Names name p)
    {ending : String} :
    ∀ rest, (name ++ ending).toList ≠ '-' :: rest := by
  intro rest heq
  rw [String.toList_append] at heq
  cases htext : name.toList with
  | nil => exact h.ne_empty (String.toList_eq_nil_iff.1 htext)
  | cons c cs =>
    rw [htext, List.cons_append] at heq
    exact h.head_ne cs (by rw [htext, (List.cons.inj heq).1])

private theorem Names.given {name : String} {p : Path} (h : Names name p) :
    Options.command?.given (some name) = some name := by
  simp [Options.command?.given, Option.filter, h.ne_empty]

private theorem Names.classify {name : String} {p : Path} (h : Names name p) :
    classify name = .plain name := by
  unfold CommandLine.classify
  split
  · rename_i heq
    exact absurd heq (h.head_ne _)
  · rename_i heq
    exact absurd heq (h.head_ne _)
  · rename_i heq
    exact absurd heq (h.head_ne _)
  · rfl

private theorem classify_verbose (n : Nat) :
    classify (String.ofList ('-' :: List.replicate (n + 1) 'v')) =
      .short (List.replicate (n + 1) 'v') := by
  unfold classify
  rw [String.toList_ofList]
  cases n with
  | zero => rfl
  | succ n => rfl

/-- Nothing has been read but options for verbosity. -/
private def verboseProgress (verbosity : Nat) : Progress :=
  { options := { verbosity } }

private theorem takeLetters_verbose (k n : Nat) :
    (verboseProgress k).passOption.takeLetters (List.replicate (n + 1) 'v') =
      .ok (verboseProgress (k + (n + 1))) := by
  simp [verboseProgress, Progress.passOption, Progress.takeLetters, shortOption?]

/-- A plain argument is no mark. -/
private theorem Names.ne_mark {name : String} {p : Path} (h : Names name p) : name ≠ "--" := by
  rintro rfl
  exact h.head_ne ['-'] rfl

private theorem verbose_ne_mark (n : Nat) :
    String.ofList ('-' :: List.replicate (n + 1) 'v') ≠ "--" := by
  intro heq
  have hlist := congrArg String.toList heq
  rw [String.toList_ofList] at hlist
  exact absurd (List.cons.inj (List.cons.inj hlist).2).1 (by decide)

private theorem readArgs_verbose (counts : List Nat) (rest : List String) (k : Nat) :
    readArgs (verboseProgress k) (verboseOptions counts ++ rest) =
      readArgs (verboseProgress (k + verbosityOf counts)) rest := by
  induction counts generalizing k with
  | nil => rfl
  | cons n counts ih =>
    change readArgs _ (_ :: (verboseOptions counts ++ rest)) = _
    rw [readArgs, classify_verbose]
    · change ((verboseProgress k).passOption.takeLetters _ >>= fun p => _) = _
      rw [takeLetters_verbose]
      change readArgs (verboseProgress (k + (n + 1))) _ = _
      rw [ih, verbosityOf, verbosityOf, List.map_cons, List.sum_cons, Nat.add_assoc]
    · exact verbose_ne_mark n

private theorem readArgs_file {name : String} {p : Path} (h : Names name p) (k : Nat) :
    readArgs (verboseProgress k) [name] =
      .ok { options := { verbosity := k, file := some name } } := by
  rw [readArgs, h.classify]
  · rfl
  · exact h.ne_mark

/-- An option that takes the name of a file. -/
private theorem readArgs_long {option : String} {which : OptionName} {name : String} {p : Path}
    (hoption : classify option = .long which none) (hmark : option ≠ "--") (hwhich : which ≠ .help)
    (h : Names name p) (k : Nat) :
    readArgs (verboseProgress k) [option, name] =
      (do readArgs (← (verboseProgress k).passOption.takeLong which name) []) := by
  rw [readArgs, hoption]
  · cases which with
    | help => exact absurd rfl hwhich
    | _ =>
      dsimp only
      rw [h.classify]
      split
      · exact absurd rfl h.ne_mark
      · rename_i heq
        cases heq
        rfl
      · rename_i hplain
        exact absurd rfl (hplain _)
  · exact hmark

/-- No argument is ambiguous, so the command is what the arguments are read as. -/
private theorem readCommand_eq {args : List String} (options : Options) {command : Command}
    (hclear : ∀ text ∈ args, classify text ≠ .ambiguous)
    (hread : readArgs {} args = .ok { options }) (hcommand : options.command? = some command) :
    readCommand args = .ok command := by
  have hany : ((args.takeWhile (· != "--")).any fun text => classify text == .ambiguous) =
      false := by
    rw [List.any_eq_false]
    intro text htext
    simpa using hclear text ((List.takeWhile_sublist _).subset htext)
  have hparse : parseArgs args = .ok options := by
    rw [parseArgs, hany, hread]
    rfl
  simp only [readCommand, hparse, bind, Except.bind, hcommand]
  rfl

private theorem classify_verboseOptions (counts : List Nat) :
    ∀ text ∈ verboseOptions counts, classify text ≠ .ambiguous := by
  intro text htext
  obtain ⟨n, -, rfl⟩ := List.mem_map.1 htext
  rw [classify_verbose]
  exact nofun

section Commands

variable {name : String} {p : Path} (h : Names name p) (counts : List Nat)

include h

private theorem readCommand_run :
    readCommand (verboseOptions counts ++ [name]) = .ok (.run (verbosityOf counts) p) := by
  refine readCommand_eq { verbosity := verbosityOf counts, file := some name } ?_ ?_ ?_
  · refine List.forall_mem_append.2 ⟨classify_verboseOptions counts, ?_⟩
    simp [h.classify]
  · have hread := readArgs_verbose counts [name] 0
    rw [Nat.zero_add, readArgs_file h] at hread
    exact hread
  · rw [Options.command?, h.given, ← h.path]
    rfl

private theorem readCommand_emit :
    readCommand (verboseOptions counts ++ ["--emit-ast", name]) = .ok (.emit p) := by
  have hoption : classify "--emit-ast" = .long .emit none := by decide
  refine readCommand_eq { verbosity := verbosityOf counts, emit := some name } ?_ ?_ ?_
  · refine List.forall_mem_append.2 ⟨classify_verboseOptions counts, ?_⟩
    simp [h.classify, hoption]
  · have hread := readArgs_verbose counts ["--emit-ast", name] 0
    rw [Nat.zero_add, readArgs_long hoption (by decide) nofun h] at hread
    exact hread
  · rw [Options.command?, h.given, ← h.path]

private theorem readCommand_runStored :
    readCommand (verboseOptions counts ++ ["--ast", name]) =
      .ok (.runStored (verbosityOf counts) p) := by
  have hoption : classify "--ast" = .long .stored none := by decide
  refine readCommand_eq { verbosity := verbosityOf counts, stored := some name } ?_ ?_ ?_
  · refine List.forall_mem_append.2 ⟨classify_verboseOptions counts, ?_⟩
    simp [h.classify, hoption]
  · have hread := readArgs_verbose counts ["--ast", name] 0
    rw [Nat.zero_add, readArgs_long hoption (by decide) nofun h] at hread
    exact hread
  · rw [Options.command?, h.given, ← h.path]
    rfl

end Commands

/-! ### The emitted file -/

private theorem unifyLines_of_not_mem {cs : List Char} (h : '\r' ∉ cs) : unifyLines cs = cs := by
  induction cs with
  | nil => rfl
  | cons c cs ih =>
    rw [List.mem_cons, not_or] at h
    have hc : c ≠ '\r' := Ne.symm h.1
    rw [unifyLines, ih h.2]
    · exact fun _ heq => absurd heq hc
    · exact hc

/-- The path of the trace file. -/
abbrev tracePath : Path :=
  .ofString traceFile

private theorem proper_tracePath : tracePath.Proper :=
  Path.proper_ofString traceFile

/-- The trace file is kept in the working directory. -/
private theorem resolve_tracePath (d : Disk) :
    d.resolve tracePath = some (traceFile :: (Path.ofString d.home).parts.reverse) := by
  have hdir : d.isDirectory (Path.ofString d.home).parts.reverse.reverse = true := by
    rw [List.reverse_reverse]
    exact d.isDirectory_home
  change d.follow (Path.ofString d.home).parts.reverse [traceFile] = _
  rw [Disk.follow, if_pos hdir, if_neg (by decide), Disk.follow]

/-- A name with the ending of stored trees is not that of the trace file. -/
private theorem append_storedEnding_ne (last : String) : last ++ storedEnding ≠ traceFile := by
  intro heq
  have hlast := congrArg (fun s => s.toList.getLast?) heq
  have hending : storedEnding.toList.getLast? = some 'n' := by decide
  have htrace : traceFile.toList.getLast? = some 't' := by decide
  simp only [String.toList_append, List.getLast?_append, hending, htrace, Option.some_or] at hlast
  exact absurd hlast (by decide)

private theorem append_storedEnding_ne_of_length (last : String) {s : String} (hs : s.length < 9) :
    last ++ storedEnding ≠ s := by
  rintro rfl
  have hlength : (last ++ storedEnding).length = last.length + 9 :=
    String.length_append last storedEnding
  omega

private theorem isPart_append_storedEnding {last : String} (h : '/' ∉ last.toList) :
    Path.IsPart (last ++ storedEnding) where
  not_mem := by
    rw [String.toList_append, List.mem_append, not_or]
    exact ⟨h, by decide⟩
  ne_empty := append_storedEnding_ne_of_length last (show "".length < 9 by decide)
  ne_dot := append_storedEnding_ne_of_length last (show ".".length < 9 by decide)

/-- **Where the tree of a file is emitted to**: the path leads to a place in the directory of the
file, which is not that of the trace file. -/
theorem exists_resolve_extend {d : Disk} {name text : String} {p : Path} (hname : Names name p)
    (hfile : d.find p = .file text) :
    (p.extend storedEnding).Proper ∧ ∃ place,
      d.resolve (p.extend storedEnding) = some place ∧ d.resolve tracePath ≠ some place := by
  obtain ⟨place, hplace⟩ := Disk.exists_resolve_of_find hfile
  have hpart : p.Proper := hname.path ▸ Path.proper_ofString name
  obtain ⟨root, parts⟩ := p
  obtain ⟨front, last, rfl⟩ : ∃ front last, parts = front ++ [last] :=
    ⟨_, _, (List.dropLast_concat_getLast hname.parts_ne).symm⟩
  rw [Path.extend_of_parts]
  refine ⟨fun part hmem => ?_, ?_⟩
  · rcases List.mem_append.1 hmem with hmem | hmem
    · exact hpart part (List.mem_append_left _ hmem)
    · rw [List.mem_singleton.1 hmem]
      exact isPart_append_storedEnding (hpart last (by simp)).not_mem
  · obtain ⟨up, hup⟩ := Disk.follow_sibling hplace
      (append_storedEnding_ne_of_length last (show "..".length < 9 by decide))
    refine ⟨_, hup, fun heq => ?_⟩
    rw [resolve_tracePath] at heq
    exact append_storedEnding_ne last (List.cons.inj (Option.some.inj heq)).1.symm

/-! ### Runs -/

/-- A run writes the trace file or nothing. -/
private theorem exists_written_execute (verbosity : Nat) (tree : Node) :
    ∃ trace : Option String,
      (execute verbosity tree).written = trace.toList.map fun text => (tracePath, text) := by
  unfold execute
  split
  · exact ⟨none, rfl⟩
  · exact ⟨_, rfl⟩

/-- The same things are said and done, and the same is left under the name of the trace file. -/
def SameRun (a b : Outcome × Disk) : Prop :=
  a.1 = b.1 ∧ a.2.find tracePath = b.2.find tracePath

/-- What a run does depends on the files only by what stands under the name of the trace file. -/
private theorem sameRun_settle {d d' : Disk} (h : d.find tracePath = d'.find tracePath)
    (verbosity : Nat) (tree : Node) :
    SameRun (d.settle (execute verbosity tree)) (d'.settle (execute verbosity tree)) := by
  obtain ⟨trace, hwritten⟩ := exists_written_execute verbosity tree
  cases trace with
  | none => simp [SameRun, Disk.settle, hwritten, h]
  | some text =>
    have hwrite (d : Disk) : (d.write tracePath text).find tracePath = .file text :=
      Disk.find_write proper_tracePath (resolve_tracePath d) text
    simp only [SameRun, Disk.settle, hwritten, Option.toList_some, List.map_singleton,
      List.any_cons, List.any_nil, Bool.or_false, List.foldl_cons, List.foldl_nil, h]
    split
    · exact ⟨rfl, h⟩
    · rw [hwrite, hwrite]
      exact ⟨rfl, rfl⟩

section Invocations

variable {disk : Disk} {name text : String} {p : Path} {program : Node} (hname : Names name p)
  (counts : List Nat)

include hname

private theorem invoke_run (hfile : disk.find p = .file text)
    (hprogram : parseProgram (String.ofList (unifyLines text.toList)) = .ok program) :
    disk.invoke (verboseOptions counts ++ [name]) =
      disk.settle (execute (verbosityOf counts) program) := by
  rw [Disk.invoke, readCommand_run hname]
  simp only [Command.file, hfile, Command.perform, Command.performOn, withProgram, hprogram]

private theorem invoke_emit (hfile : disk.find p = .file text)
    (hprogram : parseProgram (String.ofList (unifyLines text.toList)) = .ok program) :
    disk.invoke (verboseOptions counts ++ ["--emit-ast", name]) =
      if (disk.find (p.extend storedEnding)).isDirectory then
        ({ ending := .crash .isDirectory }, disk)
      else (emitTree p program, disk.write (p.extend storedEnding) program.toJson.document) := by
  rw [Disk.invoke, readCommand_emit hname]
  simp only [Command.file, hfile, Command.perform, Command.performOn, withProgram, hprogram]
  simp [Disk.settle, emitTree]

/-- Running a document that is read back as the stored form of a tree runs the tree. -/
private theorem invoke_runStored (hfile : disk.find p = .file program.toJson.document)
    (hparse : Json.parse program.toJson.document = .ok program.toJson)
    (hlines : '\r' ∉ program.toJson.document.toList) :
    disk.invoke (verboseOptions counts ++ ["--ast", name]) =
      disk.settle (execute (verbosityOf counts) program) := by
  have htree : Node.ofJson program.toJson = .ok program := readsBack program
  -- without carriage returns the document comes out of the file as it was written
  have hunified : unifyLines program.toJson.document.toList = program.toJson.document.toList :=
    unifyLines_of_not_mem hlines
  rw [Disk.invoke, readCommand_runStored hname]
  simp only [Command.file, hfile, Command.perform, Command.performOn, hunified,
    String.ofList_toList, withStored, hparse, htree]

end Invocations

/-- The name of a program file with the ending of stored trees names the emitted file, if it ends in
the name of the program file. -/
private theorem Names.append_storedEnding {name : String} {p : Path} (h : Names name p)
    (hends : Path.EndsInPart name) : Names (name ++ storedEnding) (p.extend storedEnding) where
  path := by
    rw [← h.path]
    exact Path.ofString_append hends (by decide) (by decide)
  parts_ne := Path.parts_extend_ne h.parts_ne
  head_ne := h.head_append_ne

/-- **Emitted trees run as their programs.** Let a name, absolute or not, stand for a program file.
Emitting its tree writes the document beside it, and this is read back as the stored form of the
tree. Under each name of the emitted file the tree then runs as the program does: with the same text
on the two streams, the same ending and the same trace file, at every verbosity. The name of the
program with the ending of stored trees is such a name, if it ends in the name of the file.

All this is so unless there is a directory where the document would have to be written. Then nothing
is emitted. -/
theorem emitted_tree_runs_as_program {disk : Disk} {name text : String} {p : Path} {program : Node}
    (hname : Names name p) (hfile : disk.find p = .file text)
    (hprogram : parseProgram (String.ofList (unifyLines text.toList)) = .ok program)
    (hnumbers : program.Throughout HasReadableNumber) (emitCounts counts : List Nat) :
    let target := p.extend storedEnding
    let emitted := disk.invoke (verboseOptions emitCounts ++ ["--emit-ast", name])
    ((disk.find target).isDirectory = true →
        emitted = ({ ending := .crash .isDirectory }, disk)) ∧
      ((disk.find target).isDirectory = false →
        emitted.1 =
            { ending := .exit 0
              stdout := target.toString ++ "\n"
              written := [(target, program.toJson.document)] } ∧
          emitted.2.find target = .file program.toJson.document ∧
          Json.parse program.toJson.document = .ok program.toJson ∧
          (Path.EndsInPart name → Names (name ++ storedEnding) target) ∧
          ∀ stored, Names stored target →
            SameRun (emitted.2.invoke (verboseOptions counts ++ ["--ast", stored]))
              (disk.invoke (verboseOptions counts ++ [name]))) := by
  intro target emitted
  obtain ⟨htarget, place, hplace, htrace⟩ := exists_resolve_extend hname hfile
  obtain ⟨hparse, hlines⟩ := parse_document_toJson hprogram hnumbers
  have hemit := invoke_emit hname emitCounts hfile hprogram
  refine ⟨fun hdirectory => hemit.trans (if_pos hdirectory), fun hdirectory => ?_⟩
  have hemitted : emitted = (emitTree p program, disk.write target program.toJson.document) :=
    hemit.trans (if_neg (by simp [target, hdirectory]))
  have hfind : emitted.2.find target = .file program.toJson.document := by
    rw [hemitted]
    exact Disk.find_write htarget hplace _
  refine ⟨by rw [hemitted]; rfl, hfind, hparse, hname.append_storedEnding, fun stored hstored => ?_⟩
  rw [invoke_runStored hstored counts hfind hparse hlines, invoke_run hname counts hfile hprogram]
  -- the same tree runs on disks that differ in the emitted file only
  refine sameRun_settle ?_ _ program
  rw [hemitted]
  exact Disk.find_write_of_ne htarget proper_tracePath (by rwa [hplace]) _

/-- A program with a number, under an absolute name that leads out of the working directory. -/
theorem emitted_tree_runs_as_program_number :
    let disk : Disk := ⟨"/home/user", [], .ofList [("/tmp/a.is", "<: 0.5")]⟩
    let program : Node := .program [.output (.number 0.5)]
    let emitted := disk.invoke (verboseOptions [0] ++ ["--emit-ast", "/tmp/./a.is"])
    parseProgram (String.ofList (unifyLines "<: 0.5".toList)) = .ok program ∧
      program.Throughout HasReadableNumber ∧
      emitted.2.find ⟨"/", ["tmp", "a.is.ast.json"]⟩ = .file program.toJson.document ∧
      SameRun (emitted.2.invoke (verboseOptions [1, 0] ++ ["--ast", "/tmp/./a.is.ast.json"]))
        (disk.invoke (verboseOptions [1, 0] ++ ["/tmp/./a.is"])) := by
  intro disk program emitted
  have hname : Names "/tmp/./a.is" ⟨"/", ["tmp", "a.is"]⟩ :=
    ⟨by decide, List.cons_ne_nil _ _, fun rest heq => absurd (List.cons.inj heq).1 (by decide)⟩
  have hparse : parseProgram (String.ofList (unifyLines "<: 0.5".toList)) = .ok program := by
    have hfirst : (Cursor.start "<: 0.5".toList).skipLayout = ⟨[], "<: 0.5".toList⟩ :=
      Cursor.skipLayout_of_none rfl
    have hlength : (['<', ':'] : List Char).length = 2 := rfl
    have hsecond : (Cursor.advance 2 ⟨[], "<: 0.5".toList⟩).skipLayout =
        ⟨[' ', ':', '<'], ['0', '.', '5']⟩ :=
      (Cursor.skipLayout_blank _ _).trans (Cursor.skipLayout_of_none rfl)
    have htext : (String.ofList (unifyLines "<: 0.5".toList)).toList = "<: 0.5".toList := by
      decide
    rw [parseProgram, htext, Reading.readText,
      Reading.read_of_lexeme? (l := ⟨.outputSign, ['<', ':']⟩)
        (by rw [hfirst]; exact List.cons_ne_nil _ _) (by rw [hfirst]; decide) rfl rfl, hfirst,
      Reading.read_of_lexeme? (l := ⟨.number, ['0', '.', '5']⟩)
        (by rw [hlength, hsecond]; exact List.cons_ne_nil _ _)
        (by rw [hlength, hsecond]; decide) rfl rfl,
      Reading.read_of_end (by rw [hlength, hsecond]; simp [Cursor.advance])]
    rfl
  have hnumbers : program.Throughout HasReadableNumber := by
    have hnumber : (Node.number 0.5).Throughout HasReadableNumber := by
      refine .of_operands ?_ rfl (List.forall_mem_nil _)
      intro x hx _
      cases hx
      rfl
    change (Node.program [.output (.number 0.5)]).Throughout HasReadableNumber
    refine .intro (fun x hx => by cases hx) (List.forall_mem_singleton.2 ?_) (List.forall_mem_nil _)
    exact .of_operands (fun x hx => by cases hx) rfl (List.forall_mem_singleton.2 hnumber)
  have hends : Path.EndsInPart "/tmp/./a.is" := by
    intro front last heq
    rw [show Path.components "/tmp/./a.is" = ["", "tmp", "."] ++ ["a.is"] by decide] at heq
    obtain rfl := List.singleton_inj.1 (List.append_inj_right' heq rfl)
    decide
  obtain ⟨-, hemitted⟩ :=
    emitted_tree_runs_as_program hname (show disk.find _ = .file "<: 0.5" by decide) hparse hnumbers
      [0] [1, 0]
  obtain ⟨-, hfind, -, hnames, hsame⟩ := hemitted (by decide)
  have htarget : Path.extend ⟨"/", ["tmp", "a.is"]⟩ storedEnding =
      ⟨"/", ["tmp", "a.is.ast.json"]⟩ := by decide
  have hstored : "/tmp/./a.is" ++ storedEnding = "/tmp/./a.is.ast.json" := by decide
  rw [htarget] at hfind
  have hsame' := hsame _ (hnames hends)
  rw [hstored] at hsame'
  exact ⟨hparse, hnumbers, hfind, hsame'⟩

end Sigil.CommandLine
