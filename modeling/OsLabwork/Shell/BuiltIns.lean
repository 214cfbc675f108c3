import OsLabwork.Shell.PathList

/-!
# The argument rules of `cd` and `exit`

`exit` looks at the number of its arguments. `cd` does not: it passes its first argument to
`chdir`, and the NULL behind the name when there is none. So it rejects a missing argument
by what the system call makes of NULL, and takes no notice of further arguments.

What is assumed of `chdir`: it refuses NULL, and it does not move the process when it
refuses its argument.
-/

namespace OsLabwork.Shell

variable {W D : Type}

/-- What the shell relies on when it calls `chdir`, with the current directory as it shows
in the world. -/
structure ChdirLaws (kernel : Kernel W) (directory : W → D) : Prop where
  refusesNull : ∀ world, (kernel.chdir world none).1 = -1
  stays : ∀ world path, (kernel.chdir world path).1 = -1 →
    directory (kernel.chdir world path).2 = directory world

/-- `chdir` would move the process to the directory. -/
def Accepts (kernel : Kernel W) (world : W) (argument : CString) : Prop :=
  (kernel.chdir world (some argument)).1 ≠ -1

/-- The rule for `cd`: with exactly one argument, which `chdir` accepts, the shell moves
there and does nothing else; otherwise there is one error, and the directory and the search
path stay. -/
structure CdRule (kernel : Kernel W) (directory : W → D) (command : Command)
    (state : State W) : Prop where
  moves : ∀ argument, command.arguments = [argument] → Accepts kernel state.world argument →
    execCommand kernel command state =
      ({ state with world := (kernel.chdir state.world (some argument)).2 }, .returned 0)
  fails : (¬ ∃ argument, command.arguments = [argument] ∧ Accepts kernel state.world argument) →
    ∃ after, execCommand kernel command state = (after, .returned 0) ∧
      after.events = state.events ++ [.error] ∧ after.path = state.path ∧
      directory after.world = directory state.world

/-- The rule for `exit` as a call of `exec_single_cmd`: without an argument the shell ends;
otherwise there is one error and nothing else, and the remaining calls of the line and the
remaining lines are handled. -/
structure ExitRule (host : Host W) (call : SegmentCall) (command : Command) (state : State W) :
    Prop where
  ends : command.arguments = [] → execCommand host.kernel command state = (state, .exited 0)
  fails : command.arguments ≠ [] →
    execCommand host.kernel command state = (printError state, .returned 0)
  calls : command.arguments ≠ [] → ∀ calls processCount,
    runCalls host.kernel (call :: calls) state processCount =
      runCalls host.kernel calls (printError state) processCount
  lines : command.arguments ≠ [] → ∀ line rest,
    lineCalls host state.world line = [call] →
    runLines host (line :: rest) state = runLines host rest (printError state)

/-- The arguments are what is before NULL. -/
theorem untilNull_some (arguments : List CString) :
    untilNull (arguments.map some ++ [none]) = arguments := by
  induction arguments with
  | nil => rfl
  | cons argument arguments inductionHypothesis => simp [untilNull, inductionHypothesis]

/-- A command that was read has its arguments behind its name and before a NULL, and their
number with the name included. -/
theorem readSegment_arguments {memory : List UInt8} {cmdLine : Nat} {command : Command}
    (reads : (readSegment memory cmdLine).2 = .command command) :
    command.argv = some command.name :: (command.arguments.map some ++ [none]) ∧
      command.argc = command.arguments.length + 1 := by
  obtain ⟨first, others, _, isName, isArgv, isArgc⟩ := readSegment_command reads
  have arguments : command.arguments =
      others.map (CMemory.stringAt (readSegment memory cmdLine).1) := by
    have shape : command.argv.drop 1 =
        (others.map (CMemory.stringAt (readSegment memory cmdLine).1)).map some ++ [none] := by
      simp [isArgv, Function.comp_def]
    rw [Command.arguments, shape, untilNull_some]
  constructor
  · rw [arguments, isArgv, isName]
    simp [Function.comp_def]
  · rw [arguments, isArgc, List.length_map, List.length_cons]

section Commands

variable (kernel : Kernel W) (state : State W) {command : Command}

/-- `cd` passes its first argument to `chdir`, or NULL. -/
theorem execCommand_cd (isCd : command.name = cdName)
    (shape : command.argv = some command.name :: (command.arguments.map some ++ [none])) :
    execCommand kernel command state =
      (if (kernel.chdir state.world command.arguments.head?).1 = -1 then
        printError { state with world := (kernel.chdir state.world command.arguments.head?).2 }
      else { state with world := (kernel.chdir state.world command.arguments.head?).2 },
      .returned 0) := by
  have notExit : cdName ≠ exitName := by decide
  have argument : command.argv[1]?.join = command.arguments.head? := by
    rw [shape]
    cases command.arguments with
    | nil => rfl
    | cons first others => rfl
  simp only [execCommand, execBuiltInCmd, strcmp_eq_zero_iff, isCd, notExit, ↓reduceIte, argument]
  by_cases refused : (kernel.chdir state.world command.arguments.head?).1 = -1
  · simp [refused]
  · simp [refused]

/-- `exit` exits without arguments, and is an error with any. -/
theorem execCommand_exit (isExit : command.name = exitName)
    (counted : command.argc = command.arguments.length + 1) :
    execCommand kernel command state =
      if command.arguments = [] then (state, .exited 0) else (printError state, .returned 0) := by
  simp only [execCommand, execBuiltInCmd, strcmp_eq_zero_iff, isExit, ↓reduceIte, counted]
  cases command.arguments with
  | nil => rfl
  | cons first others => simp

end Commands

/-- `exit` obeys its rule. -/
theorem exitRule_of_reads (host : Host W) (state : State W) {call : SegmentCall}
    {command : Command} (reads : call.reading = .command command)
    (isExit : command.name = exitName) : ExitRule host call command state := by
  have counted := (readSegment_arguments reads).2
  have run := execCommand_exit host.kernel state isExit counted
  have goesOn (present : command.arguments ≠ []) (calls : List SegmentCall) (processCount : Nat) :
      runCalls host.kernel (call :: calls) state processCount =
        runCalls host.kernel calls (printError state) processCount := by
    simp [runCalls, reads, Reading.act, run, present]
  refine ⟨fun none => by simp [run, none], fun some => by simp [run, some], goesOn, ?_⟩
  intro present line rest only
  rw [runLines, handleLine_calls, only, goesOn present]
  rfl

/-- `cd` obeys its rule unless it has more than one argument and `chdir` accepts the first. -/
theorem cdRule_iff (kernel : Kernel W) (directory : W → D) (laws : ChdirLaws kernel directory)
    (state : State W) {call : SegmentCall} {command : Command}
    (reads : call.reading = .command command) (isCd : command.name = cdName) :
    CdRule kernel directory command state ↔
      ¬ ∃ first second others, command.arguments = first :: second :: others ∧
        Accepts kernel state.world first := by
  have run := execCommand_cd kernel state isCd (readSegment_arguments reads).1
  have refused (argument : Option CString) (isFirst : command.arguments.head? = argument)
      (rejects : (kernel.chdir state.world argument).1 = -1) :
      ∃ after, execCommand kernel command state = (after, .returned 0) ∧
        after.events = state.events ++ [.error] ∧ after.path = state.path ∧
        directory after.world = directory state.world := by
    rw [run, isFirst, if_pos rejects]
    exact ⟨_, rfl, rfl, rfl, laws.stays state.world argument rejects⟩
  rcases arguments : command.arguments with _ | ⟨first, _ | ⟨second, others⟩⟩
  · have null := laws.refusesNull state.world
    simp only [reduceCtorEq, false_and, exists_false, not_false_eq_true, iff_true]
    exact ⟨fun argument only => by simp [arguments] at only,
      fun _ => refused none (by rw [arguments]; rfl) null⟩
  · simp only [List.cons.injEq, reduceCtorEq, and_false, false_and, exists_false,
      not_false_eq_true, iff_true]
    constructor
    · intro argument only accepts
      obtain rfl : first = argument := by simpa [arguments] using only
      rw [run, arguments, List.head?_cons, if_neg accepts]
    · intro nothing
      refine refused (some first) (by rw [arguments]; rfl) ?_
      by_contra accepts
      exact nothing ⟨first, arguments, accepts⟩
  · constructor
    · rintro rule ⟨_, _, _, same, accepts⟩
      obtain ⟨rfl, _⟩ := List.cons.inj same
      obtain ⟨after, ran, reported, _⟩ := rule.fails (by simp [arguments])
      rw [run, arguments, List.head?_cons, if_neg accepts] at ran
      obtain rfl := (Prod.mk.inj ran).1
      simp at reported
    · intro noMore
      constructor
      · intro argument only
        simp [arguments] at only
      · intro _
        refine refused (some first) (by rw [arguments]; rfl) ?_
        by_contra accepts
        exact noMore ⟨first, second, others, rfl, accepts⟩

/-- In every state, a segment that was read as a command obeys the rule for `cd` if it is a
`cd` and the rule for `exit` if it is an `exit`, exactly when it is not a `cd` with more
than one argument of which `chdir` accepts the first. -/
theorem builtIns_obey_rules_iff (host : Host W) (directory : W → D)
    (laws : ChdirLaws host.kernel directory) (call : SegmentCall) (command : Command)
    (reads : call.reading = .command command) (state : State W) :
    ((command.name = cdName → CdRule host.kernel directory command state) ∧
      (command.name = exitName → ExitRule host call command state)) ↔
    ¬ (command.name = cdName ∧ ∃ first second others,
      command.arguments = first :: second :: others ∧ Accepts host.kernel state.world first) := by
  constructor
  · rintro ⟨cdRule, _⟩ ⟨isCd, tooMany⟩
    exact (cdRule_iff host.kernel directory laws state reads isCd).mp (cdRule isCd) tooMany
  · intro allowed
    constructor
    · intro isCd
      exact (cdRule_iff host.kernel directory laws state reads isCd).mpr
        fun tooMany => allowed ⟨isCd, tooMany⟩
    · exact exitRule_of_reads host state reads

/-- A kernel whose world is the current directory, and for which every directory exists. -/
def walkingKernel : Kernel CString where
  chdir world path := (if path.isSome then 0 else -1, path.getD world)
  access _ _ := false
  fork world := ⟨1, world, world⟩
  execv _ _ _ := none
  wait world := world
  beyond _ _ := []
  execv_returns _ _ _ _ returned := by simp at returned

/-- A host with this kernel. -/
def walkingHost : Host CString := ⟨walkingKernel, 4096, Nat.succ_pos 4095, fun _ _ => ([35], [])⟩

/-- Its `chdir` keeps the laws. -/
theorem walkingKernel_laws : ChdirLaws walkingKernel id where
  refusesNull _ := rfl
  stays world path refused := by
    cases path with
    | none => rfl
    | some target => simp [walkingKernel] at refused

/-- A segment that stands alone in memory. -/
def loneCall (text : String) : SegmentCall := ⟨ascii text ++ [0], 0⟩

/-- `cd` with one argument. -/
theorem builtIns_obey_rules_iff_one_argument :
    ((cdName = cdName → CdRule walkingKernel id
        ⟨cdName, [some cdName, some (CString.leading (ascii "a")), none], 2, none⟩
        ⟨CString.leading (ascii "/"), [], []⟩) ∧
      (cdName = exitName → ExitRule walkingHost (loneCall "cd a")
        ⟨cdName, [some cdName, some (CString.leading (ascii "a")), none], 2, none⟩
        ⟨CString.leading (ascii "/"), [], []⟩)) ↔
    ¬ (cdName = cdName ∧ ∃ first second others,
      Command.arguments ⟨cdName, [some cdName, some (CString.leading (ascii "a")), none], 2, none⟩ =
        first :: second :: others ∧
      Accepts walkingKernel (CString.leading (ascii "/")) first) :=
  builtIns_obey_rules_iff walkingHost id walkingKernel_laws (loneCall "cd a")
    ⟨cdName, [some cdName, some (CString.leading (ascii "a")), none], 2, none⟩
    (by decide +kernel) ⟨CString.leading (ascii "/"), [], []⟩

/-- With two arguments the shell moves to the first and reports nothing. -/
theorem cd_ignores_its_second_argument :
    (loneCall "cd a b").reading = .command ⟨cdName, [some cdName,
      some (CString.leading (ascii "a")), some (CString.leading (ascii "b")), none], 3, none⟩ ∧
    ((loneCall "cd a b").reading.act walkingKernel ⟨CString.leading (ascii "/"), [], []⟩).1.world =
      CString.leading (ascii "a") ∧
    ((loneCall "cd a b").reading.act walkingKernel
      ⟨CString.leading (ascii "/"), [], []⟩).1.events = [] := by
  decide +kernel

end OsLabwork.Shell
