import OsLabwork.Shell.Commands

/-!
# The search path

A command that is not built in is to be found in the first directory of the search
path that has an executable of its name, and nowhere else.

The search loop looks one step behind its cursor: the candidate that it tests was built
in the turn before. The first candidate is not built from a directory at all; it is the
bare name, which the kernel resolves in the current directory. So the search keeps to
the path exactly when the bare name cannot be executed.
-/

namespace OsLabwork.Shell

variable {W : Type}

/-- The places where the search path says to look, in order. -/
def candidates (path : List PathEntry) (name : CString) : List CString :=
  path.map (fun entry => realPath entry name)

/-- A child that keeps to the search path: it executes the first candidate that can be
executed, and if there is none it executes nothing and reports an error. -/
def KeepsToPath (access : CString → Bool) (path : List PathEntry) (command : Command)
    (child : ChildRun) : Prop :=
  match (candidates path command.name).find? access with
  | some found => child.executed = some (found, command.argv)
  | none => child.executed = none ∧ child.reported = true ∧ child.ending = .exited 0

/-- A candidate that can be executed ends the search. -/
theorem searchLoop_stops {access : CString → Bool} {candidate : CString}
    (found : access candidate = true) (name : CString) (path : List PathEntry) :
    searchLoop access name candidate path = (candidate, true) := by
  cases path with
  | nil => rw [searchLoop, found]
  | cons entry path => rw [searchLoop, if_pos found]

/-- Behind a candidate that cannot be executed, the loop finds the first one on the path
that can. -/
theorem searchLoop_finds (access : CString → Bool) (name : CString) (path : List PathEntry)
    {candidate : CString} (absent : access candidate = false) :
    (candidates path name).find? access =
      if (searchLoop access name candidate path).2 then
        some (searchLoop access name candidate path).1
      else none := by
  induction path generalizing candidate with
  | nil => simp [candidates, searchLoop, absent]
  | cons entry path inductionHypothesis =>
    have goesOn : searchLoop access name candidate (entry :: path) =
        searchLoop access name (realPath entry name) path := by
      simp [searchLoop, absent]
    rw [goesOn]
    cases here : access (realPath entry name) with
    | true => simp [candidates, here, searchLoop_stops here]
    | false =>
      rw [← inductionHypothesis here, candidates, List.map_cons,
        List.find?_cons_of_neg (by simp [here]), candidates]

/-- A candidate has a directory in front of the name. -/
theorem realPath_ne (entry : PathEntry) (name : CString) : realPath entry name ≠ name := by
  intro same
  have lengths := congrArg (fun string => string.bytes.length) same
  simp [realPath] at lengths
  omega

/-- The child keeps to the path exactly when the bare name cannot be executed. -/
theorem childProcess_keepsToPath_iff (kernel : Kernel W) (world : W) (path : List PathEntry)
    (command : Command) :
    KeepsToPath (kernel.access world) path command (childProcess kernel world path command) ↔
      kernel.access world command.name = false := by
  cases bare : kernel.access world command.name with
  | true =>
    -- The bare name is executed, which is no candidate.
    have executed : (childProcess kernel world path command).executed =
        some (command.name, command.argv) := by
      simp only [childProcess, searchLoop_stops bare, ↓reduceIte]
      split
      · rfl
      · split
        · rfl
        · rfl
    simp only [Bool.true_eq_false, iff_false]
    intro keeps
    rw [KeepsToPath] at keeps
    split at keeps
    · rename_i found isFound
      have isName : command.name = found := by simpa [executed] using keeps
      obtain ⟨entry, _, isCandidate⟩ := List.mem_map.mp (List.mem_of_find?_eq_some isFound)
      exact realPath_ne entry command.name (isCandidate.trans isName.symm)
    · simp [executed] at keeps
  | false =>
    simp only [iff_true]
    rw [KeepsToPath, searchLoop_finds (kernel.access world) command.name path bare]
    cases found : (searchLoop (kernel.access world) command.name command.name path).2 with
    | true =>
      simp only [↓reduceIte, childProcess, found]
      split
      · rfl
      · split
        · rfl
        · rfl
    | false => simp [childProcess, found]

/-- A command whose name is not that of a built-in is left to a child. -/
theorem execBuiltInCmd_external (kernel : Kernel W) {command : Command} (state : State W)
    (external : command.name ≠ exitName ∧ command.name ≠ cdName ∧ command.name ≠ pathName) :
    execBuiltInCmd kernel command state = (state, .returned .notExec) := by
  obtain ⟨notExit, notCd, notPath⟩ := external
  simp only [execBuiltInCmd, strcmp_eq_zero_iff, notExit, notCd, notPath, ↓reduceIte]

/-- Whatever the search path and the file system are, the child that is forked for a
command that is not built in keeps to the path exactly when the bare name of the command,
looked up in the current directory, cannot be executed. -/
theorem command_is_found_on_path_iff (kernel : Kernel W) (command : Command) (state : State W)
    (external : command.name ≠ exitName ∧ command.name ≠ cdName ∧ command.name ≠ pathName)
    (forked : 0 ≤ (kernel.fork state.world).pid) :
    (∃ child, (execCommand kernel command state).1.events =
        state.events ++ [.fork (kernel.fork state.world).pid (some child)] ∧
      KeepsToPath (kernel.access (kernel.fork state.world).child) state.path command child) ↔
    kernel.access (kernel.fork state.world).child command.name = false := by
  have started : (execCommand kernel command state).1.events =
      state.events ++ [.fork (kernel.fork state.world).pid
        (some (childProcess kernel (kernel.fork state.world).child state.path command))] := by
    simp only [execCommand, execBuiltInCmd_external kernel state external, State.record,
      Int.not_lt.mpr forked, ↓reduceIte]
  rw [started, ← childProcess_keepsToPath_iff kernel _ state.path command]
  constructor
  · rintro ⟨child, same, keeps⟩
    simp only [List.append_cancel_left_eq, List.cons.injEq, Event.fork.injEq, Option.some.injEq,
      true_and, and_true] at same
    exact same ▸ keeps
  · intro keeps
    exact ⟨_, rfl, keeps⟩

/-- `ls`, without arguments. -/
def lsCommand : Command where
  name := CString.leading (ascii "ls")
  argv := [some (CString.leading (ascii "ls")), none]
  argc := 1
  redirect := none

/-- A file system with a single executable, under the given path. -/
def oneExecutable (path : List UInt8) : Kernel Unit :=
  { obligingKernel with access := fun _ candidate => candidate.bytes = path }

/-- A shell that looks in `/bin`. -/
def binState : State Unit := ⟨(), [⟨ascii "/bin" ++ [0], []⟩], []⟩

/-- `ls` is in `/bin`. -/
theorem command_is_found_on_path_iff_bin :
    ∃ child, (execCommand (oneExecutable (ascii "/bin/ls")) lsCommand binState).1.events =
        [.fork 1 (some child)] ∧
      KeepsToPath (fun candidate => candidate.bytes = ascii "/bin/ls") binState.path lsCommand
        child := by
  exact (command_is_found_on_path_iff (oneExecutable (ascii "/bin/ls")) lsCommand binState
    (by decide) (by decide)).mpr (by decide)

/-- With an empty search path, `ls` in the current directory is executed all the same. -/
theorem empty_path_runs_a_program :
    (execCommand (oneExecutable (ascii "ls")) lsCommand ⟨(), [], []⟩).1.events =
      [.fork 1 (some ⟨none, some (lsCommand.name, lsCommand.argv), false, .replaced⟩)] ∧
    ¬ KeepsToPath (fun candidate => candidate.bytes = ascii "ls") [] lsCommand
        ⟨none, some (lsCommand.name, lsCommand.argv), false, .replaced⟩ := by
  constructor
  · decide
  · simp [KeepsToPath, candidates]

end OsLabwork.Shell
