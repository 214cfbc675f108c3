import Mathlib.Data.List.Forall2
import OsLabwork.Shell.Segments

/-!
# What the path list holds

The path list is written by the built-in `path` and by nothing else, so after any lines it
holds what the most recent `path` command stored, one block for each of its arguments.

A block is meant to hold the argument as a string, without a `/` at its end. But
`path_add` copies as many bytes as it has made room for, from the beginning of the
argument: where it has counted one byte less, it copies the `/` and no NUL.
-/

namespace OsLabwork.Shell

variable {W : Type}

/-- The arguments of a command, without its name. -/
def Command.arguments (command : Command) : List CString := untilNull (command.argv.drop 1)

/-- The commands among what the calls read. -/
def callCommands (calls : List SegmentCall) : List Command :=
  calls.filterMap fun call =>
    match call.reading with
    | .command found => some found
    | _ => none

/-- The commands that are run, in order, while the lines are handled. -/
def runCommands (host : Host W) : List (List InputByte) → State W → List Command
  | [], _ => []
  | line :: rest, state =>
      callCommands (reachedCalls host.kernel (lineCalls host state.world line) state) ++
        match handleLine host line state with
        | (_, .exited _) => []
        | (after, .returned _) => runCommands host rest after

/-- The arguments of the most recent `path` command, if there was one. -/
def lastPath (initial : List CString) (commands : List Command) : List CString :=
  match commands.reverse.find? (fun command => command.name = pathName) with
  | some command => command.arguments
  | none => initial

/-- Without commands the list stays. -/
theorem lastPath_nil (initial : List CString) : lastPath initial [] = initial := rfl

/-- Commands one after the other. -/
theorem lastPath_append (initial : List CString) (earlier later : List Command) :
    lastPath initial (earlier ++ later) = lastPath (lastPath initial earlier) later := by
  simp only [lastPath, List.reverse_append, List.find?_append]
  cases later.reverse.find? (fun command => command.name = pathName) with
  | none => rfl
  | some command => rfl

/-- The argument with one `/` at its end removed, if it has one. -/
def withoutSlash (argument : CString) : CString :=
  if argument.bytes.getLast? = some 47 then CString.leading argument.bytes.dropLast else argument

/-- The block holds the string, terminated by a NUL. -/
def StoresString (block : List UInt8) (text : CString) : Prop :=
  ∃ rest, block = text.bytes ++ 0 :: rest

/-- What `path_add` copies into the block that it allocates. -/
def pathBlock (str : CString) : List UInt8 :=
  if str.bytes.getLast? = some 47 then str.bytes else str.bytes ++ [0]

/-- One more directory behind the others. -/
theorem pathAdd_block (kernel : Kernel W) (world : W) (path : List PathEntry) (str : CString) :
    (pathAdd kernel world path str).map PathEntry.block =
      path.map PathEntry.block ++ [pathBlock str] := by
  simp only [pathAdd, List.map_append, List.map_singleton, pathBlock]
  split
  · next slash =>
    have nonempty : str.bytes.length - 1 + 1 = str.bytes.length := by
      rcases List.eq_nil_or_concat str.bytes with empty | ⟨front, last, shape⟩
      · simp [empty] at slash
      · simp [shape]
    rw [nonempty, List.take_left]
  · rw [List.take_of_length_le (by simp)]

/-- All directories in order. -/
theorem pathAdd_blocks (kernel : Kernel W) (world : W) (arguments : List CString)
    (path : List PathEntry) :
    (arguments.foldl (pathAdd kernel world) path).map PathEntry.block =
      path.map PathEntry.block ++ arguments.map pathBlock := by
  induction arguments generalizing path with
  | nil => simp
  | cons argument arguments inductionHypothesis =>
    rw [List.foldl_cons, inductionHypothesis, pathAdd_block, List.map_cons, List.append_assoc,
      List.singleton_append]

/-- The path list consists of the blocks for these arguments. -/
def HoldsPath (state : State W) (arguments : List CString) : Prop :=
  state.path.map PathEntry.block = arguments.map pathBlock

/-- At first the list is `/bin`. -/
theorem startState_holdsPath (host : Host W) (world : W) :
    HoldsPath (startState host world) [binPath] :=
  pathAdd_block host.kernel world [] binPath

/-- A built-in other than `path` leaves the path list alone. -/
theorem execBuiltInCmd_holdsPath (kernel : Kernel W) (command : Command) {state : State W}
    {initial : List CString} (holds : HoldsPath state initial) :
    HoldsPath (execBuiltInCmd kernel command state).1 (lastPath initial [command]) := by
  by_cases isPath : command.name = pathName
  · have notExit : pathName ≠ exitName := by decide
    have notCd : pathName ≠ cdName := by decide
    simp only [HoldsPath, lastPath, List.reverse_singleton, List.find?_singleton, isPath,
      decide_true, ↓reduceIte, execBuiltInCmd, strcmp_eq_zero_iff, notExit, notCd]
    rw [pathAdd_blocks]
    rfl
  · have same : lastPath initial [command] = initial := by simp [lastPath, isPath]
    rw [same]
    simp only [execBuiltInCmd, strcmp_eq_zero_iff, isPath, ↓reduceIte]
    split
    · split
      · exact holds
      · exact holds
    · split
      · exact holds
      · exact holds

/-- What a command that is run does to the path list. -/
theorem execCommand_holdsPath (kernel : Kernel W) (command : Command) {state : State W}
    {initial : List CString} (holds : HoldsPath state initial) :
    HoldsPath (execCommand kernel command state).1 (lastPath initial [command]) := by
  have built := execBuiltInCmd_holdsPath kernel command holds
  rw [execCommand]
  rcases result : execBuiltInCmd kernel command state with ⟨next, (_ | _ | _) | status⟩
  · rwa [result] at built
  · rwa [result] at built
  · rwa [result] at built
  · rwa [result] at built

/-- A segment keeps the list or sets it. -/
theorem act_holdsPath (kernel : Kernel W) (call : SegmentCall) {state : State W}
    {initial : List CString} (holds : HoldsPath state initial) :
    HoldsPath (call.reading.act kernel state).1 (lastPath initial (callCommands [call])) := by
  cases reads : call.reading with
  | malformed =>
    have reported : HoldsPath (printError state) initial := holds
    simpa [callCommands, reads, lastPath, Reading.act] using reported
  | blank => simpa [callCommands, reads, lastPath, Reading.act] using holds
  | command found =>
    simpa [callCommands, reads, Reading.act] using execCommand_holdsPath kernel found holds

/-- So do segments one after the other. -/
theorem runCalls_holdsPath (kernel : Kernel W) (calls : List SegmentCall) {state : State W}
    {initial : List CString} (holds : HoldsPath state initial) (processCount : Nat) :
    HoldsPath (runCalls kernel calls state processCount).1
      (lastPath initial (callCommands (reachedCalls kernel calls state))) := by
  induction calls generalizing state initial processCount with
  | nil => exact holds
  | cons call calls inductionHypothesis =>
    have step := act_holdsPath kernel call holds
    rw [runCalls, reachedCalls]
    rcases acting : call.reading.act kernel state with ⟨after, count | status⟩
    · rw [acting] at step
      rw [← List.singleton_append, callCommands, List.filterMap_append, lastPath_append]
      exact inductionHypothesis step _
    · rw [acting] at step
      exact step

/-- Waiting does not change the list. -/
theorem waitFor_path (kernel : Kernel W) (count : Nat) (state : State W) :
    (waitFor kernel count state).path = state.path := by
  induction count generalizing state with
  | zero => rfl
  | succ count inductionHypothesis =>
    rw [waitFor, inductionHypothesis]
    rfl

/-- So does a line. -/
theorem handleLine_holdsPath (host : Host W) (line : List InputByte) {state : State W}
    {initial : List CString} (holds : HoldsPath state initial) :
    HoldsPath (handleLine host line state).1 (lastPath initial
      (callCommands (reachedCalls host.kernel (lineCalls host state.world line) state))) := by
  have ran := runCalls_holdsPath host.kernel (lineCalls host state.world line) holds 0
  rw [handleLine_calls]
  rcases result : runCalls host.kernel (lineCalls host state.world line) state 0 with
    ⟨after, count | status⟩
  · rw [result] at ran
    rw [HoldsPath, waitForAll, waitFor_path]
    exact ran
  · rw [result] at ran
    exact ran

/-- After any lines, the path list consists of the blocks for the arguments of the most
recent `path` command. -/
theorem runLines_holdsPath (host : Host W) (lines : List (List InputByte)) {state : State W}
    {initial : List CString} (holds : HoldsPath state initial) :
    HoldsPath (runLines host lines state).1 (lastPath initial (runCommands host lines state)) := by
  induction lines generalizing state initial with
  | nil => exact holds
  | cons line rest inductionHypothesis =>
    have handles := handleLine_holdsPath host line holds
    rw [runLines, runCommands, lastPath_append]
    rcases handled : handleLine host line state with ⟨after, _ | status⟩
    · rw [handled] at handles
      exact inductionHypothesis handles
    · rw [handled] at handles
      simp only [lastPath_nil]
      exact handles

/-- A block is the string that it should be when the argument has no `/` at its end. -/
theorem pathBlock_stores_iff (argument : CString) :
    StoresString (pathBlock argument) (withoutSlash argument) ↔
      argument.bytes.getLast? ≠ some 47 := by
  rw [pathBlock, withoutSlash]
  split
  · next slash =>
    -- There is no NUL in the block, since there is none in the argument.
    simp only [slash, ne_eq, not_true_eq_false, iff_false]
    rintro ⟨rest, shape⟩
    apply argument.noNul
    rw [shape]
    simp
  · next plain =>
    simp only [ne_eq, plain, not_false_eq_true, iff_true]
    exact ⟨[], rfl⟩

/-- After any lines, the path list holds the arguments of the most recent `path` command,
or `/bin` if there was none, each as a string without a `/` at its end, exactly when no
such argument has a `/` at its end. -/
theorem path_list_is_last_path_iff (host : Host W) (world : W) (lines : List (List InputByte)) :
    List.Forall₂ (fun entry argument => StoresString entry.block (withoutSlash argument))
        (runLines host lines (startState host world)).1.path
        (lastPath [binPath] (runCommands host lines (startState host world))) ↔
      ∀ argument ∈ lastPath [binPath] (runCommands host lines (startState host world)),
        argument.bytes.getLast? ≠ some 47 := by
  have holds := runLines_holdsPath host lines (startState_holdsPath host world)
  generalize lastPath [binPath] (runCommands host lines (startState host world)) = arguments
    at holds
  generalize (runLines host lines (startState host world)).1 = state at holds
  have stored : List.Forall₂
      (fun entry argument => StoresString entry.block (withoutSlash argument)) state.path
        arguments ↔
      List.Forall₂ (fun block argument => StoresString block (withoutSlash argument))
        (arguments.map pathBlock) arguments := by
    rw [← holds, List.forall₂_map_left_iff]
  rw [stored, List.forall₂_map_left_iff, List.forall₂_same]
  simp only [pathBlock_stores_iff]

/-- After `path /usr/` the block in the list is `/usr/`, and no NUL. -/
theorem slash_is_stored_without_nul :
    lastPath [binPath] (runCommands obligingHost [(ascii "path /usr/\n").zipIdx]
        (startState obligingHost ())) = [CString.leading (ascii "/usr/")] ∧
    (runLines obligingHost [(ascii "path /usr/\n").zipIdx]
        (startState obligingHost ())).1.path = [⟨ascii "/usr/", []⟩] ∧
    ¬ StoresString (ascii "/usr/") (withoutSlash (CString.leading (ascii "/usr/"))) := by
  refine ⟨by decide +kernel, by decide +kernel, ?_⟩
  rintro ⟨rest, shape⟩
  have zero : (0 : UInt8) ∈ ascii "/usr/" := by
    rw [shape]
    simp
  revert zero
  decide

end OsLabwork.Shell
