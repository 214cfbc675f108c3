import OsLabwork.Library.BufferedInput
import OsLabwork.Shell.Children

/-!
# The main loop

`main` reads a line, cuts off its last character if that is white space, and hands it
to `exec_parallel_cmd`, until a line exits or the input ends.

The standard input is a regular file. Its offset is shared with the children, and each
child starts with a copy of the shell's buffer. A child that ends in `exit` moves the
offset back over what is unread in its copy; a child that executes a program does not
touch it. The children of a line have been waited for when the next line is read.

The bytes of the input carry their places, so that equal lines at different places can
be told apart; the shell works on the bytes alone. The prompt is left out.
-/

namespace OsLabwork.Shell

open BufferedInput CMemory

variable {W : Type}

/-- A byte of the input and its place. -/
abbrev InputByte := UInt8 × Nat

/-- What the shell runs on: the system calls, the size of the blocks in which the
standard input is read, and what lies in memory around a line that was read. -/
structure Host (W : Type) where
  kernel : Kernel W
  blockSize : Nat
  positive : 0 < blockSize
  around : W → List UInt8 → List UInt8 × List UInt8

/-- The end of a line. -/
def newline (byte : InputByte) : Bool := byte.1 = 10

/-- The memory when `getline` has stored a line, and the pointer to the line. -/
def lineBuffer (host : Host W) (world : W) (line : List InputByte) : List UInt8 × Nat :=
  let bytes := line.map Prod.fst
  let around := host.around world bytes
  (around.1 ++ (bytes ++ 0 :: around.2), around.1.length)

/-- Put a NUL in place of the last character of the line if it is white space. -/
def cutLast (memory : List UInt8) (cmdLine : Nat) : List UInt8 :=
  let last := cmdLine + strlen memory cmdLine - 1
  if isspace (charAt memory last) then memory.set last 0 else memory

/-- The memory that `exec_parallel_cmd` is called on, and its argument. -/
def cmdLine (host : Host W) (world : W) (line : List InputByte) : List UInt8 × Nat :=
  let buffer := lineBuffer host world line
  (cutLast buffer.1 buffer.2, buffer.2)

/-- `exec_parallel_cmd` ends. -/
theorem execParallelCmd_isSome (kernel : Kernel W) (memory : List UInt8) (cmdLine : Nat)
    (state : State W) :
    (execParallelCmd kernel (memory.length + 2) memory cmdLine state).isSome = true := by
  obtain ⟨after, flow, _, _, _, ends, _⟩ :=
    execParallelCmd_adds kernel (memory.length + 2) memory cmdLine state (by omega)
  rw [ends]
  rfl

/-- `exec_parallel_cmd` on a line that was read. It is sealed: proofs about runs must not
execute the parser. -/
@[irreducible] def handleLine (host : Host W) (line : List InputByte) (state : State W) : State W × Flow Unit :=
  let argument := cmdLine host state.world line
  (execParallelCmd host.kernel (argument.1.length + 2) argument.1 argument.2 state).get
    (execParallelCmd_isSome host.kernel argument.1 argument.2 state)

/-- A line that was passed to `exec_parallel_cmd`: its bytes in the input, and the
string that was passed. -/
structure Passed where
  line : List InputByte
  text : CString
deriving DecidableEq, Repr

/-- What is passed on for a line. -/
def passLine (host : Host W) (world : W) (line : List InputByte) : Passed :=
  let argument := cmdLine host world line
  ⟨line, stringAt argument.1 argument.2⟩

/-- The children that ended in `exit`. -/
def exits (events : List Event) : Nat :=
  events.countP fun event => match event with
    | .fork _ (some ⟨_, _, _, .exited _⟩) => true
    | _ => false

/-- The end of the shell: the lines it has passed on, its last state and its status. -/
structure Ended (W : Type) where
  passed : List Passed
  state : State W
  status : Nat

/-- The loop of `main`. -/
def mainLoop (host : Host W) : Nat → Reader InputByte → State W → Option (Ended W)
  | 0, _, _ => none
  | fuel + 1, stdin, state =>
      match stdin.getline newline host.positive with
      | (none, _) => some ⟨[], state, 0⟩
      | (some line, next) =>
          match handleLine host line state with
          | (after, .exited status) => some ⟨[passLine host state.world line], after, status⟩
          | (after, .returned _) =>
              let children := exits (after.events.drop state.events.length)
              (mainLoop host fuel (next.rewinds children) after).map fun ended =>
                { ended with passed := passLine host state.world line :: ended.passed }

/-- The first directory of the search path. -/
def binPath : CString := ⟨ascii "/bin", by decide⟩

/-- The shell before its first line. -/
def startState (host : Host W) (world : W) : State W :=
  ⟨world, pathAdd host.kernel world [] binPath, []⟩

/-- An input that nothing has been read of. -/
def openInput (content : List UInt8) : Reader InputByte := ⟨content.zipIdx, 0, []⟩

/-- `main`, given the content of its standard input and of the file it is called with,
if that can be opened. -/
def main (host : Host W) (fuel : Nat) (argc : Nat) (stdin : List UInt8)
    (file : Option (List UInt8)) (world : W) : Option (Ended W) :=
  if argc > 2 then some ⟨[], printError ⟨world, [], []⟩, 1⟩
  else if argc = 2 then
    match file with
    | none => some ⟨[], printError ⟨world, [], []⟩, 1⟩
    | some content => mainLoop host fuel (openInput content) (startState host world)
  else mainLoop host fuel (openInput stdin) (startState host world)

/-- Handle lines one after the other, up to the first that exits. -/
def runLines (host : Host W) : List (List InputByte) → State W → State W × Flow Unit
  | [], state => (state, .returned ())
  | line :: rest, state =>
      match handleLine host line state with
      | (after, .exited status) => (after, .exited status)
      | (after, .returned _) => runLines host rest after

/-- Whatever the loop reads, it handles the lines that it has passed on. -/
theorem mainLoop_runLines (host : Host W) (fuel : Nat) (stdin : Reader InputByte)
    (state : State W) (ended : Ended W) (ran : mainLoop host fuel stdin state = some ended) :
    (runLines host (ended.passed.map Passed.line) state).1 = ended.state := by
  induction fuel generalizing stdin state ended with
  | zero => simp [mainLoop] at ran
  | succ fuel inductionHypothesis =>
    rw [mainLoop] at ran
    rcases read : stdin.getline newline host.positive with ⟨_ | line, next⟩
    · simp only [read, Option.some.injEq] at ran
      simp [← ran, runLines]
    · rcases handled : handleLine host line state with ⟨after, _ | status⟩
      · simp only [read, handled, Option.map_eq_some_iff] at ran
        obtain ⟨later, looped, rfl⟩ := ran
        simpa [runLines, passLine, handled] using inductionHypothesis _ after later looped
      · simp only [read, handled, Option.some.injEq] at ran
        simp [← ran, runLines, passLine, handled]

/-- What handling a line that was read adds to the events. -/
theorem handleLine_adds (host : Host W) (line : List InputByte) (state : State W) :
    ∃ events count waits, (handleLine host line state).1.events =
        state.events ++ events ++ List.replicate waits .wait ∧ Starts events count ∧
      ((handleLine host line state).2 = .returned () → waits = count) := by
  obtain ⟨after, flow, events, count, waits, ends, logged, starts, waited⟩ :=
    execParallelCmd_adds host.kernel _ (cmdLine host state.world line).1
      (cmdLine host state.world line).2 state
      (show _ < (cmdLine host state.world line).1.length + 2 by omega)
  have result : handleLine host line state = (after, flow) := by
    delta handleLine
    exact Option.get_of_eq_some _ ends
  rw [result]
  exact ⟨events, count, waits, logged, starts, waited⟩

/-- After any lines, no child is left to wait for. -/
theorem runLines_reaps (host : Host W) (lines : List (List InputByte)) (state final : State W)
    (none : unreaped state.events = 0) (ran : runLines host lines state = (final, .returned ())) :
    unreaped final.events = 0 := by
  induction lines generalizing state with
  | nil =>
    simp only [runLines, Prod.mk.injEq, and_true] at ran
    exact ran ▸ none
  | cons line rest inductionHypothesis =>
    obtain ⟨events, count, waits, logged, starts, waited⟩ := handleLine_adds host line state
    rw [runLines] at ran
    rcases handled : handleLine host line state with ⟨after, _ | status⟩
    · rw [handled] at ran logged waited
      apply inductionHypothesis after _ ran
      rw [logged, waited rfl]
      exact starts.unreaped_zero none
    · simp [handled] at ran

/-- Whenever the shell is about to read a line, whatever lines came before and
whatever the system calls returned, it has no child to wait for. Handling the next line
consists of a part in which children are started and none is waited for, and of waits
behind it. No child comes back from `exec_single_cmd`. -/
theorem children_are_reaped (host : Host W) (world : W) (lines : List (List InputByte))
    (before : State W) (ran : runLines host lines (startState host world) = (before, .returned ()))
    (line : List InputByte) :
    unreaped before.events = 0 ∧
    ∃ events waits, (handleLine host line before).1.events =
        before.events ++ events ++ List.replicate waits .wait ∧ .wait ∉ events ∧
      ∀ pid child, .fork pid (some child) ∈ events → child.ending ≠ .returned := by
  constructor
  · exact runLines_reaps host lines (startState host world) before rfl ran
  · obtain ⟨events, count, waits, logged, starts, _⟩ := handleLine_adds host line before
    exact ⟨events, waits, logged, starts.noWait, starts.gone⟩

/-- A host on which every call succeeds. -/
def obligingHost : Host Unit := ⟨obligingKernel, 4096, by decide, fun _ _ => ([35], [])⟩

/-- A host on which no command can be executed. -/
def refusingHost : Host Unit :=
  { obligingHost with kernel := { obligingKernel with access := fun _ _ => false } }

/-- Two commands in one line. -/
theorem children_are_reaped_two_commands :
    ∃ before, runLines obligingHost [(ascii "ls & ls\n").zipIdx] (startState obligingHost ()) =
      (before, .returned ()) ∧ unreaped before.events = 0 := by
  have returned : (runLines obligingHost [(ascii "ls & ls\n").zipIdx]
      (startState obligingHost ())).2 = .returned () := by decide +kernel
  exact ⟨_, Prod.ext rfl returned,
    (children_are_reaped obligingHost () _ _ (Prod.ext rfl returned) []).1⟩

end OsLabwork.Shell
