import OsLabwork.Library.CText

/-!
# Running a parsed command

What `exec_single_cmd` does once the segment has been parsed: built-ins run in the
shell, everything else in a forked child that searches for the program, redirects
its output and calls `execv`.

The system calls are those of an arbitrary kernel on an arbitrary state of the
world. A child works on its own copy of the world from the fork on; what the shell
can observe of it later is up to the kernel. The shell records what it does.
-/

namespace OsLabwork.Shell

/-- What `fork` returns to the parent, and the worlds of both processes. -/
structure Forked (W : Type) where
  pid : Int
  parent : W
  child : W

/-- The system calls. `access` tells whether a path can be executed, `execv` has no
result when the process image is replaced, and `beyond` is what happens to lie in
memory behind a freshly allocated block. -/
structure Kernel (W : Type) where
  chdir : W → Option CString → Int × W
  access : W → CString → Bool
  fork : W → Forked W
  execv : W → CString → List (Option CString) → Option Int
  wait : W → W
  beyond : W → List UInt8 → List UInt8
  execv_returns : ∀ world path argv result, execv world path argv = some result → result = -1

/-- A kernel on a world without state in which every call succeeds. -/
def obligingKernel : Kernel Unit where
  chdir _ _ := (0, ())
  access _ _ := true
  fork _ := ⟨1, (), ()⟩
  execv _ _ _ := none
  wait _ := ()
  beyond _ _ := []
  execv_returns _ _ _ _ returned := by simp at returned

/-- A block of the search path list and what lies behind it. -/
structure PathEntry where
  block : List UInt8
  beyond : List UInt8
deriving DecidableEq, Repr

/-- The string that is read from a block, up to the first NUL in it or behind it. -/
def PathEntry.text (entry : PathEntry) : CString :=
  CString.leading (entry.block ++ entry.beyond)

/-- How a child's run of `exec_single_cmd` ends. -/
inductive ChildEnd where
  | replaced
  | exited (status : Nat)
  | returned
deriving DecidableEq, Repr

/-- What a child did: the redirection it set up, the program it tried to execute and
with which arguments, and whether it reported an error. -/
structure ChildRun where
  redirect : Option CString
  executed : Option (CString × List (Option CString))
  reported : Bool
  ending : ChildEnd
deriving DecidableEq, Repr

/-- What the shell process did; a fork that failed has no child. -/
inductive Event where
  | error
  | fork (pid : Int) (child : Option ChildRun)
  | wait
deriving DecidableEq, Repr

/-- The shell process: its world, the search path, and what it has done. -/
structure State (W : Type) where
  world : W
  path : List PathEntry
  events : List Event

/-- A parsed command as `parse_cmd` and `parse_redirect_dest` deliver it. -/
structure Command where
  name : CString
  argv : List (Option CString)
  argc : Nat
  redirect : Option CString
deriving DecidableEq, Repr

/-- A function returns to its caller, or the process exits inside it. -/
inductive Flow (α : Type) where
  | returned (value : α)
  | exited (status : Nat)
deriving DecidableEq, Repr

/-- `exec_result`. -/
inductive ExecResult where
  | success
  | error
  | notExec
deriving DecidableEq, Repr

variable {W : Type}

/-- Something happened. -/
def State.record (state : State W) (event : Event) : State W :=
  { state with events := state.events ++ [event] }

/-- `print_error`. -/
def printError (state : State W) : State W := state.record .error

/-- `path_add`: the block has room for the string and its NUL, or, where a `/` at the
end is dropped, for exactly as many bytes as are then copied. -/
def pathAdd (kernel : Kernel W) (world : W) (path : List PathEntry) (str : CString) :
    List PathEntry :=
  let length := if str.bytes.getLast? = some 47 then str.bytes.length - 1 else str.bytes.length
  let block := (str.bytes ++ [0]).take (length + 1)
  path ++ [⟨block, kernel.beyond world block⟩]

/-- The arguments up to the terminating NULL. -/
def untilNull : List (Option CString) → List CString
  | some argument :: rest => argument :: untilNull rest
  | _ => []

/-- The names of the built-ins. -/
def exitName : CString := ⟨ascii "exit", by decide⟩
/-- The name of `cd`. -/
def cdName : CString := ⟨ascii "cd", by decide⟩
/-- The name of `path`. -/
def pathName : CString := ⟨ascii "path", by decide⟩

/-- `exec_built_in_cmd`. -/
def execBuiltInCmd (kernel : Kernel W) (command : Command) (state : State W) :
    State W × Flow ExecResult :=
  if strcmp command.name exitName = 0 then
    if command.argc > 1 then (state, .returned .error) else (state, .exited 0)
  else if strcmp command.name cdName = 0 then
    let moved := kernel.chdir state.world (command.argv[1]?.join)
    ({ state with world := moved.2 }, .returned (if moved.1 = -1 then .error else .success))
  else if strcmp command.name pathName = 0 then
    let arguments := untilNull (command.argv.drop 1)
    ({ state with path := arguments.foldl (pathAdd kernel state.world) [] }, .returned .success)
  else (state, .returned .notExec)

/-- The directory, a `/` and the name of the command. -/
def realPath (entry : PathEntry) (name : CString) : CString :=
  ⟨entry.text.bytes ++ 47 :: name.bytes, by
    simp only [List.mem_append, List.mem_cons, not_or]
    exact ⟨entry.text.noNul, by decide, name.noNul⟩⟩

/-- The search loop from a candidate and the remaining directories on: the candidate
it stops with, and whether that one can be executed. -/
def searchLoop (access : CString → Bool) (name : CString) :
    CString → List PathEntry → CString × Bool
  | cmdPath, [] => (cmdPath, access cmdPath)
  | cmdPath, entry :: entries =>
      if access cmdPath then (cmdPath, true)
      else searchLoop access name (realPath entry name) entries

/-- The child's branch of `exec_single_cmd`. -/
def childProcess (kernel : Kernel W) (world : W) (path : List PathEntry) (command : Command) :
    ChildRun :=
  let found := searchLoop (kernel.access world) command.name command.name path
  if found.2 then
    match kernel.execv world found.1 command.argv with
    | none => ⟨command.redirect, some (found.1, command.argv), false, .replaced⟩
    | some result =>
        if result = -1 then ⟨command.redirect, some (found.1, command.argv), true, .exited 0⟩
        else ⟨command.redirect, some (found.1, command.argv), false, .returned⟩
  else ⟨command.redirect, none, true, .exited 0⟩

/-- `exec_single_cmd` after parsing. The value is the number of processes to wait for;
in the parent `fork` does not return zero. -/
def execCommand (kernel : Kernel W) (command : Command) (state : State W) :
    State W × Flow Nat :=
  match execBuiltInCmd kernel command state with
  | (next, .exited status) => (next, .exited status)
  | (next, .returned .error) => (printError next, .returned 0)
  | (next, .returned .success) => (next, .returned 0)
  | (next, .returned .notExec) =>
      let forked := kernel.fork next.world
      let child := childProcess kernel forked.child next.path command
      (({ next with world := forked.parent } : State W).record
        (.fork forked.pid (if forked.pid < 0 then none else some child)), .returned 1)

/-- `wait(NULL)`, so many times. -/
def waitFor (kernel : Kernel W) : Nat → State W → State W
  | 0, state => state
  | count + 1, state =>
      waitFor kernel count (({ state with world := kernel.wait state.world } : State W).record .wait)

end OsLabwork.Shell
