import Mathlib.Data.List.FinRange
import OsLabwork.Library.Schedules
import OsLabwork.Library.Tallies

/-!
# Open files and pipe ends

The kernel has one table of open files, `ftable`, and each process has an array of
descriptors that point into it. `ref` counts the pointers to a file. `filealloc`, `filedup`
and the first half of `fileclose` run under `ftable.lock`: each is one step here, and steps
of different processes come in any order. A process's own descriptors are touched by nobody
else, nor are those of a child before `fork` has made it runnable, so reading and writing
them belongs to the step of the table next to it.

The last `fileclose` of a pipe's file closes that end of the pipe, after it has given up the
table's lock. The page of the pipe is freed when both ends are closed. Between the two, other
processes go on: they may take over the freed entry, and they may be inside a call on a pipe.

`exit` clears a descriptor only after `fileclose` has returned. Neither the process itself nor
anybody else looks at the descriptor before that, so it is cleared here together with the first
half of `fileclose`. `exit` also panics at once when the first process calls it; here that
process exits like any other, so the panics that can be seen are those of `filedup`,
`fileclose`, `fileread` and `filewrite`.

Inodes, their own reference counts and the contents of files are left out.
-/

namespace OsLabwork.Kernel.Descriptors

open Schedules Tallies

/-- The number of open files in the system, and of descriptors of a process. -/
def nfile : Nat := 100

/-- The number of descriptors of a process. -/
def nofile : Nat := 16

/-- A pointer into `ftable.file`. -/
abbrev FileNo := Fin nfile

/-- A descriptor. -/
abbrev Fd := Fin nofile

/-- The type of a file. -/
inductive FileType where
  | fdNone
  | fdPipe
  | fdInode
  deriving DecidableEq, Repr

/-- What a process finds behind a descriptor, apart from the count of pointers. -/
structure Kind (π : Type) where
  type : FileType
  readable : Bool
  writable : Bool
  pipe : Option π
  deriving DecidableEq, Repr

/-- Whether a descriptor may be read, or written. -/
def Kind.permits {π : Type} (kind : Kind π) (writes : Bool) : Bool :=
  if writes then kind.writable else kind.readable

/-- An entry of the file table. -/
structure File (π : Type) extends Kind π where
  ref : Nat
  deriving DecidableEq, Repr

/-- The flags of `struct pipe` that say which ends are open. -/
structure Ends where
  readopen : Bool
  writeopen : Bool
  deriving DecidableEq, Repr

/-- How far a process is in a system call. -/
inductive Doing (ι : Type) where
  /-- in user code, or in a system call that has not come to the table -/
  | user
  /-- in `fileread` or `filewrite` on a descriptor -/
  | inside (fd : Fd) (writes : Bool)
  /-- in `pipealloc`, with the files it has got so far -/
  | pipealloc (files : List FileNo)
  /-- in `sys_pipe`, with both ends ready to be given descriptors -/
  | sysPipe (rf wf : FileNo)
  /-- in `sys_open`, with a file that has no descriptor yet -/
  | sysOpen (f : FileNo) (readable writable : Bool)
  /-- on an error path, with files to be closed -/
  | giveUp (files : List FileNo)
  /-- in the loop of `fork` over the descriptors -/
  | fork (child : ι) (fd : Nat)
  /-- not runnable yet, while the parent fills in the descriptors -/
  | embryo (parent : ι) (fd : Nat)
  /-- in the loop of `exit` over the descriptors -/
  | exit (fd : Nat)
  | unused
  deriving DecidableEq, Repr

/-- A process: its descriptors, what it does, and a pipe end that `fileclose` has still to
close. -/
structure Proc (ι π : Type) where
  ofile : Fd → Option FileNo
  doing : Doing ι
  closing : Option (π × Bool)

/-- The file table, the processes with their descriptors, and the pipes. -/
structure System (ι π : Type) where
  files : FileNo → File π
  procs : ι → Proc ι π
  /-- the pages that hold a pipe -/
  pages : π → Option Ends
  /-- whether `filedup`, `fileclose`, `fileread` or `filewrite` has panicked -/
  panicked : Bool
  /-- whether a pipe was touched after its page was freed, or an end was closed twice -/
  strayed : Bool

section Code

variable {ι π : Type} [DecidableEq ι] [DecidableEq π]

/-- The first file of the table that nobody uses. -/
def filealloc (files : FileNo → File π) : Option FileNo :=
  (List.finRange nfile).find? (fun f => (files f).ref = 0)

/-- The first descriptor that is free. -/
def fdalloc (ofile : Fd → Option FileNo) : Option Fd :=
  (List.finRange nofile).find? (fun fd => ofile fd = none)

/-- The kernel panics. -/
def System.panic (system : System ι π) : System ι π := { system with panicked := true }

/-- One process and one file change. -/
def System.exchange (system : System ι π) (f : FileNo) (file : File π) (process : ι)
    (proc : Proc ι π) : System ι π :=
  { system with
    files := Function.update system.files f file
    procs := Function.update system.procs process proc }

/-- One process changes. -/
def System.become (system : System ι π) (process : ι) (proc : Proc ι π) : System ι π :=
  { system with procs := Function.update system.procs process proc }

/-- `filedup`, on behalf of a process that then has the new pointer. -/
def System.filedup (system : System ι π) (f : FileNo) (process : ι) (proc : Proc ι π) :
    System ι π :=
  if (system.files f).ref < 1 then system.panic
  else system.exchange f { system.files f with ref := (system.files f).ref + 1 } process proc

/-- The end of a pipe that goes with a file. -/
def Kind.pipeEnd (kind : Kind π) : Option (π × Bool) :=
  if kind.type = .fdPipe then kind.pipe.map (fun page => (page, kind.writable)) else none

/-- `fileclose` up to the release of the lock, on behalf of a process that has given up the
pointer. The last one frees the entry and goes on to close the pipe. -/
def System.fileclose (system : System ι π) (f : FileNo) (process : ι) (proc : Proc ι π) :
    System ι π :=
  let file := system.files f
  if file.ref < 1 then system.panic
  else if 0 < file.ref - 1 then system.exchange f { file with ref := file.ref - 1 } process proc
  else system.exchange f { file with ref := 0, type := .fdNone } process
    { proc with closing := file.pipeEnd }

/-- Close one end; the page is freed with the second. -/
def Ends.close (ends : Ends) (writable : Bool) : Option Ends :=
  let left : Ends :=
    if writable then { ends with writeopen := false } else { ends with readopen := false }
  if left.readopen = false ∧ left.writeopen = false then none else some left

/-- Whether an end of a pipe is open. -/
def Ends.isOpen (ends : Ends) (writable : Bool) : Bool :=
  if writable then ends.writeopen else ends.readopen

/-- `pipeclose`. -/
def System.pipeclose (system : System ι π) (process : ι) (page : π) (writable : Bool) :
    System ι π :=
  match system.pages page with
  | none => { system with strayed := true }
  | some ends =>
    if ends.isOpen writable then
      { system with
        pages := Function.update system.pages page (ends.close writable)
        procs := Function.update system.procs process
          { system.procs process with closing := none } }
    else { system with strayed := true }

/-- `sys_dup`, with its lookup of the descriptor. -/
def System.sysDup (system : System ι π) (process : ι) (fd : Fd) : System ι π :=
  let proc := system.procs process
  match proc.ofile fd with
  | none => system
  | some f =>
    match fdalloc proc.ofile with
    | none => system
    | some new =>
      system.filedup f process { proc with ofile := Function.update proc.ofile new (some f) }

/-- `sys_close`, up to the closing of the end of a pipe. -/
def System.sysClose (system : System ι π) (process : ι) (fd : Fd) : System ι π :=
  let proc := system.procs process
  match proc.ofile fd with
  | none => system
  | some f => system.fileclose f process { proc with ofile := Function.update proc.ofile fd none }

/-- `fileread` and `filewrite` up to the call of `piperead`, `pipewrite`, `readi` or
`writei`. -/
def System.enter (system : System ι π) (process : ι) (fd : Fd) (writes : Bool) : System ι π :=
  let proc := system.procs process
  match proc.ofile fd with
  | none => system
  | some f =>
    let file := system.files f
    if file.permits writes = false then system
    else if file.type = .fdNone then system.panic
    else system.become process { proc with doing := .inside fd writes }

/-- The call returns, after it has used the pipe. -/
def System.leave (system : System ι π) (process : ι) (fd : Fd) (writes : Bool) : System ι π :=
  let proc := system.procs process
  match proc.ofile fd with
  | none => { system with strayed := true }
  | some f =>
    let file := system.files f
    let sound := file.type = .fdPipe →
      ∃ page ∈ file.pipe, ∃ ends ∈ system.pages page, ends.isOpen writes = true
    if sound then system.become process { proc with doing := .user }
    else { system with strayed := true }

/-- The file that `pipealloc` makes of an entry of the table. -/
def File.ofPipe (file : File π) (page : π) (writable : Bool) : File π :=
  { file with type := .fdPipe, readable := !writable, writable := writable, pipe := some page }

/-- Two entries of the table become the ends of a pipe. -/
def makeEnds (files : FileNo → File π) (rf wf : FileNo) (page : π) : FileNo → File π :=
  Function.update (Function.update files rf ((files rf).ofPipe page false))
    wf ((files wf).ofPipe page true)

/-- `pipealloc` when it has a page and both files. -/
def System.makePipe (system : System ι π) (process : ι) (rf wf : FileNo) (page : π) :
    System ι π :=
  { system with
    files := makeEnds system.files rf wf page
    procs := Function.update system.procs process
      { system.procs process with doing := .sysPipe rf wf }
    pages := Function.update system.pages page (some ⟨true, true⟩) }

/-- The next step of a process that is in the middle of a system call. -/
def System.goOn (system : System ι π) (process : ι) : Option (System ι π) :=
  let proc := system.procs process
  match proc.doing with
  | .inside fd writes => some (system.leave process fd writes)
  | .pipealloc files =>
    if files.length < 2 then
      match filealloc system.files with
      | none => some (system.become process { proc with doing := .giveUp files })
      | some f => some (system.exchange f { system.files f with ref := 1 } process
          { proc with doing := .pipealloc (files ++ [f]) })
    else none
  | .sysPipe rf wf =>
    match fdalloc proc.ofile with
    | none => some (system.become process { proc with doing := .giveUp [rf, wf] })
    | some fd0 =>
      let ofile := Function.update proc.ofile fd0 (some rf)
      match fdalloc ofile with
      | none => some (system.become process { proc with doing := .giveUp [rf, wf] })
      | some fd1 => some (system.become process
          { proc with ofile := Function.update ofile fd1 (some wf), doing := .user })
  | .sysOpen f readable writable =>
    match fdalloc proc.ofile with
    | none => some (system.become process { proc with doing := .giveUp [f] })
    | some fd => some (system.exchange f
        { system.files f with type := .fdInode, readable := readable, writable := writable }
        process { proc with ofile := Function.update proc.ofile fd (some f), doing := .user })
  | .giveUp [] => some (system.become process { proc with doing := .user })
  | .giveUp (f :: rest) => some (system.fileclose f process { proc with doing := .giveUp rest })
  | .fork child fd =>
    let next := { proc with doing := .fork child (fd + 1) }
    let childProc := system.procs child
    if inRange : fd < nofile then
      match proc.ofile ⟨fd, inRange⟩ with
      | none => some ((system.become child { childProc with doing := .embryo process (fd + 1) }).become
          process next)
      | some f => some ((system.filedup f child
          { childProc with
            ofile := Function.update childProc.ofile ⟨fd, inRange⟩ (some f)
            doing := .embryo process (fd + 1) }).become process next)
    else some ((system.become child { childProc with doing := .user }).become process
      { proc with doing := .user })
  | .exit fd =>
    let next := { proc with doing := .exit (fd + 1) }
    if inRange : fd < nofile then
      match proc.ofile ⟨fd, inRange⟩ with
      | none => some (system.become process next)
      | some f => some (system.fileclose f process
          { next with ofile := Function.update proc.ofile ⟨fd, inRange⟩ none })
    else some (system.become process { proc with doing := .unused })
  | .user | .embryo _ _ | .unused => none

/-- What may happen next. `kalloc` is told which free page it returns, if any; `open` which
flags the mode gives. -/
inductive Label (ι π : Type) where
  | sysDup (process : ι) (fd : Fd)
  | sysClose (process : ι) (fd : Fd)
  | enter (process : ι) (fd : Fd) (writes : Bool)
  | sysPipe (process : ι)
  | kalloc (process : ι) (page : Option π)
  | sysOpen (process : ι) (readable writable : Bool)
  | fork (process child : ι)
  | exit (process : ι)
  | next (process : ι)

/-- A process that may begin a system call. -/
def System.ready (system : System ι π) (process : ι) : Prop :=
  (system.procs process).doing = .user ∧ (system.procs process).closing = none

instance (system : System ι π) (process : ι) : Decidable (system.ready process) :=
  inferInstanceAs (Decidable (_ ∧ _))

/-- One step of one process. -/
def step (system : System ι π) : Label ι π → Option (System ι π)
  | .sysDup process fd =>
    if system.ready process then some (system.sysDup process fd) else none
  | .sysClose process fd =>
    if system.ready process then some (system.sysClose process fd) else none
  | .enter process fd writes =>
    if system.ready process then some (system.enter process fd writes) else none
  | .sysPipe process =>
    if system.ready process then
      some (system.become process { system.procs process with doing := .pipealloc [] })
    else none
  | .kalloc process page =>
    match (system.procs process).doing, page with
    | .pipealloc [rf, wf], none =>
      some (system.become process { system.procs process with doing := .giveUp [rf, wf] })
    | .pipealloc [rf, wf], some page =>
      if system.pages page = none then some (system.makePipe process rf wf page) else none
    | _, _ => none
  | .sysOpen process readable writable =>
    if system.ready process then
      match filealloc system.files with
      | none => some system
      | some f => some (system.exchange f { system.files f with ref := 1 } process
          { system.procs process with doing := .sysOpen f readable writable })
    else none
  | .fork process child =>
    if system.ready process ∧ (system.procs child).doing = .unused then
      some ((system.become child { system.procs child with doing := .embryo process 0 }).become
        process { system.procs process with doing := .fork child 0 })
    else none
  | .exit process =>
    if system.ready process then
      some (system.become process { system.procs process with doing := .exit 0 })
    else none
  | .next process =>
    match (system.procs process).closing with
    | some (page, writable) => some (system.pipeclose process page writable)
    | none => system.goOn process

/-- The table is empty and there is one process. -/
def start (init : ι) : System ι π where
  files _ := { type := .fdNone, readable := false, writable := false, pipe := none, ref := 0 }
  procs process := ⟨fun _ => none, if process = init then .user else .unused, none⟩
  pages _ := none
  panicked := false
  strayed := false

end Code

end OsLabwork.Kernel.Descriptors
