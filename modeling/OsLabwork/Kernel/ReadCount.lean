import OsLabwork.Library.Interleaving
import OsLabwork.Library.Schedules

/-!
# Counting read calls in the kernel

`sys_read` increments `read_count` under a spin lock before it looks at its
arguments; `sys_getreadcount` loads the counter without the lock. Processes run on
processors and are taken off them by interrupts, except while `pushcli` keeps
interrupts off.

A step is one access to shared memory by one process, or the scheduler's dispatching
or preempting one. The nested `pushcli` and `popcli` of `holding` are left out: the
processor's interrupts are off around them anyway. The lock's name and the recorded
call stack are left out as well. A log records the calls, the stores to the counter
and the returns.
-/

namespace OsLabwork.Kernel

/-- What the log records of a process. -/
inductive Op where
  | readCalled
  | stored
  | readReturned (valid : Bool)
  | getCalled
  | getReturned (value : BitVec 32)
deriving DecidableEq, Repr

/-- Where a process stands: in user code, in `acquire`, at the increment, in `release`,
behind it in the body of `sys_read`, or in `sys_getreadcount`. -/
inductive Pc where
  | user
  | pushcli
  | checkLocked
  | checkCpu
  | xchg
  | claim
  | load
  | store (loaded : BitVec 32)
  | confirmLocked
  | confirmCpu
  | clearCpu
  | unlock
  | popcli
  | body
  | fetch
  | answer (value : BitVec 32)
  | panicked
deriving DecidableEq, Repr

/-- A process: its place, whether the arguments of its current read are valid, and the
processor it runs on. -/
structure Proc (C : Type) where
  pc : Pc
  valid : Bool
  on : Option C
deriving DecidableEq, Repr

/-- A processor: the process it runs and the depth of `pushcli`. -/
structure Cpu (P : Type) where
  running : Option P
  ncli : Nat
deriving DecidableEq, Repr

/-- The lock, the counter, the processes, the processors and the log. -/
structure State (P C : Type) where
  locked : Bool
  cpu : Option C
  readCount : BitVec 32
  procs : P → Proc C
  cpus : C → Cpu P
  log : List (P × Op)

/-- What a running process does next: call into the kernel, or go on there. -/
inductive Work where
  | read (valid : Bool)
  | getreadcount
  | next
deriving DecidableEq, Repr

/-- What happens next. -/
inductive Action (P C : Type) where
  | dispatch (process : P) (processor : C)
  | preempt (process : P)
  | work (process : P) (what : Work)

/-- What one access changes. -/
structure Effect (C : Type) where
  locked : Bool
  cpu : Option C
  readCount : BitVec 32
  ncli : Nat
  pc : Pc
  valid : Bool
  op : Option Op

variable {P C : Type}

/-- The kernel after `readcountinit`, with all processes in user code. -/
def start : State P C where
  locked := false
  cpu := none
  readCount := 0
  procs _ := ⟨.user, true, none⟩
  cpus _ := ⟨none, 0⟩
  log := []

/-- One access by a process on the given processor. -/
def instruction [DecidableEq C] (state : State P C) (mycpu : C) (proc : Proc C) :
    Work → Option (Effect C) :=
  let ncli := (state.cpus mycpu).ncli
  let same : Effect C :=
    ⟨state.locked, state.cpu, state.readCount, ncli, proc.pc, proc.valid, none⟩
  fun
  | .read valid =>
      if proc.pc = .user then
        some { same with pc := .pushcli, valid := valid, op := some .readCalled }
      else none
  | .getreadcount =>
      if proc.pc = .user then some { same with pc := .fetch, op := some .getCalled } else none
  | .next =>
      match proc.pc with
      | .user | .panicked => none
      | .pushcli => some { same with ncli := ncli + 1, pc := .checkLocked }
      | .checkLocked => some { same with pc := if state.locked then .checkCpu else .xchg }
      | .checkCpu => some { same with pc := if state.cpu = some mycpu then .panicked else .xchg }
      | .xchg => some { same with locked := true, pc := if state.locked then .xchg else .claim }
      | .claim => some { same with cpu := some mycpu, pc := .load }
      | .load => some { same with pc := .store state.readCount }
      | .store loaded =>
          some { same with readCount := loaded + 1, pc := .confirmLocked, op := some .stored }
      | .confirmLocked => some { same with pc := if state.locked then .confirmCpu else .panicked }
      | .confirmCpu =>
          some { same with pc := if state.cpu = some mycpu then .clearCpu else .panicked }
      | .clearCpu => some { same with cpu := none, pc := .unlock }
      | .unlock => some { same with locked := false, pc := .popcli }
      | .popcli =>
          if ncli = 0 then some { same with pc := .panicked }
          else some { same with ncli := ncli - 1, pc := .body }
      | .body => some { same with pc := .user, op := some (.readReturned proc.valid) }
      | .fetch => some { same with pc := .answer state.readCount }
      | .answer value => some { same with pc := .user, op := some (.getReturned value) }

variable [DecidableEq P] [DecidableEq C]

/-- The state after an access by a process on a processor. -/
def State.apply (state : State P C) (process : P) (processor : C) (effect : Effect C) :
    State P C where
  locked := effect.locked
  cpu := effect.cpu
  readCount := effect.readCount
  procs := Function.update state.procs process ⟨effect.pc, effect.valid, some processor⟩
  cpus := Function.update state.cpus processor ⟨some process, effect.ncli⟩
  log := state.log ++ (effect.op.map (fun op => (process, op))).toList

/-- One step of one process. -/
def step (state : State P C) : Action P C → Option (State P C)
  | .dispatch process processor =>
      if (state.procs process).on = none ∧ (state.cpus processor).running = none then
        some { state with
          procs := Function.update state.procs process
            { state.procs process with on := some processor }
          cpus := Function.update state.cpus processor
            { state.cpus processor with running := some process } }
      else none
  | .preempt process =>
      (state.procs process).on.bind fun processor =>
        if (state.cpus processor).ncli = 0 then
          some { state with
            procs := Function.update state.procs process { state.procs process with on := none }
            cpus := Function.update state.cpus processor
              { state.cpus processor with running := none } }
        else none
  | .work process what =>
      (state.procs process).on.bind fun processor =>
        (instruction state processor (state.procs process) what).map
          (state.apply process processor)

end OsLabwork.Kernel
