import OsLabwork.Library.Exclusion
import OsLabwork.Library.Monitors

/-!
# Sleep and wakeup

Kernel code that waits for a condition holds the spin lock of its data, looks at the data,
and calls `sleep` with a channel and the lock. `sleep` takes the lock of the process table
before it gives up the other lock, and only then marks the process as sleeping; the
scheduler, to which it switches, releases the process table. `wakeup` takes the lock of the
process table as well, so it cannot run between the two.

The processes here run the regions of any monitor in this way, one step for each lock that
is taken or released and each change of a process's state. Spinning is a step that is not
possible yet. What goes on elsewhere in the kernel with the process table locked, be it a
scheduler or a call of `kill`, is one more party that takes and releases this lock.

Every run is a run of the monitor whose regions are single steps. The monitor's sleeper is
ahead of the process by the steps in which the process falls asleep, and a sleeper that the
monitor has woken already may still sleep as long as the process that holds the lock has
not called `wakeup` for its channel.
-/

namespace OsLabwork.Kernel.SleepWakeup

open Exclusion Monitors Schedules

universe u
variable {ι σ κ α ε : Type u}

/-- Where a process stands. The arguments are what it does in the monitor, the channels it
has yet to wake, and how it falls asleep then. -/
inductive Place (κ α : Type u) where
  | outside
  | acquire (what : α)
  | region (what : α)
  | waking (channels : List κ) (sleeps : Option (α × κ))
  | wakeup (channel : κ) (channels : List κ) (sleeps : Option (α × κ))
  | wokenUp (channels : List κ) (sleeps : Option (α × κ))
  | releaseLock (what : α) (channel : κ)
  | markSleeping (what : α) (channel : κ)
  | sched (what : α) (channel : κ)
  | sleeping (what : α) (channel : κ)
  | runnable (what : α)
  | resumed (what : α)

/-- Whether a process holds the lock of the data. -/
def Place.holdsLock : Place κ α → Bool
  | .region _ | .waking _ _ | .wakeup _ _ _ | .wokenUp _ _ | .releaseLock _ _ => true
  | _ => false

/-- Whether a process holds the lock of the process table. -/
def Place.holdsPtable : Place κ α → Bool
  | .wakeup _ _ _ | .wokenUp _ _ | .releaseLock _ _ | .markSleeping _ _ | .sched _ _ |
      .resumed _ => true
  | _ => false

/-- What the process does in the monitor, the channel that it sleeps on or is about to, and
the channels it has yet to wake. -/
structure View (κ α : Type u) where
  doing : Option α
  channel : Option κ
  pending : List κ

/-- What a place stands for in the monitor. -/
def Place.view : Place κ α → View κ α
  | .outside => ⟨none, none, []⟩
  | .acquire what | .region what | .runnable what | .resumed what => ⟨some what, none, []⟩
  | .waking channels sleeps | .wokenUp channels sleeps =>
      ⟨sleeps.map Prod.fst, sleeps.map Prod.snd, channels⟩
  | .wakeup channel channels sleeps =>
      ⟨sleeps.map Prod.fst, sleeps.map Prod.snd, channel :: channels⟩
  | .releaseLock what channel | .markSleeping what channel | .sched what channel |
      .sleeping what channel => ⟨some what, some channel, []⟩

/-- A process: where it stands, and whether it has been killed. -/
structure Proc (κ α : Type u) where
  place : Place κ α
  killed : Bool

/-- The lock of the data, the lock of the process table, whether that one is held by code
elsewhere, the data, the processes and the log. -/
structure System (ι σ κ α ε : Type u) where
  locked : Bool
  ptableLocked : Bool
  elsewhere : Bool
  shared : σ
  procs : ι → Proc κ α
  log : List (ι × Entry α ε)

/-- The events of all processes in their order. -/
def System.events (system : System ι σ κ α ε) : List ε :=
  system.log.filterMap (fun entry => entry.2.event?)

/-- No lock is taken, and nobody has called anything. -/
def start (shared : σ) : System ι σ κ α ε :=
  ⟨false, false, false, shared, fun _ => ⟨.outside, false⟩, []⟩

/-- A process makes a call or its next step, or code elsewhere locks the process table,
kills a process, switches to one, or releases the process table. -/
inductive Label (ι α : Type u) where
  | call (process : ι) (what : α)
  | next (process : ι)
  | lockElsewhere
  | kill (process : ι)
  | switch (process : ι)
  | releaseElsewhere

/-- `wakeup1` on one process. -/
def Proc.wakeup1 [DecidableEq κ] (channel : κ) (proc : Proc κ α) : Proc κ α :=
  match proc.place with
  | .sleeping what chan => if chan = channel then { proc with place := .runnable what } else proc
  | _ => proc

/-- What `kill` does to its process. -/
def Proc.kill (proc : Proc κ α) : Proc κ α :=
  match proc.place with
  | .sleeping what _ => ⟨.runnable what, true⟩
  | _ => { proc with killed := true }

/-- Whether a process, or the code elsewhere, holds the lock of the process table. -/
def System.holdsPtable (system : System ι σ κ α ε) : Option ι → Prop
  | none => system.elsewhere = true
  | some process => (system.procs process).place.holdsPtable = true

/-- Each lock is free exactly when nobody holds it, and nobody shares it. -/
structure Locks (system : System ι σ κ α ε) : Prop where
  lock : Exclusive (fun process => (system.procs process).place.holdsLock = true)
    (system.locked = false)
  ptable : Exclusive system.holdsPtable (system.ptableLocked = false)

/-- The state of the monitor that a state of the system stands for. -/
structure Simulates (system : System ι σ κ α ε) (state : Monitors.State ι σ κ α ε) : Prop where
  shared : state.shared = system.shared
  log : state.log = system.log
  killed : ∀ process, (state.threads process).killed = (system.procs process).killed
  doing : ∀ process, (state.threads process).doing = (system.procs process).place.view.doing
  awake : ∀ process, (system.procs process).place.view.channel = none →
    (state.threads process).asleep = none
  asleep : ∀ process channel, (system.procs process).place.view.channel = some channel →
    (state.threads process).asleep = some channel ∨ (state.threads process).asleep = none ∧
      ∃ other, other ≠ process ∧ channel ∈ (system.procs other).place.view.pending
  pending : ∀ process other channel, other ≠ process →
    channel ∈ (system.procs other).place.view.pending →
    (state.threads process).asleep ≠ some channel

variable [DecidableEq ι]

/-- A process goes to another place. -/
def System.moveTo (system : System ι σ κ α ε) (process : ι) (place : Place κ α) :
    System ι σ κ α ε :=
  { system with
    procs := Function.update system.procs process { system.procs process with place := place } }

/-- `kill`, once it has found its process. -/
def System.kill (system : System ι σ κ α ε) (process : ι) : System ι σ κ α ε :=
  { system with procs := Function.update system.procs process (system.procs process).kill }

variable [DecidableEq κ]

/-- `wakeup1`, the scan of the process table. -/
def System.wakeup1 (system : System ι σ κ α ε) (channel : κ) : System ι σ κ α ε :=
  { system with procs := fun process => (system.procs process).wakeup1 channel }

/-- The next step of a process, by where it stands. -/
def System.next (monitor : Monitor σ κ α ε) (system : System ι σ κ α ε) (process : ι) :
    Option (System ι σ κ α ε) :=
  match (system.procs process).place with
  | .outside | .sleeping _ _ | .runnable _ => none
  | .acquire what =>
      if system.locked then none
      else some { system.moveTo process (.region what) with locked := true }
  | .region what =>
      let region := monitor system.shared (system.procs process).killed what
      some { system.moveTo process (.waking region.wakes region.sleeps) with
        shared := region.shared
        log := system.log ++ region.events.map (fun event => (process, .did event)) }
  | .waking (channel :: channels) sleeps =>
      if system.ptableLocked then none
      else some { system.moveTo process (.wakeup channel channels sleeps) with
        ptableLocked := true }
  | .waking [] (some (what, channel)) =>
      if system.ptableLocked then none
      else some { system.moveTo process (.releaseLock what channel) with ptableLocked := true }
  | .waking [] none => some { system.moveTo process .outside with locked := false }
  | .wakeup channel channels sleeps =>
      some ((system.wakeup1 channel).moveTo process (.wokenUp channels sleeps))
  | .wokenUp channels sleeps =>
      some { system.moveTo process (.waking channels sleeps) with ptableLocked := false }
  | .releaseLock what channel =>
      some { system.moveTo process (.markSleeping what channel) with locked := false }
  | .markSleeping what channel => some (system.moveTo process (.sched what channel))
  | .sched what channel =>
      some { system.moveTo process (.sleeping what channel) with elsewhere := true }
  | .resumed what => some { system.moveTo process (.acquire what) with ptableLocked := false }

/-- One step. -/
def step (monitor : Monitor σ κ α ε) (system : System ι σ κ α ε) :
    Label ι α → Option (System ι σ κ α ε)
  | .call process what =>
      match (system.procs process).place with
      | .outside => some { system.moveTo process (.acquire what) with
          log := system.log ++ [(process, .called what)] }
      | _ => none
  | .next process => system.next monitor process
  | .lockElsewhere =>
      if system.ptableLocked then none
      else some { system with ptableLocked := true, elsewhere := true }
  | .kill process =>
      if system.elsewhere then some (system.kill process) else none
  | .switch process =>
      if system.elsewhere then
        match (system.procs process).place with
        | .runnable what => some { system.moveTo process (.resumed what) with elsewhere := false }
        | _ => none
      else none
  | .releaseElsewhere =>
      if system.elsewhere then some { system with ptableLocked := false, elsewhere := false }
      else none

omit [DecidableEq κ] in
/-- The process is where it went. -/
@[simp] theorem moveTo_procs_self (system : System ι σ κ α ε) (process : ι) (place : Place κ α) :
    (system.moveTo process place).procs process =
      { system.procs process with place := place } :=
  Function.update_self ..

omit [DecidableEq κ] in
/-- Other processes stay where they are. -/
theorem moveTo_procs_of_ne (system : System ι σ κ α ε) {process other : ι}
    (different : other ≠ process) (place : Place κ α) :
    (system.moveTo process place).procs other = system.procs other :=
  Function.update_of_ne different ..

omit [DecidableEq ι] in
/-- The scan treats every process alike. -/
@[simp] theorem wakeup1_procs (system : System ι σ κ α ε) (channel : κ) (process : ι) :
    (system.wakeup1 channel).procs process = (system.procs process).wakeup1 channel := rfl

omit [DecidableEq κ] in
/-- `kill` reaches its process. -/
@[simp] theorem kill_procs_self (system : System ι σ κ α ε) (process : ι) :
    (system.kill process).procs process = (system.procs process).kill :=
  Function.update_self ..

omit [DecidableEq κ] in
/-- `kill` leaves other processes alone. -/
theorem kill_procs_of_ne (system : System ι σ κ α ε) {process other : ι}
    (different : other ≠ process) : (system.kill process).procs other = system.procs other :=
  Function.update_of_ne different ..

/-! ## What a step can do -/

/-- What a step of a process may do with the lock of the process table: a lock move of its
own, the hand-over to the scheduler, or the hand-over from the scheduler. -/
inductive Handles (system : System ι σ κ α ε) (before after : Place κ α)
    (ptableLocked elsewhere : Bool) : Prop where
  | moves (moved : Move (before.holdsPtable = true) (after.holdsPtable = true)
      (system.ptableLocked = false) (ptableLocked = false)) (same : elsewhere = system.elsewhere)
  | gives (held : before.holdsPtable = true) (out : after.holdsPtable = false)
      (same : ptableLocked = system.ptableLocked) (now : elsewhere = true)
  | takes (held : system.elsewhere = true) (now : after.holdsPtable = true)
      (same : ptableLocked = system.ptableLocked) (out : elsewhere = false)

/-- A step in which a process only goes on and deals with locks. -/
structure Quiet (system : System ι σ κ α ε) (before after : Place κ α)
    (locked ptableLocked elsewhere : Bool) : Prop where
  view : after.view = before.view
  lock : Move (before.holdsLock = true) (after.holdsLock = true)
    (system.locked = false) (locked = false)
  ptable : Handles system before after ptableLocked elsewhere

/-- Everything that a step can do. -/
inductive Happens (monitor : Monitor σ κ α ε) (system : System ι σ κ α ε) (label : Label ι α)
    (after : System ι σ κ α ε) : Prop where
  | called (process : ι) (what : α) (isCall : label = .call process what)
      (place : (system.procs process).place = .outside)
      (now : after = { system.moveTo process (.acquire what) with
        log := system.log ++ [(process, .called what)] })
  | ran (process : ι) (what : α) (region : Region σ κ α ε)
      (place : (system.procs process).place = .region what)
      (by_monitor : region = monitor system.shared (system.procs process).killed what)
      (now : after = { system.moveTo process (.waking region.wakes region.sleeps) with
        shared := region.shared
        log := system.log ++ region.events.map (fun event => (process, .did event)) })
  | woke (process : ι) (channel : κ) (channels : List κ) (sleeps : Option (α × κ))
      (place : (system.procs process).place = .wakeup channel channels sleeps)
      (now : after = (system.wakeup1 channel).moveTo process (.wokenUp channels sleeps))
  | quiet (process : ι) (place : Place κ α) (locked ptableLocked elsewhere : Bool)
      (quiet : Quiet system (system.procs process).place place locked ptableLocked elsewhere)
      (now : after = { system.moveTo process place with
        locked := locked, ptableLocked := ptableLocked, elsewhere := elsewhere })
  | killed (process : ι) (now : after = system.kill process)
  | elsewhere (ptableLocked elsewhere : Bool)
      (moved : Move (system.elsewhere = true) (elsewhere = true)
        (system.ptableLocked = false) (ptableLocked = false))
      (now : after = { system with ptableLocked := ptableLocked, elsewhere := elsewhere })

variable {monitor : Monitor σ κ α ε} {system after : System ι σ κ α ε}

/-- A process does what its place says, and waits where it sleeps or spins. -/
theorem next_happens {process : ι} (taken : system.next monitor process = some after) :
    Happens monitor system (.next process) after := by
  cases place : (system.procs process).place with
  | outside => simp [System.next, place] at taken
  | sleeping what channel => simp [System.next, place] at taken
  | runnable what => simp [System.next, place] at taken
  | acquire what =>
    cases locked : system.locked with
    | true => simp [System.next, place, locked] at taken
    | false =>
      simp only [System.next, place, locked, Bool.false_eq_true, ↓reduceIte,
        Option.some.injEq] at taken
      refine .quiet process (.region what) true system.ptableLocked system.elsewhere ?_ taken.symm
      rw [place]
      exact ⟨rfl, .enters locked rfl Bool.noConfusion,
        .moves (.stays Iff.rfl Iff.rfl) rfl⟩
  | region what =>
    simp only [System.next, place, Option.some.injEq] at taken
    exact .ran process what _ place rfl taken.symm
  | waking channels sleeps =>
    match channels, sleeps with
    | channel :: channels, sleeps =>
      cases locked : system.ptableLocked with
      | true => simp [System.next, place, locked] at taken
      | false =>
        simp only [System.next, place, locked, Bool.false_eq_true, ↓reduceIte,
          Option.some.injEq] at taken
        refine .quiet process (.wakeup channel channels sleeps) system.locked true
          system.elsewhere ?_ taken.symm
        rw [place]
        exact ⟨rfl, .stays Iff.rfl Iff.rfl, .moves (.enters locked rfl Bool.noConfusion) rfl⟩
    | [], some (what, channel) =>
      cases locked : system.ptableLocked with
      | true => simp [System.next, place, locked] at taken
      | false =>
        simp only [System.next, place, locked, Bool.false_eq_true, ↓reduceIte,
          Option.some.injEq] at taken
        refine .quiet process (.releaseLock what channel) system.locked true
          system.elsewhere ?_ taken.symm
        rw [place]
        exact ⟨rfl, .stays Iff.rfl Iff.rfl, .moves (.enters locked rfl Bool.noConfusion) rfl⟩
    | [], none =>
      simp only [System.next, place, Option.some.injEq] at taken
      refine .quiet process .outside false system.ptableLocked system.elsewhere ?_ taken.symm
      rw [place]
      exact ⟨rfl, .leaves rfl Bool.noConfusion rfl, .moves (.stays Iff.rfl Iff.rfl) rfl⟩
  | wakeup channel channels sleeps =>
    simp only [System.next, place, Option.some.injEq] at taken
    exact .woke process channel channels sleeps place taken.symm
  | wokenUp channels sleeps =>
    simp only [System.next, place, Option.some.injEq] at taken
    refine .quiet process (.waking channels sleeps) system.locked false
      system.elsewhere ?_ taken.symm
    rw [place]
    exact ⟨rfl, .stays Iff.rfl Iff.rfl, .moves (.leaves rfl Bool.noConfusion rfl) rfl⟩
  | releaseLock what channel =>
    simp only [System.next, place, Option.some.injEq] at taken
    refine .quiet process (.markSleeping what channel) false system.ptableLocked
      system.elsewhere ?_ taken.symm
    rw [place]
    exact ⟨rfl, .leaves rfl Bool.noConfusion rfl, .moves (.stays Iff.rfl Iff.rfl) rfl⟩
  | markSleeping what channel =>
    simp only [System.next, place, Option.some.injEq] at taken
    refine .quiet process (.sched what channel) system.locked system.ptableLocked
      system.elsewhere ?_ taken.symm
    rw [place]
    exact ⟨rfl, .stays Iff.rfl Iff.rfl, .moves (.stays Iff.rfl Iff.rfl) rfl⟩
  | sched what channel =>
    simp only [System.next, place, Option.some.injEq] at taken
    refine .quiet process (.sleeping what channel) system.locked system.ptableLocked
      true ?_ taken.symm
    rw [place]
    exact ⟨rfl, .stays Iff.rfl Iff.rfl, .gives rfl rfl rfl rfl⟩
  | resumed what =>
    simp only [System.next, place, Option.some.injEq] at taken
    refine .quiet process (.acquire what) system.locked false system.elsewhere ?_ taken.symm
    rw [place]
    exact ⟨rfl, .stays Iff.rfl Iff.rfl, .moves (.leaves rfl Bool.noConfusion rfl) rfl⟩

/-- Nothing else happens in a step. -/
theorem step_happens {label : Label ι α} (taken : step monitor system label = some after) :
    Happens monitor system label after := by
  cases label with
  | call process what =>
    cases place : (system.procs process).place with
    | outside => exact .called process what rfl place (by simpa [step, place] using taken.symm)
    | _ => simp [step, place] at taken
  | next process => exact next_happens taken
  | lockElsewhere =>
    cases locked : system.ptableLocked with
    | true => simp [step, locked] at taken
    | false =>
      exact .elsewhere true true (.enters locked rfl Bool.noConfusion)
        (by simpa [step, locked] using taken.symm)
  | kill process =>
    cases held : system.elsewhere with
    | false => simp [step, held] at taken
    | true => exact .killed process (by simpa [step, held] using taken.symm)
  | switch process =>
    cases held : system.elsewhere with
    | false => simp [step, held] at taken
    | true =>
      cases place : (system.procs process).place with
      | runnable what =>
        simp only [step, held, place, ↓reduceIte, Option.some.injEq] at taken
        refine .quiet process (.resumed what) system.locked system.ptableLocked
          false ?_ taken.symm
        rw [place]
        exact ⟨rfl, .stays Iff.rfl Iff.rfl, .takes held rfl rfl rfl⟩
      | _ => simp [step, held, place] at taken
  | releaseElsewhere =>
    cases held : system.elsewhere with
    | false => simp [step, held] at taken
    | true =>
      exact .elsewhere false false (.leaves held Bool.noConfusion rfl)
        (by simpa [step, held] using taken.symm)

/-! ## The locks are held by one process at a time -/

section Proc

omit [DecidableEq ι]

/-- `wakeup1` makes a process runnable that sleeps on the channel, and leaves others alone. -/
theorem Proc.wakeup1_cases (channel : κ) (proc : Proc κ α) :
    (∃ what, proc.place = .sleeping what channel ∧
      proc.wakeup1 channel = { proc with place := .runnable what }) ∨
    (∀ what, proc.place ≠ .sleeping what channel) ∧ proc.wakeup1 channel = proc := by
  rw [Proc.wakeup1]
  grind

/-- Nobody is killed by being woken. -/
theorem Proc.wakeup1_killed (channel : κ) (proc : Proc κ α) :
    (proc.wakeup1 channel).killed = proc.killed := by
  obtain ⟨what, _, woken⟩ | ⟨_, same⟩ := proc.wakeup1_cases channel
  · rw [woken]
  · rw [same]

/-- Whoever is woken goes on with the same. -/
theorem Proc.wakeup1_doing (channel : κ) (proc : Proc κ α) :
    (proc.wakeup1 channel).place.view.doing = proc.place.view.doing := by
  obtain ⟨what, sleeping, woken⟩ | ⟨_, same⟩ := proc.wakeup1_cases channel
  · rw [woken, sleeping]
    rfl
  · rw [same]

/-- Whoever is woken has nobody to wake. -/
theorem Proc.wakeup1_pending (channel : κ) (proc : Proc κ α) :
    (proc.wakeup1 channel).place.view.pending = proc.place.view.pending := by
  obtain ⟨what, sleeping, woken⟩ | ⟨_, same⟩ := proc.wakeup1_cases channel
  · rw [woken, sleeping]
    rfl
  · rw [same]

omit [DecidableEq κ] in
/-- `kill` sets the flag, and makes a process runnable that sleeps. -/
theorem Proc.kill_cases (proc : Proc κ α) :
    (∃ what channel, proc.place = .sleeping what channel ∧ proc.kill = ⟨.runnable what, true⟩) ∨
    proc.kill = { proc with killed := true } := by
  rw [Proc.kill]
  grind

end Proc

omit [DecidableEq ι] [DecidableEq κ] in
/-- Steps that leave the locks alone. -/
theorem Locks.of_same (locks : Locks system) (locked : after.locked = system.locked)
    (ptableLocked : after.ptableLocked = system.ptableLocked)
    (elsewhere : after.elsewhere = system.elsewhere)
    (lock : ∀ process, (after.procs process).place.holdsLock =
      (system.procs process).place.holdsLock)
    (ptable : ∀ process, (after.procs process).place.holdsPtable =
      (system.procs process).place.holdsPtable) : Locks after := by
  have holders : after.holdsPtable = system.holdsPtable := by
    funext holder
    cases holder with
    | none => simp only [System.holdsPtable, elsewhere]
    | some process => simp only [System.holdsPtable, ptable]
  refine ⟨?_, ?_⟩
  · simpa only [lock, locked] using locks.lock
  · simpa only [holders, ptableLocked] using locks.ptable

omit [DecidableEq κ] in
/-- Locks that are taken, released or handed over. -/
theorem Locks.quiet (locks : Locks system) {process : ι} {place : Place κ α}
    {locked ptableLocked elsewhere : Bool}
    (quiet : Quiet system (system.procs process).place place locked ptableLocked elsewhere) :
    Locks { system.moveTo process place with
      locked := locked, ptableLocked := ptableLocked, elsewhere := elsewhere } := by
  have others : ∀ other, other ≠ process →
      (system.moveTo process place).procs other = system.procs other :=
    fun other different => moveTo_procs_of_ne system different place
  refine ⟨?_, ?_⟩
  · refine locks.lock.move process (fun other different => ?_) ?_
    · simp only [others other different]
    · simpa only [moveTo_procs_self] using quiet.lock
  · cases quiet.ptable with
    | moves moved same =>
      refine locks.ptable.move (some process) (fun holder different => ?_) ?_
      · cases holder with
        | none => simp only [System.holdsPtable, same]
        | some other =>
          have otherProcess : other ≠ process := fun equal => different (congrArg some equal)
          simp only [System.holdsPtable, others other otherProcess]
      · simpa only [System.holdsPtable, moveTo_procs_self] using moved
    | gives held out same now =>
      have locked : system.ptableLocked ≠ false := fun free =>
        locks.ptable.free_iff.mp free (some process) held
      refine locks.ptable.pass (some process) none held (fun holder notProcess notNone => ?_)
        ?_ now (same ▸ locked)
      · cases holder with
        | none => exact absurd rfl notNone
        | some other =>
          have otherProcess : other ≠ process := fun equal => notProcess (congrArg some equal)
          simp only [System.holdsPtable, others other otherProcess]
      · simp only [System.holdsPtable, moveTo_procs_self, out, Bool.false_eq_true, not_false_eq_true]
    | takes held now same out =>
      have locked : system.ptableLocked ≠ false := fun free =>
        locks.ptable.free_iff.mp free none held
      refine locks.ptable.pass none (some process) held (fun holder notNone notProcess => ?_)
        ?_ ?_ (same ▸ locked)
      · cases holder with
        | none => exact absurd rfl notNone
        | some other =>
          have otherProcess : other ≠ process := fun equal => notProcess (congrArg some equal)
          simp only [System.holdsPtable, others other otherProcess]
      · simp only [System.holdsPtable, out, Bool.false_eq_true, not_false_eq_true]
      · simpa only [System.holdsPtable, moveTo_procs_self] using now

omit [DecidableEq ι] [DecidableEq κ] in
/-- At first nobody holds a lock. -/
theorem locks_start (shared : σ) : Locks (start shared : System ι σ κ α ε) := by
  refine ⟨exclusive_initially (fun _ => Bool.noConfusion) rfl,
    exclusive_initially (fun holder => ?_) rfl⟩
  cases holder with
  | none => exact Bool.noConfusion
  | some process => exact Bool.noConfusion

/-- Every step keeps the locks exclusive. -/
theorem Locks.step (locks : Locks system) {label : Label ι α}
    (happens : Happens monitor system label after) : Locks after := by
  cases happens with
  | called process what _ place now =>
    subst now
    refine locks.of_same rfl rfl rfl (fun other => ?_) (fun other => ?_) <;>
    · by_cases isProcess : other = process
      · subst isProcess
        simp only [moveTo_procs_self, place]
        rfl
      · simp only [moveTo_procs_of_ne system isProcess]
  | ran process what region place _ now =>
    subst now
    refine locks.of_same rfl rfl rfl (fun other => ?_) (fun other => ?_) <;>
    · by_cases isProcess : other = process
      · subst isProcess
        simp only [moveTo_procs_self, place]
        rfl
      · simp only [moveTo_procs_of_ne system isProcess]
  | woke process channel channels sleeps place now =>
    subst now
    refine locks.of_same rfl rfl rfl (fun other => ?_) (fun other => ?_) <;>
    · by_cases isProcess : other = process
      · subst isProcess
        simp only [moveTo_procs_self, place]
        rfl
      · rw [moveTo_procs_of_ne _ isProcess, wakeup1_procs]
        obtain ⟨what, sleeping, woken⟩ | ⟨_, same⟩ := (system.procs other).wakeup1_cases channel
        · rw [woken, sleeping]
          rfl
        · rw [same]
  | quiet process place locked ptableLocked elsewhere quiet now =>
    subst now
    exact locks.quiet quiet
  | killed process now =>
    subst now
    refine locks.of_same rfl rfl rfl (fun other => ?_) (fun other => ?_) <;>
    · by_cases isProcess : other = process
      · subst isProcess
        rw [kill_procs_self]
        obtain ⟨what, channel, sleeping, roused⟩ | same := (system.procs other).kill_cases
        · rw [roused, sleeping]
          rfl
        · rw [same]
      · rw [kill_procs_of_ne system isProcess]
  | elsewhere ptableLocked elsewhere moved now =>
    subst now
    refine ⟨locks.lock, locks.ptable.move none (fun holder different => ?_) moved⟩
    cases holder with
    | none => exact absurd rfl different
    | some process => exact Iff.rfl

/-! ## Every run is a run of the monitor -/

section Views

omit [DecidableEq κ]

/-- Whoever has channels to wake holds the lock of the data. -/
theorem Place.holdsLock_of_pending {place : Place κ α} {channel : κ}
    (pending : channel ∈ place.view.pending) : place.holdsLock = true := by
  cases place with
  | waking | wakeup | wokenUp => rfl
  | _ => simp [Place.view] at pending

/-- Whoever sleeps or is about to holds a lock as long as it is not marked as sleeping. -/
theorem Place.sleeping_or_holds {place : Place κ α} {channel : κ}
    (about : place.view.channel = some channel) :
    (∃ what, place = .sleeping what channel) ∨ place.holdsLock = true ∨
      place.holdsPtable = true := by
  cases place with
  | sleeping what other =>
    obtain rfl : other = channel := Option.some.inj about
    exact Or.inl ⟨what, rfl⟩
  | waking | wakeup | wokenUp | releaseLock => exact Or.inr (Or.inl rfl)
  | markSleeping | sched => exact Or.inr (Or.inr rfl)
  | _ => simp [Place.view] at about

end Views

variable {state : Monitors.State ι σ κ α ε}

omit [DecidableEq ι] [DecidableEq κ] in
/-- A state of the system stands for what its views stand for. -/
theorem Simulates.of_same (simulates : Simulates system state)
    (shared : after.shared = system.shared) (log : after.log = system.log)
    (killed : ∀ process, (after.procs process).killed = (system.procs process).killed)
    (view : ∀ process, (after.procs process).place.view = (system.procs process).place.view) :
    Simulates after state where
  shared := simulates.shared.trans shared.symm
  log := simulates.log.trans log.symm
  killed process := (simulates.killed process).trans (killed process).symm
  doing process := by rw [view]; exact simulates.doing process
  awake process := by rw [view]; exact simulates.awake process
  asleep process channel := by simpa only [view] using simulates.asleep process channel
  pending process other channel := by rw [view]; exact simulates.pending process other channel

omit [DecidableEq κ] in
/-- A call enters the monitor. -/
theorem Simulates.call (simulates : Simulates system state) {process : ι} (what : α)
    (place : (system.procs process).place = .outside) :
    Simulates { system.moveTo process (.acquire what) with
      log := system.log ++ [(process, .called what)] } (state.enter process what) := by
  have samePending : ∀ other,
      ((system.moveTo process (.acquire what)).procs other).place.view.pending =
        (system.procs other).place.view.pending := by
    intro other
    by_cases isProcess : other = process
    · rw [isProcess, moveTo_procs_self, place]
      rfl
    · rw [moveTo_procs_of_ne system isProcess]
  have sameChannel : ∀ other,
      ((system.moveTo process (.acquire what)).procs other).place.view.channel =
        (system.procs other).place.view.channel := by
    intro other
    by_cases isProcess : other = process
    · rw [isProcess, moveTo_procs_self, place]
      rfl
    · rw [moveTo_procs_of_ne system isProcess]
  have sameAsleep : ∀ other, ((state.enter process what).threads other).asleep =
      (state.threads other).asleep := by
    intro other
    by_cases isProcess : other = process
    · simp [Monitors.State.enter, isProcess]
    · simp [Monitors.State.enter, isProcess]
  refine ⟨simulates.shared, ?_, fun other => ?_, fun other => ?_, fun other => ?_,
    fun other channel => ?_, fun other third channel => ?_⟩
  · simp [Monitors.State.enter, simulates.log]
  · by_cases isProcess : other = process
    · simpa [Monitors.State.enter, isProcess] using simulates.killed process
    · simpa [Monitors.State.enter, isProcess, moveTo_procs_of_ne system isProcess] using
        simulates.killed other
  · by_cases isProcess : other = process
    · simp [Monitors.State.enter, isProcess, Place.view]
    · simpa [Monitors.State.enter, isProcess, moveTo_procs_of_ne system isProcess] using
        simulates.doing other
  · simpa only [sameChannel, sameAsleep] using simulates.awake other
  · simpa only [sameChannel, sameAsleep, samePending] using simulates.asleep other channel
  · simpa only [sameAsleep, samePending] using simulates.pending other third channel

/-- With one process in its region, nobody has channels to wake, so whoever is about to sleep
does so in the monitor. -/
theorem Simulates.take (simulates : Simulates system state) (locks : Locks system) {process : ι}
    {what : α} (place : (system.procs process).place = .region what) (region : Region σ κ α ε) :
    Simulates { system.moveTo process (.waking region.wakes region.sleeps) with
      shared := region.shared
      log := system.log ++ region.events.map (fun event => (process, .did event)) }
      (state.take process region) := by
  have nonePending : ∀ other channel, channel ∉ (system.procs other).place.view.pending := by
    intro other channel pending
    have isProcess : other = process := locks.lock.unique other process
      (Place.holdsLock_of_pending pending) (by simp only [place]; rfl)
    rw [isProcess, place] at pending
    exact List.not_mem_nil pending
  have settled : ∀ other channel, (system.procs other).place.view.channel = some channel →
      (state.threads other).asleep = some channel := by
    intro other channel about
    obtain asleep | ⟨_, third, _, pending⟩ := simulates.asleep other channel about
    · exact asleep
    · exact absurd pending (nonePending third channel)
  refine ⟨rfl, ?_, fun other => ?_, fun other => ?_, fun other awake => ?_,
    fun other channel about => ?_, fun other third channel different pending => ?_⟩
  · simp [Monitors.State.take, simulates.log]
  · by_cases isProcess : other = process
    · simpa [Monitors.State.take, isProcess] using simulates.killed process
    · simpa [Monitors.State.take, isProcess, moveTo_procs_of_ne system isProcess] using
        simulates.killed other
  · by_cases isProcess : other = process
    · simp [Monitors.State.take, isProcess, Place.view]
    · simpa [Monitors.State.take, isProcess, moveTo_procs_of_ne system isProcess] using
        simulates.doing other
  · by_cases isProcess : other = process
    · subst isProcess
      rw [moveTo_procs_self] at awake
      simpa [Monitors.State.take, Place.view] using awake
    · rw [moveTo_procs_of_ne system isProcess] at awake
      rw [take_threads_of_ne _ _ isProcess]
      refine Thread.wake_asleep_eq_none (fun channel asleep => ?_)
      rw [simulates.awake other awake] at asleep
      exact absurd asleep.symm (Option.some_ne_none channel)
  · by_cases isProcess : other = process
    · subst isProcess
      rw [moveTo_procs_self] at about
      exact Or.inl (by simpa [Monitors.State.take, Place.view] using about)
    · rw [moveTo_procs_of_ne system isProcess] at about
      rw [take_threads_of_ne _ _ isProcess]
      by_cases woken : channel ∈ region.wakes
      · refine Or.inr ⟨?_, process, Ne.symm isProcess, ?_⟩
        · refine Thread.wake_asleep_eq_none (fun another asleep => ?_)
          rw [settled other channel about] at asleep
          exact Option.some.inj asleep ▸ woken
        · rw [moveTo_procs_self]
          exact woken
      · exact Or.inl ((Thread.wake_asleep_iff _ _ _).mpr ⟨settled other channel about, woken⟩)
  · by_cases isProcess : third = process
    · subst isProcess
      rw [moveTo_procs_self] at pending
      rw [take_threads_of_ne _ _ (Ne.symm different), Ne, Thread.wake_asleep_iff]
      exact fun asleep => asleep.2 pending
    · rw [moveTo_procs_of_ne system isProcess] at pending
      exact absurd pending (nonePending third channel)

/-- By the time a process scans the process table, whoever had fallen asleep on the channel in
the monitor is marked as sleeping, and is woken. -/
theorem Simulates.wakeup (simulates : Simulates system state) (locks : Locks system)
    {process : ι} {channel : κ} {channels : List κ} {sleeps : Option (α × κ)}
    (place : (system.procs process).place = .wakeup channel channels sleeps) :
    Simulates ((system.wakeup1 channel).moveTo process (.wokenUp channels sleeps)) state := by
  have holdsLock : ∀ other, (system.procs other).place.holdsLock = true → other = process :=
    fun other holds => locks.lock.unique other process holds (by simp only [place]; rfl)
  have holdsPtable : ∀ other, (system.procs other).place.holdsPtable = true → other = process :=
    fun other holds => Option.some.inj (locks.ptable.unique (some other) (some process) holds
      (by simp only [System.holdsPtable, place]; rfl))
  have isSleeping : ∀ other, other ≠ process →
      (system.procs other).place.view.channel = some channel →
      ∃ what, (system.procs other).place = .sleeping what channel := by
    intro other different about
    obtain sleeping | holds | holds := Place.sleeping_or_holds about
    · exact sleeping
    · exact absurd (holdsLock other holds) different
    · exact absurd (holdsPtable other holds) different
  have ofOther : ∀ {other}, other ≠ process →
      ((system.wakeup1 channel).moveTo process (.wokenUp channels sleeps)).procs other =
        (system.procs other).wakeup1 channel := fun different => moveTo_procs_of_ne _ different _
  refine ⟨simulates.shared, simulates.log, fun other => ?_, fun other => ?_,
    fun other awake => ?_, fun other another about => ?_, fun other third another different => ?_⟩
  · by_cases isProcess : other = process
    · rw [isProcess, moveTo_procs_self, wakeup1_procs, Proc.wakeup1_killed]
      exact simulates.killed process
    · rw [ofOther isProcess, Proc.wakeup1_killed]
      exact simulates.killed other
  · by_cases isProcess : other = process
    · rw [isProcess, moveTo_procs_self, simulates.doing process, place]
      rfl
    · rw [ofOther isProcess, Proc.wakeup1_doing]
      exact simulates.doing other
  · by_cases isProcess : other = process
    · subst isProcess
      rw [moveTo_procs_self] at awake
      exact simulates.awake other (by rw [place]; exact awake)
    · rw [ofOther isProcess] at awake
      obtain ⟨what, sleeping, _⟩ | ⟨_, same⟩ := (system.procs other).wakeup1_cases channel
      · have notAsleep := simulates.pending other process channel (Ne.symm isProcess)
          (by rw [place]; exact List.mem_cons_self)
        obtain asleep | ⟨asleep, _⟩ := simulates.asleep other channel (by rw [sleeping]; rfl)
        · exact absurd asleep notAsleep
        · exact asleep
      · rw [same] at awake
        exact simulates.awake other awake
  · by_cases isProcess : other = process
    · subst isProcess
      rw [moveTo_procs_self] at about
      obtain asleep | ⟨_, third, different, pending⟩ :=
        simulates.asleep other another (by rw [place]; exact about)
      · exact Or.inl asleep
      · exact absurd (holdsLock third (Place.holdsLock_of_pending pending)) different
    · rw [ofOther isProcess] at about
      obtain ⟨what, _, woken⟩ | ⟨notSleeping, same⟩ :=
        (system.procs other).wakeup1_cases channel
      · rw [woken] at about
        exact absurd about.symm (Option.some_ne_none another)
      · rw [same] at about
        have remains : another ≠ channel := by
          rintro rfl
          obtain ⟨what, sleeping⟩ := isSleeping other isProcess about
          exact notSleeping what sleeping
        obtain asleep | ⟨asleep, third, _, pending⟩ := simulates.asleep other another about
        · exact Or.inl asleep
        · obtain rfl := holdsLock third (Place.holdsLock_of_pending pending)
          refine Or.inr ⟨asleep, third, Ne.symm isProcess, ?_⟩
          rw [place] at pending
          rw [moveTo_procs_self]
          exact (List.mem_cons.mp pending).resolve_left remains
  · intro pending
    refine simulates.pending other third another different ?_
    by_cases isProcess : third = process
    · subst isProcess
      rw [moveTo_procs_self] at pending
      rw [place]
      exact List.mem_cons_of_mem channel pending
    · rwa [ofOther isProcess, Proc.wakeup1_pending] at pending

omit [DecidableEq κ] in
/-- A process that is killed before it is marked as sleeping falls asleep all the same. -/
theorem Simulates.kill (simulates : Simulates system state) (process : ι) :
    ∃ roused, Simulates (system.kill process) (state.kill process roused) := by
  obtain ⟨what, channel, sleeping, kill⟩ | kill := (system.procs process).kill_cases
  · have samePending : ∀ other, ((system.kill process).procs other).place.view.pending =
        (system.procs other).place.view.pending := by
      intro other
      by_cases isProcess : other = process
      · rw [isProcess, kill_procs_self, kill, sleeping]
        rfl
      · rw [kill_procs_of_ne system isProcess]
    refine ⟨true, simulates.shared, simulates.log, fun other => ?_, fun other => ?_,
      fun other awake => ?_, fun other another about => ?_,
      fun other third another different pending => ?_⟩
    · by_cases isProcess : other = process
      · simp [Monitors.State.kill, isProcess, kill]
      · simpa [Monitors.State.kill, isProcess, kill_procs_of_ne system isProcess] using
          simulates.killed other
    · by_cases isProcess : other = process
      · simpa [Monitors.State.kill, isProcess, kill, sleeping, Place.view] using simulates.doing process
      · simpa [Monitors.State.kill, isProcess, kill_procs_of_ne system isProcess] using
          simulates.doing other
    · by_cases isProcess : other = process
      · simp [Monitors.State.kill, isProcess]
      · rw [kill_procs_of_ne system isProcess] at awake
        simpa [Monitors.State.kill, isProcess] using simulates.awake other awake
    · by_cases isProcess : other = process
      · rw [isProcess, kill_procs_self, kill] at about
        exact absurd about.symm (Option.some_ne_none another)
      · rw [kill_procs_of_ne system isProcess] at about
        simpa only [samePending, Monitors.State.kill, Function.update_of_ne isProcess] using
          simulates.asleep other another about
    · rw [samePending] at pending
      by_cases isProcess : other = process
      · simp [Monitors.State.kill, isProcess]
      · simpa [Monitors.State.kill, isProcess] using
          simulates.pending other third another different pending
  · have sameView : ∀ other, ((system.kill process).procs other).place.view =
        (system.procs other).place.view := by
      intro other
      by_cases isProcess : other = process
      · rw [isProcess, kill_procs_self, kill]
      · rw [kill_procs_of_ne system isProcess]
    have sameAsleep : ∀ other, ((state.kill process false).threads other).asleep =
        (state.threads other).asleep := by
      intro other
      by_cases isProcess : other = process <;> simp [Monitors.State.kill, isProcess]
    refine ⟨false, simulates.shared, simulates.log, fun other => ?_, fun other => ?_,
      fun other => ?_, fun other another => ?_, fun other third another => ?_⟩
    · by_cases isProcess : other = process
      · simp [Monitors.State.kill, isProcess, kill]
      · simpa [Monitors.State.kill, isProcess, kill_procs_of_ne system isProcess] using
          simulates.killed other
    · rw [sameView]
      by_cases isProcess : other = process
      · simpa [Monitors.State.kill, isProcess] using simulates.doing process
      · simpa [Monitors.State.kill, isProcess] using simulates.doing other
    · simpa only [sameView, sameAsleep] using simulates.awake other
    · simpa only [sameView, sameAsleep] using simulates.asleep other another
    · simpa only [sameView, sameAsleep] using simulates.pending other third another

omit [DecidableEq ι] [DecidableEq κ] in
/-- At first the monitor has been entered by nobody. -/
theorem simulates_start (shared : σ) :
    Simulates (start shared : System ι σ κ α ε) (Monitors.start shared) where
  shared := rfl
  log := rfl
  killed _ := rfl
  doing _ := rfl
  awake _ _ := rfl
  asleep _ channel about := absurd about.symm (Option.some_ne_none channel)
  pending _ _ _ _ pending := absurd pending List.not_mem_nil

/-- Regions, calls and kills are steps of the monitor; what the locks need is not. -/
theorem Simulates.step (simulates : Simulates system state) (locks : Locks system)
    {label : Label ι α} (happens : Happens monitor system label after) :
    Simulates after state ∨ ∃ action next, Monitors.step monitor state action = some next ∧
      Simulates after next ∧
      ∀ process what, action = .call process what → label = .call process what := by
  cases happens with
  | called process what isCall place now =>
    subst now
    have idle : (state.threads process).doing = none := by
      rw [simulates.doing, place]
      rfl
    refine Or.inr ⟨.call process what, _, by simp only [Monitors.step, idle],
      simulates.call what place, fun other another same => ?_⟩
    obtain ⟨rfl, rfl⟩ := Action.call.inj same
    exact isCall
  | ran process what region place byMonitor now =>
    subst now
    have doing : (state.threads process).doing = some what := by
      rw [simulates.doing, place]
      rfl
    have awake : (state.threads process).asleep = none :=
      simulates.awake process (by rw [place]; rfl)
    refine Or.inr ⟨.run process, _, ?_, simulates.take locks place region,
      by simp⟩
    simp only [Monitors.step, doing, awake, simulates.shared, simulates.killed, byMonitor]
  | woke process channel channels sleeps place now =>
    subst now
    exact Or.inl (simulates.wakeup locks place)
  | quiet process place locked ptableLocked elsewhere quiet now =>
    subst now
    refine Or.inl (simulates.of_same rfl rfl (fun other => ?_) (fun other => ?_)) <;>
    · by_cases isProcess : other = process
      · subst isProcess
        simp only [moveTo_procs_self, quiet.view]
      · simp only [moveTo_procs_of_ne system isProcess]
  | killed process now =>
    subst now
    obtain ⟨roused, stillSimulates⟩ := simulates.kill process
    exact Or.inr ⟨.kill process roused, _, rfl, stillSimulates, by simp⟩
  | elsewhere ptableLocked elsewhere moved now =>
    subst now
    exact Or.inl (simulates.of_same rfl rfl (fun _ => rfl) (fun _ => rfl))

/-- The locks are kept, and the monitor keeps up. -/
theorem run_simulates {shared : σ} {schedule : List (Label ι α)} {final : System ι σ κ α ε}
    (ran : exec (step monitor) (start shared) schedule = some final) :
    Locks final ∧ ∃ actions state,
      exec (Monitors.step monitor) (Monitors.start shared) actions = some state ∧
        Simulates final state := by
  obtain ⟨actions, state, monitorRan, locks, simulates⟩ :=
    exec_simulated (step monitor) (Monitors.step monitor)
      (fun system state => Locks system ∧ Simulates system state)
      (by
        rintro system state label after ⟨locks, simulates⟩ taken
        have happens := step_happens taken
        obtain still | ⟨action, next, nextTaken, still, _⟩ := simulates.step locks happens
        · exact ⟨[], state, rfl, locks.step happens, still⟩
        · exact ⟨[action], next, exec_single _ nextTaken, locks.step happens, still⟩)
      (start shared) (Monitors.start shared) ⟨locks_start shared, simulates_start shared⟩
      schedule final ran
  exact ⟨locks, actions, state, monitorRan, simulates⟩

/-- Whatever the interleaving, the processes do to the data and get from it what they would
if each region, together with its wakeups and the falling asleep, were one step. A process
that sleeps does so in the monitor too, unless its wakeup is under way. -/
theorem run_is_run_of_monitor (monitor : Monitor σ κ α ε) (shared : σ)
    (schedule : List (Label ι α)) (final : System ι σ κ α ε)
    (ran : exec (step monitor) (start shared) schedule = some final) :
    ∃ actions state, exec (Monitors.step monitor) (Monitors.start shared) actions = some state ∧
      state.shared = final.shared ∧ state.log = final.log ∧
      ∀ process, (state.threads process).killed = (final.procs process).killed ∧
        ∀ what channel, (final.procs process).place = .sleeping what channel →
          (state.threads process).doing = some what ∧
          ((state.threads process).asleep = some channel ∨
            (state.threads process).asleep = none ∧ ∃ other, other ≠ process ∧
              channel ∈ (final.procs other).place.view.pending) := by
  obtain ⟨_, actions, state, monitorRan, simulates⟩ := run_simulates ran
  refine ⟨actions, state, monitorRan, simulates.shared, simulates.log,
    fun process => ⟨simulates.killed process, fun what channel sleeping => ⟨?_, ?_⟩⟩⟩
  · rw [simulates.doing, sleeping]
    rfl
  · exact simulates.asleep process channel (by rw [sleeping]; rfl)

/-- A lock with sleepers: whoever finds it taken sleeps, and whoever gives it back wakes all. -/
def gate : Monitor Bool Unit Bool Unit := fun taken _ gives =>
  if gives then ⟨false, [], [()], none⟩
  else if taken then ⟨taken, [], [], some (gives, ())⟩
  else ⟨true, [], [], none⟩

/-- One process takes the lock, and another falls asleep on it. -/
def oneSleeps : List (Label Bool Bool) :=
  .call false false :: List.replicate 3 (.next false) ++
    .call true false :: List.replicate 6 (.next true)

/-- A process falls asleep at the gate. -/
theorem run_is_run_of_monitor_gate :
    ∃ final, exec (step gate) (start false) oneSleeps = some final ∧
      (final.procs true).place = .sleeping false () ∧
      ∃ actions state, exec (Monitors.step gate) (Monitors.start false) actions = some state ∧
        state.shared = final.shared ∧ state.log = final.log ∧
        ∀ process, (state.threads process).killed = (final.procs process).killed ∧
          ∀ what channel, (final.procs process).place = .sleeping what channel →
            (state.threads process).doing = some what ∧
            ((state.threads process).asleep = some channel ∨
              (state.threads process).asleep = none ∧ ∃ other, other ≠ process ∧
                channel ∈ (final.procs other).place.view.pending) :=
  ⟨_, rfl, rfl, run_is_run_of_monitor gate false oneSleeps _ rfl⟩

/-- Whether some process sleeps on the channel, and nobody is about to wake it. -/
def System.sleepers (system : System ι σ κ α ε) (channel : κ) (what : α) : Prop :=
  (∃ process, (system.procs process).place = .sleeping what channel) ∧
    ∀ process, channel ∉ (system.procs process).place.view.pending

omit [DecidableEq ι] [DecidableEq κ] in
/-- Whoever sleeps and is not about to be woken sleeps in the monitor. -/
theorem Simulates.sleepers (simulates : Simulates system state) {channel : κ} {what : α}
    (sleeps : system.sleepers channel what) : state.sleepers channel what := by
  obtain ⟨⟨process, sleeping⟩, nobody⟩ := sleeps
  obtain asleep | ⟨_, other, _, pending⟩ :=
    simulates.asleep process channel (by rw [sleeping]; rfl)
  · exact ⟨process, asleep, by rw [simulates.doing, sleeping]; rfl⟩
  · exact absurd pending (nobody other)

section Invariants

variable {shared : σ} {schedule : List (Label ι α)} {final : System ι σ κ α ε}

/-- The rule of invariants of a monitor, for the processes that run it. -/
theorem sleepers_invariant (holds : σ → List ε → (κ → α → Prop) → Prop)
    (fewer : ∀ shared events (sleepers fewer : κ → α → Prop),
      (∀ channel what, fewer channel what → sleepers channel what) →
      holds shared events sleepers → holds shared events fewer)
    (region : ∀ shared events sleepers killed what, holds shared events sleepers →
      holds (monitor shared killed what).shared (events ++ (monitor shared killed what).events)
        ((monitor shared killed what).sleepersAfter sleepers))
    (initially : holds shared [] (fun _ _ => False))
    (ran : exec (step monitor) (start shared) schedule = some final) :
    holds final.shared final.events final.sleepers := by
  obtain ⟨_, actions, state, monitorRan, simulates⟩ := run_simulates ran
  have inMonitor := Monitors.sleepers_invariant monitor holds fewer region shared initially
    actions state monitorRan
  rw [Monitors.State.events, simulates.shared, simulates.log] at inMonitor
  exact fewer _ _ _ _ (fun _ _ => simulates.sleepers) inMonitor

/-- The rule of calls of a monitor, for the processes that run it. -/
theorem calls_conform (begun : α → List ε → α → Prop) (kept : α → List ε → Prop)
    (begins : ∀ what, begun what [] what)
    (goesOn : ∀ call events left shared killed later channel, begun call events left →
      (monitor shared killed left).sleeps = some (later, channel) →
      begun call (events ++ (monitor shared killed left).events) later)
    (ends : ∀ call events left shared killed, begun call events left →
      (monitor shared killed left).sleeps = none →
      kept call (events ++ (monitor shared killed left).events))
    (ran : exec (step monitor) (start shared) schedule = some final) (process : ι) :
    Conforms begun kept (final.procs process).place.view.doing (logOf final.log process) := by
  obtain ⟨_, actions, state, monitorRan, simulates⟩ := run_simulates ran
  rw [← simulates.doing, ← simulates.log]
  exact Monitors.calls_conform monitor begun kept begins goesOn ends shared actions state
    monitorRan process

end Invariants

/-! ## The locks do not deadlock -/

/-- Whether a process is inside its call and not asleep. -/
def Place.awake : Place κ α → Bool
  | .outside | .sleeping _ _ => false
  | _ => true

/-- Whoever holds the lock of the process table can go on. -/
theorem next_isSome_of_holdsPtable (monitor : Monitor σ κ α ε) {process : ι}
    (holds : (system.procs process).place.holdsPtable = true) :
    (system.next monitor process).isSome := by
  cases place : (system.procs process).place with
  | wakeup | wokenUp | releaseLock | markSleeping | sched | resumed => simp [System.next, place]
  | _ => simp [place, Place.holdsPtable] at holds

/-- Whoever holds the lock of the data can go on while the process table is not locked. -/
theorem next_isSome_of_holdsLock (monitor : Monitor σ κ α ε) {process : ι}
    (unlocked : system.ptableLocked = false)
    (holds : (system.procs process).place.holdsLock = true) :
    (system.next monitor process).isSome := by
  cases place : (system.procs process).place with
  | region => simp [System.next, place]
  | waking channels sleeps =>
    match channels, sleeps with
    | channel :: channels, sleeps => simp [System.next, place, unlocked]
    | [], some (what, channel) => simp [System.next, place, unlocked]
    | [], none => simp [System.next, place]
  | wakeup | wokenUp | releaseLock => simp [System.next, place]
  | _ => simp [place, Place.holdsLock] at holds

/-- While both locks are free, whoever is awake can go on or be switched to. -/
theorem goes_on_or_is_switched_to (monitor : Monitor σ κ α ε) {process : ι}
    (unlocked : system.locked = false) (ptableUnlocked : system.ptableLocked = false)
    (awake : (system.procs process).place.awake = true) :
    (system.next monitor process).isSome ∨
      ∃ what, (system.procs process).place = .runnable what ∧
        (exec (step monitor) system [.lockElsewhere, .switch process]).isSome := by
  cases place : (system.procs process).place with
  | acquire => exact Or.inl (by simp [System.next, place, unlocked])
  | region | waking | wakeup | wokenUp | releaseLock =>
    exact Or.inl (next_isSome_of_holdsLock monitor ptableUnlocked (by rw [place]; rfl))
  | markSleeping | sched | resumed =>
    exact Or.inl (next_isSome_of_holdsPtable monitor (by rw [place]; rfl))
  | runnable what =>
    refine Or.inr ⟨what, rfl, ?_⟩
    simp [exec, step, ptableUnlocked, place]
  | outside | sleeping => simp [place, Place.awake] at awake

/-- While some process is inside its call and not asleep, and no code elsewhere keeps the
process table locked, some process can make its next step, or the scheduler can lock the
process table and switch to the process. -/
theorem some_process_goes_on (monitor : Monitor σ κ α ε) (shared : σ)
    (schedule : List (Label ι α)) (final : System ι σ κ α ε)
    (ran : exec (step monitor) (start shared) schedule = some final)
    (released : final.elsewhere = false) (process : ι)
    (awake : (final.procs process).place.awake = true) :
    (∃ other, (final.next monitor other).isSome) ∨
      ∃ what, (final.procs process).place = .runnable what ∧
        (exec (step monitor) final [.lockElsewhere, .switch process]).isSome := by
  obtain ⟨locks, _⟩ := run_simulates ran
  cases ptableLocked : final.ptableLocked with
  | true =>
    have taken : ¬ ∀ holder, ¬ final.holdsPtable holder := by
      rw [← locks.ptable.free_iff, ptableLocked]
      exact Bool.noConfusion
    obtain ⟨holder, holds⟩ := not_forall_not.mp taken
    cases holder with
    | none =>
      rw [System.holdsPtable, released] at holds
      exact Bool.noConfusion holds
    | some other => exact Or.inl ⟨other, next_isSome_of_holdsPtable monitor holds⟩
  | false =>
    cases locked : final.locked with
    | true =>
      have taken : ¬ ∀ holder, ¬ (final.procs holder).place.holdsLock = true := by
        rw [← locks.lock.free_iff, locked]
        exact Bool.noConfusion
      obtain ⟨other, holds⟩ := not_forall_not.mp taken
      exact Or.inl ⟨other, next_isSome_of_holdsLock monitor ptableLocked holds⟩
    | false =>
      exact (goes_on_or_is_switched_to monitor locked ptableLocked awake).imp_left
        (fun goesOn => ⟨process, goesOn⟩)

/-- A process that was killed in its sleep waits to be switched to, and nothing else can go
on. -/
theorem some_process_goes_on_gate :
    ∃ final, exec (step gate) (start false) (oneSleeps ++ [.kill true, .releaseElsewhere]) =
        some final ∧
      (final.procs true).place.awake = true ∧
      (∀ process, final.next gate process = none) ∧
      ((∃ other, (final.next gate other).isSome) ∨
        ∃ what, (final.procs true).place = .runnable what ∧
          (exec (step gate) final [.lockElsewhere, .switch true]).isSome) :=
  ⟨_, rfl, rfl, fun process => by cases process <;> rfl,
    some_process_goes_on gate false (oneSleeps ++ [.kill true, .releaseElsewhere]) _ rfl rfl true
      rfl⟩

end OsLabwork.Kernel.SleepWakeup
