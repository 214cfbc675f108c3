import OsLabwork.Kernel.LogAdmission
import OsLabwork.Kernel.SleepWakeup

/-!
# The sections of the log under its lock

`log.lock` guards the header in memory, the number of operations in progress and the flag of
the commit. Processes take and release it as they do any spin lock, `begin_op` gives it to
`sleep`, and `end_op` calls `wakeup` while it holds it. Here the sections run in this way, one
step for each lock that is taken or released and each change of a process's state. Everything
else goes on in between: the checks of `log_write`, the copies of `commit`, recovery, and the
buffer cache, each by a process that is not inside a section.

Every run of this kind is a run of the log in which sections are single steps, with the same
disk, buffers, header, counters and history. A process that sleeps in `begin_op` does so in
that run as well, unless its wakeup is under way.
-/

namespace OsLabwork.Kernel.Logging

open Monitors Schedules

variable {ι : Type}

instance (system : System ι) : Decidable system.crowded := by
  unfold System.crowded
  infer_instance

/-- Some processes, which have looked at the log in vain, are asleep. -/
def System.withSleepers (system : System ι) (asleep : ι → Bool) : System ι :=
  { system with places := fun process => if asleep process then .asleep else system.places process }

/-- Whether a process goes on with a section under the lock. -/
def Place.entersSection : Place → Bool
  | .beginOp | .active _ | .logWrite _ _ _ | .endCommit => true
  | _ => false

/-- Whether a process is in `commit`, without the lock. -/
def Place.inCommit : Place → Bool
  | .commit | .writeLog _ | .writeHead | .installTrans _ | .clearHead => true
  | _ => false

/-- Whose step it is. -/
def Label.actor : Label ι → Option ι
  | .call process | .logWrite process _ _ | .endOp process | .next process | .kill process =>
      some process
  | .recover | .bread _ | .recycle _ | .crash => none

/-- Which steps need no lock: the beginning of a call, the checks of `log_write`, `commit`,
recovery and the buffer cache. -/
def Label.free (system : System ι) : Label ι → Bool
  | .call _ | .logWrite _ _ _ | .recover | .bread _ | .recycle _ => true
  | .next process => (system.places process).inCommit
  | .endOp _ | .kill _ | .crash => false

variable [DecidableEq ι]

/-- What a process does from getting `log.lock` to giving it up, by where it stands. One that
finds a commit going on or too little room sleeps, and changes nothing. -/
def sections : Monitor (System ι) Unit ι Empty := fun system _ process =>
  match system.places process with
  | .beginOp =>
      if system.committing = true ∨ system.crowded then ⟨system, [], [], some (process, ())⟩
      else ⟨system.beginOp process, [], [], none⟩
  | .logWrite written blockno block =>
      ⟨system.append process written blockno block, [], [], none⟩
  | .active _ =>
      ⟨system.endOp process, [],
        if system.committing = true ∨ system.outstanding - 1 = 0 then [] else [()], none⟩
  | .endCommit => ⟨system.endCommit process, [], [()], none⟩
  | _ => ⟨system, [], [], none⟩

/-- The locks, the process table and the log. -/
abbrev LockedSystem (ι : Type) : Type := SleepWakeup.System ι (System ι) Unit ι Empty

/-- A step that has to do with the locks, a step without them, or a crash. -/
inductive LockedLabel (ι : Type) where
  | locks (label : SleepWakeup.Label ι ι)
  | free (label : Label ι)
  | crash

/-- A process that calls for the lock does so for a section of its own. -/
def LockedSystem.admits (system : LockedSystem ι) : SleepWakeup.Label ι ι → Bool
  | .call process what => what = process && (system.shared.places process).entersSection
  | _ => true

/-- Whether a process neither has nor wants the lock. -/
def LockedSystem.outside (system : LockedSystem ι) (process : ι) : Bool :=
  match (system.procs process).place with
  | .outside => true
  | _ => false

/-- One step. -/
def lockedStep (layout : Layout) (quota : Nat) (system : LockedSystem ι) :
    LockedLabel ι → Option (LockedSystem ι)
  | .locks label =>
      if system.shared.up && system.admits label then SleepWakeup.step sections system label
      else none
  | .free label =>
      if label.free system.shared && label.actor.all system.outside then
        (step layout quota system.shared label).map (fun shared => { system with shared := shared })
      else none
  | .crash => (step layout quota system.shared .crash).map SleepWakeup.start

/-! ## Sleepers set apart -/

section Sleepers

variable {layout : Layout} {quota : Nat} {system after : System ι} {asleep : ι → Bool} {process : ι}

omit [DecidableEq ι] in
/-- Whoever does not sleep is where it was. -/
theorem withSleepers_places (awake : asleep process = false) :
    (system.withSleepers asleep).places process = system.places process := by
  simp [System.withSleepers, awake]

omit [DecidableEq ι] in
/-- Sleepers do not stop the kernel. -/
theorem withSleepers_up : (system.withSleepers asleep).up = system.up := rfl

/-- A process that does not sleep goes to another place. -/
theorem withSleepers_moveTo (awake : asleep process = false) (place : Place) :
    (system.withSleepers asleep).moveTo process place =
      (system.moveTo process place).withSleepers asleep := by
  simp only [System.withSleepers, System.moveTo, System.mk.injEq, true_and, and_true]
  funext other
  by_cases isProcess : other = process
  · simp [isProcess, awake]
  · simp [isProcess]

/-- A process falls asleep. -/
theorem withSleepers_update (system : System ι) (asleep : ι → Bool) (process : ι) :
    system.withSleepers (Function.update asleep process true) =
      (system.withSleepers asleep).moveTo process .asleep := by
  simp only [System.withSleepers, System.moveTo, System.mk.injEq, true_and, and_true]
  funext other
  by_cases isProcess : other = process
  · simp [isProcess]
  · simp [isProcess]

/-- A sleeper that is killed looks at the log again. -/
theorem withSleepers_kill (sleeps : asleep process = true)
    (sleeper : system.places process = .beginOp) :
    (system.withSleepers asleep).moveTo process
        ((system.withSleepers asleep).places process).wakeup =
      system.withSleepers (Function.update asleep process false) := by
  simp only [System.withSleepers, System.moveTo, System.mk.injEq, true_and, and_true]
  funext other
  by_cases isProcess : other = process
  · simp [isProcess, sleeps, sleeper, Place.wakeup]
  · simp [isProcess]

omit [DecidableEq ι] in
/-- Sleepers that are woken look at the log again. -/
theorem withSleepers_wakeup
    (sleepers : ∀ process, asleep process = true → system.places process = .beginOp) :
    (system.withSleepers asleep).wakeup = system.wakeup := by
  simp only [System.withSleepers, System.wakeup, System.mk.injEq, true_and, and_true]
  funext process
  cases sleeps : asleep process with
  | false => simp
  | true => simp [sleepers process sleeps, Place.wakeup]

/-- Sleepers that look at the log again stay in `begin_op` while another process goes on. -/
theorem sleepers_moveTo (awake : asleep process = false)
    (sleepers : ∀ other, asleep other = true → system.places other = .beginOp) (place : Place)
    (other : ι) (sleeps : asleep other = true) :
    (system.moveTo process place).places other = .beginOp := by
  have different : other ≠ process := by
    rintro rfl
    exact Bool.false_ne_true (awake.symm.trans sleeps)
  exact (Function.update_of_ne different ..).trans (sleepers other sleeps)

/-- Who finds a commit going on or too little room falls asleep. -/
theorem beginOp_of_waits (waits : system.committing = true ∨ system.crowded) :
    system.beginOp process = system.moveTo process .asleep := by
  unfold System.beginOp
  split
  · rfl
  · rename_i isOpen
    exact if_pos (waits.resolve_left isOpen)

/-- `begin_op` leaves other processes where they are. -/
theorem beginOp_places_of_ne {other : ι} (different : other ≠ process) :
    (system.beginOp process).places other = system.places other := by
  unfold System.beginOp
  split
  · exact Function.update_of_ne different ..
  · split <;> exact Function.update_of_ne different ..

/-- `begin_op` does not look at other processes. -/
theorem withSleepers_beginOp (awake : asleep process = false) :
    (system.withSleepers asleep).beginOp process =
      (system.beginOp process).withSleepers asleep := by
  simp only [System.beginOp, withSleepers_moveTo awake,
    apply_ite (fun after : System ι => after.withSleepers asleep)]
  rfl

/-- A block is logged without a look at other processes. -/
theorem withSleepers_append (awake : asleep process = false) (written : List (BitVec 32))
    (blockno : BitVec 32) (block : Block) :
    (system.withSleepers asleep).append process written blockno block =
      (system.append process written blockno block).withSleepers asleep := by
  rw [System.append, withSleepers_moveTo awake]
  rfl

/-- An operation that ends and wakes nobody. -/
theorem withSleepers_endOp (awake : asleep process = false)
    (wakesNone : system.committing = true ∨ system.outstanding - 1 = 0) :
    (system.withSleepers asleep).endOp process = (system.endOp process).withSleepers asleep := by
  have isCommitting : (system.withSleepers asleep).committing = system.committing := rfl
  have isOutstanding : (system.withSleepers asleep).outstanding = system.outstanding := rfl
  rw [System.endOp, System.endOp, withSleepers_moveTo awake, isCommitting, isOutstanding]
  obtain committing | last := wakesNone
  · rw [if_pos committing, if_pos committing]
    rfl
  · rw [if_pos last, if_pos last, apply_ite (fun after : System ι => after.withSleepers asleep)]
    rfl

/-- An operation that ends and wakes the sleepers. -/
theorem withSleepers_endOp_wakes (awake : asleep process = false)
    (sleepers : ∀ other, asleep other = true → system.places other = .beginOp)
    (wakes : ¬ (system.committing = true ∨ system.outstanding - 1 = 0)) :
    (system.withSleepers asleep).endOp process = system.endOp process := by
  have isCommitting : (system.withSleepers asleep).committing = system.committing := rfl
  have isOutstanding : (system.withSleepers asleep).outstanding = system.outstanding := rfl
  rw [not_or] at wakes
  rw [System.endOp, System.endOp, withSleepers_moveTo awake, withSleepers_moveTo awake,
    withSleepers_wakeup (sleepers_moveTo awake sleepers .idle), isCommitting, isOutstanding,
    if_neg wakes.1, if_neg wakes.2, if_neg wakes.1, if_neg wakes.2]

/-- A commit that is over wakes the sleepers. -/
theorem withSleepers_endCommit (awake : asleep process = false)
    (sleepers : ∀ other, asleep other = true → system.places other = .beginOp) :
    (system.withSleepers asleep).endCommit process = system.endCommit process := by
  rw [System.endCommit, System.endCommit, withSleepers_moveTo awake,
    withSleepers_wakeup (sleepers_moveTo awake sleepers .idle)]

/-- The checks of `log_write` do not look at other processes. -/
theorem withSleepers_logWrite (awake : asleep process = false) (written : List (BitVec 32))
    (blockno : BitVec 32) (block : Block) :
    (system.withSleepers asleep).logWrite layout process written blockno block =
      (system.logWrite layout process written blockno block).withSleepers asleep := by
  rw [System.logWrite, System.logWrite, withSleepers_moveTo awake,
    apply_ite (fun after : System ι => after.withSleepers asleep)]
  rfl

omit [DecidableEq ι] in
/-- Recovery does not look at the processes. -/
theorem withSleepers_recover : (system.withSleepers asleep).recover layout =
    (system.recover layout).map (fun after => after.withSleepers asleep) := by
  cases boot : system.boot with
  | none => simp [System.recover, System.withSleepers, boot]
  | some phase =>
    cases phase with
    | readHead | clearHead => simp [System.recover, System.withSleepers, boot]
    | installTrans tail =>
      cases entry : system.lh[tail]? <;> simp [System.recover, System.withSleepers, boot, entry]

/-- `commit` does not look at other processes. -/
theorem withSleepers_next (awake : asleep process = false)
    (inCommit : (system.places process).inCommit = true) :
    (system.withSleepers asleep).next layout process =
      (system.next layout process).map (fun after => after.withSleepers asleep) := by
  cases place : system.places process with
  | commit | writeHead | clearHead =>
    simp only [System.next, withSleepers_places awake, place, withSleepers_moveTo awake,
      Option.map_some]
    rfl
  | writeLog tail =>
    have same : (system.withSleepers asleep).lh[tail]? = system.lh[tail]? := rfl
    simp only [System.next, withSleepers_places awake, place, withSleepers_moveTo awake, same]
    cases system.lh[tail]? <;> rfl
  | installTrans tail =>
    have same : (system.withSleepers asleep).lh[tail]? = system.lh[tail]? := rfl
    simp only [System.next, withSleepers_places awake, place, withSleepers_moveTo awake, same]
    cases system.lh[tail]? <;> rfl
  | _ => simp [place, Place.inCommit] at inCommit

/-- What needs no lock does not look at sleepers. -/
theorem withSleepers_step {label : Label ι} (free : label.free system = true)
    (awake : ∀ process, label.actor = some process → asleep process = false)
    (taken : step layout quota system label = some after) :
    step layout quota (system.withSleepers asleep) label = some (after.withSleepers asleep) := by
  cases label with
  | call process =>
    obtain ⟨up, place, rfl⟩ := step_call taken
    have isAwake := awake process rfl
    simp only [step, withSleepers_up, up, withSleepers_places isAwake, place,
      withSleepers_moveTo isAwake]
  | logWrite process blockno block =>
    obtain ⟨up, written, place, home, allowed, rfl⟩ := step_logWrite taken
    have isAwake := awake process rfl
    have isAllowed : (layout.home blockno.toNat &&
        (decide (blockno ∈ written) || decide (written.length < quota))) = true := by
      simpa [home] using allowed
    simp only [step, withSleepers_up, up, withSleepers_places isAwake, place, isAllowed,
      ↓reduceIte, withSleepers_logWrite isAwake]
  | next process =>
    obtain ⟨up, _⟩ := step_next taken
    simp only [step, withSleepers_up, up, ↓reduceIte] at taken ⊢
    rw [withSleepers_next (awake process rfl) free, taken, Option.map_some]
  | recover =>
    obtain ⟨running, _⟩ := step_recover taken
    simp only [step, running, Bool.false_eq_true, ↓reduceIte] at taken
    have isRunning : (system.withSleepers asleep).panicked = false := running
    rw [step, isRunning, if_neg Bool.false_ne_true, withSleepers_recover, taken, Option.map_some]
  | bread address =>
    obtain rfl := Option.some.inj taken
    rfl
  | recycle address =>
    obtain ⟨clean, rfl⟩ := step_recycle taken
    have isClean : (system.withSleepers asleep).device.dirty address = false := clean
    rw [step, isClean, if_neg Bool.false_ne_true]
    rfl
  | endOp | kill | crash => exact Bool.noConfusion free

/-- What needs no lock leaves other processes where they are. -/
theorem places_of_free {label : Label ι} (free : label.free system = true)
    (notActor : label.actor ≠ some process)
    (taken : step layout quota system label = some after) :
    after.places process = system.places process := by
  have others : ∀ {actor}, some actor ≠ some process → ∀ place,
      (system.moveTo actor place).places process = system.places process := by
    intro actor different place
    exact Function.update_of_ne (fun same => different (congrArg some same.symm)) ..
  cases label with
  | call actor =>
    obtain ⟨_, _, rfl⟩ := step_call taken
    exact others notActor _
  | logWrite actor blockno block =>
    obtain ⟨_, written, _, _, _, rfl⟩ := step_logWrite taken
    unfold System.logWrite
    split
    · rfl
    · exact others notActor _
  | next actor =>
    obtain ⟨_, next⟩ := step_next taken
    cases next with
    | begins place _ | appends _ _ _ place _ | finishes place _ =>
      rw [Label.free, place] at free
      exact Bool.noConfusion free
    | starts _ _ now | skips _ _ now | copies _ _ _ _ now | copied _ _ _ now | commits _ now
    | installs _ _ _ _ now | installed _ _ _ now | clears _ now =>
      rw [now]
      exact others notActor _
  | recover =>
    obtain ⟨_, recovers⟩ := step_recover taken
    cases recovers with
    | reads _ now | installs _ _ _ _ now | installed _ _ _ now | clears _ now => rw [now]
  | bread address =>
    obtain rfl := Option.some.inj taken
    rfl
  | recycle address =>
    obtain ⟨_, rfl⟩ := step_recycle taken
    rfl
  | endOp | kill | crash => exact Bool.noConfusion free

end Sleepers

/-! ## Sections are single steps -/

/-- Who sleeps in the monitor. -/
def asleepIn (state : Monitors.State ι (System ι) Unit ι Empty) (process : ι) : Bool :=
  (state.threads process).asleep.isSome

/-- What a state of the monitor stands for: its sleepers are in `begin_op`, and every process runs
sections of its own. -/
structure Stands (state : Monitors.State ι (System ι) Unit ι Empty) (system : System ι) : Prop where
  same : system = state.shared.withSleepers (asleepIn state)
  sleepers : ∀ process, asleepIn state process = true → state.shared.places process = .beginOp
  own : ∀ process what, (state.threads process).doing = some what → what = process

section Stands

variable {layout : Layout} {quota : Nat} {state next : Monitors.State ι (System ι) Unit ι Empty}
  {system : System ι} {process : ι}

/-- Who sleeps after a section that wakes nobody. -/
theorem asleep_take (state : Monitors.State ι (System ι) Unit ι Empty) (process : ι)
    (shared : System ι) (sleeps : Option (ι × Unit)) :
    asleepIn (state.take process ⟨shared, [], [], sleeps⟩) =
      Function.update (asleepIn state) process sleeps.isSome := by
  funext other
  by_cases isProcess : other = process
  · simp [asleepIn, Monitors.State.take, isProcess]
  · simp [asleepIn, Monitors.State.take, isProcess, Thread.wake]

/-- Nobody sleeps after a section that wakes all. -/
theorem asleep_take_wakes (state : Monitors.State ι (System ι) Unit ι Empty) (process : ι)
    (shared : System ι) :
    asleepIn (state.take process ⟨shared, [], [()], none⟩) = fun _ => false := by
  funext other
  rw [asleepIn]
  by_cases isProcess : other = process
  · simp [Monitors.State.take, isProcess]
  · rw [take_threads_of_ne _ _ isProcess]
    rw [Thread.wake_asleep_eq_none (fun _ _ => List.mem_singleton.mpr rfl)]
    rfl

/-- What a process does after a section. -/
theorem own_take (own : ∀ process what, (state.threads process).doing = some what → what = process)
    (process : ι) (region : Region (System ι) Unit ι Empty)
    (sleeps : ∀ what channel, region.sleeps = some (what, channel) → what = process)
    (other what : ι) (doing : ((state.take process region).threads other).doing = some what) :
    what = other := by
  by_cases isProcess : other = process
  · subst isProcess
    simp only [Monitors.State.take, Function.update_self, Option.map_eq_some_iff] at doing
    obtain ⟨⟨_, channel⟩, isSleep, rfl⟩ := doing
    exact sleeps _ channel isSleep
  · rw [take_threads_of_ne _ _ isProcess, Thread.wake_doing] at doing
    exact own other what doing

/-- A section that wakes nobody, and after which its process goes on. -/
theorem Stands.take (stands : Stands state system) (awake : (state.threads process).asleep = none)
    {shared : System ι}
    (others : ∀ other, other ≠ process → shared.places other = state.shared.places other) :
    Stands (state.take process ⟨shared, [], [], none⟩)
      (shared.withSleepers (asleepIn state)) := by
  have sameSleepers := asleep_take state process shared none
  have awakeHere : asleepIn state process = false := by rw [asleepIn, awake]; rfl
  rw [Option.isSome_none, Function.update_eq_self_iff.mpr awakeHere.symm] at sameSleepers
  refine ⟨?_, fun other asleep => ?_, own_take stands.own process _ (by simp)⟩
  · rw [sameSleepers]
    rfl
  · rw [congrFun sameSleepers other] at asleep
    have isOther : other ≠ process := by
      rintro rfl
      exact Bool.false_ne_true (awakeHere.symm.trans asleep)
    exact (others other isOther).trans (stands.sleepers other asleep)

/-- A section that wakes everybody. -/
theorem Stands.take_wakes (stands : Stands state system) (process : ι) (shared : System ι) :
    Stands (state.take process ⟨shared, [], [()], none⟩) shared := by
  have noSleepers := asleep_take_wakes state process shared
  refine ⟨?_, fun other asleep => ?_, own_take stands.own process _ (by simp)⟩
  · rw [noSleepers]
    rfl
  · rw [congrFun noSleepers other] at asleep
    exact Bool.noConfusion asleep

/-- A section after which its process sleeps. -/
theorem Stands.take_sleeps (stands : Stands state system)
    (place : state.shared.places process = .beginOp) :
    Stands (state.take process ⟨state.shared, [], [], some (process, ())⟩)
      (system.moveTo process .asleep) := by
  have sleepersNow := asleep_take state process state.shared (some (process, ()))
  refine ⟨?_, fun other asleep => ?_, own_take stands.own process _ (by simp +contextual)⟩
  · rw [sleepersNow, Option.isSome_some, withSleepers_update, stands.same]
    rfl
  · by_cases isProcess : other = process
    · rw [isProcess]
      exact place
    · rw [congrFun sleepersNow other, Function.update_of_ne isProcess] at asleep
      exact stands.sleepers other asleep

/-- A section is one step of the log. -/
theorem Stands.run (stands : Stands state system) (layout : Layout) (quota : Nat)
    (up : state.shared.up = true) (awake : (state.threads process).asleep = none) (killed : Bool) :
    ∃ labels after, exec (step layout quota) system labels = some after ∧
      Stands (state.take process (sections state.shared killed process)) after := by
  have isAwake : asleepIn state process = false := by rw [asleepIn, awake]; rfl
  have isUp : system.up = true := by rw [stands.same]; exact up
  have here : system.places process = state.shared.places process := by
    rw [stands.same]
    exact withSleepers_places isAwake
  have others : ∀ {place other}, other ≠ process →
      (state.shared.moveTo process place).places other = state.shared.places other :=
    fun different => Function.update_of_ne different ..
  have goesOn : ∀ {after}, system.next layout process = some after →
      exec (step layout quota) system [.next process] = some after := by
    intro after taken
    exact exec_single _ (by simp only [step, isUp, ↓reduceIte, taken])
  cases place : state.shared.places process with
  | beginOp =>
    rw [place] at here
    have next : system.next layout process = some (system.beginOp process) := by
      simp only [System.next, here]
    rw [stands.same, withSleepers_beginOp isAwake, ← stands.same] at next
    by_cases waits : state.shared.committing = true ∨ state.shared.crowded
    · simp only [sections, place, waits, ↓reduceIte]
      rw [beginOp_of_waits waits, ← withSleepers_moveTo isAwake, ← stands.same] at next
      exact ⟨_, _, goesOn next, stands.take_sleeps place⟩
    · simp only [sections, place, waits, ↓reduceIte]
      exact ⟨_, _, goesOn next, stands.take awake (fun _ => beginOp_places_of_ne)⟩
  | logWrite written blockno block =>
    rw [place] at here
    have next : system.next layout process =
        some (system.append process written blockno block) := by
      simp only [System.next, here]
    rw [stands.same, withSleepers_append isAwake, ← stands.same] at next
    simp only [sections, place]
    exact ⟨_, _, goesOn next, stands.take awake (fun _ => others)⟩
  | active written =>
    rw [place] at here
    have ends : exec (step layout quota) system [.endOp process] =
        some (system.endOp process) :=
      exec_single _ (by simp only [step, isUp, here])
    by_cases wakesNone : state.shared.committing = true ∨ state.shared.outstanding - 1 = 0
    · simp only [sections, place, wakesNone, ↓reduceIte]
      rw [stands.same, withSleepers_endOp isAwake wakesNone, ← stands.same] at ends
      refine ⟨_, _, ends, stands.take awake (fun other different => ?_)⟩
      obtain committing | last := wakesNone
      · rw [System.endOp, if_pos committing]
      · rw [System.endOp, if_pos last]
        split
        · rfl
        · exact others different
    · simp only [sections, place, wakesNone, ↓reduceIte]
      rw [stands.same, withSleepers_endOp_wakes isAwake stands.sleepers wakesNone,
        ← stands.same] at ends
      exact ⟨_, _, ends, stands.take_wakes process _⟩
  | endCommit =>
    rw [place] at here
    have next : system.next layout process = some (system.endCommit process) := by
      simp only [System.next, here]
    rw [stands.same, withSleepers_endCommit isAwake stands.sleepers, ← stands.same] at next
    simp only [sections, place]
    exact ⟨_, _, goesOn next, stands.take_wakes process _⟩
  | idle | asleep | commit | writeLog | writeHead | installTrans | clearHead =>
    simp only [sections, place]
    refine ⟨[], system, rfl, ?_⟩
    have same := stands.same
    rw [same]
    exact stands.take awake (fun _ _ => rfl)

/-- A process that is killed in its sleep looks at the log again. -/
theorem Stands.kill (stands : Stands state system) (layout : Layout) (quota : Nat)
    (up : state.shared.up = true) (process : ι) (roused : Bool) :
    ∃ labels after, exec (step layout quota) system labels = some after ∧
      Stands (state.kill process roused) after := by
  have own : ∀ other what, ((state.kill process roused).threads other).doing = some what →
      what = other := by
    intro other what doing
    refine stands.own other what ?_
    by_cases isProcess : other = process
    · simpa [Monitors.State.kill, isProcess] using doing
    · simpa [Monitors.State.kill, isProcess] using doing
  have sleepersNow : asleepIn (state.kill process roused) =
      Function.update (asleepIn state) process (!roused && asleepIn state process) := by
    funext other
    by_cases isProcess : other = process
    · cases roused <;> simp [asleepIn, Monitors.State.kill, isProcess]
    · simp [asleepIn, Monitors.State.kill, isProcess]
  cases wakes : roused && asleepIn state process with
  | false =>
    have same : asleepIn (state.kill process roused) = asleepIn state := by
      rw [sleepersNow, Function.update_eq_self_iff]
      cases roused <;> simp_all
    refine ⟨[], system, rfl, ?_, ?_, own⟩
    · rw [same]
      exact stands.same
    · rw [same]
      exact stands.sleepers
  | true =>
    rw [Bool.and_eq_true] at wakes
    obtain ⟨rfl, asleep⟩ := wakes
    rw [Bool.not_true, Bool.false_and] at sleepersNow
    have isUp : system.up = true := by rw [stands.same]; exact up
    refine ⟨[.kill process], _, exec_single _ (by simp only [step, isUp, ↓reduceIte]; rfl),
      ?_, fun other sleeps => ?_, own⟩
    · rw [sleepersNow, stands.same]
      exact withSleepers_kill asleep (stands.sleepers process asleep)
    · by_cases isProcess : other = process
      · simp [sleepersNow, isProcess] at sleeps
      · rw [sleepersNow, Function.update_of_ne isProcess] at sleeps
        exact stands.sleepers other sleeps

/-- A step of the monitor is a step of the log, or none. -/
theorem Stands.step (stands : Stands state system) (layout : Layout) (quota : Nat)
    (up : state.shared.up = true) {action : Monitors.Action ι ι}
    (own : ∀ process what, action = .call process what → what = process)
    (taken : Monitors.step sections state action = some next) :
    ∃ labels after, exec (step layout quota) system labels = some after ∧ Stands next after := by
  obtain ⟨process, what, rfl, idle, rfl⟩ | ⟨process, what, rfl, doing, awake, rfl⟩ |
    ⟨process, roused, rfl, rfl⟩ := step_cases taken
  · obtain rfl := own process what rfl
    have sameSleepers : asleepIn (state.enter what what) = asleepIn state := by
      funext other
      by_cases isProcess : other = what <;> simp [asleepIn, Monitors.State.enter, isProcess]
    refine ⟨[], system, rfl, ?_, ?_, fun other another doing => ?_⟩
    · rw [sameSleepers]
      exact stands.same
    · rw [sameSleepers]
      exact stands.sleepers
    · by_cases isProcess : other = what
      · simp only [Monitors.State.enter, isProcess, Function.update_self] at doing
        rw [isProcess]
        exact (Option.some.inj doing).symm
      · simp only [Monitors.State.enter, Function.update_of_ne isProcess] at doing
        exact stands.own other another doing
  · obtain rfl := stands.own process what doing
    exact stands.run layout quota up awake _
  · exact stands.kill layout quota up process roused

end Stands

/-! ## Whole runs -/

/-- What a state with locks stands for. -/
def LockedSystem.StandsFor (system : LockedSystem ι) (log : System ι) : Prop :=
  SleepWakeup.Locks system ∧ ∃ state, SleepWakeup.Simulates system state ∧ Stands state log

section Runs

variable {layout : Layout} {quota : Nat} {system after : LockedSystem ι} {log : System ι}

/-- A step that needs no lock is the same step of the log. -/
theorem LockedSystem.StandsFor.free (standsFor : system.StandsFor log) {label : Label ι}
    {shared : System ι} (free : label.free system.shared = true)
    (outside : label.actor.all system.outside = true)
    (taken : step layout quota system.shared label = some shared) :
    ∃ labels next, exec (step layout quota) log labels = some next ∧
      LockedSystem.StandsFor { system with shared := shared } next := by
  obtain ⟨locks, state, simulates, stands⟩ := standsFor
  have awake : ∀ process, label.actor = some process → asleepIn state process = false := by
    intro process isActor
    rw [isActor, Option.all_some, LockedSystem.outside] at outside
    have place : (system.procs process).place = .outside := by
      split at outside
      · assumption
      · exact Bool.noConfusion outside
    rw [asleepIn, simulates.awake process (by rw [place]; rfl)]
    rfl
  rw [← simulates.shared] at free taken
  have same := stands.same
  refine ⟨[label], _, exec_single _ (same ▸ withSleepers_step free awake taken),
    locks.of_same rfl rfl rfl (fun _ => rfl) (fun _ => rfl), { state with shared := shared },
    ⟨rfl, simulates.log, simulates.killed, simulates.doing, simulates.awake, simulates.asleep,
      simulates.pending⟩, rfl, fun process sleeps => ?_, stands.own⟩
  have notActor : label.actor ≠ some process := fun isActor =>
    Bool.false_ne_true ((awake process isActor).symm.trans sleeps)
  exact (places_of_free free notActor taken).trans (stands.sleepers process sleeps)

/-- Every step with locks is a step of the log, or none. -/
theorem LockedSystem.StandsFor.step (standsFor : system.StandsFor log) {label : LockedLabel ι}
    (taken : lockedStep layout quota system label = some after) :
    ∃ labels next, exec (step layout quota) log labels = some next ∧ after.StandsFor next := by
  cases label with
  | locks label =>
    obtain ⟨locks, state, simulates, stands⟩ := standsFor
    simp only [lockedStep] at taken
    split at taken
    · rename_i admitted
      rw [Bool.and_eq_true] at admitted
      have happens := SleepWakeup.step_happens taken
      obtain still | ⟨action, next, nextTaken, still, calls⟩ := simulates.step locks happens
      · exact ⟨[], log, rfl, locks.step happens, state, still, stands⟩
      · have own : ∀ process what, action = .call process what → what = process := by
          intro process what isCall
          have admits := admitted.2
          rw [calls process what isCall, LockedSystem.admits, Bool.and_eq_true] at admits
          exact of_decide_eq_true admits.1
        have up : state.shared.up = true := by rw [simulates.shared]; exact admitted.1
        obtain ⟨labels, logAfter, ran, standsAfter⟩ := stands.step layout quota up own nextTaken
        exact ⟨labels, logAfter, ran, locks.step happens, next, still, standsAfter⟩
    · exact absurd taken.symm (Option.some_ne_none _)
  | free label =>
    simp only [lockedStep] at taken
    split at taken
    · rename_i admitted
      rw [Bool.and_eq_true] at admitted
      obtain ⟨shared, sharedTaken, rfl⟩ := Option.map_eq_some_iff.mp taken
      exact standsFor.free admitted.1 admitted.2 sharedTaken
    · exact absurd taken.symm (Option.some_ne_none _)
  | crash =>
    obtain ⟨_, state, simulates, stands⟩ := standsFor
    obtain rfl := Option.some.inj taken
    refine ⟨[.crash], _, exec_single _ rfl, SleepWakeup.locks_start _, _,
      SleepWakeup.simulates_start _, ?_, fun _ => Bool.noConfusion, by simp [Monitors.start]⟩
    rw [stands.same, simulates.shared]
    rfl

omit [DecidableEq ι] in
/-- Who sleeps in the log is about to sleep, and who sleeps does so in the log, unless its wakeup
is under way. -/
theorem LockedSystem.StandsFor.sleepers (standsFor : system.StandsFor log) :
    ∃ asleep, log = system.shared.withSleepers asleep ∧
      (∀ process, asleep process = true → system.shared.places process = .beginOp ∧
        (system.procs process).place.view.channel = some ()) ∧
      ∀ process what, (system.procs process).place = .sleeping what () →
        asleep process = true ∨
          ∃ other, other ≠ process ∧ () ∈ (system.procs other).place.view.pending := by
  obtain ⟨_, state, simulates, stands⟩ := standsFor
  rw [← simulates.shared]
  refine ⟨asleepIn state, stands.same, fun process sleeps => ⟨stands.sleepers process sleeps, ?_⟩,
    fun process what sleeping => ?_⟩
  · cases channel : (system.procs process).place.view.channel with
    | some => rfl
    | none =>
      rw [asleepIn, simulates.awake process channel] at sleeps
      exact Bool.noConfusion sleeps
  · refine (simulates.asleep process () (by rw [sleeping]; rfl)).imp (fun asleep => ?_) And.right
    rw [asleepIn, asleep]
    rfl

/-- Every run with locks stands for a run of the log. -/
theorem run_standsFor {disk : Nat → Block} {schedule : List (LockedLabel ι)}
    {final : LockedSystem ι}
    (ran : exec (lockedStep layout quota) (SleepWakeup.start (System.switchOn disk [])) schedule =
      some final) :
    ∃ labels log, exec (step layout quota) (System.switchOn disk []) labels = some log ∧
      final.StandsFor log :=
  exec_simulated (lockedStep layout quota) (step layout quota) LockedSystem.StandsFor
    (fun _ _ _ _ standsFor taken => standsFor.step taken) _ (System.switchOn disk [])
    ⟨SleepWakeup.locks_start _, _, SleepWakeup.simulates_start _, rfl, fun _ => Bool.noConfusion,
      by simp [Monitors.start]⟩ schedule final ran

/-- Whatever the interleaving of the locks, the processes do to the log what they would if each
section were one step. Who sleeps in that run is at least about to sleep in `begin_op`, and who
sleeps in `begin_op` sleeps in that run too, unless its wakeup is under way. -/
theorem run_is_run_of_log (layout : Layout) (quota : Nat) (disk : Nat → Block)
    (schedule : List (LockedLabel ι)) (final : LockedSystem ι)
    (ran : exec (lockedStep layout quota) (SleepWakeup.start (System.switchOn disk [])) schedule =
      some final) :
    ∃ labels asleep, exec (step layout quota) (System.switchOn disk []) labels =
        some (final.shared.withSleepers asleep) ∧
      (∀ process, asleep process = true → final.shared.places process = .beginOp ∧
        (final.procs process).place.view.channel = some ()) ∧
      ∀ process what, (final.procs process).place = .sleeping what () →
        asleep process = true ∨
          ∃ other, other ≠ process ∧ () ∈ (final.procs other).place.view.pending := by
  obtain ⟨labels, log, logRan, standsFor⟩ := run_standsFor ran
  obtain ⟨asleep, rfl, sleepers⟩ := standsFor.sleepers
  exact ⟨labels, asleep, logRan, sleepers⟩

/-- A process commits, and another one that wants to begin an operation falls asleep. -/
def sleepDuringCommit : List (LockedLabel Bool) :=
  List.replicate 3 (.free .recover) ++
    .free (.call false) ::
      (.locks (.call false false) :: List.replicate 3 (.locks (.next false))) ++
    (.locks (.call false false) :: List.replicate 3 (.locks (.next false))) ++
    .free (.call true) :: (.locks (.call true true) :: List.replicate 6 (.locks (.next true)))

/-- The sleeper of this run sleeps in the run of the log as well, since nobody is about to wake
it. -/
theorem run_is_run_of_log_sleeper :
    ∃ final, exec (lockedStep mkfsLayout 9)
        (SleepWakeup.start (System.switchOn (fun _ _ => 0#32) [])) sleepDuringCommit = some final ∧
      final.shared.committing = true ∧ (final.procs true).place = .sleeping true () ∧
      (∀ process, () ∉ (final.procs process).place.view.pending) ∧
      ∃ labels asleep, exec (step mkfsLayout 9) (System.switchOn (fun _ _ => 0#32) []) labels =
          some (final.shared.withSleepers asleep) ∧
        (∀ process, asleep process = true → final.shared.places process = .beginOp ∧
          (final.procs process).place.view.channel = some ()) ∧
        ∀ process what, (final.procs process).place = .sleeping what () →
          asleep process = true ∨
            ∃ other, other ≠ process ∧ () ∈ (final.procs other).place.view.pending :=
  ⟨_, rfl, rfl, rfl, fun process => by cases process <;> exact List.not_mem_nil,
    run_is_run_of_log mkfsLayout 9 (fun _ _ => 0#32) sleepDuringCommit _ rfl⟩

/-- No wakeup is lost: whoever sleeps in `begin_op` waits for a commit that is going on or for
room in the log, or is about to be woken. -/
theorem sleepers_of_log_have_cause [Fintype ι] (layout : Layout) (quota : Nat)
    (few : quota ≤ maxopblocks) (disk : Nat → Block) (schedule : List (LockedLabel ι))
    (final : LockedSystem ι)
    (ran : exec (lockedStep layout quota) (SleepWakeup.start (System.switchOn disk [])) schedule =
      some final) (process what : ι)
    (sleeping : (final.procs process).place = .sleeping what ()) :
    final.shared.committing = true ∨ final.shared.crowded ∨
      ∃ other, other ≠ process ∧ () ∈ (final.procs other).place.view.pending := by
  obtain ⟨labels, log, logRan, standsFor⟩ := run_standsFor ran
  obtain ⟨asleep, rfl, _, cause⟩ := standsFor.sleepers
  obtain sleeps | pending := cause process what sleeping
  · have place : (final.shared.withSleepers asleep).places process = .asleep := if_pos sleeps
    cases boot : final.shared.boot with
    | none =>
      have waits := (run_admission few logRan boot).sleepers process place
      exact waits.imp_right Or.inl
    | some phase =>
      -- nobody sleeps while recovery is going on
      obtain ⟨_, _, idle, _⟩ := (run_ledger logRan).2.1.booting phase boot
      rw [idle process] at place
      exact Place.noConfusion place
  · exact Or.inr (Or.inr pending)

/-- Such a sleeper waits for the commit. -/
theorem sleepers_of_log_have_cause_commit :
    ∃ final, exec (lockedStep mkfsLayout 9)
        (SleepWakeup.start (System.switchOn (fun _ _ => 0#32) [])) sleepDuringCommit = some final ∧
      (final.procs true).place = .sleeping true () ∧
      (final.shared.committing = true ∨ final.shared.crowded ∨
        ∃ other, other ≠ true ∧ () ∈ (final.procs other).place.view.pending) :=
  ⟨_, rfl, rfl, sleepers_of_log_have_cause mkfsLayout 9 (by decide) (fun _ _ => 0#32)
    sleepDuringCommit _ rfl true true rfl⟩

end Runs

end OsLabwork.Kernel.Logging
