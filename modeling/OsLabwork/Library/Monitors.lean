import Mathlib.Logic.Function.Basic
import OsLabwork.Library.Schedules

/-!
# Monitors with channels to sleep on

Threads share data that only the holder of one lock touches. A region is what a thread
does from getting the lock to giving it up: it changes the data, wakes the threads that
sleep on some channels, and then leaves the monitor or goes to sleep on a channel itself.
A thread that was woken runs a region again when it gets the lock. Here every region is
one step, so that nothing can come between looking at the data and falling asleep.

A thread may be killed from outside. That may rouse it, but need not.

Invariants speak of the data, of what has happened, and of who sleeps for what. A sleeper
goes on waiting for the same as long as each region that ends the waiting wakes its channel.
-/

namespace OsLabwork.Monitors

open Schedules

universe u
variable {ι σ κ α ε : Type u}

/-- What a region leaves behind. If the thread falls asleep, then to go on in the given way
when it is woken; otherwise it leaves the monitor. -/
structure Region (σ κ α ε : Type u) where
  shared : σ
  events : List ε
  wakes : List κ
  sleeps : Option (α × κ)

/-- The region a thread runs, by the data it finds, whether it has been killed, and what it
is doing. -/
def Monitor (σ κ α ε : Type u) := σ → Bool → α → Region σ κ α ε

/-- A thread: what it does in the monitor, the channel it sleeps on, and whether it has been
killed. -/
structure Thread (κ α : Type u) where
  doing : Option α
  asleep : Option κ
  killed : Bool

/-- What the log records of a thread. -/
inductive Entry (α ε : Type u) where
  | called (what : α)
  | did (event : ε)

/-- The data, the threads and what has happened. -/
structure State (ι σ κ α ε : Type u) where
  shared : σ
  threads : ι → Thread κ α
  log : List (ι × Entry α ε)

/-- Nobody is in the monitor, or has been killed. -/
def start (shared : σ) : State ι σ κ α ε := ⟨shared, fun _ => ⟨none, none, false⟩, []⟩

/-- Who does what next. -/
inductive Action (ι α : Type u) where
  | call (thread : ι) (what : α)
  | run (thread : ι)
  | kill (thread : ι) (roused : Bool)

/-- Wake the thread if it sleeps on one of the channels. -/
def Thread.wake [DecidableEq κ] (channels : List κ) (thread : Thread κ α) : Thread κ α :=
  if thread.asleep.any (fun channel => channel ∈ channels) then { thread with asleep := none }
  else thread

variable [DecidableEq ι] [DecidableEq κ]

/-- A call is entered. -/
def State.enter (state : State ι σ κ α ε) (thread : ι) (what : α) : State ι σ κ α ε :=
  { state with
    threads := Function.update state.threads thread
      { state.threads thread with doing := some what }
    log := state.log ++ [(thread, .called what)] }

/-- The state after a region of the thread. -/
def State.take (state : State ι σ κ α ε) (thread : ι) (region : Region σ κ α ε) :
    State ι σ κ α ε where
  shared := region.shared
  threads := Function.update (fun other => (state.threads other).wake region.wakes) thread
    { state.threads thread with
      doing := region.sleeps.map Prod.fst
      asleep := region.sleeps.map Prod.snd }
  log := state.log ++ region.events.map (fun event => (thread, .did event))

/-- A thread is killed, and its sleep may end with that. -/
def State.kill (state : State ι σ κ α ε) (thread : ι) (roused : Bool) : State ι σ κ α ε :=
  { state with
    threads := Function.update state.threads thread
      { state.threads thread with
        killed := true
        asleep := if roused then none else (state.threads thread).asleep } }

/-- A call is entered, a region is run, or a thread is killed. -/
def step (monitor : Monitor σ κ α ε) (state : State ι σ κ α ε) :
    Action ι α → Option (State ι σ κ α ε)
  | .call thread what =>
      match (state.threads thread).doing with
      | none => some (state.enter thread what)
      | some _ => none
  | .run thread =>
      match (state.threads thread).doing, (state.threads thread).asleep with
      | some what, none =>
          some (state.take thread (monitor state.shared (state.threads thread).killed what))
      | _, _ => none
  | .kill thread roused => some (state.kill thread roused)

/-- Every step is one of the three. -/
theorem step_cases {monitor : Monitor σ κ α ε} {state next : State ι σ κ α ε}
    {action : Action ι α} (taken : step monitor state action = some next) :
    (∃ thread what, action = .call thread what ∧ (state.threads thread).doing = none ∧
      next = state.enter thread what) ∨
    (∃ thread what, action = .run thread ∧ (state.threads thread).doing = some what ∧
      (state.threads thread).asleep = none ∧
      next = state.take thread (monitor state.shared (state.threads thread).killed what)) ∨
    ∃ thread roused, action = .kill thread roused ∧ next = state.kill thread roused := by
  cases action with
  | call thread what =>
    cases doing : (state.threads thread).doing with
    | none => exact Or.inl ⟨thread, what, rfl, doing, by simpa [step, doing] using taken.symm⟩
    | some _ => simp [step, doing] at taken
  | run thread =>
    cases doing : (state.threads thread).doing with
    | none => simp [step, doing] at taken
    | some what =>
      cases asleep : (state.threads thread).asleep with
      | none =>
        exact Or.inr (Or.inl ⟨thread, what, rfl, doing, asleep,
          by simpa [step, doing, asleep] using taken.symm⟩)
      | some _ => simp [step, doing, asleep] at taken
  | kill thread roused =>
    exact Or.inr (Or.inr ⟨thread, roused, rfl, (Option.some.inj taken).symm⟩)

/-- The event of an entry that is not a call. -/
def Entry.event? : Entry α ε → Option ε
  | .called _ => none
  | .did event => some event

/-- The events of all threads in their order. -/
def State.events (state : State ι σ κ α ε) : List ε :=
  state.log.filterMap (fun entry => entry.2.event?)

section Fields

variable (state : State ι σ κ α ε) (thread : ι)

omit [DecidableEq κ] in
/-- Entering a call is not an event of the data. -/
@[simp] theorem enter_events (what : α) : (state.enter thread what).events = state.events := by
  simp [State.events, State.enter, Entry.event?]

/-- A region adds its events. -/
@[simp] theorem take_events (region : Region σ κ α ε) :
    (state.take thread region).events = state.events ++ region.events := by
  rw [State.events, State.take, List.filterMap_append, List.filterMap_map]
  change state.events ++ region.events.filterMap some = _
  rw [List.filterMap_some]

omit [DecidableEq κ] in
/-- Nor is a kill an event of the data. -/
@[simp] theorem kill_events (roused : Bool) : (state.kill thread roused).events = state.events :=
  rfl

/-- A region wakes up the other threads, and does nothing else to them. -/
theorem take_threads_of_ne {other : ι} (different : other ≠ thread) (region : Region σ κ α ε) :
    (state.take thread region).threads other = (state.threads other).wake region.wakes := by
  simp [State.take, different]

end Fields

omit [DecidableEq ι] in
/-- A wakeup does not change the call. -/
@[simp] theorem Thread.wake_doing (channels : List κ) (thread : Thread κ α) :
    (thread.wake channels).doing = thread.doing := by
  rw [Thread.wake]
  split <;> rfl

omit [DecidableEq ι] in
/-- A wakeup does not kill. -/
@[simp] theorem Thread.wake_killed (channels : List κ) (thread : Thread κ α) :
    (thread.wake channels).killed = thread.killed := by
  rw [Thread.wake]
  split <;> rfl

omit [DecidableEq ι] in
/-- Whoever still sleeps slept before, on a channel that was not woken. -/
theorem Thread.wake_asleep_iff (channels : List κ) (thread : Thread κ α) (channel : κ) :
    (thread.wake channels).asleep = some channel ↔
      thread.asleep = some channel ∧ channel ∉ channels := by
  rw [Thread.wake]
  cases asleep : thread.asleep with
  | none => simp [asleep]
  | some other =>
    by_cases woken : other ∈ channels
    · simp only [Option.any_some, woken, decide_true, ↓reduceIte, reduceCtorEq, Option.some.injEq,
        false_iff, not_and, not_not]
      rintro rfl
      exact woken
    · simp only [Option.any_some, woken, decide_false, Bool.false_eq_true, ↓reduceIte, asleep,
        Option.some.injEq, iff_self_and]
      rintro rfl
      exact woken

omit [DecidableEq ι] in
/-- A thread is awake after its channel has been woken, if it slept on any. -/
theorem Thread.wake_asleep_eq_none {channels : List κ} {thread : Thread κ α}
    (woken : ∀ channel, thread.asleep = some channel → channel ∈ channels) :
    (thread.wake channels).asleep = none := by
  rw [Option.eq_none_iff_forall_ne_some]
  intro channel asleep
  rw [Thread.wake_asleep_iff] at asleep
  exact asleep.2 (woken channel asleep.1)

/-- Whether some thread sleeps on the channel, to go on in the given way. -/
def State.sleepers (state : State ι σ κ α ε) (channel : κ) (what : α) : Prop :=
  ∃ thread, (state.threads thread).asleep = some channel ∧
    (state.threads thread).doing = some what

/-- After a region the sleepers are those on channels that it has not woken, and the thread
itself if it has fallen asleep. -/
def Region.sleepersAfter (region : Region σ κ α ε) (sleepers : κ → α → Prop) (channel : κ)
    (what : α) : Prop :=
  sleepers channel what ∧ channel ∉ region.wakes ∨ region.sleeps = some (what, channel)

section Sleepers

omit [DecidableEq κ] in
/-- Nobody who enters the monitor slept before. -/
theorem sleepers_of_enter {state : State ι σ κ α ε} {thread : ι} {what : α}
    (idle : (state.threads thread).asleep = none) {channel : κ} {later : α}
    (sleeps : (state.enter thread what).sleepers channel later) : state.sleepers channel later := by
  obtain ⟨other, asleep, doing⟩ := sleeps
  by_cases isThread : other = thread
  · simp [State.enter, isThread, idle] at asleep
  · simp only [State.enter, Function.update_of_ne isThread] at asleep doing
    exact ⟨other, asleep, doing⟩

/-- Who sleeps after a region slept before and was not woken up, or sleeps now. -/
theorem sleepers_of_take {state : State ι σ κ α ε} {thread : ι} {region : Region σ κ α ε}
    {channel : κ} {later : α} (sleeps : (state.take thread region).sleepers channel later) :
    region.sleepersAfter state.sleepers channel later := by
  obtain ⟨other, asleep, doing⟩ := sleeps
  by_cases isThread : other = thread
  · right
    simp only [State.take, isThread, Function.update_self, Option.map_eq_some_iff] at asleep doing
    obtain ⟨⟨_, _⟩, fellAsleep, rfl⟩ := asleep
    obtain ⟨⟨_, _⟩, goesOn, rfl⟩ := doing
    rw [fellAsleep] at goesOn
    grind
  · left
    rw [take_threads_of_ne _ _ isThread, Thread.wake_asleep_iff] at asleep
    rw [take_threads_of_ne _ _ isThread, Thread.wake_doing] at doing
    exact ⟨⟨other, asleep.1, doing⟩, asleep.2⟩

omit [DecidableEq κ] in
/-- A kill puts nobody to sleep. -/
theorem sleepers_of_kill {state : State ι σ κ α ε} {thread : ι} {roused : Bool} {channel : κ}
    {later : α} (sleeps : (state.kill thread roused).sleepers channel later) :
    state.sleepers channel later := by
  obtain ⟨other, asleep, doing⟩ := sleeps
  by_cases isThread : other = thread
  · subst isThread
    simp only [State.kill, Function.update_self] at asleep doing
    cases roused with
    | true => simp at asleep
    | false => exact ⟨other, asleep, doing⟩
  · simp only [State.kill, Function.update_of_ne isThread] at asleep doing
    exact ⟨other, asleep, doing⟩

end Sleepers

variable (monitor : Monitor σ κ α ε)

/-- What holds of the data, the events and the sleepers at first, survives every region, and
does not need anybody to sleep, holds always. -/
theorem sleepers_invariant (holds : σ → List ε → (κ → α → Prop) → Prop)
    (fewer : ∀ shared events (sleepers fewer : κ → α → Prop),
      (∀ channel what, fewer channel what → sleepers channel what) →
      holds shared events sleepers → holds shared events fewer)
    (region : ∀ shared events sleepers killed what, holds shared events sleepers →
      holds (monitor shared killed what).shared (events ++ (monitor shared killed what).events)
        ((monitor shared killed what).sleepersAfter sleepers))
    (shared : σ) (initially : holds shared [] (fun _ _ => False)) (schedule : List (Action ι α))
    (final : State ι σ κ α ε) (ran : exec (step monitor) (start shared) schedule = some final) :
    holds final.shared final.events final.sleepers := by
  let awakeOutside (state : State ι σ κ α ε) : Prop := ∀ thread,
    (state.threads thread).doing = none → (state.threads thread).asleep = none
  have both : awakeOutside final ∧ holds final.shared final.events final.sleepers := by
    refine exec_invariant (step monitor) (start shared)
      (fun _ state => awakeOutside state ∧ holds state.shared state.events state.sleepers)
      ⟨fun _ _ => rfl, ?_⟩ ?_ schedule final ran
    · refine fewer _ _ _ _ (fun channel what sleeps => ?_) initially
      obtain ⟨thread, asleep, _⟩ := sleeps
      exact absurd asleep.symm (Option.some_ne_none channel)
    · rintro _ state action next ⟨awake, holdsBefore⟩ taken
      obtain ⟨actor, what, rfl, idle, rfl⟩ | ⟨actor, what, rfl, _, _, rfl⟩ |
        ⟨actor, roused, rfl, rfl⟩ := step_cases taken
      · refine ⟨fun other outside => ?_, ?_⟩
        · by_cases isActor : other = actor
          · simp [State.enter, isActor] at outside
          · simp only [State.enter, Function.update_of_ne isActor] at outside ⊢
            exact awake other outside
        · rw [enter_events]
          exact fewer _ _ _ _ (fun _ _ => sleepers_of_enter (awake actor idle)) holdsBefore
      · refine ⟨fun other outside => ?_, ?_⟩
        · by_cases isActor : other = actor
          · simp only [State.take, isActor, Function.update_self, Option.map_eq_none_iff]
              at outside ⊢
            exact outside
          · rw [take_threads_of_ne _ _ isActor] at outside ⊢
            rw [Thread.wake_doing] at outside
            refine Thread.wake_asleep_eq_none (fun channel asleep => ?_)
            rw [awake other outside] at asleep
            exact absurd asleep.symm (Option.some_ne_none channel)
        · rw [take_events]
          exact fewer _ _ _ _ (fun _ _ => sleepers_of_take) (region _ _ _ _ _ holdsBefore)
      · refine ⟨fun other outside => ?_, ?_⟩
        · by_cases isActor : other = actor
          · subst isActor
            simp only [State.kill, Function.update_self] at outside ⊢
            cases roused with
            | true => rfl
            | false => exact awake other outside
          · simp only [State.kill, Function.update_of_ne isActor] at outside ⊢
            exact awake other outside
        · exact fewer _ _ _ _ (fun _ _ => sleepers_of_kill) holdsBefore
  exact both.2

/-! ## What a call comes to -/

/-- What a thread has called and done. -/
def logOf (log : List (ι × Entry α ε)) (thread : ι) : List (Entry α ε) :=
  log.filterMap (fun entry => if entry.1 = thread then some entry.2 else none)

/-- Calls that have returned, one after the other, each with what it did. -/
inductive Finished (kept : α → List ε → Prop) : List (Entry α ε) → Prop where
  | nil : Finished kept []
  | call {log : List (Entry α ε)} {what : α} {events : List ε} (earlier : Finished kept log)
      (keeps : kept what events) : Finished kept (log ++ .called what :: events.map .did)

/-- A log of calls that have returned and at most one more, which has come to what is left. -/
def Conforms (begun : α → List ε → α → Prop) (kept : α → List ε → Prop) (doing : Option α)
    (log : List (Entry α ε)) : Prop :=
  ∃ earlier, Finished kept earlier ∧ (doing = none ∧ log = earlier ∨
    ∃ call events left, doing = some left ∧ begun call events left ∧
      log = earlier ++ .called call :: events.map .did)

section Logs

omit [DecidableEq κ]

/-- What a thread did earlier and later. -/
theorem logOf_append (first later : List (ι × Entry α ε)) (thread : ι) :
    logOf (first ++ later) thread = logOf first thread ++ logOf later thread :=
  List.filterMap_append ..

/-- An entry of the thread. -/
theorem logOf_single_self (thread : ι) (entry : Entry α ε) :
    logOf [(thread, entry)] thread = [entry] := by
  simp [logOf]

/-- An entry of another thread. -/
theorem logOf_single_of_ne {thread other : ι} (different : other ≠ thread) (entry : Entry α ε) :
    logOf [(thread, entry)] other = [] := by
  simp [logOf, different.symm]

/-- Events of the thread. -/
theorem logOf_events_self (events : List ε) (thread : ι) :
    logOf (α := α) (events.map (fun event => (thread, .did event))) thread =
      events.map .did := by
  induction events with
  | nil => rfl
  | cons event rest inductionHypothesis =>
    rw [List.map_cons, List.map_cons, ← inductionHypothesis]
    exact List.filterMap_cons_some (if_pos rfl)

/-- Events of another thread. -/
theorem logOf_events_of_ne {thread other : ι} (different : other ≠ thread) (events : List ε) :
    logOf (α := α) (events.map (fun event => (thread, .did event))) other = [] := by
  rw [logOf, List.filterMap_eq_nil_iff]
  intro entry inEvents
  obtain ⟨event, _, rfl⟩ := List.mem_map.mp inEvents
  exact if_neg different.symm

end Logs

/-- If regions bring a call from what it has come to either further on or to its end, then
every thread's log is made of such calls. -/
theorem calls_conform (begun : α → List ε → α → Prop) (kept : α → List ε → Prop)
    (begins : ∀ what, begun what [] what)
    (goesOn : ∀ call events left shared killed later channel, begun call events left →
      (monitor shared killed left).sleeps = some (later, channel) →
      begun call (events ++ (monitor shared killed left).events) later)
    (ends : ∀ call events left shared killed, begun call events left →
      (monitor shared killed left).sleeps = none →
      kept call (events ++ (monitor shared killed left).events))
    (shared : σ) (schedule : List (Action ι α)) (final : State ι σ κ α ε)
    (ran : exec (step monitor) (start shared) schedule = some final) (thread : ι) :
    Conforms begun kept (final.threads thread).doing (logOf final.log thread) := by
  refine exec_invariant (step monitor) (start shared) (fun _ state =>
    Conforms begun kept (state.threads thread).doing (logOf state.log thread))
    ⟨[], .nil, Or.inl ⟨rfl, rfl⟩⟩ ?_ schedule final ran
  rintro _ state action next ⟨earlier, finished, conforms⟩ taken
  obtain ⟨actor, what, rfl, idle, rfl⟩ | ⟨actor, what, rfl, doing, _, rfl⟩ |
    ⟨actor, roused, rfl, rfl⟩ := step_cases taken
  · by_cases isActor : thread = actor
    · subst isActor
      obtain ⟨_, log⟩ | ⟨_, _, _, doing, _⟩ := conforms
      · refine ⟨earlier, finished, Or.inr ⟨what, [], what, ?_, begins what, ?_⟩⟩
        · simp [State.enter]
        · rw [State.enter, logOf_append, logOf_single_self, log]
          rfl
      · rw [idle] at doing
        exact absurd doing.symm (Option.some_ne_none _)
    · refine ⟨earlier, finished, ?_⟩
      simpa only [State.enter, Function.update_of_ne isActor, logOf_append,
        logOf_single_of_ne isActor, List.append_nil] using conforms
  · by_cases isActor : thread = actor
    · subst isActor
      obtain ⟨notDoing, _⟩ | ⟨call, events, left, isDoing, hasBegun, log⟩ := conforms
      · rw [doing] at notDoing
        exact absurd notDoing (Option.some_ne_none what)
      · obtain rfl : what = left := Option.some.inj (doing.symm.trans isDoing)
        have newLog : logOf (state.take thread (monitor state.shared
            (state.threads thread).killed what)).log thread =
            earlier ++ .called call :: (events ++ (monitor state.shared
              (state.threads thread).killed what).events).map .did := by
          simp only [State.take, logOf_append, logOf_events_self, log, List.map_append,
            List.append_assoc, List.cons_append]
        rw [newLog]
        cases sleeps : (monitor state.shared (state.threads thread).killed what).sleeps with
        | none =>
          exact ⟨_, finished.call (ends _ _ _ _ _ hasBegun sleeps), Or.inl
            ⟨by simp [State.take, sleeps], rfl⟩⟩
        | some pair =>
          exact ⟨earlier, finished, Or.inr ⟨call, _, pair.1, by simp [State.take, sleeps],
            goesOn _ _ _ _ _ _ _ hasBegun sleeps, rfl⟩⟩
    · refine ⟨earlier, finished, ?_⟩
      rw [take_threads_of_ne _ _ isActor, Thread.wake_doing]
      simpa only [State.take, logOf_append, logOf_events_of_ne isActor, List.append_nil]
        using conforms
  · refine ⟨earlier, finished, ?_⟩
    by_cases isActor : thread = actor
    · subst isActor
      simpa [State.kill] using conforms
    · simpa [State.kill, isActor] using conforms

end OsLabwork.Monitors
