import Mathlib.Algebra.Order.Ring.Nat
import OsLabwork.Library.Splitting
import OsLabwork.Shell.Segments

/-!
# Where error messages go

The shell reports malformed segments and failing built-ins itself. A command that cannot
be found or executed is reported by the child that was forked for it, on descriptor 2.
By then the child has replaced that descriptor if the segment has a redirection, so that
the message goes to the file. When no child could be forked nobody reports anything.

A message that is written after a redirection does not count as one on the standard error
of the shell, whatever the file may be.
-/

namespace OsLabwork.Shell

variable {W : Type}

/-- The messages on the standard error that the shell was started with. -/
def Event.ownMessages : Event → Nat
  | .error => 1
  | .fork _ (some child) => if child.reported && child.redirect.isNone then 1 else 0
  | .fork _ none | .wait => 0

/-- How many messages reach the standard error of the shell itself. -/
def ownMessages (events : List Event) : Nat := (events.map Event.ownMessages).sum

section Segments

variable (kernel : Kernel W)

/-- Whether a built-in command is in error. -/
def builtInFails (command : Command) (state : State W) : Bool :=
  (execBuiltInCmd kernel command state).2 = .returned .error

/-- Whether a command is left to a child. -/
def isExternal (command : Command) (state : State W) : Bool :=
  (execBuiltInCmd kernel command state).2 = .returned .notExec

/-- The child that is forked for a command, unless the fork fails. -/
def childOf (command : Command) (state : State W) : Option ChildRun :=
  let forked := kernel.fork state.world
  if forked.pid < 0 then none else some (childProcess kernel forked.child state.path command)

/-- Whether the child becomes another program. -/
def isExecuted (command : Command) (state : State W) : Bool :=
  (childOf kernel command state).any fun child => child.ending = .replaced

/-- A segment is in error when its redirection is malformed, when its built-in fails, or
when its command cannot be found or executed. -/
def inError : Reading → State W → Bool
  | .malformed, _ => true
  | .blank, _ => false
  | .command command, state => builtInFails kernel command state ||
      (isExternal kernel command state && !isExecuted kernel command state)

/-- The error of a segment is not reported to the shell's own standard error: the command
could not be executed, and it has a redirection or no child. -/
def isUnheard : Reading → State W → Bool
  | .command command, state => isExternal kernel command state &&
      !isExecuted kernel command state &&
      ((childOf kernel command state).isNone || command.redirect.isSome)
  | .malformed, _ | .blank, _ => false

/-- The segments that are handled before the shell exits, with the states that they find. -/
def reachedSegments : List SegmentCall → State W → List (Reading × State W)
  | [], _ => []
  | call :: calls, state =>
      (call.reading, state) :: match call.reading.act kernel state with
        | (_, .exited _) => []
        | (after, .returned _) => reachedSegments calls after

end Segments

/-- Messages earlier and later. -/
theorem ownMessages_append (first later : List Event) :
    ownMessages (first ++ later) = ownMessages first + ownMessages later := by
  simp [ownMessages]

/-- Waiting is no message. -/
theorem ownMessages_waits (count : Nat) : ownMessages (List.replicate count .wait) = 0 := by
  simp [ownMessages, Event.ownMessages]

/-- A child reports exactly when it is not replaced, and it has the redirection of its
command. -/
theorem childProcess_reported (kernel : Kernel W) (world : W) (path : List PathEntry)
    (command : Command) :
    (childProcess kernel world path command).reported =
        !decide ((childProcess kernel world path command).ending = .replaced) ∧
      (childProcess kernel world path command).redirect = command.redirect := by
  simp only [childProcess]
  split
  · cases executed : kernel.execv world
        (searchLoop (kernel.access world) command.name command.name path).1 command.argv with
    | none => simp
    | some result =>
      have failed := kernel.execv_returns _ _ _ _ executed
      simp [failed]
  · simp

/-- A command that is left to a child has changed nothing. -/
theorem execBuiltInCmd_notExec {kernel : Kernel W} {command : Command} {state next : State W}
    (external : execBuiltInCmd kernel command state = (next, .returned .notExec)) :
    next = state := by
  simp only [execBuiltInCmd] at external
  split at external
  · split at external
    · simp at external
    · simp at external
  · split at external
    · split at external
      · simp at external
      · simp at external
    · split at external
      · simp at external
      · exact (Prod.mk.inj external).1.symm

/-- The event of an external command carries a message for the shell exactly when the
command is in error and the error is heard. -/
theorem fork_ownMessages (kernel : Kernel W) (command : Command) (state : State W) (pid : Int) :
    (Event.fork pid (childOf kernel command state)).ownMessages =
      if !isExecuted kernel command state &&
        !((childOf kernel command state).isNone || command.redirect.isSome) then 1 else 0 := by
  by_cases failed : (kernel.fork state.world).pid < 0
  · have none : childOf kernel command state = none := by simp [childOf, failed]
    simp [none, Event.ownMessages]
  · have forked : childOf kernel command state =
        some (childProcess kernel (kernel.fork state.world).child state.path command) := by
      simp [childOf, failed]
    obtain ⟨reported, redirected⟩ := childProcess_reported kernel (kernel.fork state.world).child
      state.path command
    rw [isExecuted, forked]
    simp [Event.ownMessages, reported, redirected, Option.isNone_iff_eq_none]

/-- Acting on a segment adds one message if the segment is in error and that is heard, and
none otherwise. -/
theorem act_messages (kernel : Kernel W) (reading : Reading) (state : State W) :
    ∃ added, (reading.act kernel state).1.events = state.events ++ added ∧
      ownMessages added =
        if inError kernel reading state && !isUnheard kernel reading state then 1 else 0 := by
  cases reading with
  | malformed => exact ⟨[.error], rfl, rfl⟩
  | blank => exact ⟨[], by simp [Reading.act], rfl⟩
  | command command =>
    have sameEvents := execBuiltInCmd_events kernel command state
    rcases builtIn : execBuiltInCmd kernel command state with ⟨next, (_ | _ | _) | status⟩
    all_goals
      rw [builtIn] at sameEvents
      simp only [Reading.act, execCommand, builtIn, inError, isUnheard, builtInFails, isExternal]
    · exact ⟨[], by simpa using sameEvents, rfl⟩
    · exact ⟨[.error], by rw [printError, State.record, sameEvents], rfl⟩
    · obtain rfl := execBuiltInCmd_notExec builtIn
      refine ⟨[.fork (kernel.fork next.world).pid (childOf kernel command next)], rfl, ?_⟩
      have message := fork_ownMessages kernel command next (kernel.fork next.world).pid
      simp only [ownMessages, List.map_singleton, List.sum_singleton, message]
      cases isExecuted kernel command next <;> simp
    · exact ⟨[], by simpa using sameEvents, rfl⟩

/-- Running the calls adds one message for each segment whose error is heard. -/
theorem runCalls_messages (kernel : Kernel W) (calls : List SegmentCall) (state : State W)
    (processCount : Nat) :
    ∃ added, (runCalls kernel calls state processCount).1.events = state.events ++ added ∧
      ownMessages added = (reachedSegments kernel calls state).countP fun segment =>
        inError kernel segment.1 segment.2 && !isUnheard kernel segment.1 segment.2 := by
  induction calls generalizing state processCount with
  | nil => exact ⟨[], by simp [runCalls], rfl⟩
  | cons call calls inductionHypothesis =>
    obtain ⟨first, logged, messages⟩ := act_messages kernel call.reading state
    rcases acting : call.reading.act kernel state with ⟨after, count | status⟩
    · rw [acting] at logged
      obtain ⟨later, laterLogged, laterMessages⟩ :=
        inductionHypothesis after (processCount + count)
      simp only [runCalls, reachedSegments, acting]
      refine ⟨first ++ later, by rw [laterLogged, logged, List.append_assoc], ?_⟩
      rw [ownMessages_append, messages, laterMessages, List.countP_cons, Nat.add_comm]
    · rw [acting] at logged
      simp only [runCalls, reachedSegments, acting]
      exact ⟨first, logged, by rw [messages, List.countP_cons, List.countP_nil, Nat.zero_add]⟩

/-- An error that is not heard is an error. -/
theorem inError_of_isUnheard {kernel : Kernel W} {reading : Reading} {state : State W}
    (unheard : isUnheard kernel reading state = true) : inError kernel reading state = true := by
  cases reading with
  | malformed => rfl
  | blank => simp [isUnheard] at unheard
  | command command =>
    simp only [isUnheard, Bool.and_eq_true] at unheard
    simp [inError, unheard.1.1, unheard.1.2]

/-- For every line, the messages that reach the shell's own standard error while it is
handled are as many as its segments in error exactly when none of these is a command that
could not be executed and has a redirection or could not be given a process. -/
theorem messages_reach_stderr_iff (host : Host W) (line : List InputByte) (state : State W) :
    ∃ added, (handleLine host line state).1.events = state.events ++ added ∧
      (ownMessages added =
          (reachedSegments host.kernel (lineCalls host state.world line) state).countP
            (fun segment => inError host.kernel segment.1 segment.2) ↔
        ∀ segment ∈ reachedSegments host.kernel (lineCalls host state.world line) state,
          isUnheard host.kernel segment.1 segment.2 = false) := by
  obtain ⟨added, logged, messages⟩ :=
    runCalls_messages host.kernel (lineCalls host state.world line) state 0
  have included : ∀ segment ∈ reachedSegments host.kernel (lineCalls host state.world line) state,
      isUnheard host.kernel segment.1 segment.2 = true →
        inError host.kernel segment.1 segment.2 = true :=
    fun _ _ unheard => inError_of_isUnheard unheard
  have law := Splitting.countP_and_not_iff included
  rw [handleLine_calls]
  rcases running : runCalls host.kernel (lineCalls host state.world line) state 0 with
    ⟨after, processCount | status⟩
  · rw [running] at logged
    refine ⟨added ++ List.replicate processCount .wait, ?_, ?_⟩
    · rw [waitForAll, waitFor_events, logged, List.append_assoc]
    · rw [ownMessages_append, ownMessages_waits, Nat.add_zero, messages]
      exact law
  · rw [running] at logged
    exact ⟨added, logged, by rw [messages]; exact law⟩

/-- A line as the shell reads it. -/
def inputLine (text : String) : List InputByte := (ascii text).zipIdx

/-- A command that is not found, with a redirection: its error is in the file only. -/
theorem redirected_error_is_not_heard :
    ownMessages (handleLine refusingHost (inputLine "nosuch > out\n") ⟨(), [], []⟩).1.events = 0 ∧
      (reachedSegments refusingHost.kernel (lineCalls refusingHost () (inputLine "nosuch > out\n"))
        ⟨(), [], []⟩).countP (fun segment => inError refusingHost.kernel segment.1 segment.2) = 1 := by
  rw [handleLine_calls]
  decide +kernel

end OsLabwork.Shell
