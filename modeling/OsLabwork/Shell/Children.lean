import OsLabwork.Shell.Parsing

/-!
# Starting and reaping children

Handling a line always ends: `strsep` moves its pointer forward on every turn of both
loops, whatever the memory holds.

Handling the segments of a line starts children and waits for none, and counts as
many processes as it has called `fork`. The waits come behind the last segment, one
for each count; a failed `fork` has been counted too, so there are at least as many
waits as children. A child ends in `execv` or in `exit` and never comes back from
`exec_single_cmd`.
-/

namespace OsLabwork.Shell

open CMemory

variable {W : Type}

section Memory

variable (memory : List UInt8) (pointer : Nat)

/-- `trim` does not move the memory. -/
theorem trim_length : (trim memory pointer).1.length = memory.length := by
  simp [trim]

/-- Nor does cutting a segment at its sign. -/
theorem cutRedirect_length : (cutRedirect memory pointer).1.length = memory.length := by
  simp only [cutRedirect]
  split
  · exact trim_length memory pointer
  · split
    · exact trim_length memory pointer
    · split <;> rw [List.length_set, trim_length]

/-- Nor does reading a destination. -/
theorem parseDest_length : (parseDest memory pointer).memory.length = memory.length := by
  simp only [parseDest]
  split
  · exact trim_length memory _
  · split
    · exact trim_length memory _
    · exact trim_length memory _

/-- Nor does `parse_redirect_dest`. -/
theorem parseRedirectDest_length :
    (parseRedirectDest memory pointer).memory.length = memory.length := by
  have length := cutRedirect_length memory pointer
  rw [parseRedirectDest]
  rcases isCut : cutRedirect memory pointer with ⟨cut, _ | _ | divider⟩ <;> rw [isCut] at length
  · exact length
  · exact length
  · exact (parseDest_length cut divider).trans length

end Memory

/-- The loop of `parse_cmd` ends, and memory keeps its size. -/
theorem tokenLoop_ends (fuel : Nat) (memory : List UInt8) (token : Nat)
    (enough : memory.length - token < fuel) :
    ∃ after tokens, tokenLoop fuel memory token = some (after, tokens) ∧
      after.length = memory.length := by
  induction fuel generalizing memory token with
  | zero => exact absurd enough (Nat.not_lt_zero _)
  | succ fuel inductionHypothesis =>
    have sameLength := strsep_length blanks memory token
    rw [tokenLoop]
    cases more : (strsep blanks memory token).2 with
    | none => exact ⟨_, _, rfl, sameLength⟩
    | some next =>
      have advances := strsep_advances more
      obtain ⟨after, tokens, looped, kept⟩ :=
        inductionHypothesis (strsep blanks memory token).1 next (by omega)
      simp only [looped, Option.map_some]
      exact ⟨_, _, rfl, kept.trans sameLength⟩

/-- `parse_cmd` ends. -/
theorem parseCmd_ends (fuel : Nat) (memory : List UInt8) (cmdLine : Nat)
    (enough : memory.length - cmdLine < fuel) :
    ∃ after parsed, parseCmd fuel memory cmdLine = some (after, parsed) ∧
      after.length = memory.length := by
  obtain ⟨after, tokens, looped, kept⟩ := tokenLoop_ends fuel memory cmdLine enough
  rw [parseCmd, looped, Option.map_some]
  cases tokens with
  | nil | cons first others => exact ⟨after, _, rfl, kept⟩

/-- A call of `fork`, successful or not. -/
def Event.isFork : Event → Bool
  | .fork _ _ => true
  | .error | .wait => false

/-- Events in which `fork` is called so many times and nothing is waited for, and no
child comes back. -/
structure Starts (events : List Event) (count : Nat) : Prop where
  forks : events.countP Event.isFork = count
  noWait : .wait ∉ events
  gone : ∀ pid child, .fork pid (some child) ∈ events → child.ending ≠ .returned

/-- Nothing happened. -/
theorem starts_nothing : Starts [] 0 where
  forks := rfl
  noWait := List.not_mem_nil
  gone _ _ member := absurd member List.not_mem_nil

/-- An error starts no child. -/
theorem starts_error : Starts [.error] 0 where
  forks := rfl
  noWait := by simp
  gone _ _ member := by simp at member

/-- Children are started one after the other. -/
theorem Starts.append {first later : List Event} {count more : Nat} (starts : Starts first count)
    (continues : Starts later more) : Starts (first ++ later) (count + more) where
  forks := by rw [List.countP_append, starts.forks, continues.forks]
  noWait member := by
    rcases List.mem_append.mp member with early | late
    · exact starts.noWait early
    · exact continues.noWait late
  gone pid child member := by
    rcases List.mem_append.mp member with early | late
    · exact starts.gone pid child early
    · exact continues.gone pid child late

/-- The second state is reached from the first by starting children, and a function
that returns has added their number to what was counted before. -/
def Adds (counted : Nat) (before after : State W) (flow : Flow Nat) : Prop :=
  ∃ events count, after.events = before.events ++ events ∧ Starts events count ∧
    ∀ value, flow = .returned value → value = counted + count

/-- The `execv` of the child has no result other than `-1`. -/
theorem childProcess_gone (kernel : Kernel W) (world : W) (path : List PathEntry)
    (command : Command) : (childProcess kernel world path command).ending ≠ .returned := by
  simp only [childProcess]
  split
  · cases executed : kernel.execv world
        (searchLoop (kernel.access world) command.name command.name path).1 command.argv with
    | none => simp
    | some result =>
      have failed := kernel.execv_returns _ _ _ _ executed
      simp [failed]
  · simp

/-- Built-in commands start no children. -/
theorem execBuiltInCmd_events (kernel : Kernel W) (command : Command) (state : State W) :
    (execBuiltInCmd kernel command state).1.events = state.events := by
  simp only [execBuiltInCmd]
  split
  · split
    · rfl
    · rfl
  · split
    · rfl
    · split
      · rfl
      · rfl

/-- A command counts the child that it starts. -/
theorem execCommand_adds (kernel : Kernel W) (command : Command) (state : State W) :
    Adds 0 state (execCommand kernel command state).1 (execCommand kernel command state).2 := by
  rcases builtIn : execBuiltInCmd kernel command state with ⟨next, result | status⟩
  · have sameEvents : next.events = state.events := by
      rw [← execBuiltInCmd_events kernel command state, builtIn]
    cases result with
    | success =>
      simp only [execCommand, builtIn]
      exact ⟨[], 0, by simpa using sameEvents, starts_nothing, by simp⟩
    | error =>
      simp only [execCommand, builtIn, printError, State.record]
      exact ⟨[.error], 0, by rw [sameEvents], starts_error, by simp⟩
    | notExec =>
      simp only [execCommand, builtIn, State.record]
      refine ⟨_, 1, by rw [sameEvents], ?_, by simp⟩
      constructor
      · rfl
      · simp
      · intro pid child member
        simp only [List.mem_singleton, Event.fork.injEq] at member
        obtain ⟨_, isChild⟩ := member
        split at isChild
        · simp at isChild
        · rw [Option.some.inj isChild]
          exact childProcess_gone kernel _ _ command
  · have sameEvents : next.events = state.events := by
      rw [← execBuiltInCmd_events kernel command state, builtIn]
    simp only [execCommand, builtIn]
    exact ⟨[], 0, by simpa using sameEvents, starts_nothing, by simp⟩

/-- So does a segment. -/
theorem execSingleCmd_adds (kernel : Kernel W) (fuel : Nat) (memory : List UInt8) (cmdLine : Nat)
    (state : State W) (enough : memory.length - cmdLine < fuel) :
    ∃ next after flow, execSingleCmd kernel fuel memory cmdLine state = some (next, after, flow) ∧
      next.length = memory.length ∧ Adds 0 state after flow := by
  have sameLength := parseRedirectDest_length memory cmdLine
  simp only [execSingleCmd]
  split
  · exact ⟨_, _, _, rfl, sameLength, [.error], 0, rfl, starts_error, by simp⟩
  · obtain ⟨next, parsed, ends, kept⟩ := parseCmd_ends fuel
      (parseRedirectDest memory cmdLine).memory cmdLine (by omega)
    rw [ends, Option.map_some]
    cases parsed with
    | none => exact ⟨_, _, _, rfl, kept.trans sameLength, [], 0, by simp, starts_nothing, by simp⟩
    | some parsed => exact ⟨_, _, _, rfl, kept.trans sameLength, execCommand_adds kernel _ state⟩

/-- And a token. -/
theorem execToken_adds (kernel : Kernel W) (fuel : Nat) (memory : List UInt8) (token : Nat)
    (state : State W) (enough : memory.length - token < fuel) :
    ∃ next after flow, execToken kernel fuel memory token state = some (next, after, flow) ∧
      next.length = memory.length ∧ Adds 0 state after flow := by
  rw [execToken]
  split
  · exact execSingleCmd_adds kernel fuel memory token state enough
  · exact ⟨_, _, _, rfl, rfl, [], 0, by simp, starts_nothing, by simp⟩

/-- The loop over the segments ends, and adds up the calls of `fork`. -/
theorem segmentLoop_adds (kernel : Kernel W) (fuel : Nat) (memory : List UInt8) (token : Nat)
    (state : State W) (processCount : Nat) (enough : memory.length - token + 1 < fuel) :
    ∃ after flow, segmentLoop kernel fuel memory token state processCount = some (after, flow) ∧
      Adds processCount state after flow := by
  induction fuel generalizing memory token state processCount with
  | zero => exact absurd enough (Nat.not_lt_zero _)
  | succ fuel inductionHypothesis =>
    have sameLength := strsep_length [38] memory token
    obtain ⟨next, middle, flow, handled, kept, events, count, logged, starts, counted⟩ :=
      execToken_adds kernel fuel (strsep [38] memory token).1 token state (by omega)
    rw [segmentLoop, handled, Option.bind_some]
    cases flow with
    | exited status => exact ⟨middle, _, rfl, events, count, logged, starts, by simp⟩
    | returned value =>
      obtain rfl : value = count := by simpa using counted value rfl
      cases more : (strsep [38] memory token).2 with
      | none => exact ⟨middle, _, rfl, events, value, logged, starts, by simp⟩
      | some rest =>
        have advances := strsep_advances more
        obtain ⟨after, last, looped, laterEvents, later, laterLogged, continues, total⟩ :=
          inductionHypothesis next rest middle (processCount + value) (by omega)
        refine ⟨after, last, looped, events ++ laterEvents, value + later, ?_,
          starts.append continues, ?_⟩
        · rw [laterLogged, logged, List.append_assoc]
        · intro result returned
          rw [total result returned, Nat.add_assoc]

/-- The shell waits as often as it is told. -/
theorem waitFor_events (kernel : Kernel W) (count : Nat) (state : State W) :
    (waitFor kernel count state).events = state.events ++ List.replicate count .wait := by
  induction count generalizing state with
  | zero => simp [waitFor]
  | succ count inductionHypothesis =>
    rw [waitFor, inductionHypothesis, State.record, List.append_assoc, List.replicate_succ,
      List.singleton_append]

/-- What handling a line adds to the events: it starts children first, and if it comes
to an end it has then waited as often as `fork` was called. -/
theorem execParallelCmd_adds (kernel : Kernel W) (fuel : Nat) (memory : List UInt8)
    (cmdLine : Nat) (state : State W) (enough : memory.length - cmdLine + 1 < fuel) :
    ∃ after flow events count waits,
      execParallelCmd kernel fuel memory cmdLine state = some (after, flow) ∧
      after.events = state.events ++ events ++ List.replicate waits .wait ∧ Starts events count ∧
      (flow = .returned () → waits = count) := by
  obtain ⟨middle, flow, looped, events, count, logged, starts, counted⟩ :=
    segmentLoop_adds kernel fuel memory cmdLine state 0 enough
  rw [execParallelCmd, looped, Option.map_some]
  cases flow with
  | exited status => exact ⟨middle, _, events, count, 0, rfl, by simp [logged], starts, by simp⟩
  | returned value =>
    obtain rfl : value = count := by simpa using counted value rfl
    exact ⟨_, _, events, value, value, rfl, by rw [waitFor_events, logged], starts, fun _ => rfl⟩

/-- How many children there are to wait for after an event. A `wait` without a child
returns at once. -/
def Event.children (children : Nat) : Event → Nat
  | .fork _ (some _) => children + 1
  | .fork _ none | .error => children
  | .wait => children - 1

/-- The children that have been started and not yet been waited for. -/
def unreaped (events : List Event) : Nat := events.foldl Event.children 0

/-- A call of `fork` starts at most one child. -/
theorem Starts.children_le {events : List Event} {count : Nat} (starts : Starts events count)
    (children : Nat) : events.foldl Event.children children ≤ children + count := by
  have bound : ∀ events : List Event, .wait ∉ events → ∀ children,
      events.foldl Event.children children ≤ children + events.countP Event.isFork := by
    intro events
    induction events with
    | nil => simp
    | cons event rest inductionHypothesis =>
      intro noWait children
      rw [List.mem_cons, not_or] at noWait
      have later := inductionHypothesis noWait.2
      cases event with
      | error => simpa [Event.children, Event.isFork] using later children
      | wait => exact absurd rfl noWait.1
      | fork pid child =>
        rw [List.foldl_cons, List.countP_cons_of_pos rfl]
        cases child with
        | none => exact (later children).trans (by omega)
        | some child => exact (later (children + 1)).trans (by omega)
  rw [← starts.forks]
  exact bound events starts.noWait children

/-- Every wait takes a child away. -/
theorem waits_children (waits children : Nat) :
    (List.replicate waits Event.wait).foldl Event.children children = children - waits := by
  induction waits generalizing children with
  | zero => rfl
  | succ waits inductionHypothesis =>
    rw [List.replicate_succ, List.foldl_cons, inductionHypothesis, Event.children]
    omega

/-- A line that waits as often as it calls `fork` leaves no child behind. -/
theorem Starts.unreaped_zero {before events : List Event} {count : Nat}
    (starts : Starts events count) (none : unreaped before = 0) :
    unreaped (before ++ events ++ List.replicate count .wait) = 0 := by
  have started := starts.children_le 0
  rw [unreaped, List.foldl_append, List.foldl_append, waits_children]
  change events.foldl Event.children (unreaped before) - count = 0
  rw [none]
  omega

end OsLabwork.Shell
