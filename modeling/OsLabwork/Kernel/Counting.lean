import OsLabwork.Kernel.Locking
import OsLabwork.Library.Splitting

/-!
# The counter counts every read once

The value loaded for the increment is still the counter's value when it is stored,
since only the holder of the lock stores. So the counter is the number of stores, and
the log of a process consists of whole calls, each read with exactly one store in it,
and the beginning of the current one.

An unlocked load returns the number of stores at that moment, which lies between
their numbers when the call begins and when it returns.
-/

namespace OsLabwork.Kernel

open Interleaving Schedules

variable {P C : Type}

/-- How many reads have stored to the counter. -/
def storeCount (log : List (P × Op)) : Nat := log.countP (fun entry => entry.2 = .stored)

/-- Stores earlier and later. -/
@[simp] theorem storeCount_append (first later : List (P × Op)) :
    storeCount (first ++ later) = storeCount first + storeCount later := List.countP_append

/-- The number of stores never falls. -/
theorem storeCount_le_append (first later : List (P × Op)) :
    storeCount first ≤ storeCount (first ++ later) := by
  rw [storeCount_append]
  exact Nat.le_add_right _ _

/-- A finished system call. -/
inductive Call where
  | read (valid : Bool)
  | getreadcount (value : BitVec 32)

/-- What a finished call leaves in the log. -/
def Call.ops : Call → List Op
  | .read valid => [.readCalled, .stored, .readReturned valid]
  | .getreadcount value => [.getCalled, .getReturned value]

/-- What the current call has left in the log. -/
def Pc.progress : Pc → List Op
  | .user | .panicked => []
  | .pushcli | .checkLocked | .checkCpu | .xchg | .claim | .load | .store _ => [.readCalled]
  | .confirmLocked | .confirmCpu | .clearCpu | .unlock | .popcli | .body => [.readCalled, .stored]
  | .fetch | .answer _ => [.getCalled]

/-- The value is the counter at some moment between the two. -/
def Between (earlier later : List (P × Op)) (value : BitVec 32) : Prop :=
  ∃ count, storeCount earlier ≤ count ∧ count ≤ storeCount later ∧ value = BitVec.ofNat 32 count

/-- A value between two moments is between the first and any later one. -/
theorem Between.mono {earlier later latest : List (P × Op)} {value : BitVec 32}
    (between : Between earlier later value) (grown : storeCount later ≤ storeCount latest) :
    Between earlier latest value := by
  obtain ⟨count, low, high, same⟩ := between
  exact ⟨count, low, Nat.le_trans high grown, same⟩

variable [DecidableEq P]

/-- The counter, the loaded values and the log agree. -/
structure Counting (state : State P C) : Prop where
  counted : state.readCount = BitVec.ofNat 32 (storeCount state.log)
  loaded : ∀ process value, (state.procs process).pc = .store value → value = state.readCount
  history : ∀ process, ∃ calls : List Call, select process state.log =
    calls.flatMap Call.ops ++ (state.procs process).pc.progress
  pending : ∀ process value before between, (state.procs process).pc = .answer value →
    state.log = before ++ (process, .getCalled) :: between → Between before state.log value
  answered : ∀ process value before between after, state.log =
    before ++ (process, .getCalled) :: (between ++ (process, .getReturned value) :: after) →
    Between before (before ++ (process, .getCalled) :: between) value

/-- At first nothing has been counted. -/
theorem counting_initially : Counting (start : State P C) where
  counted := rfl
  loaded _ _ place := by simp [start] at place
  history _ := ⟨[], rfl⟩
  pending _ _ _ _ place := by simp [start] at place
  answered _ _ _ _ _ shape := by simp [start] at shape

variable [DecidableEq C] {state : State P C}

section Log

variable (state) (process : P) (processor : C) (effect : Effect C)

/-- What a process does is added to what it did. -/
theorem select_apply_self : select process (state.apply process processor effect).log =
    select process state.log ++ effect.op.toList := by
  cases entry : effect.op with
  | none => simp [State.apply, entry]
  | some op => simp [State.apply, entry]

/-- What another process did stays. -/
theorem select_apply_other {other : P} (different : other ≠ process) :
    select other (state.apply process processor effect).log = select other state.log := by
  cases entry : effect.op with
  | none => simp [State.apply, entry]
  | some op => simp [State.apply, entry, Ne.symm different]

/-- A step stores once or not at all. -/
theorem storeCount_apply : storeCount (state.apply process processor effect).log =
    storeCount state.log + if effect.op = some .stored then 1 else 0 := by
  cases entry : effect.op with
  | none => simp [State.apply, entry]
  | some op => by_cases stores : op = .stored <;> simp [State.apply, entry, stores, storeCount]

/-- An entry of the log after an access was there before, or is what the access added. -/
theorem apply_log_cases {before after : List (P × Op)} {actor : P} {op : Op}
    (shape : (state.apply process processor effect).log = before ++ (actor, op) :: after) :
    (actor = process ∧ effect.op = some op ∧ state.log = before) ∨
      ∃ earlier, state.log = before ++ (actor, op) :: earlier := by
  cases entry : effect.op with
  | none =>
    simp only [State.apply, entry, Option.map_none, Option.toList_none, List.append_nil] at shape
    exact Or.inr ⟨after, shape⟩
  | some added =>
    simp only [State.apply, entry, Option.map_some, Option.toList_some] at shape
    rcases Splitting.concat_eq_append_cons shape with ⟨own, inLog⟩ | earlier
    · obtain ⟨rfl, rfl⟩ := Prod.mk.inj own
      exact Or.inl ⟨rfl, rfl, inLog⟩
    · exact Or.inr earlier

end Log

/-- Carry the law over one access. The counter is changed by the holder of the lock
only, a value is answered only where it was fetched, and the log grows by at most one
entry, which continues the current call. -/
theorem Counting.apply (counting : Counting state) (locking : Locking state) {process : P}
    (processor : C) (effect : Effect C)
    (counted : effect.readCount = BitVec.ofNat 32
      (storeCount state.log + if effect.op = some .stored then 1 else 0))
    (alone : effect.readCount = state.readCount ∨ (state.procs process).pc.holds = true)
    (loaded : ∀ value, effect.pc = .store value → value = effect.readCount)
    (history : ∃ calls : List Call, (state.procs process).pc.progress ++ effect.op.toList =
      calls.flatMap Call.ops ++ effect.pc.progress)
    (fetched : ∀ value, effect.pc = .answer value → value = effect.readCount)
    (returned : ∀ value, effect.op = some (.getReturned value) →
      (state.procs process).pc = .answer value) :
    Counting (state.apply process processor effect) := by
  have grown := storeCount_apply state process processor effect
  have total : effect.readCount =
      BitVec.ofNat 32 (storeCount (state.apply process processor effect).log) := by
    rw [grown, counted]
  constructor
  case counted => exact total
  case loaded =>
    intro other value place
    by_cases isActor : other = process
    · subst isActor
      simp only [State.apply, Function.update_self] at place ⊢
      exact loaded value place
    · simp only [State.apply, Function.update_of_ne isActor] at place ⊢
      rcases alone with same | holds
      · rw [same]
        exact counting.loaded other value place
      · have otherHolds : (state.procs other).pc.holds = true := by simp [place, Pc.holds]
        exact absurd (locking.exclusive.unique other process otherHolds holds) isActor
  case history =>
    intro other
    obtain ⟨calls, before⟩ := counting.history other
    by_cases isActor : other = process
    · subst isActor
      obtain ⟨more, continued⟩ := history
      refine ⟨calls ++ more, ?_⟩
      rw [select_apply_self, before, List.append_assoc, continued, List.flatMap_append,
        List.append_assoc]
      simp [State.apply]
    · refine ⟨calls, ?_⟩
      rw [select_apply_other state process processor effect isActor, before]
      simp [State.apply, isActor]
  case pending =>
    intro other value before between place shape
    by_cases isActor : other = process
    · subst isActor
      simp only [State.apply, Function.update_self] at place
      refine ⟨_, ?_, Nat.le_refl _, (fetched value place).trans total⟩
      rw [shape]
      exact storeCount_le_append before _
    · simp only [State.apply, Function.update_of_ne isActor] at place
      rcases apply_log_cases state process processor effect shape with ⟨own, _⟩ | ⟨earlier, inLog⟩
      · exact absurd own isActor
      · apply (counting.pending other value before earlier place inLog).mono
        rw [grown]
        exact Nat.le_add_right _ _
  case answered =>
    intro other value before between after shape
    rw [← List.cons_append, ← List.append_assoc] at shape
    rcases apply_log_cases state process processor effect shape with
      ⟨rfl, isReturn, inLog⟩ | ⟨earlier, inLog⟩
    · -- The call returns now: its value was fetched before.
      rw [← inLog]
      exact counting.pending other value before between (returned value isReturn) inLog
    · exact counting.answered other value before between earlier (by simpa using inLog)

/-- An access that neither touches the counter nor shows in the log. -/
theorem Counting.apply_silent (counting : Counting state) (locking : Locking state) {process : P}
    (processor : C) (effect : Effect C) (same : effect.readCount = state.readCount)
    (silent : effect.op = none)
    (progress : effect.pc.progress = (state.procs process).pc.progress)
    (loaded : ∀ value, effect.pc = .store value → value = state.readCount)
    (fetched : ∀ value, effect.pc = .answer value → value = state.readCount) :
    Counting (state.apply process processor effect) := by
  apply counting.apply locking processor effect
  · simp [same, silent, counting.counted]
  · exact Or.inl same
  · simpa [same] using loaded
  · exact ⟨[], by simp [silent, progress]⟩
  · simpa [same] using fetched
  · simp [silent]

/-- Every access keeps the law. Only the store changes the counter, and it stores the
successor of the counter's present value. -/
theorem Counting.instruction (counting : Counting state) (locking : Locking state) {process : P}
    {processor : C} (on : (state.procs process).on = some processor) (what : Work)
    (effect : Effect C)
    (executed : instruction state processor (state.procs process) what = some effect) :
    Counting (state.apply process processor effect) := by
  have alive : effect.pc ≠ .panicked := by
    have survives := (locking.instruction on what effect executed).alive process
    simpa [State.apply] using survives
  cases what with
  | read valid | getreadcount =>
    simp only [Kernel.instruction, Option.ite_none_right_eq_some, Option.some.injEq] at executed
    obtain ⟨user, rfl⟩ := executed
    exact counting.apply locking processor _ (by simp [counting.counted]) (.inl rfl) (by simp)
      ⟨[], by simp [user, Pc.progress]⟩ (by simp) (by simp)
  | next =>
    cases place : (state.procs process).pc with
    | user | panicked => simp [Kernel.instruction, place] at executed
    | pushcli | claim | load | clearCpu | unlock | fetch =>
      simp only [Kernel.instruction, place, Option.some.injEq] at executed
      subst executed
      exact counting.apply_silent locking processor _ rfl rfl (by simp [place, Pc.progress])
        (by simp) (by simp)
    | checkLocked | checkCpu | xchg | confirmLocked | confirmCpu | popcli =>
      -- The process goes one of two ways, and neither shows in the log.
      simp only [Kernel.instruction, place] at executed
      apply counting.apply_silent locking processor effect
      all_goals grind [Pc.progress]
    | store loaded =>
      simp only [Kernel.instruction, place, Option.some.injEq] at executed
      subst executed
      have current := counting.loaded process loaded place
      refine counting.apply locking processor _ ?_ (.inr (by simp [place, Pc.holds])) (by simp)
        ⟨[], by simp [place, Pc.progress]⟩ (by simp) (by simp)
      rw [current, counting.counted]
      simp [BitVec.ofNat_add]
    | body =>
      simp only [Kernel.instruction, place, Option.some.injEq] at executed
      subst executed
      exact counting.apply locking processor _ (by simp [counting.counted]) (.inl rfl) (by simp)
        ⟨[.read (state.procs process).valid], by simp [place, Pc.progress, Call.ops]⟩ (by simp)
        (by simp)
    | answer value =>
      simp only [Kernel.instruction, place, Option.some.injEq] at executed
      subst executed
      exact counting.apply locking processor _ (by simp [counting.counted]) (.inl rfl) (by simp)
        ⟨[.getreadcount value], by simp [place, Pc.progress, Call.ops]⟩ (by simp) (by simp [place])

omit [DecidableEq C] in
/-- The law only looks at the counter, the log and the places of the processes. -/
theorem Counting.congr (counting : Counting state) {next : State P C}
    (readCount : next.readCount = state.readCount) (log : next.log = state.log)
    (places : ∀ process, (next.procs process).pc = (state.procs process).pc) : Counting next where
  counted := by rw [readCount, log, counting.counted]
  loaded := by simpa only [readCount, places] using counting.loaded
  history := by simpa only [log, places] using counting.history
  pending := by simpa only [log, places] using counting.pending
  answered := by simpa only [log] using counting.answered

/-- Every step keeps the law. -/
theorem Counting.step (counting : Counting state) (locking : Locking state)
    (action : Action P C) (next : State P C) (taken : step state action = some next) :
    Counting next := by
  cases action with
  | dispatch process processor =>
    simp only [Kernel.step, Option.ite_none_right_eq_some, Option.some.injEq] at taken
    obtain ⟨_, rfl⟩ := taken
    exact counting.congr rfl rfl (by simp)
  | preempt process =>
    simp only [Kernel.step, Option.bind_eq_some_iff, Option.ite_none_right_eq_some,
      Option.some.injEq] at taken
    obtain ⟨processor, _, _, rfl⟩ := taken
    exact counting.congr rfl rfl (by simp)
  | work process what =>
    simp only [Kernel.step, Option.bind_eq_some_iff, Option.map_eq_some_iff] at taken
    obtain ⟨processor, on, effect, executed, rfl⟩ := taken
    exact counting.instruction locking on what effect executed

/-- Both laws hold after every run. -/
theorem laws_hold (schedule : List (Action P C)) (final : State P C)
    (ran : exec step start schedule = some final) : Locking final ∧ Counting final := by
  apply exec_invariant step start (fun _ state => Locking state ∧ Counting state)
    ⟨locking_initially, counting_initially⟩ ?_ schedule final ran
  intro _ state action next laws taken
  exact ⟨laws.1.step action next taken, laws.2.step laws.1 action next taken⟩

/-- Whatever the schedule, no process panics and the counter is the number of stores.
The log of a process consists of finished calls, each read with exactly one store
whether its arguments are valid or not, followed by the part of the current call that
is done. And every answer of `getreadcount` is the counter's value at some moment
between the call and the return. -/
theorem reads_are_counted (schedule : List (Action P C)) (final : State P C)
    (ran : exec step start schedule = some final) :
    final.readCount = BitVec.ofNat 32 (storeCount final.log) ∧
    (∀ process, ∃ calls : List Call, select process final.log =
      calls.flatMap Call.ops ++ (final.procs process).pc.progress) ∧
    (∀ process value before between after, final.log =
      before ++ (process, .getCalled) :: (between ++ (process, .getReturned value) :: after) →
      Between before (before ++ (process, .getCalled) :: between) value) ∧
    ∀ process, (final.procs process).pc ≠ .panicked := by
  obtain ⟨locking, counting⟩ := laws_hold schedule final ran
  exact ⟨counting.counted, counting.history, counting.answered, locking.alive⟩

/-- One process reads with invalid arguments while another asks for the count. -/
def twoCallers : List (Action Bool Bool) :=
  [.dispatch false false, .dispatch true true, .work false .getreadcount,
    .work true (.read false)] ++
  List.replicate 10 (.work true .next) ++ [.work false .next, .work false .next] ++
  List.replicate 2 (.work true .next) ++ [.preempt true]

/-- One read is counted while another process asks for the count. -/
theorem reads_are_counted_two_callers :
    ∃ final, exec step start twoCallers = some final ∧ final.readCount = 1 ∧
      final.readCount = BitVec.ofNat 32 (storeCount final.log) := by
  have one : (exec step start twoCallers).map State.readCount = some 1 := by decide +kernel
  obtain ⟨final, ran, isOne⟩ := Option.map_eq_some_iff.mp one
  exact ⟨final, ran, isOne, (reads_are_counted twoCallers final ran).1⟩

end OsLabwork.Kernel
