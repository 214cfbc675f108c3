import Mathlib.Algebra.Order.Ring.Nat
import OsLabwork.Kernel.Counting

/-!
# The reported count as an `int`

Of two calls of `getreadcount`, one of which returns before the other starts, the later
one loads the counter after at least as many stores. But the counter is an `int`. While
fewer than 2^31 reads have stored, the answers are the numbers of stores themselves. The
store number 2^31 leaves a negative number behind, which is what a later call reports.

In C the increment of the greatest `int` is undefined. The model has it wrap around, as the
addition of machine words does.
-/

namespace OsLabwork.Kernel

open Interleaving Schedules

variable {P C : Type} [DecidableEq P]

/-- Of two calls that do not overlap, the later one reports no less, and neither reports a
negative number. A process logs nothing between a call and its return. -/
def NeverBackwards (log : List (P × Op)) : Prop :=
  ∀ (first second : P) (earlier later : BitVec 32)
    (before duringFirst between duringSecond after : List (P × Op)),
    log = before ++ (first, .getCalled) :: (duringFirst ++ (first, .getReturned earlier) ::
      (between ++ (second, .getCalled) :: (duringSecond ++ (second, .getReturned later) ::
        after))) →
    select first duringFirst = [] → select second duringSecond = [] →
    0 ≤ earlier.toInt ∧ earlier.toInt ≤ later.toInt

/-- A number of stores below 2^31 is reported as it is. -/
theorem toInt_ofNat_of_lt {count : Nat} (small : count < 2 ^ 31) :
    (BitVec.ofNat 32 count).toInt = count := by
  have same : (BitVec.ofNat 32 count).toNat = count := by
    rw [BitVec.toNat_ofNat]
    exact Nat.mod_eq_of_lt (by omega)
  rw [BitVec.toInt_eq_toNat_of_lt (by omega), same]

/-- Whatever the answers are as numbers, the counts behind them do not go backwards. -/
theorem Counting.answers_ordered {state : State P C} (counting : Counting state)
    {first second : P} {earlier later : BitVec 32}
    {before duringFirst between duringSecond after : List (P × Op)}
    (shape : state.log = before ++ (first, .getCalled) ::
      (duringFirst ++ (first, .getReturned earlier) :: (between ++ (second, .getCalled) ::
        (duringSecond ++ (second, .getReturned later) :: after)))) :
    ∃ low high, earlier = BitVec.ofNat 32 low ∧ later = BitVec.ofNat 32 high ∧ low ≤ high ∧
      high ≤ storeCount state.log := by
  obtain ⟨low, _, lowUpper, isEarlier⟩ :=
    counting.answered first earlier before duringFirst _ shape
  -- Seen from the second call, everything up to it has come before.
  have regrouped : state.log = (before ++ (first, .getCalled) ::
      (duringFirst ++ (first, .getReturned earlier) :: between)) ++ (second, .getCalled) ::
        (duringSecond ++ (second, .getReturned later) :: after) := by
    rw [shape]
    simp
  obtain ⟨high, highLower, highUpper, isLater⟩ :=
    counting.answered second later _ duringSecond after regrouped
  refine ⟨low, high, isEarlier, isLater, ?_, ?_⟩
  · calc
      low ≤ storeCount (before ++ (first, .getCalled) :: duringFirst) := lowUpper
      _ ≤ storeCount (before ++ (first, .getCalled) ::
          (duringFirst ++ (first, .getReturned earlier) :: between)) := by
        rw [← List.cons_append, ← List.append_assoc]
        exact storeCount_le_append _ _
      _ ≤ high := highLower
  · refine Nat.le_trans highUpper ?_
    have whole : state.log = ((before ++ (first, .getCalled) ::
        (duringFirst ++ (first, .getReturned earlier) :: between)) ++ (second, .getCalled) ::
          duringSecond) ++ (second, .getReturned later) :: after := by
      rw [regrouped]
      simp
    rw [whole]
    exact storeCount_le_append _ _

/-- While fewer than 2^31 reads have stored, the reported count never goes backwards. -/
theorem Counting.neverBackwards {state : State P C} (counting : Counting state)
    (small : storeCount state.log < 2 ^ 31) : NeverBackwards state.log := by
  intro first second earlier later before duringFirst between duringSecond after shape _ _
  obtain ⟨low, high, rfl, rfl, ordered, bound⟩ := counting.answers_ordered shape
  rw [toInt_ofNat_of_lt (show low < 2 ^ 31 by omega),
    toInt_ofNat_of_lt (show high < 2 ^ 31 by omega)]
  omega

section Undisturbed

variable [DecidableEq C]

/-- The process runs in user code, and the lock is free. -/
structure Idle (process : P) (processor : C) (state : State P C) : Prop where
  place : (state.procs process).pc = .user
  on : (state.procs process).on = some processor
  unlocked : state.locked = false
  unrecorded : state.cpu = none
  unmasked : (state.cpus processor).ncli = 0

/-- A call of `read` by a process that nobody disturbs. -/
def readCall (process : P) : List (Action P C) :=
  .work process (.read true) :: List.replicate 12 (.work process .next)

/-- A call of `getreadcount` by a process that nobody disturbs. -/
def getreadcountCall (process : P) : List (Action P C) :=
  [.work process .getreadcount, .work process .next, .work process .next]

/-- One process reads that often, and asks for the count before and after. -/
def countedReads (process : P) (processor : C) (reads : Nat) : List (Action P C) :=
  .dispatch process processor :: (getreadcountCall process ++
    ((List.replicate reads (readCall process)).flatten ++ getreadcountCall process))

variable {process : P} {processor : C} {state : State P C}

/-- A call of `read` stores once. -/
theorem Idle.read (idle : Idle process processor state) :
    ∃ next, exec step state (readCall process) = some next ∧ Idle process processor next ∧
      next.log = state.log ++
        [(process, .readCalled), (process, .stored), (process, .readReturned true)] := by
  obtain ⟨place, on, unlocked, unrecorded, unmasked⟩ := idle
  simp only [readCall, List.replicate, exec_cons, exec_nil, resume_some, step, instruction,
    State.apply, place, on, unlocked, unrecorded, unmasked, ↓reduceIte, reduceCtorEq,
    Bool.false_eq_true, one_ne_zero, zero_add, Nat.sub_self, Option.map_some, Option.map_none,
    Option.toList_some, Option.toList_none, Option.bind_some, Option.some.injEq,
    Function.update_self, Function.update_idem, List.append_nil, List.append_assoc,
    List.cons_append, List.nil_append, exists_eq_left', and_true]
  exact ⟨by simp, by simp, rfl, rfl, by simp⟩

/-- A call of `getreadcount` reports the counter. -/
theorem Idle.getreadcount (idle : Idle process processor state) :
    ∃ next, exec step state (getreadcountCall process) = some next ∧
      Idle process processor next ∧ next.log = state.log ++
        [(process, .getCalled), (process, .getReturned state.readCount)] := by
  obtain ⟨place, on, unlocked, unrecorded, unmasked⟩ := idle
  simp only [getreadcountCall, exec_cons, exec_nil, resume_some, step, instruction, State.apply,
    place, on, unlocked, unrecorded, unmasked, ↓reduceIte, Option.map_some, Option.map_none,
    Option.toList_some, Option.toList_none, Option.bind_some, Option.some.injEq,
    Function.update_self, Function.update_idem, List.append_nil, List.append_assoc,
    List.cons_append, List.nil_append, exists_eq_left', and_true]
  exact ⟨by simp, by simp, rfl, rfl, by simp⟩

/-- So many calls of `read` store that often. -/
theorem Idle.reads (idle : Idle process processor state) (reads : Nat) :
    ∃ next, exec step state (List.replicate reads (readCall process)).flatten = some next ∧
      Idle process processor next ∧
      ∃ added, next.log = state.log ++ added ∧ storeCount added = reads := by
  refine exec_rounds step (readCall process) (fun rounds next => Idle process processor next ∧
    ∃ added, next.log = state.log ++ added ∧ storeCount added = rounds) ?_ state
    ⟨idle, [], by simp, rfl⟩ reads
  rintro rounds middle ⟨stillIdle, added, logged, stores⟩
  obtain ⟨next, ran, idleAgain, loggedMore⟩ := stillIdle.read
  refine ⟨next, ran, idleAgain, _, by rw [loggedMore, logged, List.append_assoc], ?_⟩
  rw [storeCount_append, stores]
  rfl

variable (process processor)

/-- A process that has just been dispatched has done nothing. -/
theorem idle_dispatched :
    ∃ next : State P C, exec step start [.dispatch process processor] = some next ∧
      Idle process processor next ∧ next.log = [] := by
  simp only [exec_cons, exec_nil, resume_some, step, start, and_self, ↓reduceIte,
    Option.some.injEq, exists_eq_left', and_true]
  exact ⟨by simp, by simp, rfl, rfl, by simp⟩

/-- The first answer is zero, and the second one the low 32 bits of the number of reads. -/
theorem countedReads_answers (reads : Nat) :
    ∃ (final : State P C) (between : List (P × Op)),
      exec step start (countedReads process processor reads) = some final ∧
      storeCount final.log = reads ∧
      final.log = (process, .getCalled) :: (process, .getReturned 0) ::
        (between ++ [(process, .getCalled), (process, .getReturned (BitVec.ofNat 32 reads))]) := by
  obtain ⟨dispatched, dispatching, idle, empty⟩ := idle_dispatched process processor
  obtain ⟨asked, asking, idleAsked, firstAnswer⟩ := idle.getreadcount
  obtain ⟨counted, counting, idleCounted, between, logged, stores⟩ := idleAsked.reads reads
  obtain ⟨final, askingAgain, _, secondAnswer⟩ := idleCounted.getreadcount
  -- What the counter is at the two calls is known from the law of counting.
  have zero : dispatched.readCount = 0 := by
    rw [(laws_hold _ dispatched dispatching).2.counted, empty]
    rfl
  have total : storeCount counted.log = reads := by
    rw [logged, firstAnswer, empty, storeCount_append, stores]
    simp [storeCount]
  have number : counted.readCount = BitVec.ofNat 32 reads := by
    have runUp := exec_trans dispatching (exec_trans asking counting)
    rw [(laws_hold _ counted runUp).2.counted, total]
  have whole := exec_trans dispatching (exec_trans asking (exec_trans counting askingAgain))
  refine ⟨final, between, whole, ?_, ?_⟩
  · rw [secondAnswer, storeCount_append, total]
    simp [storeCount]
  · rw [secondAnswer, logged, firstAnswer, empty, zero, number]
    simp

end Undisturbed

/-- No negative number may be reported after a first answer. -/
theorem not_neverBackwards {process : P} {between : List (P × Op)} {answer : BitVec 32}
    (negative : answer.toInt < 0) :
    ¬ NeverBackwards ((process, .getCalled) :: (process, .getReturned 0) ::
      (between ++ [(process, .getCalled), (process, .getReturned answer)])) := by
  intro ordered
  have compared := ordered process process 0 answer [] [] between [] [] rfl rfl rfl
  omega

/-- In all runs with no more than `limit` stores the reported count never goes backwards,
exactly when `limit` is below 2^31. -/
theorem reported_count_never_goes_backwards_iff [DecidableEq C] [Inhabited P] [Inhabited C]
    (limit : Nat) :
    (∀ (schedule : List (Action P C)) (final : State P C),
      exec step start schedule = some final → storeCount final.log ≤ limit →
        NeverBackwards final.log) ↔ limit < 2 ^ 31 := by
  constructor
  · intro always
    by_contra large
    obtain ⟨final, between, ran, stores, logged⟩ :=
      countedReads_answers (default : P) (default : C) (2 ^ 31)
    have ordered := always _ final ran (by omega)
    rw [logged] at ordered
    exact not_neverBackwards (by decide) ordered
  · intro small schedule final ran bound
    exact (laws_hold schedule final ran).2.neverBackwards (Nat.lt_of_le_of_lt bound small)

/-- After 2^31 reads by one process the second answer is the least `int`. -/
theorem count_turns_negative :
    ∃ (final : State Unit Unit) (between : List (Unit × Op)),
      exec step start (countedReads () () (2 ^ 31)) = some final ∧
      final.log = ((), .getCalled) :: ((), .getReturned 0) ::
        (between ++ [((), .getCalled), ((), .getReturned (BitVec.ofNat 32 (2 ^ 31)))]) ∧
      (BitVec.ofNat 32 (2 ^ 31)).toInt = -2147483648 ∧ ¬ NeverBackwards final.log := by
  obtain ⟨final, between, ran, _, logged⟩ := countedReads_answers () () (2 ^ 31)
  refine ⟨final, between, ran, logged, by decide, ?_⟩
  rw [logged]
  exact not_neverBackwards (by decide)

end OsLabwork.Kernel
