import OsLabwork.Kernel.LogProtocol

/-!
# Room in the log

`begin_op` lets an operation in when the log has room for ten blocks of each operation in
progress, the new one included. An operation that logs fewer leaves room to those that
begin later, while those that are in progress hold the log open. So the log may come to hold
ten blocks more than two operations can log.

The log area that `mkfs` makes has thirty blocks, of which one is the header. Operations of
up to nine blocks never fill it. Three operations of ten blocks do, and `log_write` panics;
or it does not, if two of them make their checks before either enters its block.

Who sleeps in `begin_op` waits for a commit or for room. When no operation is in progress
and no commit is going on, the log is empty: nobody sleeps, and everything is committed.
-/

namespace OsLabwork.Kernel.Logging

open Histories Schedules Tallies Transactions

/-- How many blocks an operation may still log. -/
def Place.reserve (quota : Nat) : Place → Nat
  | .active written | .logWrite written _ _ => quota - written.length
  | _ => 0

/-- An operation keeps to its quota, and what it has logged is in the log. -/
def Place.Within (quota : Nat) (lh : List (BitVec 32)) : Place → Prop
  | .active written => written.length ≤ quota ∧ written ⊆ lh
  | .logWrite written blockno _ => written.length ≤ quota ∧ written ⊆ lh ∧
      (blockno ∈ written ∨ written.length < quota)
  | _ => True

/-- Processes that are woken may log as much as before. -/
@[simp] theorem wakeup_reserve (quota : Nat) (place : Place) :
    place.wakeup.reserve quota = place.reserve quota := by
  cases place <;> rfl

/-- Nobody sleeps who has been woken. -/
theorem wakeup_ne_asleep (place : Place) : place.wakeup ≠ .asleep := by
  cases place <;> simp [Place.wakeup]

/-- No operation goes beyond its quota. -/
theorem reserve_le (quota : Nat) (place : Place) :
    place.reserve quota ≤ quota * place.operations := by
  cases place <;> simp [Place.reserve, Place.operations]

section Within

variable {quota : Nat} {lh : List (BitVec 32)} {place : Place}

/-- Processes that are woken have logged what they had. -/
theorem Place.Within.wakeup (within : place.Within quota lh) : place.wakeup.Within quota lh := by
  revert within
  cases place <;> exact id

/-- Without an operation in progress there is nothing to keep to. -/
theorem within_of_operations (none : place.operations = 0) : place.Within quota lh := by
  cases place with
  | active | logWrite => exact absurd none Nat.one_ne_zero
  | _ => trivial

/-- The log may hold more. -/
theorem Place.Within.mono {more : List (BitVec 32)} (within : place.Within quota lh)
    (subset : lh ⊆ more) : place.Within quota more := by
  revert within
  cases place with
  | active written => exact fun within => ⟨within.1, fun _ inWritten => subset (within.2 inWritten)⟩
  | logWrite written blockno block =>
    exact fun within =>
      ⟨within.1, fun _ inWritten => subset (within.2.1 inWritten), within.2.2⟩
  | _ => exact id

end Within

variable {ι : Type} [DecidableEq ι] [Fintype ι]

/-- The log is too full for one more operation. -/
def System.crowded (system : System ι) : Prop :=
  (system.lh.length : Int) + (system.outstanding + 1) * maxopblocks > logsize

/-- What the operations have logged and may still log fits, and nobody sleeps without cause. -/
structure Admission (quota : Nat) (system : System ι) : Prop where
  room : system.lh.length + tally (Place.reserve quota) system.places ≤ maxopblocks + 2 * quota
  within : ∀ process, (system.places process).Within quota system.lh
  empty : system.committing = false → system.outstanding = 0 → system.lh = []
  sleepers : ∀ process, system.places process = .asleep →
    system.committing = true ∨ system.crowded

section Steps

variable {quota : Nat} {system after : System ι}

omit [DecidableEq ι] in
/-- Blocks and buffers do not matter here. -/
theorem Admission.of_same (admission : Admission quota system) (lh : after.lh = system.lh)
    (outstanding : after.outstanding = system.outstanding)
    (committing : after.committing = system.committing)
    (places : after.places = system.places) : Admission quota after where
  room := by simpa only [lh, places] using admission.room
  within := by simpa only [lh, places] using admission.within
  empty := by simpa only [lh, committing, outstanding] using admission.empty
  sleepers := by
    simpa only [System.crowded, lh, places, committing, outstanding] using admission.sleepers

/-- A process goes on and keeps its share, without falling asleep for nothing. -/
theorem Admission.moveTo (admission : Admission quota system) {process : ι} {before place : Place}
    (atPlace : system.places process = before)
    (reserve : place.reserve quota = before.reserve quota)
    (within : place.Within quota system.lh)
    (sleepers : place = .asleep → system.committing = true ∨ system.crowded) :
    Admission quota (system.moveTo process place) := by
  have tallied := tally_update (Place.reserve quota) system.places process place
  refine ⟨?_, all_moveTo _ within admission.within, admission.empty,
    all_moveTo (fun place => place = .asleep → system.committing = true ∨ system.crowded)
      sleepers admission.sleepers⟩
  have := admission.room
  simp only [System.moveTo]
  rw [atPlace] at tallied
  omega

/-- Beside two operations at most, there is room for what is let in. -/
theorem room_for_one_more {logged reserved count quota : Nat} (few : quota ≤ maxopblocks)
    (fits : (logged : Int) + ((count : Int) + 1) * maxopblocks ≤ logsize)
    (alone : count = 0 → logged = 0) (bounded : reserved ≤ quota * count) :
    logged + (reserved + quota) ≤ maxopblocks + 2 * quota := by
  simp only [logsize, maxopblocks] at *
  obtain rfl | rfl | rfl : count = 0 ∨ count = 1 ∨ count = 2 := by omega
  · have := alone rfl
    omega
  · omega
  · omega

/-- Whoever is let in finds room for its blocks beside those of the others. -/
theorem Admission.beginOp (admission : Admission quota system) (protocol : Protocol system)
    (few : quota ≤ maxopblocks) {process : ι} (atBegin : system.places process = .beginOp) :
    Admission quota (system.beginOp process) := by
  unfold System.beginOp
  split
  · rename_i committing
    exact admission.moveTo atBegin rfl trivial (fun _ => Or.inl committing)
  · split
    · rename_i crowded
      exact admission.moveTo atBegin rfl trivial (fun _ => Or.inr crowded)
    · rename_i notCommitting notCrowded
      have isOpen : system.committing = false := Bool.eq_false_iff.mpr notCommitting
      have count := protocol.count
      have nobody : ∀ other, (system.places other) ≠ .asleep := fun other asleep =>
        (admission.sleepers other asleep).elim (fun committing => notCommitting committing)
          (fun crowded => notCrowded crowded)
      refine ⟨?_, all_moveTo _ ⟨Nat.zero_le _, List.nil_subset _⟩ admission.within,
        fun _ none => ?_, fun other asleep => absurd asleep ?_⟩
      · have tallied := tally_update (Place.reserve quota) system.places process (.active [])
        have notFull : (system.lh.length : Int) +
            ((tally Place.operations system.places : Int) + 1) * maxopblocks ≤ logsize := by
          rw [← count]
          exact Int.not_lt.mp notCrowded
        have alone : tally Place.operations system.places = 0 → system.lh.length = 0 := by
          intro none
          have isEmpty := admission.empty isOpen (by omega)
          simp [isEmpty]
        have fits := room_for_one_more few notFull alone
          (tally_le_mul (fun other => reserve_le quota (system.places other)))
        simp only [atBegin, Place.reserve, List.length_nil, Nat.sub_zero] at tallied
        simp only [System.note, System.moveTo]
        omega
      · simp only at none
        omega
      · exact all_moveTo (· ≠ .asleep) Place.noConfusion nobody other

/-- The checks of `log_write` reserve nothing. -/
theorem Admission.logWrite (admission : Admission quota system) (layout : Layout) {process : ι}
    {written : List (BitVec 32)} (active : system.places process = .active written)
    {blockno : BitVec 32} (allowed : blockno ∈ written ∨ written.length < quota) (block : Block) :
    Admission quota (system.logWrite layout process written blockno block) := by
  have within := admission.within process
  rw [active] at within
  unfold System.logWrite
  split
  · exact admission.of_same rfl rfl rfl rfl
  · exact admission.moveTo active rfl ⟨within.1, within.2, allowed⟩ Place.noConfusion

/-- A block that is logged uses up what was kept for it, unless it was logged before. -/
theorem Admission.append (admission : Admission quota system) (protocol : Protocol system)
    {process : ι} {written : List (BitVec 32)} {blockno : BitVec 32} {block : Block}
    (place : system.places process = .logWrite written blockno block) :
    Admission quota (system.append process written blockno block) := by
  have within := admission.within process
  rw [place] at within
  obtain ⟨few, inLog, allowed⟩ := within
  have grows := subset_absorb system.lh blockno
  have longer := length_le_absorb system.lh blockno
  have isWithin : (Place.active (absorb written blockno)).Within quota
      (absorb system.lh blockno) := by
    refine ⟨?_, fun other inWritten => ?_⟩
    · by_cases before : blockno ∈ written
      · rw [absorb_of_mem before]
        exact few
      · exact (length_absorb_le written blockno).trans (allowed.resolve_left before)
    · rw [mem_absorb] at inWritten ⊢
      exact inWritten.imp_left (fun earlier => inLog earlier)
  refine ⟨?_, all_moveTo _ isWithin (fun other => (admission.within other).mono grows),
    fun isOpen none => ?_, fun other asleep => ?_⟩
  · have room := admission.room
    have tallied := tally_update (Place.reserve quota) system.places process
      (.active (absorb written blockno))
    simp only [place, Place.reserve] at tallied
    simp only [System.append, System.note, System.moveTo]
    by_cases before : blockno ∈ written
    · rw [absorb_of_mem before] at tallied ⊢
      rw [absorb_of_mem (inLog before)]
      omega
    · have less := allowed.resolve_left before
      have length := length_absorb_le system.lh blockno
      rw [absorb_of_not_mem before, List.length_append, List.length_singleton] at tallied
      rw [absorb_of_not_mem before]
      omega
  · have busy := protocol.outstanding_pos place rfl
    simp only [System.append, System.note, System.moveTo] at none
    omega
  · by_cases isProcess : other = process
    · simp [System.append, System.note, System.moveTo, isProcess] at asleep
    · simp only [System.append, System.note, System.moveTo,
        Function.update_of_ne isProcess] at asleep
      refine (admission.sleepers other asleep).imp id (fun crowded => ?_)
      simp only [System.crowded, System.append, System.note, System.moveTo] at crowded ⊢
      omega

/-- An operation that ends gives back what it has not used, and wakes those who wait for it,
unless it begins a commit. -/
theorem Admission.endOp (admission : Admission quota system) (protocol : Protocol system)
    {process : ι} {written : List (BitVec 32)}
    (active : system.places process = .active written) :
    Admission quota (system.endOp process) := by
  have isOpen := protocol.open_of_operation active rfl
  have room := admission.room
  simp only [System.endOp, isOpen, Bool.false_eq_true, ↓reduceIte]
  split
  · have tallied := tally_update (Place.reserve quota) system.places process .commit
    refine ⟨?_, all_moveTo _ trivial admission.within, Bool.noConfusion, fun _ _ => Or.inl rfl⟩
    simp only [Place.reserve] at tallied
    simp only [System.note, System.moveTo]
    omega
  · rename_i notLast
    have tallied := tally_update (Place.reserve quota) system.places process .idle
    have within : ∀ other, ((system.moveTo process .idle).places other).Within quota system.lh :=
      all_moveTo _ trivial admission.within
    refine ⟨?_, fun other => (within other).wakeup, fun _ none => absurd none notLast,
      fun other asleep => absurd asleep (wakeup_ne_asleep _)⟩
    have same : tally (Place.reserve quota) (System.wakeup (system.moveTo process .idle)).places =
        tally (Place.reserve quota) (Function.update system.places process .idle) :=
      tally_congr (fun _ => wakeup_reserve quota _)
    simp only [Place.reserve] at tallied
    simp only [System.note, same]
    simp only [System.wakeup, System.moveTo]
    omega

/-- While a process commits, nobody logs, and who sleeps waits for it. -/
theorem Protocol.admission_commit (protocol : Protocol system) (admission : Admission quota system)
    {process : ι} {before place : Place} (atPlace : system.places process = before)
    (commits : before.commits = true) (stillCommits : place.commits = true)
    (lh : after.lh = system.lh ∨ after.lh = [])
    (committing : after.committing = system.committing)
    (places : after.places = Function.update system.places process place) :
    Admission quota after := by
  have isCommitting := protocol.committing_of_commits atPlace commits
  have none : ∀ other, (after.places other).operations = 0 := by
    intro other
    rw [places]
    by_cases isProcess : other = process
    · rw [isProcess, Function.update_self]
      revert stillCommits
      cases place <;> simp [Place.commits, Place.operations]
    · rw [Function.update_of_ne isProcess]
      exact protocol.operations_eq_zero isCommitting other
  refine ⟨?_, fun other => within_of_operations (none other), fun isOpen => ?_,
    fun _ _ => Or.inl (committing.trans isCommitting)⟩
  · have noReserve : tally (Place.reserve quota) after.places = 0 := by
      refine Finset.sum_eq_zero (fun other _ => ?_)
      have bounded := reserve_le quota (after.places other)
      rw [none other] at bounded
      omega
    have room := admission.room
    obtain same | isEmpty := lh
    · rw [noReserve, same]
      omega
    · rw [noReserve, isEmpty]
      exact Nat.zero_le _
  · rw [committing, isCommitting] at isOpen
    exact Bool.noConfusion isOpen

/-- The end of a commit leaves the log empty, and nobody asleep. -/
theorem Admission.endCommit (admission : Admission quota system) {process : ι}
    (place : system.places process = .endCommit) (nothing : system.lh = []) :
    Admission quota (system.endCommit process) := by
  have within : ∀ other, ((system.moveTo process .idle).places other).Within quota system.lh :=
    all_moveTo _ trivial admission.within
  refine ⟨?_, fun other => (within other).wakeup, fun _ _ => nothing,
    fun other asleep => absurd asleep (wakeup_ne_asleep _)⟩
  have same : tally (Place.reserve quota) (system.endCommit process).places =
      tally (Place.reserve quota) system.places := by
    refine tally_congr (fun other => ?_)
    simp only [System.endCommit, System.wakeup, System.moveTo, wakeup_reserve]
    by_cases isProcess : other = process
    · simp [isProcess, place, Place.reserve]
    · simp [isProcess]
  rw [same]
  exact admission.room

/-- The next step of a process. -/
theorem Admission.next (admission : Admission quota system) (protocol : Protocol system)
    (few : quota ≤ maxopblocks) {layout : Layout} {store : Store Nat Block}
    (ledger : Ledger store system) (running : system.boot = none) {process : ι}
    (taken : NextStep layout system process after) : Admission quota after := by
  cases taken with
  | begins place now => exact now ▸ admission.beginOp protocol few place
  | appends written blockno block place now => exact now ▸ admission.append protocol place
  | starts place _ now | skips place _ now | copies _ _ place _ now | copied _ place _ now
  | commits place now | installs _ _ place _ now | clears place now =>
    subst now
    exact protocol.admission_commit admission place rfl rfl (Or.inl rfl) rfl rfl
  | installed _ place _ now =>
    subst now
    exact protocol.admission_commit admission place rfl rfl (Or.inr rfl) rfl rfl
  | finishes place now =>
    have entered := ledger.entered running process
    rw [place] at entered
    exact now ▸ admission.endCommit place entered.2

/-- Every step keeps the room in the log. -/
theorem Admission.step (admission : system.boot = none → Admission quota system)
    (protocol : Protocol system) (few : quota ≤ maxopblocks) {layout : Layout}
    {store : Store Nat Block} (ledger : Ledger store system) {label : Label ι}
    (taken : step layout quota system label = some after) (up : after.boot = none) :
    Admission quota after := by
  cases label with
  | call process =>
    obtain ⟨running, place, now⟩ := step_call taken
    exact now ▸ (admission (boot_of_up running)).moveTo place rfl trivial Place.noConfusion
  | logWrite process blockno block =>
    obtain ⟨running, written, active, _, allowed, now⟩ := step_logWrite taken
    exact now ▸ (admission (boot_of_up running)).logWrite layout active allowed block
  | endOp process =>
    obtain ⟨running, written, active, now⟩ := step_endOp taken
    exact now ▸ (admission (boot_of_up running)).endOp protocol active
  | next process =>
    obtain ⟨running, taken⟩ := step_next taken
    have isUp := boot_of_up running
    exact (admission isUp).next protocol few ledger isUp taken
  | kill process =>
    obtain ⟨running, now⟩ := step_kill taken
    have before := admission (boot_of_up running)
    exact now ▸ before.moveTo rfl (wakeup_reserve quota _) (before.within process).wakeup
      (fun asleep => absurd asleep (wakeup_ne_asleep _))
  | recover =>
    obtain ⟨_, recovers⟩ := step_recover taken
    cases recovers with
    | reads _ now | installs _ _ _ _ now | installed _ _ _ now =>
      rw [now] at up
      exact absurd up (Option.some_ne_none _)
    | clears boot now =>
      subst now
      obtain ⟨_, _, idle, isEmpty⟩ := ledger.booting _ boot
      have nothing := isEmpty rfl
      have noReserve : tally (Place.reserve quota) system.places = 0 :=
        Finset.sum_eq_zero (fun other _ => by simp [idle other, Place.reserve])
      refine ⟨?_, fun other => ?_, fun _ _ => nothing, fun other asleep => ?_⟩
      · simp [noReserve, nothing]
      · simp only [idle other]
        trivial
      · simp [idle other] at asleep
  | bread address =>
    obtain rfl := Option.some.inj taken
    exact (admission up).of_same rfl rfl rfl rfl
  | recycle address =>
    obtain ⟨_, rfl⟩ := step_recycle taken
    exact (admission up).of_same rfl rfl rfl rfl
  | crash =>
    obtain rfl := Option.some.inj taken
    exact absurd up (Option.some_ne_none _)

end Steps

/-! ## Whole runs -/

section Runs

variable {layout : Layout} {quota : Nat} {disk : Nat → Block} {schedule : List (Label ι)}
  {final : System ι}

/-- In every run the operations keep to the room there is. -/
theorem run_admission (few : quota ≤ maxopblocks)
    (ran : exec (step layout quota) (System.switchOn disk []) schedule = some final) :
    final.boot = none → Admission quota final := by
  have both := exec_invariant (step layout quota) (System.switchOn disk []) (fun labels system =>
    exec (step layout quota) (System.switchOn disk []) labels = some system ∧
      (system.boot = none → Admission quota system))
    ⟨rfl, fun up => absurd up (Option.some_ne_none _)⟩ (by
      rintro labels system label next ⟨soFar, admission⟩ taken
      obtain ⟨protocol, ledger, _⟩ := run_ledger soFar
      exact ⟨(exec_concat_iff _ _ _ labels label).mpr ⟨system, soFar, taken⟩,
        Admission.step admission protocol few ledger taken⟩) schedule final ran
  exact both.2

/-- A log area of thirty blocks, as `mkfs` makes it. -/
def mkfsLayout : Layout := ⟨2, 30, Nat.zero_lt_succ 29⟩

/-- A process logs as many blocks in a row. -/
def logBlocks (process : ι) (first count : Nat) : List (Label ι) :=
  (List.range count).flatMap (fun k =>
    [.logWrite process (BitVec.ofNat 32 (first + k)) (fun _ => 7#32), .next process])

/-- Three operations begin. -/
def threeBegin : List (Label (Fin 3)) :=
  List.replicate 3 .recover ++
    (List.finRange 3).flatMap (fun process => [.call process, .next process])

-- The thirtieth block does not fit into the log area that `mkfs` makes.
example : (exec (step mkfsLayout 10) (System.switchOn (fun _ _ => 0#32) [])
    (threeBegin ++ logBlocks 0 100 10 ++ logBlocks 1 110 10 ++ logBlocks 2 120 9 ++
      [.logWrite 2 129#32 (fun _ => 7#32)])).any System.panicked = true := by
  decide +kernel

-- If the last two are checked before either is entered, nothing panics. The commit then copies
-- the thirtieth over the first block behind the log area.
example : (exec (step mkfsLayout 10) (System.switchOn (fun _ _ => 0#32) [])
    (threeBegin ++ logBlocks 0 100 10 ++ logBlocks 1 110 9 ++ logBlocks 2 120 9 ++
      [.logWrite 1 119#32 (fun _ => 7#32), .logWrite 2 129#32 (fun _ => 7#32),
        .next 1, .next 2, .endOp 0, .endOp 1, .endOp 2] ++ List.replicate 31 (.next 2))).any
    (fun final => !final.panicked && final.device.disk 32 0 == 7#32) = true := by
  decide +kernel

end Runs

end OsLabwork.Kernel.Logging
