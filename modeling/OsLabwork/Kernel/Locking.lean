import OsLabwork.Kernel.ReadCount
import OsLabwork.Library.Exclusion

/-!
# The spin lock of the read counter

At most one process is between taking the lock and freeing it, the recorded owner is
the processor of the process that has recorded itself and not yet cleared the record,
and a process whose interrupts are off stays on its processor. The checks in
`acquire`, `release` and `popcli` therefore never fail.
-/

namespace OsLabwork.Kernel

open Exclusion

variable {P C : Type}

/-- Interrupts are off, from behind `pushcli` up to `popcli`. -/
def Pc.off : Pc → Bool
  | .checkLocked | .checkCpu | .xchg | .claim | .load | .store _ | .confirmLocked | .confirmCpu
  | .clearCpu | .unlock | .popcli => true
  | .user | .pushcli | .body | .fetch | .answer _ | .panicked => false

/-- The lock is taken, from behind the successful exchange up to the unlocking store. -/
def Pc.holds : Pc → Bool
  | .claim | .load | .store _ | .confirmLocked | .confirmCpu | .clearCpu | .unlock => true
  | .user | .pushcli | .checkLocked | .checkCpu | .xchg | .popcli | .body | .fetch | .answer _
  | .panicked => false

/-- The owner is recorded in the lock. -/
def Pc.owns : Pc → Bool
  | .load | .store _ | .confirmLocked | .confirmCpu | .clearCpu => true
  | .user | .pushcli | .checkLocked | .checkCpu | .xchg | .claim | .unlock | .popcli | .body
  | .fetch | .answer _ | .panicked => false

/-- Who owns the lock holds it. -/
theorem Pc.holds_of_owns {pc : Pc} (owns : pc.owns = true) : pc.holds = true := by
  cases pc <;> simp_all [Pc.owns, Pc.holds]

/-- What the processes, the processors and the lock have to do with each other. -/
structure Locking (state : State P C) : Prop where
  placed : ∀ process processor, (state.procs process).on = some processor ↔
    (state.cpus processor).running = some process
  exclusive : Exclusive (fun process => (state.procs process).pc.holds = true)
    (state.locked = false)
  recorded : Exclusive (fun process => (state.procs process).pc.owns = true) (state.cpu = none)
  owner : ∀ process, (state.procs process).pc.owns = true →
    state.cpu = (state.procs process).on
  masked : ∀ process processor, (state.procs process).on = some processor →
    (state.cpus processor).ncli = if (state.procs process).pc.off then 1 else 0
  unmasked : ∀ processor, (state.cpus processor).running = none →
    (state.cpus processor).ncli = 0
  pinned : ∀ process, (state.procs process).pc.off = true → (state.procs process).on ≠ none
  alive : ∀ process, (state.procs process).pc ≠ .panicked

/-- At first the lock is free. -/
theorem locking_initially : Locking (start : State P C) where
  placed _ _ := by simp [start]
  exclusive := exclusive_initially (by simp [start, Pc.holds]) rfl
  recorded := exclusive_initially (by simp [start, Pc.owns]) rfl
  owner _ owns := by simp [start, Pc.owns] at owns
  masked _ _ on := by simp [start] at on
  unmasked _ _ := rfl
  pinned _ off := by simp [start, Pc.off] at off
  alive _ := by simp [start]

section Step

variable {state : State P C}

/-- Two processes on one processor are the same. -/
theorem Locking.on_unique (locking : Locking state) {first second : P} {processor : C}
    (firstOn : (state.procs first).on = some processor)
    (secondOn : (state.procs second).on = some processor) : first = second := by
  have firstRuns := (locking.placed first processor).mp firstOn
  have secondRuns := (locking.placed second processor).mp secondOn
  exact Option.some.inj (firstRuns.symm.trans secondRuns)

/-- A recorded owner is a process on that processor. -/
theorem Locking.owner_process (locking : Locking state) {processor : C}
    (recorded : state.cpu = some processor) :
    ∃ process, (state.procs process).pc.owns = true ∧
      (state.procs process).on = some processor := by
  by_contra nobody
  have free : state.cpu = none := by
    refine locking.recorded.free_iff.mpr ?_
    intro process owns
    exact nobody ⟨process, owns, (locking.owner process owns).symm.trans recorded⟩
  simp [recorded] at free

/-- A process that has not recorded itself does not find its processor in the record. -/
theorem Locking.cpu_ne (locking : Locking state) {process : P} {processor : C}
    (on : (state.procs process).on = some processor)
    (stranger : (state.procs process).pc.owns = false) : state.cpu ≠ some processor := by
  intro mine
  obtain ⟨owner, owns, ownerOn⟩ := locking.owner_process mine
  obtain rfl := locking.on_unique ownerOn on
  simp [stranger] at owns

/-- While the holder of the lock has not recorded itself, nobody is recorded. -/
theorem Locking.unrecorded (locking : Locking state) {process : P}
    (holds : (state.procs process).pc.holds = true)
    (stranger : (state.procs process).pc.owns = false) : state.cpu = none := by
  refine locking.recorded.free_iff.mpr ?_
  intro other owns
  obtain rfl := locking.exclusive.unique other process (Pc.holds_of_owns owns) holds
  simp [stranger] at owns

/-- While a process holds the lock, it is locked. -/
theorem Locking.locked_of_holds (locking : Locking state) {process : P}
    (holds : (state.procs process).pc.holds = true) : state.locked = true := by
  cases free : state.locked with
  | true => rfl
  | false => exact absurd holds (locking.exclusive.free_iff.mp free process)

variable [DecidableEq P] [DecidableEq C]

/-- Carry the law over one access. Only a process that holds the lock may change the
recorded owner. -/
theorem Locking.apply (locking : Locking state) {process : P} {processor : C}
    (on : (state.procs process).on = some processor) (effect : Effect C)
    (lock : Move ((state.procs process).pc.holds = true) (effect.pc.holds = true)
      (state.locked = false) (effect.locked = false))
    (record : Move ((state.procs process).pc.owns = true) (effect.pc.owns = true)
      (state.cpu = none) (effect.cpu = none))
    (changed : effect.cpu = state.cpu ∨ (state.procs process).pc.holds = true)
    (own : effect.pc.owns = true → effect.cpu = some processor)
    (mask : effect.ncli = if effect.pc.off then 1 else 0) (alive : effect.pc ≠ .panicked) :
    Locking (state.apply process processor effect) where
  placed other at' := by
    by_cases isActor : other = process
    · subst isActor
      by_cases here : at' = processor
      · simp [State.apply, here]
      · have elsewhere : (state.cpus at').running ≠ some other := by
          intro runs
          have onToo := (locking.placed other at').mpr runs
          exact here (Option.some.inj (onToo.symm.trans on))
        simp [State.apply, here, elsewhere, Ne.symm here]
    · by_cases here : at' = processor
      · have notOn : (state.procs other).on ≠ some processor := fun otherOn =>
          isActor (locking.on_unique otherOn on)
        simp [State.apply, here, isActor, notOn, Ne.symm isActor]
      · simpa [State.apply, isActor, here] using locking.placed other at'
  exclusive := by
    refine locking.exclusive.move process ?_ (by simpa [State.apply] using lock)
    intro other different
    simp [State.apply, different]
  recorded := by
    refine locking.recorded.move process ?_ (by simpa [State.apply] using record)
    intro other different
    simp [State.apply, different]
  owner other owns := by
    by_cases isActor : other = process
    · subst isActor
      simp only [State.apply, Function.update_self] at owns ⊢
      exact own owns
    · simp only [State.apply, Function.update_of_ne isActor] at owns ⊢
      rcases changed with same | holds
      · exact same.trans (locking.owner other owns)
      · exact absurd (locking.exclusive.unique other process (Pc.holds_of_owns owns) holds) isActor
  masked other at' otherOn := by
    by_cases isActor : other = process
    · subst isActor
      obtain rfl : processor = at' := by simpa [State.apply] using otherOn
      simpa [State.apply] using mask
    · have onBefore : (state.procs other).on = some at' := by
        simpa [State.apply, isActor] using otherOn
      have elsewhere : at' ≠ processor := by
        rintro rfl
        exact isActor (locking.on_unique onBefore on)
      simpa [State.apply, isActor, elsewhere] using locking.masked other at' onBefore
  unmasked at' idle := by
    by_cases here : at' = processor
    · simp [State.apply, here] at idle
    · simp only [State.apply, Function.update_of_ne here] at idle ⊢
      exact locking.unmasked at' idle
  pinned other off := by
    by_cases isActor : other = process
    · simp [State.apply, isActor]
    · simp only [State.apply, Function.update_of_ne isActor] at off ⊢
      exact locking.pinned other off
  alive other := by
    by_cases isActor : other = process
    · simpa [State.apply, isActor] using alive
    · simpa [State.apply, isActor] using locking.alive other

/-- An access that leaves the lock and its record alone. -/
theorem Locking.apply_plain (locking : Locking state) {process : P} {processor : C}
    (on : (state.procs process).on = some processor) (effect : Effect C)
    (locked : effect.locked = state.locked) (cpu : effect.cpu = state.cpu)
    (holds : effect.pc.holds = (state.procs process).pc.holds)
    (owns : effect.pc.owns = (state.procs process).pc.owns)
    (mask : effect.ncli = if effect.pc.off then 1 else 0) (alive : effect.pc ≠ .panicked) :
    Locking (state.apply process processor effect) := by
  refine locking.apply on effect (.stays (by rw [holds]) (by rw [locked]))
    (.stays (by rw [owns]) (by rw [cpu])) (.inl cpu) ?_ mask alive
  intro ownsNow
  rw [owns] at ownsNow
  rw [cpu, locking.owner process ownsNow, on]

/-- Every access keeps the law. Where the code checks something, the law says that the
check succeeds. -/
theorem Locking.instruction (locking : Locking state) {process : P} {processor : C}
    (on : (state.procs process).on = some processor) (what : Work) (effect : Effect C)
    (executed : instruction state processor (state.procs process) what = some effect) :
    Locking (state.apply process processor effect) := by
  have mask := locking.masked process processor on
  cases what with
  | read valid | getreadcount =>
    simp only [Kernel.instruction, Option.ite_none_right_eq_some, Option.some.injEq] at executed
    obtain ⟨user, rfl⟩ := executed
    rw [user] at mask
    exact locking.apply_plain on _ rfl rfl (by simp [user, Pc.holds]) (by simp [user, Pc.owns])
      mask (by simp)
  | next =>
    cases place : (state.procs process).pc with
    | user | panicked => simp [Kernel.instruction, place] at executed
    | pushcli =>
      simp only [Kernel.instruction, place, Option.some.injEq] at executed
      subst executed
      rw [place] at mask
      exact locking.apply_plain on _ rfl rfl (by simp [place, Pc.holds])
        (by simp [place, Pc.owns]) (by simp [mask, Pc.off]) (by simp)
    | checkLocked =>
      simp only [Kernel.instruction, place, Option.some.injEq] at executed
      subst executed
      rw [place] at mask
      cases isLocked : state.locked with
      | false | true =>
        exact locking.apply_plain on _ (by simp [isLocked]) rfl (by simp [place, Pc.holds])
          (by simp [place, Pc.owns]) (by simpa [Pc.off] using mask) (by simp)
    | checkCpu =>
      -- The recorded owner runs on its own processor, and this process is not it.
      have foreign := locking.cpu_ne on (by simp [place, Pc.owns])
      simp only [Kernel.instruction, place, foreign, ↓reduceIte, Option.some.injEq] at executed
      subst executed
      rw [place] at mask
      exact locking.apply_plain on _ rfl rfl (by simp [place, Pc.holds])
        (by simp [place, Pc.owns]) mask (by simp)
    | xchg =>
      rw [place] at mask
      cases isLocked : state.locked with
      | true =>
        simp only [Kernel.instruction, place, isLocked, ↓reduceIte, Option.some.injEq] at executed
        subst executed
        exact locking.apply_plain on _ isLocked.symm rfl (by simp [place])
          (by simp [place]) mask (by simp)
      | false =>
        simp only [Kernel.instruction, place, isLocked, Bool.false_eq_true, ↓reduceIte,
          Option.some.injEq] at executed
        subst executed
        exact locking.apply on _ (.enters isLocked rfl (by simp))
          (.stays (by simp [place, Pc.owns]) Iff.rfl) (.inl rfl) (by simp [Pc.owns]) mask (by simp)
    | claim =>
      have holds : (state.procs process).pc.holds = true := by simp [place, Pc.holds]
      have unrecorded := locking.unrecorded holds (by simp [place, Pc.owns])
      simp only [Kernel.instruction, place, Option.some.injEq] at executed
      subst executed
      rw [place] at mask
      exact locking.apply on _ (.stays (by simp [place, Pc.holds]) Iff.rfl)
        (.enters unrecorded rfl (by simp)) (.inr holds) (fun _ => rfl) mask (by simp)
    | load | store loaded | body | fetch | answer value =>
      -- Neither the lock nor its record nor the interrupt depth is touched.
      simp only [Kernel.instruction, place, Option.some.injEq] at executed
      subst executed
      rw [place] at mask
      exact locking.apply_plain on _ rfl rfl (by simp [place, Pc.holds])
        (by simp [place, Pc.owns]) mask (by simp)
    | confirmLocked =>
      have holds : (state.procs process).pc.holds = true := by simp [place, Pc.holds]
      have isLocked := locking.locked_of_holds holds
      simp only [Kernel.instruction, place, isLocked, ↓reduceIte, Option.some.injEq] at executed
      subst executed
      rw [place] at mask
      exact locking.apply_plain on _ isLocked.symm rfl (by simp [place, Pc.holds])
        (by simp [place, Pc.owns]) mask (by simp)
    | confirmCpu =>
      have mine : state.cpu = some processor := by
        rw [locking.owner process (by simp [place, Pc.owns]), on]
      simp only [Kernel.instruction, place, mine, ↓reduceIte, Option.some.injEq] at executed
      subst executed
      rw [place] at mask
      exact locking.apply_plain on _ rfl mine.symm (by simp [place, Pc.holds])
        (by simp [place, Pc.owns]) mask (by simp)
    | clearCpu =>
      simp only [Kernel.instruction, place, Option.some.injEq] at executed
      subst executed
      rw [place] at mask
      exact locking.apply on _ (.stays (by simp [place, Pc.holds]) Iff.rfl)
        (.leaves (by simp [place, Pc.owns]) (by simp [Pc.owns]) rfl)
        (.inr (by simp [place, Pc.holds])) (by simp [Pc.owns]) mask (by simp)
    | unlock =>
      simp only [Kernel.instruction, place, Option.some.injEq] at executed
      subst executed
      rw [place] at mask
      exact locking.apply on _ (.leaves (by simp [place, Pc.holds]) (by simp [Pc.holds]) rfl)
        (.stays (by simp [place, Pc.owns]) Iff.rfl) (.inl rfl) (by simp [Pc.owns]) mask (by simp)
    | popcli =>
      rw [place] at mask
      have once : (state.cpus processor).ncli = 1 := mask
      simp only [Kernel.instruction, place, once, Nat.one_ne_zero, ↓reduceIte,
        Option.some.injEq] at executed
      subst executed
      exact locking.apply_plain on _ rfl rfl (by simp [place, Pc.holds])
        (by simp [place, Pc.owns]) rfl (by simp)

omit [DecidableEq C] in
/-- Moving a process between processors leaves every process at its place. -/
@[simp] theorem relocated_pc (procs : P → Proc C) (process other : P) (on : Option C) :
    (Function.update procs process { procs process with on := on } other).pc =
      (procs other).pc := by
  by_cases isMoved : other = process
  · simp [isMoved]
  · simp [isMoved]

omit [DecidableEq P] in
/-- Changing what a processor runs leaves the depth of `pushcli` alone everywhere. -/
theorem relocated_ncli (cpus : C → Cpu P) (processor other : C) (running : Option P) :
    (Function.update cpus processor { cpus processor with running := running } other).ncli =
      (cpus other).ncli := by
  by_cases isMoved : other = processor
  · simp [isMoved]
  · simp [isMoved]

omit [DecidableEq C] in
/-- Moving a process to or from a processor keeps the law if its interrupts are on and
those of the processors concerned are. -/
theorem Locking.relocate (locking : Locking state) (process : P)
    (open' : (state.procs process).pc.off = false) (on : Option C) (cpus : C → Cpu P)
    (placed : ∀ other processor,
      (Function.update state.procs process { state.procs process with on := on } other).on =
        some processor ↔ (cpus processor).running = some other)
    (depth : ∀ processor, (cpus processor).ncli = (state.cpus processor).ncli)
    (zero : ∀ processor, (cpus processor).running = (state.cpus processor).running ∨
      (state.cpus processor).ncli = 0) :
    Locking { state with
      procs := Function.update state.procs process { state.procs process with on := on }
      cpus := cpus } where
  placed := placed
  exclusive := by simpa only [relocated_pc] using locking.exclusive
  recorded := by simpa only [relocated_pc] using locking.recorded
  owner other owns := by
    rw [relocated_pc] at owns
    have different : other ≠ process := by
      rintro rfl
      cases place : (state.procs other).pc <;> simp_all [Pc.owns, Pc.off]
    simpa [different] using locking.owner other owns
  masked other processor otherOn := by
    rw [relocated_pc, depth]
    have runs := (placed other processor).mp otherOn
    rcases zero processor with same | clear
    · rw [same] at runs
      exact locking.masked other processor ((locking.placed other processor).mpr runs)
    · by_cases isMoved : other = process
      · rw [clear, isMoved, open']
        rfl
      · exact locking.masked other processor (by simpa [isMoved] using otherOn)
  unmasked processor idle := by
    rw [depth]
    rcases zero processor with same | clear
    · exact locking.unmasked processor (same ▸ idle)
    · exact clear
  pinned other off := by
    rw [relocated_pc] at off
    have different : other ≠ process := by
      rintro rfl
      simp [open'] at off
    simpa [different] using locking.pinned other off
  alive := by simpa only [relocated_pc] using locking.alive

/-- Every step keeps the law. -/
theorem Locking.step (locking : Locking state) (action : Action P C) (next : State P C)
    (taken : step state action = some next) : Locking next := by
  cases action with
  | dispatch process processor =>
    simp only [Kernel.step, Option.ite_none_right_eq_some, Option.some.injEq] at taken
    obtain ⟨⟨off, idle⟩, rfl⟩ := taken
    apply locking.relocate process
    · cases masked : (state.procs process).pc.off with
      | false => rfl
      | true => exact absurd off (locking.pinned process masked)
    · intro other at'
      by_cases isMoved : other = process <;> by_cases here : at' = processor
      · simp [isMoved, here]
      · have notThere : (state.cpus at').running ≠ some process := fun runs => by
          simp [(locking.placed process at').mpr runs] at off
        simp [isMoved, here, notThere, Ne.symm here]
      · have notHere : (state.procs other).on ≠ some processor := fun on => by
          simp [(locking.placed other processor).mp on] at idle
        simp [isMoved, here, notHere, Ne.symm isMoved]
      · simpa [isMoved, here] using locking.placed other at'
    · exact fun at' => relocated_ncli state.cpus processor at' _
    · intro at'
      by_cases here : at' = processor
      · exact Or.inr (here ▸ locking.unmasked processor idle)
      · exact Or.inl (by simp [here])
  | preempt process =>
    simp only [Kernel.step, Option.bind_eq_some_iff, Option.ite_none_right_eq_some,
      Option.some.injEq] at taken
    obtain ⟨processor, on, clear, rfl⟩ := taken
    apply locking.relocate process
    · have masked := locking.masked process processor on
      rw [clear] at masked
      cases off : (state.procs process).pc.off with
      | false => rfl
      | true => simp [off] at masked
    · intro other at'
      have runs := (locking.placed process processor).mp on
      by_cases isMoved : other = process <;> by_cases here : at' = processor
      · simp [isMoved, here]
      · have notThere : (state.cpus at').running ≠ some process := fun runsThere =>
          here (Option.some.inj (((locking.placed process at').mpr runsThere).symm.trans on))
        simp [isMoved, here, notThere]
      · have notHere : (state.procs other).on ≠ some processor := fun otherOn =>
          isMoved (locking.on_unique otherOn on)
        simp [isMoved, here, notHere]
      · simpa [isMoved, here] using locking.placed other at'
    · exact fun at' => relocated_ncli state.cpus processor at' _
    · intro at'
      by_cases here : at' = processor
      · exact Or.inr (here ▸ clear)
      · exact Or.inl (by simp [here])
  | work process what =>
    simp only [Kernel.step, Option.bind_eq_some_iff, Option.map_eq_some_iff] at taken
    obtain ⟨processor, on, effect, executed, rfl⟩ := taken
    exact locking.instruction on what effect executed

end Step

end OsLabwork.Kernel
