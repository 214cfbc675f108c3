import OsLabwork.Kernel.FileReferences

/-!
# Open files over whole runs

In every run, whatever the order of the steps of different processes, the books of the file
table are right. So `filedup` and `fileclose` never panic, `filealloc` never hands out a file
that is in use, and what is behind a descriptor stays the same as long as it is open.

An end of a pipe is closed once, after the last descriptor for it. The page is freed exactly
when nothing refers to it, and nobody is inside a call on a pipe whose page is freed.
-/

namespace OsLabwork.Kernel.Descriptors

open Schedules Tallies

variable {ι π : Type}

/-- A child that is being made knows its parent, and how far it is. -/
def Forks (procs : ι → Proc ι π) : Prop :=
  ∀ parent child done, (procs parent).doing = .fork child done →
    (procs child).doing = .embryo parent done

section Forks

variable [DecidableEq ι]

/-- A step of a process that is not concerned with a fork. -/
theorem Forks.update {procs : ι → Proc ι π} (forks : Forks procs) {process : ι} {proc : Proc ι π}
    (before : ∀ parent done, (procs process).doing ≠ .embryo parent done)
    (after : ∀ child done, proc.doing ≠ .fork child done) :
    Forks (Function.update procs process proc) := by
  intro parent child done atFork
  by_cases isProcess : parent = process
  · rw [isProcess, Function.update_self] at atFork
    exact absurd atFork (after child done)
  · rw [Function.update_of_ne isProcess] at atFork
    have atEmbryo := forks parent child done atFork
    have notProcess : child ≠ process := by
      rintro rfl
      exact before parent done atEmbryo
    rw [Function.update_of_ne notProcess]
    exact atEmbryo

/-- A parent and its child go on together. -/
theorem Forks.pair {procs : ι → Proc ι π} (forks : Forks procs) {process child : ι}
    {childProc proc : Proc ι π} (different : child ≠ process)
    (before : ∀ parent done, (procs process).doing ≠ .embryo parent done)
    (own : ∀ parent done, (procs child).doing = .embryo parent done → parent = process)
    (childAfter : ∀ other done, childProc.doing ≠ .fork other done)
    (after : ∀ other done, proc.doing = .fork other done →
      other = child ∧ childProc.doing = .embryo process done) :
    Forks (Function.update (Function.update procs child childProc) process proc) := by
  intro parent other done atFork
  by_cases isProcess : parent = process
  · rw [isProcess, Function.update_self] at atFork
    obtain ⟨isChild, atEmbryo⟩ := after other done atFork
    rw [isChild, Function.update_of_ne different, Function.update_self, isProcess]
    exact atEmbryo
  · rw [Function.update_of_ne isProcess] at atFork
    by_cases isChild : parent = child
    · rw [isChild, Function.update_self] at atFork
      exact absurd atFork (childAfter other done)
    · rw [Function.update_of_ne isChild] at atFork
      have atEmbryo := forks parent other done atFork
      have notProcess : other ≠ process := by
        rintro rfl
        exact before parent done atEmbryo
      have notChild : other ≠ child := by
        rintro rfl
        exact isProcess (own parent done atEmbryo)
      rw [Function.update_of_ne notProcess, Function.update_of_ne notChild]
      exact atEmbryo

end Forks

section Calls

variable [DecidableEq ι] [Fintype ι] [DecidableEq π] {system : System ι π}

/-- What holds of every state that can be reached. -/
structure Sound (system : System ι π) : Prop where
  books : Books system
  forks : Forks system.procs

section Moves

variable {process : ι} {proc : Proc ι π}
  (before : ∀ parent done, (system.procs process).doing ≠ .embryo parent done)
  (after : ∀ child done, proc.doing ≠ .fork child done)

include before after

/-- A step that changes one process only. -/
theorem Sound.become (sound : Sound system) (books : Books (system.become process proc)) :
    Sound (system.become process proc) :=
  ⟨books, sound.forks.update before after⟩

/-- A step that changes the count of one file and one process. -/
theorem Sound.exchange (sound : Sound system) {f : FileNo} {file : File π}
    (books : Books (system.exchange f file process proc)) :
    Sound (system.exchange f file process proc) :=
  ⟨books, sound.forks.update before after⟩

/-- One more pointer to a file. -/
theorem Sound.filedup (sound : Sound system) {f : FileNo}
    (books : Books (system.filedup f process proc)) : Sound (system.filedup f process proc) := by
  refine ⟨books, ?_⟩
  unfold System.filedup
  split
  · exact sound.forks
  · exact sound.forks.update before after

/-- One pointer less. The last one leaves the end of a pipe to be closed. -/
theorem Sound.fileclose (sound : Sound system) {f : FileNo}
    (books : Books (system.fileclose f process proc)) :
    Sound (system.fileclose f process proc) := by
  refine ⟨books, ?_⟩
  simp only [System.fileclose]
  split
  · exact sound.forks
  · split
    · exact sound.forks.update before after
    · exact sound.forks.update before after

end Moves

/-- `sys_dup` copies a pointer. -/
theorem Sound.sysDup (sound : Sound system) {process : ι} (ready : system.ready process) (fd : Fd) :
    Sound (system.sysDup process fd) := by
  have ok := sound.books.ok process
  cases descriptor : (system.procs process).ofile fd with
  | none => simpa only [System.sysDup, descriptor] using sound
  | some f =>
    cases found : fdalloc (system.procs process).ofile with
    | none => simpa only [System.sysDup, descriptor, found] using sound
    | some new =>
      simp only [System.sysDup, descriptor, found]
      refine sound.filedup (by simp [ready.1]) (by simp [ready.1]) (sound.books.filedup
        (Proc.holds_of_descriptor descriptor) (ok.typed fd f descriptor) (fun g => ?_) rfl ?_)
      · have updated := (system.procs process).holds_update (system.procs process).doing
          (system.procs process).closing new (some f) g
        rw [fdalloc_some found, pointsTo_none] at updated
        omega
      · simp only [ready.1]
        refine Proc.ok_of_typed _ rfl rfl (by simp) (typed_update ok.typed ?_) (fun _ => False.elim)
        rintro g ⟨⟩
        exact ok.typed fd f descriptor

/-- `sys_close` gives a pointer up. -/
theorem Sound.sysClose (sound : Sound system) {process : ι} (ready : system.ready process)
    (fd : Fd) : Sound (system.sysClose process fd) := by
  have ok := sound.books.ok process
  cases descriptor : (system.procs process).ofile fd with
  | none => simpa only [System.sysClose, descriptor] using sound
  | some f =>
    simp only [System.sysClose, descriptor]
    refine sound.fileclose (by simp [ready.1]) (by simp [ready.1])
      (sound.books.fileclose (fun g => ?_) ready.2 ready.2 ?_)
    · have updated := (system.procs process).holds_update (system.procs process).doing
        (system.procs process).closing fd none g
      rw [descriptor, pointsTo_none] at updated
      omega
    · simp only [ready.1]
      exact Proc.ok_of_typed _ rfl rfl (by simp) (typed_update ok.typed (by simp)) (fun _ => False.elim)

/-- A call that reads or writes takes a file from a descriptor, and finds its pipe alive. -/
theorem Sound.enter (sound : Sound system) {process : ι} (ready : system.ready process) (fd : Fd)
    (writes : Bool) : Sound (system.enter process fd writes) := by
  have ok := sound.books.ok process
  cases descriptor : (system.procs process).ofile fd with
  | none => simpa only [System.enter, descriptor] using sound
  | some f =>
    simp only [System.enter, descriptor, ok.typed fd f descriptor, if_false]
    split
    · exact sound
    · rename_i permitted
      refine sound.become (by simp [ready.1]) (by simp) (sound.books.become (fun g => ?_) rfl
        ⟨by simp [Doing.fresh], ok.typed, by simp [Doing.filled], fun _ => False.elim, ?_⟩)
      · simp [Proc.holds, ready.1, Doing.held]
      · rintro _ _ ⟨⟩
        exact ⟨f, descriptor, by simpa using permitted⟩

omit [DecidableEq ι] in
/-- Who is inside a call on a pipe finds its end open. -/
theorem Books.inside_isOpen (books : Books system) {process : ι} {fd : Fd} {writes : Bool}
    (isInside : (system.procs process).doing = .inside fd writes) {f : FileNo}
    (descriptor : (system.procs process).ofile fd = some f)
    (isPipe : (system.files f).type = .fdPipe) :
    ∃ page, (system.files f).pipeEnd = some (page, writes) ∧
      ∃ ends, system.pages page = some ends ∧ ends.isOpen writes = true := by
  obtain ⟨g, sameDescriptor, permitted⟩ := (books.ok process).inside fd writes isInside
  obtain rfl : f = g := Option.some.inj (descriptor.symm.trans sameDescriptor)
  obtain ⟨hasPage, oneWay⟩ := books.oneWay f isPipe
  obtain ⟨page, atPage⟩ := Option.ne_none_iff_exists'.mp hasPage
  have side : (system.files f).writable = writes := by
    cases writes <;> simp_all [Kind.permits]
  have atFile : (system.files f).pipeEnd = some (page, writes) := by
    simp [Kind.pipeEnd, isPipe, atPage, side]
  exact ⟨page, atFile, books.file_isOpen atFile⟩

/-- The call returns. -/
theorem Sound.leave (sound : Sound system) {process : ι} {fd : Fd} {writes : Bool}
    (isInside : (system.procs process).doing = .inside fd writes) :
    Sound (system.leave process fd writes) := by
  obtain ⟨f, descriptor, -⟩ := (sound.books.ok process).inside fd writes isInside
  have inUse : (system.files f).type = .fdPipe →
      ∃ page ∈ (system.files f).pipe, ∃ ends ∈ system.pages page, ends.isOpen writes = true := by
    intro isPipe
    obtain ⟨page, atFile, isOpen⟩ := sound.books.inside_isOpen isInside descriptor isPipe
    simp only [Kind.pipeEnd, isPipe, if_true, Option.map_eq_some_iff, Prod.mk.injEq] at atFile
    obtain ⟨_, atPage, rfl, -⟩ := atFile
    exact ⟨_, atPage, isOpen⟩
  simp only [System.leave, descriptor, if_pos inUse]
  exact sound.become (by simp [isInside]) (by simp) (sound.books.moveTo
    (by rw [isInside]; rfl) rfl rfl (by simp) (fun _ => False.elim))

/-- Both ends get descriptors. -/
theorem Books.sysPipe (books : Books system) {process : ι} {rf wf : FileNo} {fd0 fd1 : Fd}
    (atPipe : (system.procs process).doing = .sysPipe rf wf)
    (found0 : fdalloc (system.procs process).ofile = some fd0)
    (found1 : fdalloc (Function.update (system.procs process).ofile fd0 (some rf)) = some fd1) :
    Books (system.become process { system.procs process with
      ofile := Function.update (Function.update (system.procs process).ofile fd0 (some rf))
        fd1 (some wf)
      doing := .user }) := by
  have ok := books.ok process
  have filled : ∀ f ∈ [rf, wf], (system.files f).type ≠ .fdNone := by
    have := ok.filled
    rwa [atPipe] at this
  refine books.become (fun g => ?_) rfl (Proc.ok_of_typed _ rfl rfl (by simp)
    (typed_update (typed_update ok.typed ?_) ?_) (fun _ => False.elim))
  · have first := tally_update (pointsTo g) (system.procs process).ofile fd0 (some rf)
    have second := tally_update (pointsTo g)
      (Function.update (system.procs process).ofile fd0 (some rf)) fd1 (some wf)
    rw [fdalloc_some found0, pointsTo_none] at first
    rw [fdalloc_some found1, pointsTo_none] at second
    simp only [Proc.holds, atPipe, Doing.held, List.count_cons, List.count_nil, pointsTo_some,
      beq_iff_eq] at first second ⊢
    omega
  · rintro f ⟨⟩
    exact filled _ (by simp)
  · rintro f ⟨⟩
    exact filled _ (by simp)

/-- A file that nobody else points to is filled in and gets a descriptor. -/
theorem Books.sysOpen (books : Books system) {process : ι} {f : FileNo} {fd : Fd}
    {readable writable : Bool}
    (atOpen : (system.procs process).doing = .sysOpen f readable writable)
    (found : fdalloc (system.procs process).ofile = some fd) (flagR flagW : Bool) :
    Books (system.exchange f
      { system.files f with type := .fdInode, readable := flagR, writable := flagW } process
      { system.procs process with
        ofile := Function.update (system.procs process).ofile fd (some f), doing := .user }) := by
  have ok := books.ok process
  have isFresh : f ∈ (system.procs process).doing.fresh := by simp [atOpen, Doing.fresh]
  obtain ⟨ref, type⟩ := ok.fresh f isFresh
  refine books.exchange (fun g => ?_) (fun other different points => ?_) (fun page side => ?_)
    (fun none => ?_) (by simp) (Proc.ok_of_typed _ rfl rfl (by simp) (typed_update (fun k g descriptor => ?_)
      ?_) (fun _ => False.elim))
  · have updated := (system.procs process).holds_update .user
      (system.procs process).closing fd (some f) g
    rw [fdalloc_some found, pointsTo_none, atOpen] at updated
    have same : (Function.update system.files f
        { system.files f with type := .fdInode, readable := flagR, writable := flagW } g).ref =
        (system.files g).ref := by
      by_cases isFile : g = f
      · rw [isFile, Function.update_self]
      · rw [Function.update_of_ne isFile]
    simp only [Doing.held, List.count_singleton, List.count_nil, pointsTo_some, beq_iff_eq, same]
      at updated ⊢
    omega
  · exact absurd (books.fresh_alone isFresh points) different
  · rw [File.isEnd_of_none type]
    simp [File.isEnd, Kind.pipeEnd, Proc.closes]
  · simp only at none
    omega
  · by_cases isFile : g = f
    · exact absurd type (ok.typed k f (isFile ▸ descriptor))
    · rw [Function.update_of_ne isFile]
      exact ok.typed k g descriptor
  · rintro g ⟨⟩
    simp

/-- The next file of an error path is closed. -/
theorem Books.giveUp_next (books : Books system) {process : ι} {f : FileNo} {rest : List FileNo}
    (atGiveUp : (system.procs process).doing = .giveUp (f :: rest))
    (idle : (system.procs process).closing = none) :
    Books (system.fileclose f process { system.procs process with doing := .giveUp rest }) := by
  refine books.fileclose (fun g => ?_) idle idle
    (Proc.ok_of_typed _ rfl rfl (by simp) (books.ok process).typed (fun _ => False.elim))
  simp only [Proc.holds, atGiveUp, Doing.held, List.count_cons, pointsTo_some, beq_iff_eq]
  omega

/-- The next descriptor of a process that exits. -/
theorem Books.exit_next (books : Books system) {process : ι} {done : Nat}
    (atExit : (system.procs process).doing = .exit done)
    (idle : (system.procs process).closing = none) (inRange : done < nofile) {f : FileNo}
    (descriptor : (system.procs process).ofile ⟨done, inRange⟩ = some f) :
    Books (system.fileclose f process { system.procs process with
      ofile := Function.update (system.procs process).ofile ⟨done, inRange⟩ none
      doing := .exit (done + 1) }) := by
  have ok := books.ok process
  refine books.fileclose (fun g => ?_) idle idle
    (Proc.ok_of_typed _ rfl rfl (by simp) (typed_update ok.typed (by simp)) (fun fd isBlank => ?_))
  · have updated := (system.procs process).holds_update (.exit (done + 1))
      (system.procs process).closing ⟨done, inRange⟩ none g
    rw [descriptor, pointsTo_none, atExit] at updated
    simp only [Doing.held, List.count_nil] at updated
    omega
  · by_cases isDone : fd = ⟨done, inRange⟩
    · rw [isDone, Function.update_self]
    · rw [Function.update_of_ne isDone]
      refine ok.blank fd ?_
      have notDone : fd.val ≠ done := fun same => isDone (Fin.ext same)
      rw [atExit]
      exact Nat.lt_of_le_of_ne (Nat.le_of_lt_succ isBlank) notDone

/-- The next descriptor that `fork` copies. -/
theorem Books.fork_next (books : Books system) {process child : ι} {done : Nat}
    (atEmbryo : (system.procs child).doing = .embryo process done) (inRange : done < nofile)
    {f : FileNo} (descriptor : (system.procs process).ofile ⟨done, inRange⟩ = some f) :
    Books (system.filedup f child { system.procs child with
      ofile := Function.update (system.procs child).ofile ⟨done, inRange⟩ (some f)
      doing := .embryo process (done + 1) }) := by
  have ok := books.ok child
  have isTyped := (books.ok process).typed _ f descriptor
  have free : (system.procs child).ofile ⟨done, inRange⟩ = none :=
    ok.blank _ (by rw [atEmbryo]; exact Nat.le_refl done)
  refine books.filedup (Proc.holds_of_descriptor descriptor) isTyped (fun g => ?_) rfl
    (Proc.ok_of_typed _ rfl rfl (by simp) (typed_update ok.typed ?_) (fun fd isBlank => ?_))
  · have updated := (system.procs child).holds_update (.embryo process (done + 1))
      (system.procs child).closing ⟨done, inRange⟩ (some f) g
    rw [free, pointsTo_none, atEmbryo] at updated
    simp only [Doing.held, List.count_nil] at updated ⊢
    omega
  · rintro g ⟨⟩
    exact isTyped
  · have later : done + 1 ≤ fd.val := isBlank
    have notDone : fd ≠ ⟨done, inRange⟩ := by
      rintro rfl
      exact absurd later (Nat.not_succ_le_self done)
    rw [Function.update_of_ne notDone]
    exact ok.blank fd (by rw [atEmbryo]; exact Nat.le_of_succ_le later)

/-- A parent and its child go on together. -/
theorem Sound.pair (sound : Sound system) {process child : ι} (different : child ≠ process)
    {childProc : Proc ι π} {middle : System ι π} (books : Books middle)
    (procs : middle.procs = Function.update system.procs child childProc) {doing : Doing ι}
    (before : ∀ parent done, (system.procs process).doing ≠ .embryo parent done)
    (own : ∀ parent done, (system.procs child).doing = .embryo parent done → parent = process)
    (childAfter : ∀ other done, childProc.doing ≠ .fork other done)
    (after : ∀ other done, doing = .fork other done →
      other = child ∧ childProc.doing = .embryo process done)
    (held : doing.held = (system.procs process).doing.held) (fresh : doing.fresh = [])
    (filled : doing.filled = []) (outside : ∀ fd writes, doing ≠ .inside fd writes)
    (blank : ∀ fd, ¬ doing.blank fd) :
    Sound (middle.become process { system.procs process with doing := doing }) := by
  have same : middle.procs process = system.procs process := by
    rw [procs, Function.update_of_ne different.symm]
  refine ⟨?_, ?_⟩
  · rw [← same] at held ⊢
    exact books.moveTo held fresh filled outside (fun fd isBlank => absurd isBlank (blank fd))
  · simp only [System.become, procs]
    exact sound.forks.pair different before own childAfter after

/-- `fork` copies the descriptors one by one. -/
theorem Sound.forkStep (sound : Sound system) {process child : ι} {done : Nat}
    (atFork : (system.procs process).doing = .fork child done) {next : System ι π}
    (moved : system.goOn process = some next) : Sound next := by
  have books := sound.books
  have atEmbryo := sound.forks process child done atFork
  have okChild := books.ok child
  have different : child ≠ process := by
    rintro rfl
    simp [atFork] at atEmbryo
  have own : ∀ parent n, (system.procs child).doing = .embryo parent n → parent = process := by
    intro parent n embryo
    simp only [atEmbryo, Doing.embryo.injEq] at embryo
    exact embryo.1.symm
  have heldChild : (system.procs child).doing.held = [] := by rw [atEmbryo]; rfl
  have heldParent : (system.procs process).doing.held = [] := by rw [atFork]; rfl
  simp only [System.goOn, atFork] at moved
  split at moved
  · rename_i inRange
    split at moved
    · obtain rfl := Option.some.inj moved
      have childBooks : Books (system.become child
          { system.procs child with doing := .embryo process (done + 1) }) := by
        refine books.moveTo heldChild.symm rfl rfl (by simp) (fun fd isBlank => okChild.blank fd ?_)
        rw [atEmbryo]
        exact Nat.le_of_succ_le isBlank
      refine sound.pair different childBooks rfl (by simp [atFork]) own (by simp) ?_
        heldParent.symm rfl rfl (by simp) (fun _ => id)
      rintro other n ⟨⟩
      exact ⟨rfl, rfl⟩
    · rename_i f descriptor
      obtain rfl := Option.some.inj moved
      have inUse : ¬ (system.files f).ref < 1 := by
        have := books.holds_le process f
        have := Proc.holds_of_descriptor descriptor
        omega
      refine sound.pair different (books.fork_next atEmbryo inRange descriptor)
        (by rw [System.filedup, if_neg inUse]; rfl) (by simp [atFork]) own (by simp) ?_
        heldParent.symm rfl rfl (by simp) (fun _ => id)
      rintro other n ⟨⟩
      exact ⟨rfl, rfl⟩
  · obtain rfl := Option.some.inj moved
    have childBooks : Books (system.become child { system.procs child with doing := .user }) :=
      books.moveTo heldChild.symm rfl rfl (by simp) (fun _ => False.elim)
    exact sound.pair different childBooks rfl (by simp [atFork]) own (by simp) (by simp)
      heldParent.symm rfl rfl (by simp) (fun _ => id)

/-- `exit` closes the descriptors one by one. -/
theorem Sound.exitStep (sound : Sound system) {process : ι} {done : Nat}
    (atExit : (system.procs process).doing = .exit done)
    (idle : (system.procs process).closing = none) {next : System ι π}
    (moved : system.goOn process = some next) : Sound next := by
  have books := sound.books
  have ok := books.ok process
  have before : ∀ parent n, (system.procs process).doing ≠ .embryo parent n := by simp [atExit]
  have held : (system.procs process).doing.held = [] := by rw [atExit]; rfl
  simp only [System.goOn, atExit] at moved
  split at moved
  · rename_i inRange
    split at moved
    · rename_i isFree
      obtain rfl := Option.some.inj moved
      refine sound.become before (by simp)
        (books.moveTo held.symm rfl rfl (by simp) (fun fd isBlank => ?_))
      obtain earlier | isDone := Nat.lt_succ_iff_lt_or_eq.mp isBlank
      · exact ok.blank fd (by rw [atExit]; exact earlier)
      · obtain rfl : fd = ⟨done, inRange⟩ := Fin.ext isDone
        exact isFree
    · rename_i f descriptor
      obtain rfl := Option.some.inj moved
      exact sound.fileclose before (by simp) (books.exit_next atExit idle inRange descriptor)
  · rename_i atEnd
    obtain rfl := Option.some.inj moved
    refine sound.become before (by simp) (books.moveTo held.symm rfl rfl (by simp) (fun fd _ => ?_))
    refine ok.blank fd ?_
    rw [atExit]
    exact Nat.lt_of_lt_of_le fd.isLt (Nat.not_lt.mp atEnd)

/-- A call goes on, whichever it is. -/
theorem Sound.goOn (sound : Sound system) {process : ι}
    (idle : (system.procs process).closing = none) {next : System ι π}
    (moved : system.goOn process = some next) : Sound next := by
  have books := sound.books
  cases doing : (system.procs process).doing with
  | user | embryo | unused => simp [System.goOn, doing] at moved
  | fork child done => exact sound.forkStep doing moved
  | exit done => exact sound.exitStep doing idle moved
  | inside fd writes =>
    simp only [System.goOn, doing, Option.some.injEq] at moved
    exact moved ▸ sound.leave doing
  | pipealloc files =>
    simp only [System.goOn, doing] at moved
    split at moved
    · split at moved
      · obtain rfl := Option.some.inj moved
        exact sound.become (by simp [doing]) (by simp)
          (books.moveTo (by rw [doing]; rfl) rfl rfl (by simp) (fun _ => False.elim))
      · rename_i f found
        obtain rfl := Option.some.inj moved
        exact sound.exchange (by simp [doing]) (by simp) (books.filealloc_next found
          (by rw [doing]; rfl) (by rw [doing]; rfl) rfl (by simp) (fun _ => id))
    · cases moved
  | sysPipe rf wf =>
    simp only [System.goOn, doing] at moved
    have before : ∀ parent n, (system.procs process).doing ≠ .embryo parent n := by simp [doing]
    have failed : Sound (system.become process
        { system.procs process with doing := .giveUp [rf, wf] }) :=
      sound.become before (by simp)
        (books.moveTo (by rw [doing]; rfl) rfl rfl (by simp) (fun _ => False.elim))
    split at moved
    · exact Option.some.inj moved ▸ failed
    · rename_i fd0 found0
      split at moved
      · exact Option.some.inj moved ▸ failed
      · rename_i fd1 found1
        obtain rfl := Option.some.inj moved
        exact sound.become before (by simp) (books.sysPipe doing found0 found1)
  | sysOpen f readable writable =>
    simp only [System.goOn, doing] at moved
    have before : ∀ parent n, (system.procs process).doing ≠ .embryo parent n := by simp [doing]
    split at moved
    · obtain rfl := Option.some.inj moved
      exact sound.become before (by simp)
        (books.moveTo (by rw [doing]; rfl) rfl rfl (by simp) (fun _ => False.elim))
    · rename_i fd found
      obtain rfl := Option.some.inj moved
      exact sound.exchange before (by simp) (books.sysOpen doing found readable writable)
  | giveUp files =>
    cases files with
    | nil =>
      simp only [System.goOn, doing, Option.some.injEq] at moved
      subst moved
      exact sound.become (by simp [doing]) (by simp)
        (books.moveTo (by rw [doing]; rfl) rfl rfl (by simp) (fun _ => False.elim))
    | cons f rest =>
      simp only [System.goOn, doing, Option.some.injEq] at moved
      subst moved
      exact sound.fileclose (by simp [doing]) (by simp) (books.giveUp_next doing idle)

/-- The end of a pipe is closed, behind its last pointer. -/
theorem Sound.pipeclose (sound : Sound system) {process : ι} {page : π} {writable : Bool}
    (closing : (system.procs process).closing = some (page, writable)) :
    Sound (system.pipeclose process page writable) := by
  obtain ⟨ends, atPage, isOpen⟩ := sound.books.closing_isOpen closing
  refine ⟨sound.books.pipeclose closing, fun parent child done atFork => ?_⟩
  have doing : ∀ other, ((system.pipeclose process page writable).procs other).doing =
      (system.procs other).doing := by
    intro other
    simp only [System.pipeclose, atPage, isOpen, if_true]
    by_cases isProcess : other = process
    · rw [isProcess, Function.update_self]
    · rw [Function.update_of_ne isProcess]
  rw [doing] at atFork ⊢
  exact sound.forks parent child done atFork

/-- A new child knows its parent. -/
theorem Sound.fork (sound : Sound system) {process child : ι} (ready : system.ready process)
    (isFree : (system.procs child).doing = .unused) :
    Sound ((system.become child { system.procs child with doing := .embryo process 0 }).become
      process { system.procs process with doing := .fork child 0 }) := by
  have different : child ≠ process := by
    rintro rfl
    simp [ready.1] at isFree
  have childBooks : Books (system.become child
      { system.procs child with doing := .embryo process 0 }) := by
    refine sound.books.moveTo (by rw [isFree]; rfl) rfl rfl (by simp)
      (fun fd _ => (sound.books.ok child).blank fd ?_)
    rw [isFree]
    exact trivial
  refine sound.pair different childBooks rfl (by simp [ready.1]) (by simp [isFree]) (by simp) ?_
    (by rw [ready.1]; rfl) rfl rfl (by simp) (fun _ => id)
  rintro other done ⟨⟩
  exact ⟨rfl, rfl⟩

/-- `pipealloc` gets a page that holds no pipe, or none. -/
theorem Sound.kalloc (sound : Sound system) {process : ι} {page : Option π} {next : System ι π}
    (moved : step system (.kalloc process page) = some next) : Sound next := by
  simp only [step] at moved
  split at moved
  · rename_i rf wf doing
    obtain rfl := Option.some.inj moved
    exact sound.become (by simp [doing]) (by simp)
      (sound.books.moveTo (by rw [doing]; rfl) rfl rfl (by simp) (fun _ => False.elim))
  · rename_i rf wf page doing
    obtain ⟨isFree, same⟩ := Option.ite_none_right_eq_some.mp moved
    obtain rfl := Option.some.inj same
    exact ⟨sound.books.makePipe doing isFree, sound.forks.update (by simp [doing]) (by simp)⟩
  · cases moved

/-- Every step keeps the books. -/
theorem Sound.step (sound : Sound system) {label : Label ι π} {next : System ι π}
    (taken : Descriptors.step system label = some next) : Sound next := by
  have books := sound.books
  cases label with
  | kalloc process page => exact sound.kalloc taken
  | sysDup process fd =>
    obtain ⟨ready, same⟩ := Option.ite_none_right_eq_some.mp taken
    exact Option.some.inj same ▸ sound.sysDup ready fd
  | sysClose process fd =>
    obtain ⟨ready, same⟩ := Option.ite_none_right_eq_some.mp taken
    exact Option.some.inj same ▸ sound.sysClose ready fd
  | enter process fd writes =>
    obtain ⟨ready, same⟩ := Option.ite_none_right_eq_some.mp taken
    exact Option.some.inj same ▸ sound.enter ready fd writes
  | sysPipe process =>
    obtain ⟨ready, same⟩ := Option.ite_none_right_eq_some.mp taken
    obtain rfl := Option.some.inj same
    refine sound.become (by simp [ready.1]) (by simp)
      (books.moveTo (by rw [ready.1]; rfl) rfl rfl (by simp) (fun _ => False.elim))
  | sysOpen process readable writable =>
    obtain ⟨ready, same⟩ := Option.ite_none_right_eq_some.mp taken
    split at same
    · exact Option.some.inj same ▸ sound
    · rename_i f found
      obtain rfl := Option.some.inj same
      exact sound.exchange (by simp [ready.1]) (by simp) (books.filealloc_next found
        (by rw [ready.1]; rfl) (by rw [ready.1]; rfl) rfl (by simp) (fun _ => id))
  | fork process child =>
    obtain ⟨⟨ready, isFree⟩, same⟩ := Option.ite_none_right_eq_some.mp taken
    exact Option.some.inj same ▸ sound.fork ready isFree
  | exit process =>
    obtain ⟨ready, same⟩ := Option.ite_none_right_eq_some.mp taken
    obtain rfl := Option.some.inj same
    exact sound.become (by simp [ready.1]) (by simp) (books.moveTo (by rw [ready.1]; rfl) rfl rfl (by simp)
      (fun fd isBlank => absurd isBlank (Nat.not_lt_zero _)))
  | next process =>
    simp only [Descriptors.step] at taken
    split at taken
    · rename_i page writable closing
      exact Option.some.inj taken ▸ sound.pipeclose closing
    · rename_i idle
      exact sound.goOn idle taken

/-- At first there are no files and no pipes. -/
theorem sound_start (init : ι) : Sound (start init : System ι π) := by
  refine ⟨⟨fun f => ?_, fun page writable => ?_, by simp [start], fun _ _ => rfl, by simp [start],
    fun process => ?_, rfl, rfl⟩, fun parent child done atFork => ?_⟩
  · have nothing : ∀ process, Proc.holds f ((start init : System ι π).procs process) = 0 := by
      intro process
      by_cases isInit : process = init <;>
        simp [start, Proc.holds, isInit, Doing.held, tally]
    exact (Finset.sum_eq_zero (fun process _ => nothing process)).symm
  · simp [tally, start, File.isEnd, Kind.pipeEnd, Proc.closes, openEnd]
  · by_cases isInit : process = init <;>
      exact Proc.ok_of_typed _ (by simp [isInit, Doing.fresh]) (by simp [isInit, Doing.filled])
        (by simp [isInit]) (by simp) (fun _ _ => rfl)
  · by_cases isInit : parent = init <;> simp [start, isInit] at atFork

/-- The books are right after every run. -/
theorem run_sound (init : ι) (schedule : List (Label ι π)) (final : System ι π)
    (ran : exec Descriptors.step (start init) schedule = some final) : Sound final :=
  exec_invariant Descriptors.step (start init) (fun _ => Sound) (sound_start init)
    (fun _ _ _ _ sound taken => sound.step taken) schedule final ran

/-- A file is changed only from or to a state where it is free. -/
def Settled (before after : File π) : Prop :=
  after.toKind = before.toKind ∨ before.type = .fdNone ∨ after.type = .fdNone

omit [Fintype ι] [DecidableEq π] in
/-- A step that settles one file leaves the others. -/
theorem settled_exchange {f : FileNo} {file : File π} (process : ι) (proc : Proc ι π)
    (settled : Settled (system.files f) file) (g : FileNo) :
    Settled (system.files g) ((system.exchange f file process proc).files g) := by
  by_cases isFile : g = f
  · simpa only [System.exchange, isFile, Function.update_self] using settled
  · simp only [System.exchange, Function.update_of_ne isFile]
    exact Or.inl rfl

omit [Fintype ι] [DecidableEq π] in
/-- `filedup` changes the count only. -/
theorem settled_filedup (f : FileNo) (process : ι) (proc : Proc ι π) (g : FileNo) :
    Settled (system.files g) ((system.filedup f process proc).files g) := by
  unfold System.filedup
  split
  · exact Or.inl rfl
  · refine settled_exchange process proc ?_ g
    exact Or.inl rfl

omit [Fintype ι] [DecidableEq π] in
/-- `fileclose` clears the file only with its last pointer. -/
theorem settled_fileclose (f : FileNo) (process : ι) (proc : Proc ι π) (g : FileNo) :
    Settled (system.files g) ((system.fileclose f process proc).files g) := by
  simp only [System.fileclose]
  split
  · exact Or.inl rfl
  · split
    · refine settled_exchange process proc ?_ g
      exact Or.inl rfl
    · refine settled_exchange process _ ?_ g
      exact Or.inr (Or.inr rfl)

omit [Fintype ι] [DecidableEq π] in
/-- `filealloc` takes a file without pointers. -/
theorem settled_filealloc (f : FileNo) (process : ι) (proc : Proc ι π) (g : FileNo) :
    Settled (system.files g)
      ((system.exchange f { system.files f with ref := 1 } process proc).files g) := by
  refine settled_exchange process proc ?_ g
  exact Or.inl rfl

/-- Where a call goes on, files with pointers keep their kinds. -/
theorem settled_goOn (sound : Sound system) {process : ι} {next : System ι π}
    (moved : system.goOn process = some next) (g : FileNo) :
    Settled (system.files g) (next.files g) := by
  cases doing : (system.procs process).doing with
  | user | embryo | unused => simp [System.goOn, doing] at moved
  | fork child done =>
    simp only [System.goOn, doing] at moved
    split at moved
    · split at moved
      · exact Option.some.inj moved ▸ Or.inl rfl
      · exact Option.some.inj moved ▸ settled_filedup _ _ _ g
    · exact Option.some.inj moved ▸ Or.inl rfl
  | exit done =>
    simp only [System.goOn, doing] at moved
    split at moved
    · split at moved
      · exact Option.some.inj moved ▸ Or.inl rfl
      · exact Option.some.inj moved ▸ settled_fileclose _ _ _ g
    · exact Option.some.inj moved ▸ Or.inl rfl
  | inside fd writes =>
    simp only [System.goOn, doing, System.leave] at moved
    split at moved
    · exact Option.some.inj moved ▸ Or.inl rfl
    · split at moved
      · exact Option.some.inj moved ▸ Or.inl rfl
      · exact Option.some.inj moved ▸ Or.inl rfl
  | pipealloc files =>
    simp only [System.goOn, doing] at moved
    split at moved
    · split at moved
      · exact Option.some.inj moved ▸ Or.inl rfl
      · exact Option.some.inj moved ▸ settled_filealloc _ _ _ g
    · cases moved
  | sysPipe rf wf =>
    simp only [System.goOn, doing] at moved
    split at moved
    · exact Option.some.inj moved ▸ Or.inl rfl
    · split at moved
      · exact Option.some.inj moved ▸ Or.inl rfl
      · exact Option.some.inj moved ▸ Or.inl rfl
  | sysOpen f readable writable =>
    have isFresh := (sound.books.ok process).fresh f (by simp [doing, Doing.fresh])
    simp only [System.goOn, doing] at moved
    split at moved
    · exact Option.some.inj moved ▸ Or.inl rfl
    · exact Option.some.inj moved ▸ settled_exchange _ _ (Or.inr (Or.inl isFresh.2)) g
  | giveUp files =>
    cases files with
    | nil =>
      simp only [System.goOn, doing, Option.some.injEq] at moved
      exact moved ▸ Or.inl rfl
    | cons f rest =>
      simp only [System.goOn, doing, Option.some.injEq] at moved
      exact moved ▸ settled_fileclose _ _ _ g

/-- `pipealloc` fills in files that only it has. -/
theorem settled_kalloc (sound : Sound system) {process : ι} {page : Option π} {next : System ι π}
    (taken : Descriptors.step system (.kalloc process page) = some next) (g : FileNo) :
    Settled (system.files g) (next.files g) := by
  simp only [Descriptors.step] at taken
  split at taken
  · exact Option.some.inj taken ▸ Or.inl rfl
  · rename_i rf wf page doing
    obtain ⟨-, same⟩ := Option.ite_none_right_eq_some.mp taken
    obtain rfl := Option.some.inj same
    have isFresh : ∀ f ∈ [rf, wf], (system.files f).type = .fdNone := by
      intro f isEnd
      exact ((sound.books.ok process).fresh f (by rw [doing]; exact isEnd)).2
    obtain ⟨rfl, -⟩ | ⟨rfl, -⟩ | ⟨-, unchanged⟩ := makeEnds_cases system.files rf wf page g
    · exact Or.inr (Or.inl (isFresh _ (by simp)))
    · exact Or.inr (Or.inl (isFresh _ (by simp)))
    · exact Or.inl (congrArg File.toKind unchanged)
  · cases taken

/-- In every step files with pointers keep their kinds. -/
theorem settled_step (sound : Sound system) {label : Label ι π} {next : System ι π}
    (taken : Descriptors.step system label = some next) (g : FileNo) :
    Settled (system.files g) (next.files g) := by
  cases label with
  | kalloc process page => exact settled_kalloc sound taken g
  | sysDup process fd =>
    obtain ⟨-, same⟩ := Option.ite_none_right_eq_some.mp taken
    obtain rfl := Option.some.inj same
    simp only [System.sysDup]
    split
    · exact Or.inl rfl
    · split
      · exact Or.inl rfl
      · exact settled_filedup _ _ _ g
  | sysClose process fd =>
    obtain ⟨-, same⟩ := Option.ite_none_right_eq_some.mp taken
    obtain rfl := Option.some.inj same
    simp only [System.sysClose]
    split
    · exact Or.inl rfl
    · exact settled_fileclose _ _ _ g
  | enter process fd writes =>
    obtain ⟨-, same⟩ := Option.ite_none_right_eq_some.mp taken
    obtain rfl := Option.some.inj same
    simp only [System.enter]
    split
    · exact Or.inl rfl
    · split_ifs <;> exact Or.inl rfl
  | sysPipe process | exit process | fork process child =>
    obtain ⟨-, same⟩ := Option.ite_none_right_eq_some.mp taken
    exact Option.some.inj same ▸ Or.inl rfl
  | sysOpen process readable writable =>
    obtain ⟨-, same⟩ := Option.ite_none_right_eq_some.mp taken
    split at same
    · exact Option.some.inj same ▸ Or.inl rfl
    · exact Option.some.inj same ▸ settled_filealloc _ _ _ g
  | next process =>
    simp only [Descriptors.step] at taken
    split at taken
    · obtain rfl := Option.some.inj taken
      simp only [System.pipeclose]
      split
      · exact Or.inl rfl
      · split_ifs <;> exact Or.inl rfl
    · exact settled_goOn sound taken g

end Calls

section Results

variable [DecidableEq ι] [Fintype ι] [DecidableEq π] (init : ι) (schedule : List (Label ι π))
  (final : System ι π)

/-- A process makes a pipe on page seven and reads from it. -/
def readFromPipe : List (Label Bool Nat) :=
  [.sysPipe true, .next true, .next true, .kalloc true (some 7), .next true,
    .enter true ⟨0, Nat.succ_pos 15⟩ false]

/-- After every run the count of a file is the number of pointers to it, in descriptors and in
calls in progress. None of `filedup`, `fileclose`, `fileread` and `filewrite` has panicked, and
`filealloc` finds only files without pointers. -/
theorem references_are_counted (ran : exec step (start init) schedule = some final) :
    final.panicked = false ∧
      (∀ f, (final.files f).ref = ∑ process, (∑ fd, pointsTo f ((final.procs process).ofile fd) +
        (final.procs process).doing.held.count f)) ∧
      ∀ f, filealloc final.files = some f → ∀ process fd,
        (final.procs process).ofile fd ≠ some f ∧ f ∉ (final.procs process).doing.held := by
  have books := (run_sound init schedule final ran).books
  refine ⟨books.calm, books.counted, fun f found process fd => ?_⟩
  have free := filealloc_some found
  have inUse := books.holds_le process f
  constructor
  · intro descriptor
    have := Proc.holds_of_descriptor descriptor
    omega
  · intro inCall
    have := Proc.holds_of_held inCall
    omega

/-- The process goes on to fork, and parent and child have both ends of the pipe. -/
def forkWithPipe : List (Label Bool Nat) :=
  readFromPipe ++ .next true :: .fork true false :: List.replicate 17 (.next true)

/-- Two processes with two descriptors each: both files are counted twice. -/
theorem references_are_counted_fork :
    ∃ final : System Bool Nat, exec step (start true) forkWithPipe = some final ∧
      (final.files ⟨0, Nat.succ_pos 99⟩).ref = 2 ∧
      (final.files ⟨1, Nat.one_lt_succ_succ 98⟩).ref = 2 ∧
      final.panicked = false ∧
      (∀ f, (final.files f).ref = ∑ process, (∑ fd, pointsTo f ((final.procs process).ofile fd) +
        (final.procs process).doing.held.count f)) ∧
      ∀ f, filealloc final.files = some f → ∀ process fd,
        (final.procs process).ofile fd ≠ some f ∧ f ∉ (final.procs process).doing.held :=
  ⟨_, rfl, rfl, rfl, references_are_counted true forkWithPipe _ rfl⟩

/-- What is behind a descriptor does not change, whatever any process does, as long as the
descriptor is open. -/
theorem descriptor_keeps_its_file (ran : exec step (start init) schedule = some final)
    (label : Label ι π) (next : System ι π) (taken : step final label = some next) (process : ι)
    (fd : Fd) (f : FileNo) (before : (final.procs process).ofile fd = some f)
    (after : (next.procs process).ofile fd = some f) :
    (next.files f).toKind = (final.files f).toKind := by
  have sound := run_sound init schedule final ran
  obtain same | wasFree | isFree := settled_step sound taken f
  · exact same
  · exact absurd wasFree ((sound.books.ok process).typed fd f before)
  · exact absurd isFree (((sound.step taken).books.ok process).typed fd f after)

/-- A process forks with the two ends of a pipe open. -/
theorem descriptor_keeps_its_file_fork :
    ∃ state next : System Bool Nat,
      exec step (start true) (readFromPipe ++ [.next true]) = some state ∧
      step state (.fork true false) = some next ∧
      (next.files ⟨0, Nat.succ_pos 99⟩).toKind = (state.files ⟨0, Nat.succ_pos 99⟩).toKind :=
  ⟨_, _, rfl, rfl, descriptor_keeps_its_file true (readFromPipe ++ [.next true]) _ rfl
    (.fork true false) _ rfl true ⟨0, Nat.succ_pos 15⟩ _ rfl rfl⟩

omit [DecidableEq ι] in
/-- An open end belongs to a file that a process points to, or to a process that closes it. -/
theorem Books.owner_of_isOpen {system : System ι π} (books : Books system) {page : π} {ends : Ends}
    {writable : Bool} (atPage : system.pages page = some ends)
    (isOpen : ends.isOpen writable = true) :
    (∃ process f, 0 < (system.procs process).holds f ∧
        (system.files f).pipeEnd = some (page, writable)) ∨
      ∃ process, (system.procs process).closing = some (page, writable) := by
  have balance := books.ends page writable
  have one := (openEnd_pos_iff (system.pages page) writable).mpr ⟨ends, atPage, isOpen⟩
  obtain inTable | inProcess : 0 < tally (File.isEnd page writable) system.files ∨
      0 < tally (Proc.closes page writable) system.procs := by omega
  · obtain ⟨f, isEnd⟩ := exists_of_tally_pos inTable
    have atFile : (system.files f).pipeEnd = some (page, writable) := by
      by_contra other
      simp [File.isEnd, other] at isEnd
    have inUse : 0 < (system.files f).ref := by
      refine Nat.pos_of_ne_zero (fun none => ?_)
      simp [Kind.pipeEnd, books.unused f none] at atFile
    obtain ⟨process, points⟩ := exists_of_tally_pos (books.counted f ▸ inUse)
    exact Or.inl ⟨process, f, points, atFile⟩
  · obtain ⟨process, closes⟩ := exists_of_tally_pos inProcess
    refine Or.inr ⟨process, ?_⟩
    by_contra other
    simp [Proc.closes, other] at closes

/-- The page of a pipe is in use exactly as long as some process points to a file for one of its
ends, or has still to close one. Whoever is inside a read or write of a pipe finds its own end
of it open, so a freed pipe is never touched. -/
theorem pipe_lives_while_referred_to (ran : exec step (start init) schedule = some final) :
    final.strayed = false ∧
      (∀ page, final.pages page ≠ none ↔ ∃ writable,
        (∃ process f, 0 < (final.procs process).holds f ∧
          (final.files f).pipeEnd = some (page, writable)) ∨
        ∃ process, (final.procs process).closing = some (page, writable)) ∧
      ∀ process fd writes f, (final.procs process).doing = .inside fd writes →
        (final.procs process).ofile fd = some f → (final.files f).type = .fdPipe →
        ∃ page, (final.files f).pipeEnd = some (page, writes) ∧
          ∃ ends, final.pages page = some ends ∧ ends.isOpen writes = true := by
  have books := (run_sound init schedule final ran).books
  refine ⟨books.tidy, fun page => ⟨fun inUse => ?_, ?_⟩, fun process fd writes f isInside
    descriptor isPipe => books.inside_isOpen isInside descriptor isPipe⟩
  · obtain ⟨ends, atPage⟩ := Option.ne_none_iff_exists'.mp inUse
    obtain isOpen | isOpen := books.alive page ends atPage
    · exact ⟨false, books.owner_of_isOpen atPage isOpen⟩
    · exact ⟨true, books.owner_of_isOpen atPage isOpen⟩
  · rintro ⟨writable, ⟨process, f, -, atFile⟩ | ⟨process, closing⟩⟩
    · obtain ⟨ends, atPage, -⟩ := books.file_isOpen atFile
      simp [atPage]
    · obtain ⟨ends, atPage, -⟩ := books.closing_isOpen closing
      simp [atPage]

/-- A process reads from a pipe with both ends open. -/
theorem pipe_lives_while_referred_to_read_from_pipe :
    ∃ final : System Bool Nat, exec step (start true) readFromPipe = some final ∧
      final.strayed = false ∧ ∃ page, ∃ ends, final.pages page = some ends ∧ ends.isOpen false = true :=
  have inUse := pipe_lives_while_referred_to true readFromPipe _ rfl
  ⟨_, rfl, inUse.1, (inUse.2.2 true ⟨0, Nat.succ_pos 15⟩ false ⟨0, Nat.succ_pos 99⟩ rfl rfl rfl).imp
    (fun _ here => here.2)⟩

/-- When a process closes an end of a pipe, the end is open, no file is left for it, and no other
process closes it. -/
theorem end_is_closed_once (ran : exec step (start init) schedule = some final) (process : ι)
    (page : π) (writable : Bool)
    (closing : (final.procs process).closing = some (page, writable)) :
    (∃ ends, final.pages page = some ends ∧ ends.isOpen writable = true) ∧
      (∀ f, (final.files f).pipeEnd ≠ some (page, writable)) ∧
      ∀ other, (final.procs other).closing = some (page, writable) → other = process := by
  have books := (run_sound init schedule final ran).books
  have balance := books.ends page writable
  have one : openEnd (final.pages page) writable ≤ 1 := by
    rw [openEnd]
    split <;> omega
  have mine := weigh_le_tally (Proc.closes page writable) final.procs process
  simp only [Proc.closes, closing, if_true] at mine
  refine ⟨books.closing_isOpen closing, fun f atFile => ?_, fun other alsoClosing => ?_⟩
  · have another := weigh_le_tally (File.isEnd page writable) final.files f
    simp only [File.isEnd, atFile, if_true] at another
    omega
  · by_contra different
    have two := weigh_add_weigh_le_tally (Proc.closes page writable) final.procs different
    simp only [Proc.closes, closing, alsoClosing, if_true] at two
    omega

/-- The reading end of a pipe is given up by its only owner. -/
theorem end_is_closed_once_close :
    ∃ final : System Bool Nat,
      exec step (start true)
        (readFromPipe ++ [.next true, .sysClose true ⟨0, Nat.succ_pos 15⟩]) = some final ∧
      (final.procs true).closing = some (7, false) ∧
      ∃ ends, final.pages 7 = some ends ∧ ends.isOpen false = true :=
  ⟨_, rfl, rfl, (end_is_closed_once true
    (readFromPipe ++ [.next true, .sysClose true ⟨0, Nat.succ_pos 15⟩]) _ rfl true 7 false rfl).1⟩

end Results

end OsLabwork.Kernel.Descriptors
