import OsLabwork.Kernel.FileTable

/-!
# The books of the file table

`ref` is to be the number of pointers to a file: those in descriptors, and those of system
calls in progress. Each end of a pipe is to belong to one file of the table, or to one process
that is about to close it, as long as it is open.

Each operation of the table keeps the books when the process on whose behalf it is done gains
or loses the pointer.
-/

namespace OsLabwork.Kernel.Descriptors

open Schedules Tallies

variable {ι π : Type}

/-- The files that a system call in progress points to. -/
def Doing.held : Doing ι → List FileNo
  | .pipealloc files | .giveUp files => files
  | .sysPipe rf wf => [rf, wf]
  | .sysOpen f _ _ => [f]
  | _ => []

/-- Those of them that have just been taken from the table. -/
def Doing.fresh : Doing ι → List FileNo
  | .pipealloc files => files
  | .sysOpen f _ _ => [f]
  | _ => []

/-- Those of them that have been filled in. -/
def Doing.filled : Doing ι → List FileNo
  | .sysPipe rf wf => [rf, wf]
  | _ => []

/-- The descriptors that are known to be free. -/
def Doing.blank : Doing ι → Fd → Prop
  | .unused, _ => True
  | .exit done, fd => fd < done
  | .embryo _ done, fd => done ≤ fd
  | _, _ => False

/-- A call holds the files that it has allocated. -/
theorem Doing.fresh_subset_held (doing : Doing ι) : doing.fresh ⊆ doing.held := by
  cases doing <;> simp [fresh, held]

/-- A call holds the files that it has filled in. -/
theorem Doing.filled_subset_held (doing : Doing ι) : doing.filled ⊆ doing.held := by
  cases doing <;> simp [filled, held]

/-- Whether a descriptor points to a file, as a number. -/
def pointsTo (f : FileNo) (slot : Option FileNo) : Nat := if slot = some f then 1 else 0

/-- A descriptor that is not open points nowhere. -/
@[simp] theorem pointsTo_none (f : FileNo) : pointsTo f none = 0 := rfl

/-- A descriptor points to one file. -/
@[simp] theorem pointsTo_some (f g : FileNo) : pointsTo f (some g) = if g = f then 1 else 0 := by
  simp [pointsTo]

/-- How many pointers to a file a process has. -/
def Proc.holds (f : FileNo) (proc : Proc ι π) : Nat :=
  tally (pointsTo f) proc.ofile + proc.doing.held.count f

/-- A descriptor is a pointer. -/
theorem Proc.holds_of_descriptor {proc : Proc ι π} {fd : Fd} {f : FileNo}
    (descriptor : proc.ofile fd = some f) : 0 < proc.holds f := by
  have one := weigh_le_tally (pointsTo f) proc.ofile fd
  simp only [descriptor, pointsTo_some, if_true] at one
  simp only [Proc.holds]
  omega

/-- A file held in a call is a pointer. -/
theorem Proc.holds_of_held {proc : Proc ι π} {f : FileNo} (inCall : f ∈ proc.doing.held) :
    0 < proc.holds f := by
  have := List.count_pos_iff.mpr inCall
  simp only [Proc.holds]
  omega

/-- A process that moves on with other descriptors has as many pointers as these and the new
place say. -/
theorem Proc.holds_update (proc : Proc ι π) (doing : Doing ι) (closing : Option (π × Bool))
    (fd : Fd) (slot : Option FileNo) (f : FileNo) :
    Proc.holds f (⟨Function.update proc.ofile fd slot, doing, closing⟩ : Proc ι π) +
        pointsTo f (proc.ofile fd) + proc.doing.held.count f =
      proc.holds f + pointsTo f slot + doing.held.count f := by
  have tallied := tally_update (pointsTo f) proc.ofile fd slot
  simp only [Proc.holds]
  omega

section Ends

variable [DecidableEq π]

/-- Whether a file is for that end of a pipe, as a number. -/
def File.isEnd (page : π) (writable : Bool) (file : File π) : Nat :=
  if file.pipeEnd = some (page, writable) then 1 else 0

/-- Whether a process has that end of a pipe to close, as a number. -/
def Proc.closes (page : π) (writable : Bool) (proc : Proc ι π) : Nat :=
  if proc.closing = some (page, writable) then 1 else 0

/-- One for an end that is open. -/
def openEnd (ends : Option Ends) (writable : Bool) : Nat :=
  if ends.any (fun ends => ends.isOpen writable) then 1 else 0

end Ends

/-- What a process may rely on about the files it points to. -/
structure Proc.Ok (files : FileNo → File π) (proc : Proc ι π) : Prop where
  fresh : ∀ f ∈ proc.doing.fresh, (files f).ref = 1 ∧ (files f).type = .fdNone
  typed : ∀ fd f, proc.ofile fd = some f → (files f).type ≠ .fdNone
  filled : ∀ f ∈ proc.doing.filled, (files f).type ≠ .fdNone
  blank : ∀ fd, proc.doing.blank fd → proc.ofile fd = none
  inside : ∀ fd writes, proc.doing = .inside fd writes →
    ∃ f, proc.ofile fd = some f ∧ (files f).permits writes = true

/-- A file is as good as before to a process that points to it. -/
structure Kept (before after : File π) : Prop where
  kind : after.toKind = before.toKind
  single : before.type = .fdNone → before.ref = 1 → after.ref = 1

/-- A file that does not change is kept. -/
theorem Kept.refl (file : File π) : Kept file file := ⟨rfl, fun _ => id⟩

/-- A process does not notice what happens to files it does not point to. -/
theorem Proc.Ok.of_files {files after : FileNo → File π} {proc : Proc ι π} (ok : proc.Ok files)
    (kept : ∀ f, 0 < proc.holds f → Kept (files f) (after f)) : proc.Ok after where
  fresh f isFresh := by
    have same := kept f (holds_of_held (proc.doing.fresh_subset_held isFresh))
    obtain ⟨ref, type⟩ := ok.fresh f isFresh
    exact ⟨same.single type ref, same.kind ▸ type⟩
  typed fd f descriptor := by
    rw [(kept f (holds_of_descriptor descriptor)).kind]
    exact ok.typed fd f descriptor
  filled f isFilled := by
    rw [(kept f (holds_of_held (proc.doing.filled_subset_held isFilled))).kind]
    exact ok.filled f isFilled
  blank := ok.blank
  inside fd writes isInside := by
    obtain ⟨f, descriptor, permitted⟩ := ok.inside fd writes isInside
    refine ⟨f, descriptor, ?_⟩
    rw [(kept f (holds_of_descriptor descriptor)).kind]
    exact permitted

/-- Files of one kind are for the same end. -/
theorem File.isEnd_congr [DecidableEq π] {file other : File π} (kind : other.toKind = file.toKind)
    (page : π) (writable : Bool) : other.isEnd page writable = file.isEnd page writable := by
  rw [isEnd, kind, isEnd]

/-- A file of no kind is for no end. -/
theorem File.isEnd_of_none [DecidableEq π] {file : File π} (type : file.type = .fdNone)
    (page : π) (writable : Bool) : file.isEnd page writable = 0 := by
  simp [isEnd, Kind.pipeEnd, type]

/-- The bookkeeping of the table. -/
structure Books [Fintype ι] [DecidableEq π] (system : System ι π) : Prop where
  counted : ∀ f, (system.files f).ref = tally (Proc.holds f) system.procs
  ends : ∀ page writable, tally (File.isEnd page writable) system.files +
    tally (Proc.closes page writable) system.procs = openEnd (system.pages page) writable
  alive : ∀ page ends, system.pages page = some ends → ends.readopen = true ∨ ends.writeopen = true
  unused : ∀ f, (system.files f).ref = 0 → (system.files f).type = .fdNone
  oneWay : ∀ f, (system.files f).type = .fdPipe →
    (system.files f).pipe ≠ none ∧ (system.files f).readable = !(system.files f).writable
  ok : ∀ process, (system.procs process).Ok system.files
  calm : system.panicked = false
  tidy : system.strayed = false

section Steps

variable [DecidableEq ι] [Fintype ι] [DecidableEq π] {system : System ι π}

/-- Two processes that point to a file are counted both. -/
theorem Books.shared (books : Books system) {first second : ι} (different : first ≠ second)
    {f : FileNo} (one : 0 < (system.procs first).holds f)
    (other : 0 < (system.procs second).holds f) : 2 ≤ (system.files f).ref := by
  have pair := weigh_add_weigh_le_tally (Proc.holds f) system.procs different
  have := books.counted f
  omega

omit [DecidableEq ι] in
/-- The pointers of one process are among those counted. -/
theorem Books.holds_le (books : Books system) (process : ι) (f : FileNo) :
    (system.procs process).holds f ≤ (system.files f).ref :=
  books.counted f ▸ weigh_le_tally (Proc.holds f) system.procs process

/-- One process changes, with the files and pages it deals with, and the books stay right:
the counts follow the process's pointers, other processes find the files they point to as they
were, and the ends of pipes are passed between files, the process and the pages. -/
theorem Books.change (books : Books system) {process : ι} {proc : Proc ι π}
    {files : FileNo → File π} {pages : π → Option Ends}
    (counted : ∀ f, (files f).ref + (system.procs process).holds f =
      (system.files f).ref + proc.holds f)
    (others : ∀ other, other ≠ process → ∀ f, 0 < (system.procs other).holds f →
      Kept (system.files f) (files f))
    (ends : ∀ page writable, tally (File.isEnd page writable) files + proc.closes page writable +
        openEnd (system.pages page) writable =
      tally (File.isEnd page writable) system.files +
        (system.procs process).closes page writable + openEnd (pages page) writable)
    (alive : ∀ page ends, pages page = some ends → ends.readopen = true ∨ ends.writeopen = true)
    (unused : ∀ f, (files f).ref = 0 → (files f).type = .fdNone)
    (oneWay : ∀ f, (files f).type = .fdPipe →
      (files f).pipe ≠ none ∧ (files f).readable = !(files f).writable)
    (ok : proc.Ok files) :
    Books { system with
      files := files, procs := Function.update system.procs process proc, pages := pages } := by
  refine ⟨fun f => ?_, fun page writable => ?_, alive, unused, oneWay, fun other => ?_,
    books.calm, books.tidy⟩
  · have tallied := tally_update (Proc.holds f) system.procs process proc
    have before := books.counted f
    have changed := counted f
    simp only
    omega
  · have tallied := tally_update (Proc.closes page writable) system.procs process proc
    have before := books.ends page writable
    have passed := ends page writable
    simp only
    omega
  · by_cases isProcess : other = process
    · simpa only [isProcess, Function.update_self] using ok
    · simp only [Function.update_of_ne isProcess]
      exact (books.ok other).of_files (others other isProcess)

/-- One process and one file change. -/
theorem Books.exchange (books : Books system) {process : ι} {f : FileNo} {file : File π}
    {proc : Proc ι π}
    (counted : ∀ g, (Function.update system.files f file g).ref + (system.procs process).holds g =
      (system.files g).ref + proc.holds g)
    (others : ∀ other, other ≠ process → 0 < (system.procs other).holds f →
      Kept (system.files f) file)
    (ends : ∀ page writable, file.isEnd page writable + proc.closes page writable =
      (system.files f).isEnd page writable + (system.procs process).closes page writable)
    (unused : file.ref = 0 → file.type = .fdNone)
    (oneWay : file.type = .fdPipe → file.pipe ≠ none ∧ file.readable = !file.writable)
    (ok : proc.Ok (Function.update system.files f file)) :
    Books (system.exchange f file process proc) := by
  refine books.change counted (fun other different g points => ?_) (fun page writable => ?_)
    books.alive (fun g => ?_) (fun g => ?_) ok
  · by_cases isFile : g = f
    · rw [isFile, Function.update_self]
      exact others other different (isFile ▸ points)
    · rw [Function.update_of_ne isFile]
      exact Kept.refl _
  · have tallied := tally_update (File.isEnd page writable) system.files f file
    have passed := ends page writable
    omega
  · by_cases isFile : g = f
    · simpa only [isFile, Function.update_self] using unused
    · simpa only [Function.update_of_ne isFile] using books.unused g
  · by_cases isFile : g = f
    · simpa only [isFile, Function.update_self] using oneWay
    · simpa only [Function.update_of_ne isFile] using books.oneWay g

/-- A process moves on with the pointers it has. -/
theorem Books.become (books : Books system) {process : ι} {proc : Proc ι π}
    (counted : ∀ f, proc.holds f = (system.procs process).holds f)
    (closing : proc.closing = (system.procs process).closing) (ok : proc.Ok system.files) :
    Books (system.become process proc) := by
  refine books.change (fun f => ?_) (fun _ _ f _ => Kept.refl _) (fun page writable => ?_)
    books.alive books.unused books.oneWay ok
  · rw [counted]
  · rw [Proc.closes, closing, Proc.closes]

/-- A file that is pointed to gets one more pointer. -/
theorem Books.filedup (books : Books system) {holder process : ι} {f : FileNo} {proc : Proc ι π}
    (points : 0 < (system.procs holder).holds f) (typed : (system.files f).type ≠ .fdNone)
    (counted : ∀ g, proc.holds g = (system.procs process).holds g + pointsTo g (some f))
    (closing : proc.closing = (system.procs process).closing) (ok : proc.Ok system.files) :
    Books (system.filedup f process proc) := by
  have inUse := books.holds_le holder f
  have same : Kept (system.files f)
      { system.files f with ref := (system.files f).ref + 1 } :=
    ⟨rfl, fun type => absurd type typed⟩
  rw [System.filedup, if_neg (by omega)]
  refine books.exchange (fun g => ?_) (fun _ _ _ => same) (fun page writable => ?_)
    (fun none => absurd none (Nat.succ_ne_zero _)) (books.oneWay f) ?_
  · have changed := counted g
    by_cases isFile : g = f
    · simp only [isFile, pointsTo_some, if_true, Function.update_self] at changed ⊢
      omega
    · simp only [Function.update_of_ne isFile, pointsTo_some, if_neg (Ne.symm isFile)] at changed ⊢
      omega
  · rw [File.isEnd_congr same.kind, Proc.closes, closing, Proc.closes]
  · refine ok.of_files (fun g _ => ?_)
    by_cases isFile : g = f
    · rw [isFile, Function.update_self]
      exact same
    · rw [Function.update_of_ne isFile]
      exact Kept.refl _

/-- A process gives up one pointer to a file. With the last one it gets the end of the pipe to
close. -/
theorem Books.fileclose (books : Books system) {process : ι} {f : FileNo} {proc : Proc ι π}
    (counted : ∀ g, proc.holds g + pointsTo g (some f) = (system.procs process).holds g)
    (idle : (system.procs process).closing = none) (closing : proc.closing = none)
    (ok : proc.Ok system.files) :
    Books (system.fileclose f process proc) := by
  have inUse := books.holds_le process f
  have ofFile := counted f
  simp only [pointsTo_some, if_true] at ofFile
  have points : 0 < (system.procs process).holds f := by omega
  have counts : ∀ file : File π, file.ref + 1 = (system.files f).ref →
      ∀ g, (Function.update system.files f file g).ref + (system.procs process).holds g =
        (system.files g).ref + proc.holds g := by
    intro file smaller g
    have changed := counted g
    by_cases isFile : g = f
    · simp only [isFile, pointsTo_some, if_true, Function.update_self] at changed ⊢
      omega
    · simp only [Function.update_of_ne isFile, pointsTo_some, if_neg (Ne.symm isFile)] at changed ⊢
      omega
  have okAfter : ∀ file : File π, (0 < proc.holds f → Kept (system.files f) file) →
      proc.Ok (Function.update system.files f file) := by
    intro file kept
    refine ok.of_files (fun g pointsStill => ?_)
    by_cases isFile : g = f
    · rw [isFile, Function.update_self]
      exact kept (isFile ▸ pointsStill)
    · rw [Function.update_of_ne isFile]
      exact Kept.refl _
  rw [System.fileclose, if_neg (by omega)]
  split
  · rename_i left
    have kept : Kept (system.files f) { system.files f with ref := (system.files f).ref - 1 } :=
      ⟨rfl, fun _ one => by omega⟩
    refine books.exchange (counts _ (by simp only; omega)) (fun _ _ _ => kept)
      (fun page writable => ?_) (fun none => ?_) (books.oneWay f) (okAfter _ (fun _ => kept))
    · rw [File.isEnd_congr kept.kind, Proc.closes, Proc.closes, closing, idle]
    · simp only at none
      omega
  · rename_i last
    -- The end of the pipe goes from the file to the process.
    refine books.exchange (counts _ (by simp only; omega)) (fun other different others => ?_)
      (fun page writable => ?_) (fun _ => rfl) (fun isPipe => by cases isPipe) ?_
    · have two := books.shared different others points
      omega
    · rw [File.isEnd_of_none rfl, Proc.closes, Proc.closes, idle, File.isEnd]
      simp
    · have after := okAfter { system.files f with ref := 0, type := .fdNone } (by omega)
      exact ⟨after.fresh, after.typed, after.filled, after.blank, after.inside⟩

omit [DecidableEq π] in
/-- `filealloc` finds a file without pointers. -/
theorem filealloc_some {files : FileNo → File π} {f : FileNo} (found : filealloc files = some f) :
    (files f).ref = 0 := by
  simpa using List.find?_some found

/-- `fdalloc` finds a descriptor that is not open. -/
theorem fdalloc_some {ofile : Fd → Option FileNo} {fd : Fd} (found : fdalloc ofile = some fd) :
    ofile fd = none := by
  simpa using List.find?_some found

/-- A process takes a file from the table that nobody points to. -/
theorem Books.filealloc (books : Books system) {process : ι} {f : FileNo} {proc : Proc ι π}
    (found : Descriptors.filealloc system.files = some f)
    (counted : ∀ g, proc.holds g = (system.procs process).holds g + pointsTo g (some f))
    (closing : proc.closing = (system.procs process).closing)
    (ok : proc.Ok (Function.update system.files f { system.files f with ref := 1 })) :
    Books (system.exchange f { system.files f with ref := 1 } process proc) := by
  have free := filealloc_some found
  have kind : ({ system.files f with ref := 1 } : File π).toKind = (system.files f).toKind := rfl
  refine books.exchange (fun g => ?_) (fun other _ points => ?_) (fun page writable => ?_)
    (fun none => absurd none Nat.one_ne_zero) (books.oneWay f) ok
  · have changed := counted g
    by_cases isFile : g = f
    · simp only [isFile, pointsTo_some, if_true, Function.update_self] at changed ⊢
      omega
    · simp only [Function.update_of_ne isFile, pointsTo_some, if_neg (Ne.symm isFile)] at changed ⊢
      omega
  · have := books.holds_le other f
    omega
  · rw [File.isEnd_congr kind, Proc.closes, closing, Proc.closes]

/-- An end is open where the page holds a pipe with that end open. -/
theorem openEnd_pos_iff (page : Option Ends) (writable : Bool) :
    0 < openEnd page writable ↔ ∃ ends, page = some ends ∧ ends.isOpen writable = true := by
  cases page with
  | none => simp [openEnd]
  | some ends => cases isOpen : ends.isOpen writable <;> simp [openEnd, isOpen]

omit [DecidableEq ι] in
/-- The end that a process is about to close is open. -/
theorem Books.closing_isOpen (books : Books system) {process : ι} {page : π} {writable : Bool}
    (closing : (system.procs process).closing = some (page, writable)) :
    ∃ ends, system.pages page = some ends ∧ ends.isOpen writable = true := by
  have one := weigh_le_tally (Proc.closes page writable) system.procs process
  have balance := books.ends page writable
  simp only [Proc.closes, closing, if_true] at one
  exact (openEnd_pos_iff _ _).mp (by omega)

omit [DecidableEq ι] in
/-- The end of a pipe that goes with a file of the table is open. -/
theorem Books.file_isOpen (books : Books system) {f : FileNo} {page : π} {writable : Bool}
    (atFile : (system.files f).pipeEnd = some (page, writable)) :
    ∃ ends, system.pages page = some ends ∧ ends.isOpen writable = true := by
  have one := weigh_le_tally (File.isEnd page writable) system.files f
  have balance := books.ends page writable
  simp only [File.isEnd, atFile, if_true] at one
  exact (openEnd_pos_iff _ _).mp (by omega)

/-- Closing an end closes that one only. -/
theorem openEnd_close (ends : Ends) (writable other : Bool) :
    openEnd (ends.close writable) other =
      if other = writable then 0 else openEnd (some ends) other := by
  obtain ⟨readopen, writeopen⟩ := ends
  cases readopen <;> cases writeopen <;> cases writable <;> cases other <;> rfl

/-- A pipe that is left has an end open. -/
theorem Ends.close_alive {ends left : Ends} {writable : Bool}
    (closed : ends.close writable = some left) :
    left.readopen = true ∨ left.writeopen = true := by
  simp only [Ends.close, Option.ite_none_left_eq_some, Option.some.injEq] at closed
  obtain ⟨notBoth, same⟩ := closed
  rw [← same]
  by_contra dead
  exact notBoth (by simpa only [not_or, Bool.not_eq_true] using dead)

/-- Closing an end is booked. -/
theorem Books.pipeclose (books : Books system) {process : ι} {page : π} {writable : Bool}
    (closing : (system.procs process).closing = some (page, writable)) :
    Books (system.pipeclose process page writable) := by
  obtain ⟨ends, atPage, isOpen⟩ := books.closing_isOpen closing
  have ok := books.ok process
  simp only [System.pipeclose, atPage, isOpen, if_true]
  refine books.change (fun _ => rfl) (fun _ _ f _ => Kept.refl _) (fun other side => ?_)
    (fun other left atOther => ?_) books.unused books.oneWay
    ⟨ok.fresh, ok.typed, ok.filled, ok.blank, ok.inside⟩
  · have wasOpen : openEnd (some ends) writable = 1 := by simp [openEnd, isOpen]
    by_cases isPage : other = page
    · by_cases sameSide : side = writable
      · simp only [Proc.closes, closing, isPage, sameSide, Function.update_self, openEnd_close,
          atPage, wasOpen, if_true, reduceCtorEq, if_false]
      · simp [Proc.closes, closing, isPage, Ne.symm sameSide, sameSide, openEnd_close, atPage]
    · simp [Proc.closes, closing, Ne.symm isPage, isPage]
  · by_cases isPage : other = page
    · rw [isPage, Function.update_self] at atOther
      exact Ends.close_alive atOther
    · rw [Function.update_of_ne isPage] at atOther
      exact books.alive other left atOther

/-- A file made for an end is for that end. -/
theorem isEnd_ofPipe (file : File π) (page other : π) (writable side : Bool) :
    (file.ofPipe page writable).isEnd other side =
      if other = page ∧ side = writable then 1 else 0 := by
  by_cases isPage : other = page <;> by_cases sameSide : side = writable <;>
    simp [File.isEnd, Kind.pipeEnd, File.ofPipe, isPage, sameSide, Ne.symm, eq_comm]

section MakeEnds

variable (files : FileNo → File π) (rf wf : FileNo) (page : π)

omit [DecidableEq π] in
/-- Two files get an end each, and the others stay. -/
theorem makeEnds_cases (f : FileNo) :
    (f = rf ∧ makeEnds files rf wf page f = (files f).ofPipe page false) ∨
      (f = wf ∧ makeEnds files rf wf page f = (files f).ofPipe page true) ∨
      (f ∉ [rf, wf] ∧ makeEnds files rf wf page f = files f) := by
  by_cases isWf : f = wf
  · exact Or.inr (Or.inl ⟨isWf, by rw [makeEnds, isWf, Function.update_self]⟩)
  · by_cases isRf : f = rf
    · refine Or.inl ⟨isRf, ?_⟩
      rw [makeEnds, Function.update_of_ne isWf, isRf, Function.update_self]
    · refine Or.inr (Or.inr ⟨by simp [isRf, isWf], ?_⟩)
      rw [makeEnds, Function.update_of_ne isWf, Function.update_of_ne isRf]

omit [DecidableEq π] in
/-- No count changes. -/
theorem makeEnds_ref (f : FileNo) : (makeEnds files rf wf page f).ref = (files f).ref := by
  obtain ⟨-, atF⟩ | ⟨-, atF⟩ | ⟨-, atF⟩ := makeEnds_cases files rf wf page f <;> rw [atF] <;> rfl

/-- The table has one more file for each end of the new pipe. -/
theorem tally_isEnd_makeEnds (different : wf ≠ rf) (rfType : (files rf).type = .fdNone)
    (wfType : (files wf).type = .fdNone) (other : π) (side : Bool) :
    tally (File.isEnd other side) (makeEnds files rf wf page) =
      tally (File.isEnd other side) files + if other = page then 1 else 0 := by
  have first := tally_update (File.isEnd other side) files rf ((files rf).ofPipe page false)
  have second := tally_update (File.isEnd other side)
    (Function.update files rf ((files rf).ofPipe page false)) wf ((files wf).ofPipe page true)
  rw [Function.update_of_ne different] at second
  rw [isEnd_ofPipe, File.isEnd_of_none rfType] at first
  rw [isEnd_ofPipe, File.isEnd_of_none wfType] at second
  rw [makeEnds]
  cases side <;> simp at first second <;> omega

end MakeEnds

/-- What a process has just taken from the table, it alone points to. -/
theorem Books.fresh_alone (books : Books system) {process other : ι} {f : FileNo}
    (isFresh : f ∈ (system.procs process).doing.fresh) (points : 0 < (system.procs other).holds f) :
    other = process := by
  by_contra different
  have two := books.shared different points
    (Proc.holds_of_held ((system.procs process).doing.fresh_subset_held isFresh))
  have one := ((books.ok process).fresh f isFresh).1
  omega

/-- Two entries that nobody else points to become the ends of a new pipe. -/
theorem Books.makePipe (books : Books system) {process : ι} {rf wf : FileNo} {page : π}
    (atAlloc : (system.procs process).doing = .pipealloc [rf, wf])
    (free : system.pages page = none) : Books (system.makePipe process rf wf page) := by
  have ok := books.ok process
  have isFresh : ∀ f ∈ [rf, wf], f ∈ (system.procs process).doing.fresh := by
    simp [atAlloc, Doing.fresh]
  have rfFresh := ok.fresh rf (isFresh rf (by simp))
  have wfFresh := ok.fresh wf (isFresh wf (by simp))
  have different : wf ≠ rf := by
    intro same
    have := books.holds_le process rf
    simp only [Proc.holds, atAlloc, Doing.held, same, List.count_cons_self, List.count_nil] at this
    omega
  have cases := makeEnds_cases system.files rf wf page
  have refs := makeEnds_ref system.files rf wf page
  refine books.change (fun f => ?_) (fun other isOther f points => ?_) (fun other side => ?_)
    (fun other ends atOther => ?_) (fun f none => ?_) (fun f isPipe => ?_) ?_
  · rw [refs]
    simp only [Proc.holds, atAlloc, Doing.held]
  · obtain ⟨rfl, -⟩ | ⟨rfl, -⟩ | ⟨-, same⟩ := cases f
    · exact absurd (books.fresh_alone (isFresh f (by simp)) points) isOther
    · exact absurd (books.fresh_alone (isFresh f (by simp)) points) isOther
    · rw [same]
      exact Kept.refl _
  · rw [tally_isEnd_makeEnds system.files rf wf page different rfFresh.2 wfFresh.2]
    by_cases isPage : other = page
    · cases side <;> simp [isPage, free, openEnd, Ends.isOpen, Proc.closes] <;> omega
    · simp [isPage, Proc.closes]
  · by_cases isPage : other = page
    · rw [isPage, Function.update_self, Option.some.injEq] at atOther
      simp [← atOther]
    · rw [Function.update_of_ne isPage] at atOther
      exact books.alive other ends atOther
  · rw [refs] at none
    obtain ⟨rfl, -⟩ | ⟨rfl, -⟩ | ⟨-, same⟩ := cases f
    · omega
    · omega
    · rw [same]
      exact books.unused f none
  · obtain ⟨-, made⟩ | ⟨-, made⟩ | ⟨-, same⟩ := cases f
    · simp [made, File.ofPipe]
    · simp [made, File.ofPipe]
    · rw [same] at isPipe ⊢
      exact books.oneWay f isPipe
  · have typed : ∀ f, (system.files f).type ≠ .fdNone ∨ f ∈ [rf, wf] →
        (makeEnds system.files rf wf page f).type ≠ .fdNone := by
      intro f known
      obtain ⟨-, made⟩ | ⟨-, made⟩ | ⟨notEnd, same⟩ := cases f
      · simp [made, File.ofPipe]
      · simp [made, File.ofPipe]
      · rw [same]
        exact known.resolve_right notEnd
    exact ⟨by simp [Doing.fresh], fun fd f descriptor => typed f (Or.inl (ok.typed fd f descriptor)),
      fun f isFilled => typed f (Or.inr isFilled), fun _ => False.elim, fun _ _ => (by simp)⟩

omit [DecidableEq ι] [Fintype ι] [DecidableEq π] in
/-- A process that is not in `pipealloc`, `sys_open` or a call on a file relies on its
descriptors only. -/
theorem Proc.ok_of_typed {files : FileNo → File π} {ofile : Fd → Option FileNo} {doing : Doing ι}
    (closing : Option (π × Bool)) (fresh : doing.fresh = []) (filled : doing.filled = [])
    (outside : ∀ fd writes, doing ≠ .inside fd writes)
    (typed : ∀ fd f, ofile fd = some f → (files f).type ≠ .fdNone)
    (blank : ∀ fd, doing.blank fd → ofile fd = none) :
    Proc.Ok files (⟨ofile, doing, closing⟩ : Proc ι π) where
  fresh f isFresh := by simp [fresh] at isFresh
  typed := typed
  filled f isFilled := by simp [filled] at isFilled
  blank := blank
  inside fd writes isInside := absurd isInside (outside fd writes)

omit [DecidableEq π] in
/-- A descriptor is set to point to a file that has been filled in, or cleared. -/
theorem typed_update {files : FileNo → File π} {ofile : Fd → Option FileNo}
    (typed : ∀ fd f, ofile fd = some f → (files f).type ≠ .fdNone) {at_ : Fd} {slot : Option FileNo}
    (good : ∀ f, slot = some f → (files f).type ≠ .fdNone) (fd : Fd) (f : FileNo)
    (descriptor : Function.update ofile at_ slot fd = some f) : (files f).type ≠ .fdNone := by
  by_cases isSlot : fd = at_
  · rw [isSlot, Function.update_self] at descriptor
    exact good f descriptor
  · rw [Function.update_of_ne isSlot] at descriptor
    exact typed fd f descriptor

/-- A process goes on with the pointers it has, to a place where it relies on its descriptors
only. -/
theorem Books.moveTo (books : Books system) {process : ι} {doing : Doing ι}
    (held : doing.held = (system.procs process).doing.held) (fresh : doing.fresh = [])
    (filled : doing.filled = []) (outside : ∀ fd writes, doing ≠ .inside fd writes)
    (blank : ∀ fd, doing.blank fd → (system.procs process).ofile fd = none) :
    Books (system.become process { system.procs process with doing := doing }) := by
  refine books.become (fun g => ?_) rfl
    (Proc.ok_of_typed _ fresh filled outside (books.ok process).typed blank)
  rw [Proc.holds, Proc.holds, held]

/-- The next file for a call that has got some, which are still fresh. -/
theorem Books.filealloc_next (books : Books system) {process : ι} {f : FileNo} {doing : Doing ι}
    (found : Descriptors.filealloc system.files = some f)
    (held : doing.held = (system.procs process).doing.held ++ [f])
    (fresh : doing.fresh = (system.procs process).doing.fresh ++ [f]) (filled : doing.filled = [])
    (outside : ∀ fd writes, doing ≠ .inside fd writes) (blank : ∀ fd, ¬ doing.blank fd) :
    Books (system.exchange f { system.files f with ref := 1 } process
      { system.procs process with doing := doing }) := by
  have ok := books.ok process
  have free := filealloc_some found
  refine books.filealloc found (fun g => ?_) rfl ⟨fun g isFresh => ?_, fun fd g descriptor => ?_,
    by simp [filled], fun fd isBlank => absurd isBlank (blank fd),
    fun fd writes isInside => absurd isInside (outside fd writes)⟩
  · simp only [Proc.holds, held, List.count_append, List.count_singleton, pointsTo_some, beq_iff_eq]
    omega
  · by_cases isFile : g = f
    · rw [isFile, Function.update_self]
      exact ⟨rfl, books.unused f free⟩
    · rw [Function.update_of_ne isFile]
      refine ok.fresh g ?_
      simpa [fresh, isFile] using isFresh
  · by_cases isFile : g = f
    · have inUse := books.holds_le process f
      have points : 0 < (system.procs process).holds f :=
        Proc.holds_of_descriptor (isFile ▸ descriptor)
      omega
    · rw [Function.update_of_ne isFile]
      exact ok.typed fd g descriptor

end Steps

end OsLabwork.Kernel.Descriptors
