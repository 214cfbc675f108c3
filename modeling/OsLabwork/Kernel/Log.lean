import Mathlib.Data.BitVec
import OsLabwork.Library.Schedules
import OsLabwork.Library.Transactions

/-!
# The log of the file system

`log.c` makes the blocks that file system calls change durable together. Between `begin_op`
and `end_op` a call changes blocks in the buffer cache and records their numbers with
`log_write`; such buffers are dirty and stay in the cache. When the last call in progress
ends, `commit` copies the blocks into the log area of the disk, writes the header block with
their numbers, copies them from the log to their homes, and clears the header. At boot,
`recover_from_log` copies to their homes whatever the header names.

One block is written in one step, and the machine may crash before or after any of them.
A section of code under `log.lock` is one step, with the processes that it wakes; that
nothing is lost by this is the subject of `LogSections`. A process may be killed while it
sleeps in `begin_op`, which makes it look at the log again.

`log_write` looks at the number of logged blocks before it takes the lock, so its checks are
one step and the entry in the header is another; in between, other operations may log blocks.
The checks read the number twice, but it only grows while an operation is in progress, so
they come out as if they had read it once. All that time the caller holds the buffer, so
that nobody sees the changed data before the entry is made.

Besides the calls, blocks may be read into the cache at any time, and buffers that are not
dirty may be recycled at any time. The number of buffers is not limited here, and the list
of block numbers in memory may grow beyond the array that the kernel has for it.

Which operations began and ended, what they wrote, and when commits and crashes happened is
kept in a history. That is no part of the kernel.
-/

namespace OsLabwork.Kernel.Logging

open Schedules Transactions

/-- The words of a block of the disk. -/
abbrev Block : Type := Nat → BitVec 32

/-- How many blocks an operation is expected to log at most. -/
def maxopblocks : Nat := 10

/-- How many blocks there may be in the log. -/
def logsize : Nat := maxopblocks * 3

/-- Where the log area is: the header block, and behind it the copies of blocks. -/
structure Layout where
  start : Nat
  size : Nat
  nonempty : 0 < size

/-- Whether an address is outside the log area. -/
def Layout.home (layout : Layout) (address : Nat) : Bool :=
  address < layout.start || layout.start + layout.size ≤ address

/-! ## The disk and the buffer cache -/

/-- The disk, the blocks that are in the buffer cache, and which of them are dirty. -/
structure Device where
  disk : Nat → Block
  cache : Nat → Option Block
  dirty : Nat → Bool

/-- What a boot finds. -/
def Device.off (disk : Nat → Block) : Device := ⟨disk, fun _ => none, fun _ => false⟩

/-- What `bread` returns. -/
def Device.bread (device : Device) (address : Nat) : Block :=
  (device.cache address).getD (device.disk address)

/-- `bread` leaves the block in the cache. -/
def Device.load (device : Device) (address : Nat) : Device :=
  { device with cache := Function.update device.cache address (some (device.bread address)) }

/-- Change the data of a buffer, and write it with `bwrite`; then it is not dirty. -/
def Device.bwrite (device : Device) (address : Nat) (block : Block) : Device where
  disk := Function.update device.disk address block
  cache := Function.update device.cache address (some block)
  dirty := Function.update device.dirty address false

/-- Copy one block to another by way of the cache. -/
def Device.copy (device : Device) (source target : Nat) : Device :=
  ((device.load source).load target).bwrite target (device.bread source)

/-- Change the data of a buffer, and mark it as dirty, as `log_write` does. -/
def Device.change (device : Device) (address : Nat) (block : Block) : Device :=
  { device with
    cache := Function.update device.cache address (some block)
    dirty := Function.update device.dirty address true }

/-- Recycle a buffer. -/
def Device.evict (device : Device) (address : Nat) : Device :=
  { device with cache := Function.update device.cache address none }

section Device

variable (device : Device) (address other : Nat) (block : Block)

/-- Reading a block leaves the disk alone. -/
@[simp] theorem load_disk : (device.load address).disk = device.disk := rfl

/-- Reading a block makes no buffer dirty. -/
@[simp] theorem load_dirty : (device.load address).dirty = device.dirty := rfl

/-- The block that was read is in the cache. -/
theorem load_cache : (device.load address).cache =
    Function.update device.cache address (some (device.bread address)) := rfl

/-- Reading a block changes nothing of what is read later. -/
@[simp] theorem load_bread : (device.load address).bread other = device.bread other := by
  by_cases same : other = address
  · simp [Device.load, Device.bread, same]
  · simp [Device.load, Device.bread, same]

/-- The block that was written is on the disk. -/
@[simp] theorem bwrite_disk :
    (device.bwrite address block).disk = Function.update device.disk address block := rfl

/-- The buffer that was written is not dirty. -/
theorem bwrite_dirty :
    (device.bwrite address block).dirty = Function.update device.dirty address false := rfl

/-- The buffer that was written stays in the cache. -/
theorem bwrite_cache : (device.bwrite address block).cache =
    Function.update device.cache address (some block) := rfl

/-- After a write its block is read at the address, and the same as before elsewhere. -/
theorem bwrite_bread : (device.bwrite address block).bread other =
    if other = address then block else device.bread other := by
  by_cases same : other = address
  · simp [Device.bwrite, Device.bread, same]
  · simp [Device.bwrite, Device.bread, same]

/-- A copy reaches the disk. -/
@[simp] theorem copy_disk (target : Nat) : (device.copy address target).disk =
    Function.update device.disk target (device.bread address) := rfl

/-- The target of a copy is not dirty. -/
@[simp] theorem copy_dirty (target : Nat) :
    (device.copy address target).dirty = Function.update device.dirty target false := rfl

/-- After a copy the source is read at the target, and the same as before elsewhere. -/
theorem copy_bread (target : Nat) : (device.copy address target).bread other =
    if other = target then device.bread address else device.bread other := by
  rw [Device.copy, bwrite_bread, load_bread, load_bread]

/-- Changing a buffer leaves the disk alone. -/
@[simp] theorem change_disk : (device.change address block).disk = device.disk := rfl

/-- A buffer that was changed is dirty. -/
theorem change_dirty :
    (device.change address block).dirty = Function.update device.dirty address true := rfl

/-- A buffer that was changed is in the cache. -/
theorem change_cache : (device.change address block).cache =
    Function.update device.cache address (some block) := rfl

/-- A change is read at its address, and the same as before elsewhere. -/
theorem change_bread : (device.change address block).bread other =
    if other = address then block else device.bread other := by
  by_cases same : other = address
  · simp [Device.change, Device.bread, same]
  · simp [Device.change, Device.bread, same]

/-- Recycling a buffer leaves the disk alone. -/
@[simp] theorem evict_disk : (device.evict address).disk = device.disk := rfl

/-- A buffer that was recycled is not in the cache. -/
theorem evict_cache : (device.evict address).cache =
    Function.update device.cache address none := rfl

/-- Recycling makes no buffer dirty. -/
@[simp] theorem evict_dirty : (device.evict address).dirty = device.dirty := rfl

end Device

/-- Buffers that are not dirty hold what the disk holds. -/
def Device.Coherent (device : Device) : Prop :=
  ∀ address block, device.dirty address = false → device.cache address = some block →
    device.disk address = block

section Coherent

variable {device : Device} {address other : Nat} {block : Block}

/-- At boot there are no buffers. -/
theorem coherent_off (disk : Nat → Block) : (Device.off disk).Coherent :=
  fun _ _ _ cached => absurd cached.symm (Option.some_ne_none _)

/-- A block that is not dirty is read as it is on the disk. -/
theorem Device.Coherent.bread_eq (coherent : device.Coherent)
    (clean : device.dirty address = false) : device.bread address = device.disk address := by
  rw [Device.bread]
  cases cached : device.cache address with
  | none => rfl
  | some block => exact (coherent address block clean cached).symm

/-- What is read comes from the disk. -/
theorem Device.Coherent.load (coherent : device.Coherent) (address : Nat) :
    (device.load address).Coherent := by
  intro other block clean cached
  by_cases same : other = address
  · subst same
    rw [load_cache, Function.update_self, Option.some.injEq] at cached
    exact (coherent.bread_eq clean).symm.trans cached
  · rw [load_cache, Function.update_of_ne same] at cached
    exact coherent other block clean cached

/-- A write brings the buffer and the disk together. -/
theorem Device.Coherent.bwrite (coherent : device.Coherent) (address : Nat) (block : Block) :
    (device.bwrite address block).Coherent := by
  intro other written clean cached
  by_cases same : other = address
  · subst same
    rw [bwrite_cache, Function.update_self, Option.some.injEq] at cached
    rw [bwrite_disk, Function.update_self, cached]
  · rw [bwrite_cache, Function.update_of_ne same] at cached
    rw [bwrite_dirty, Function.update_of_ne same] at clean
    rw [bwrite_disk, Function.update_of_ne same]
    exact coherent other written clean cached

/-- A copy ends with a write. -/
theorem Device.Coherent.copy (coherent : device.Coherent) (source target : Nat) :
    (device.copy source target).Coherent :=
  ((coherent.load source).load target).bwrite target _

/-- Only dirty buffers are changed. -/
theorem Device.Coherent.change (coherent : device.Coherent) (address : Nat) (block : Block) :
    (device.change address block).Coherent := by
  intro other written clean cached
  by_cases same : other = address
  · subst same
    rw [change_dirty, Function.update_self] at clean
    exact Bool.noConfusion clean
  · rw [change_cache, Function.update_of_ne same] at cached
    rw [change_dirty, Function.update_of_ne same] at clean
    exact coherent other written clean cached

/-- Fewer buffers are as good. -/
theorem Device.Coherent.evict (coherent : device.Coherent) (address : Nat) :
    (device.evict address).Coherent := by
  intro other written clean cached
  by_cases same : other = address
  · subst same
    rw [evict_cache, Function.update_self] at cached
    exact absurd cached.symm (Option.some_ne_none _)
  · rw [evict_cache, Function.update_of_ne same] at cached
    exact coherent other written clean cached

/-- Recycling a buffer that is not dirty changes nothing of what is read. -/
theorem Device.Coherent.evict_bread (coherent : device.Coherent)
    (clean : device.dirty address = false) :
    (device.evict address).bread other = device.bread other := by
  by_cases same : other = address
  · subst same
    rw [coherent.bread_eq clean, (coherent.evict other).bread_eq clean, evict_disk]
  · simp [Device.evict, Device.bread, same]

end Coherent

/-! ## The header -/

/-- The block numbers that a header block names. -/
def readHead (header : Block) : List (BitVec 32) :=
  (List.range (header 0).toInt.toNat).map (fun i => header (i + 1))

/-- A header block once the numbers are written into it; its other words stay. -/
def headerBlock (header : Block) (lh : List (BitVec 32)) : Block
  | 0 => BitVec.ofNat 32 lh.length
  | i + 1 => lh[i]?.getD (header (i + 1))

/-- `write_head` -/
def Device.writeHead (device : Device) (layout : Layout) (lh : List (BitVec 32)) : Device :=
  (device.load layout.start).bwrite layout.start
    (headerBlock (device.bread layout.start) lh)

/-- A header names as many blocks as its first word says, and none if that is negative. -/
@[simp] theorem readHead_length (header : Block) :
    (readHead header).length = (header 0).toInt.toNat := by
  simp [readHead]

/-- The numbers written into a header are read back. -/
theorem readHead_headerBlock (header : Block) {lh : List (BitVec 32)} (few : lh.length < 2 ^ 31) :
    readHead (headerBlock header lh) = lh := by
  have count : (headerBlock header lh 0).toInt.toNat = lh.length := by
    rw [headerBlock, BitVec.toInt_eq_toNat_of_lt (by simp; omega), BitVec.toNat_ofNat,
      Nat.mod_eq_of_lt (by omega), Int.toNat_natCast]
  refine List.ext_getElem (by rw [readHead_length, count]) (fun i inHead inList => ?_)
  simp [readHead, headerBlock, List.getElem?_eq_getElem inList]

/-- The header block is written to the disk. -/
@[simp] theorem writeHead_disk (device : Device) (layout : Layout) (lh : List (BitVec 32)) :
    (device.writeHead layout lh).disk = Function.update device.disk layout.start
      (headerBlock (device.bread layout.start) lh) := rfl

/-- The header block is not dirty. -/
@[simp] theorem writeHead_dirty (device : Device) (layout : Layout) (lh : List (BitVec 32)) :
    (device.writeHead layout lh).dirty =
      Function.update device.dirty layout.start false := rfl

/-- The other blocks are read as before. -/
theorem writeHead_bread (device : Device) {layout : Layout} (lh : List (BitVec 32))
    {address : Nat} (other : address ≠ layout.start) :
    (device.writeHead layout lh).bread address = device.bread address := by
  rw [Device.writeHead, bwrite_bread, if_neg other, load_bread]

/-- The header block is written like any other. -/
theorem Device.Coherent.writeHead {device : Device} (coherent : device.Coherent) (layout : Layout)
    (lh : List (BitVec 32)) : (device.writeHead layout lh).Coherent :=
  (coherent.load layout.start).bwrite layout.start _

/-! ## The calls -/

/-- Where a process stands in the file system, outside of it included. An operation in
progress has the numbers of the blocks it has logged; in `log_write` it also has the block
that has passed the checks. -/
inductive Place where
  | idle
  | beginOp
  | asleep
  | active (written : List (BitVec 32))
  | logWrite (written : List (BitVec 32)) (blockno : BitVec 32) (block : Block)
  | commit
  | writeLog (tail : Nat)
  | writeHead
  | installTrans (tail : Nat)
  | clearHead
  | endCommit

/-- Where `recover_from_log` stands. -/
inductive Boot where
  | readHead
  | installTrans (tail : Nat)
  | clearHead

/-- The device, `struct log`, what the processes do, whether recovery is going on, and whether
the kernel has panicked. -/
structure System (ι : Type) where
  device : Device
  lh : List (BitVec 32)
  outstanding : Int
  committing : Bool
  places : ι → Place
  boot : Option Boot
  panicked : Bool
  history : List (Event ι Nat Block)

variable {ι : Type}

/-- The machine is switched on with a disk. -/
def System.switchOn (disk : Nat → Block) (history : List (Event ι Nat Block)) : System ι :=
  ⟨Device.off disk, [], 0, false, fun _ => .idle, some .readHead, false, history⟩

/-- A file system call begins, calls `log_write`, ends, or goes on with what it is doing; a
process is killed; recovery goes on; a block is read, a buffer is recycled, or the machine
crashes. -/
inductive Label (ι : Type) where
  | call (process : ι)
  | logWrite (process : ι) (blockno : BitVec 32) (block : Block)
  | endOp (process : ι)
  | next (process : ι)
  | kill (process : ι)
  | recover
  | bread (address : Nat)
  | recycle (address : Nat)
  | crash

/-- What `wakeup(&log)` does to a process, and `kill` as well. -/
def Place.wakeup : Place → Place
  | .asleep => .beginOp
  | place => place

variable [DecidableEq ι]

/-- A process goes to another place. -/
def System.moveTo (system : System ι) (process : ι) (place : Place) : System ι :=
  { system with places := Function.update system.places process place }

/-- Record an event. -/
def System.note (system : System ι) (event : Event ι Nat Block) : System ι :=
  { system with history := system.history ++ [event] }

/-- `wakeup(&log)` -/
def System.wakeup (system : System ι) : System ι :=
  { system with places := fun process => (system.places process).wakeup }

/-- `begin_op`, from one look at the log to the next. -/
def System.beginOp (system : System ι) (process : ι) : System ι :=
  if system.committing then system.moveTo process .asleep
  else if (system.lh.length : Int) + (system.outstanding + 1) * maxopblocks > logsize then
    system.moveTo process .asleep
  else
    { (system.moveTo process (.active [])).note (.begun process) with
      outstanding := system.outstanding + 1 }

/-- The checks of `log_write`, on a buffer whose data has been changed. -/
def System.logWrite (layout : Layout) (system : System ι) (process : ι)
    (written : List (BitVec 32)) (blockno : BitVec 32) (block : Block) : System ι :=
  if logsize ≤ system.lh.length || layout.size - 1 ≤ system.lh.length ||
      system.outstanding < 1 then
    { system with panicked := true }
  else system.moveTo process (.logWrite written blockno block)

/-- The header in memory once `log_write` has entered a block number. -/
def absorb (lh : List (BitVec 32)) (blockno : BitVec 32) : List (BitVec 32) :=
  if blockno ∈ lh then lh else lh ++ [blockno]

/-- The section of `log_write` under the lock. -/
def System.append (system : System ι) (process : ι) (written : List (BitVec 32))
    (blockno : BitVec 32) (block : Block) : System ι :=
  { (system.moveTo process (.active (absorb written blockno))).note
      (.wrote blockno.toNat block) with
    device := system.device.change blockno.toNat block
    lh := absorb system.lh blockno }

/-- The first section of `end_op`. -/
def System.endOp (system : System ι) (process : ι) : System ι :=
  if system.committing then { system with panicked := true }
  else if system.outstanding - 1 = 0 then
    { (system.moveTo process .commit).note (.ended process) with
      outstanding := system.outstanding - 1
      committing := true }
  else
    { (system.moveTo process .idle).wakeup.note (.ended process) with
      outstanding := system.outstanding - 1 }

/-- The last section of `end_op`. -/
def System.endCommit (system : System ι) (process : ι) : System ι :=
  { (system.moveTo process .idle).wakeup with committing := false }

/-- The next step of a process in `begin_op`, `log_write`, `commit` or the last section of
`end_op`. -/
def System.next (layout : Layout) (system : System ι) (process : ι) : Option (System ι) :=
  match system.places process with
  | .idle | .asleep | .active _ => none
  | .beginOp => some (system.beginOp process)
  | .logWrite written blockno block => some (system.append process written blockno block)
  | .commit =>
      some (system.moveTo process (if 0 < system.lh.length then .writeLog 0 else .endCommit))
  | .writeLog tail =>
      match system.lh[tail]? with
      | some blockno =>
          some { system.moveTo process (.writeLog (tail + 1)) with
            device := system.device.copy blockno.toNat (layout.start + tail + 1) }
      | none => some (system.moveTo process .writeHead)
  | .writeHead =>
      some { (system.moveTo process (.installTrans 0)).note .committed with
        device := system.device.writeHead layout system.lh }
  | .installTrans tail =>
      match system.lh[tail]? with
      | some blockno =>
          some { system.moveTo process (.installTrans (tail + 1)) with
            device := system.device.copy (layout.start + tail + 1) blockno.toNat }
      | none => some { system.moveTo process .clearHead with lh := [] }
  | .clearHead =>
      some { system.moveTo process .endCommit with
        device := system.device.writeHead layout system.lh }
  | .endCommit => some (system.endCommit process)

/-- The next step of `recover_from_log`. -/
def System.recover (layout : Layout) (system : System ι) : Option (System ι) :=
  match system.boot with
  | none => none
  | some .readHead =>
      some { system with
        device := system.device.load layout.start
        lh := readHead (system.device.bread layout.start)
        boot := some (.installTrans 0) }
  | some (.installTrans tail) =>
      match system.lh[tail]? with
      | some blockno =>
          some { system with
            device := system.device.copy (layout.start + tail + 1) blockno.toNat
            boot := some (.installTrans (tail + 1)) }
      | none => some { system with lh := [], boot := some .clearHead }
  | some .clearHead =>
      some { system with device := system.device.writeHead layout system.lh, boot := none }

/-- Whether processes run: recovery is over, and no panic has stopped the kernel. -/
def System.up (system : System ι) : Bool := system.boot.isNone && !system.panicked

/-- One step. Operations log only blocks outside the log area, and no more than `quota`
different ones each. -/
def step (layout : Layout) (quota : Nat) (system : System ι) : Label ι → Option (System ι)
  | .call process =>
      match system.up, system.places process with
      | true, .idle => some (system.moveTo process .beginOp)
      | _, _ => none
  | .logWrite process blockno block =>
      match system.up, system.places process with
      | true, .active written =>
          if layout.home blockno.toNat && (blockno ∈ written || written.length < quota) then
            some (system.logWrite layout process written blockno block)
          else none
      | _, _ => none
  | .endOp process =>
      match system.up, system.places process with
      | true, .active _ => some (system.endOp process)
      | _, _ => none
  | .next process => if system.up then system.next layout process else none
  | .kill process =>
      if system.up then some (system.moveTo process (system.places process).wakeup) else none
  | .recover => if system.panicked then none else system.recover layout
  | .bread address => some { system with device := system.device.load address }
  | .recycle address =>
      if system.device.dirty address then none
      else some { system with device := system.device.evict address }
  | .crash => some (System.switchOn system.device.disk (system.history ++ [.crashed]))

/-! ## What a step can do -/

section Absorb

variable (lh : List (BitVec 32)) (blockno other : BitVec 32)

/-- The new number is in the header, beside those that were there before. -/
@[simp] theorem mem_absorb : other ∈ absorb lh blockno ↔ other ∈ lh ∨ other = blockno := by
  rw [absorb]
  split <;> grind

/-- The header keeps its numbers. -/
theorem subset_absorb : lh ⊆ absorb lh blockno :=
  fun _ inLog => (mem_absorb ..).mpr (Or.inl inLog)

/-- The header gets longer by one number at most. -/
theorem length_absorb_le : (absorb lh blockno).length ≤ lh.length + 1 := by
  rw [absorb]
  split <;> simp

/-- The header does not get shorter. -/
theorem length_le_absorb : lh.length ≤ (absorb lh blockno).length := by
  rw [absorb]
  split <;> simp

/-- A number that is there already changes nothing. -/
theorem absorb_of_mem {lh : List (BitVec 32)} {blockno : BitVec 32} (inLog : blockno ∈ lh) :
    absorb lh blockno = lh := if_pos inLog

/-- A new number goes to the end. -/
theorem absorb_of_not_mem {lh : List (BitVec 32)} {blockno : BitVec 32} (new : blockno ∉ lh) :
    absorb lh blockno = lh ++ [blockno] := if_neg new

end Absorb

/-- What the next step of a process can be. -/
inductive NextStep (layout : Layout) (system : System ι) (process : ι) (after : System ι) :
    Prop where
  | begins (place : system.places process = .beginOp) (now : after = system.beginOp process)
  | appends (written : List (BitVec 32)) (blockno : BitVec 32) (block : Block)
      (place : system.places process = .logWrite written blockno block)
      (now : after = system.append process written blockno block)
  | starts (place : system.places process = .commit) (logged : system.lh ≠ [])
      (now : after = system.moveTo process (.writeLog 0))
  | skips (place : system.places process = .commit) (nothing : system.lh = [])
      (now : after = system.moveTo process .endCommit)
  | copies (tail : Nat) (blockno : BitVec 32) (place : system.places process = .writeLog tail)
      (entry : system.lh[tail]? = some blockno)
      (now : after = { system.moveTo process (.writeLog (tail + 1)) with
        device := system.device.copy blockno.toNat (layout.start + tail + 1) })
  | copied (tail : Nat) (place : system.places process = .writeLog tail)
      (last : system.lh[tail]? = none) (now : after = system.moveTo process .writeHead)
  | commits (place : system.places process = .writeHead)
      (now : after = { (system.moveTo process (.installTrans 0)).note .committed with
        device := system.device.writeHead layout system.lh })
  | installs (tail : Nat) (blockno : BitVec 32)
      (place : system.places process = .installTrans tail)
      (entry : system.lh[tail]? = some blockno)
      (now : after = { system.moveTo process (.installTrans (tail + 1)) with
        device := system.device.copy (layout.start + tail + 1) blockno.toNat })
  | installed (tail : Nat) (place : system.places process = .installTrans tail)
      (last : system.lh[tail]? = none)
      (now : after = { system.moveTo process .clearHead with lh := [] })
  | clears (place : system.places process = .clearHead)
      (now : after = { system.moveTo process .endCommit with
        device := system.device.writeHead layout system.lh })
  | finishes (place : system.places process = .endCommit) (now : after = system.endCommit process)

/-- What the next step of recovery can be. -/
inductive RecoverStep (layout : Layout) (system after : System ι) : Prop where
  | reads (boot : system.boot = some .readHead)
      (now : after = { system with
        device := system.device.load layout.start
        lh := readHead (system.device.bread layout.start)
        boot := some (.installTrans 0) })
  | installs (tail : Nat) (blockno : BitVec 32) (boot : system.boot = some (.installTrans tail))
      (entry : system.lh[tail]? = some blockno)
      (now : after = { system with
        device := system.device.copy (layout.start + tail + 1) blockno.toNat
        boot := some (.installTrans (tail + 1)) })
  | installed (tail : Nat) (boot : system.boot = some (.installTrans tail))
      (last : system.lh[tail]? = none)
      (now : after = { system with lh := [], boot := some .clearHead })
  | clears (boot : system.boot = some .clearHead)
      (now : after = { system with
        device := system.device.writeHead layout system.lh, boot := none })

variable {layout : Layout} {quota : Nat} {system after : System ι}

/-- A process does what its place says, and waits at the places from which it is called or woken. -/
theorem next_step {process : ι} (taken : system.next layout process = some after) :
    NextStep layout system process after := by
  cases place : system.places process with
  | idle | asleep | active => simp [System.next, place] at taken
  | beginOp =>
    simp only [System.next, place, Option.some.injEq] at taken
    exact .begins place taken.symm
  | logWrite written blockno block =>
    simp only [System.next, place, Option.some.injEq] at taken
    exact .appends written blockno block place taken.symm
  | commit =>
    simp only [System.next, place, Option.some.injEq] at taken
    by_cases logged : 0 < system.lh.length
    · rw [if_pos logged] at taken
      exact .starts place (List.length_pos_iff.mp logged) taken.symm
    · rw [if_neg logged] at taken
      exact .skips place (List.length_eq_zero_iff.mp (by omega)) taken.symm
  | writeLog tail =>
    cases entry : system.lh[tail]? with
    | some blockno =>
      simp only [System.next, place, entry, Option.some.injEq] at taken
      exact .copies tail blockno place entry taken.symm
    | none =>
      simp only [System.next, place, entry, Option.some.injEq] at taken
      exact .copied tail place entry taken.symm
  | writeHead =>
    simp only [System.next, place, Option.some.injEq] at taken
    exact .commits place taken.symm
  | installTrans tail =>
    cases entry : system.lh[tail]? with
    | some blockno =>
      simp only [System.next, place, entry, Option.some.injEq] at taken
      exact .installs tail blockno place entry taken.symm
    | none =>
      simp only [System.next, place, entry, Option.some.injEq] at taken
      exact .installed tail place entry taken.symm
  | clearHead =>
    simp only [System.next, place, Option.some.injEq] at taken
    exact .clears place taken.symm
  | endCommit =>
    simp only [System.next, place, Option.some.injEq] at taken
    exact .finishes place taken.symm

omit [DecidableEq ι] in
/-- Recovery does what its place says. -/
theorem recover_step (taken : system.recover layout = some after) :
    RecoverStep layout system after := by
  cases boot : system.boot with
  | none => simp [System.recover, boot] at taken
  | some phase =>
    cases phase with
    | readHead =>
      simp only [System.recover, boot, Option.some.injEq] at taken
      exact .reads boot taken.symm
    | installTrans tail =>
      cases entry : system.lh[tail]? with
      | some blockno =>
        simp only [System.recover, boot, entry, Option.some.injEq] at taken
        exact .installs tail blockno boot entry taken.symm
      | none =>
        simp only [System.recover, boot, entry, Option.some.injEq] at taken
        exact .installed tail boot entry taken.symm
    | clearHead =>
      simp only [System.recover, boot, Option.some.injEq] at taken
      exact .clears boot taken.symm

/-- A call begins outside of the file system. -/
theorem step_call {process : ι} (taken : step layout quota system (.call process) = some after) :
    system.up = true ∧ system.places process = .idle ∧
      after = system.moveTo process .beginOp := by
  simp only [step] at taken
  split at taken
  · rename_i up place
    exact ⟨up, place, (Option.some.inj taken).symm⟩
  · exact absurd taken.symm (Option.some_ne_none _)

/-- `log_write` is called in an operation, on a block outside the log area. -/
theorem step_logWrite {process : ι} {blockno : BitVec 32} {block : Block}
    (taken : step layout quota system (.logWrite process blockno block) = some after) :
    system.up = true ∧ ∃ written, system.places process = .active written ∧
      layout.home blockno.toNat = true ∧ (blockno ∈ written ∨ written.length < quota) ∧
      after = system.logWrite layout process written blockno block := by
  simp only [step] at taken
  split at taken
  · rename_i written up place
    split at taken
    · rename_i allowed
      simp only [Bool.and_eq_true, Bool.or_eq_true, decide_eq_true_eq] at allowed
      exact ⟨up, written, place, allowed.1, allowed.2, (Option.some.inj taken).symm⟩
    · exact absurd taken.symm (Option.some_ne_none _)
  · exact absurd taken.symm (Option.some_ne_none _)

/-- `end_op` is called in an operation. -/
theorem step_endOp {process : ι}
    (taken : step layout quota system (.endOp process) = some after) :
    system.up = true ∧ ∃ written, system.places process = .active written ∧
      after = system.endOp process := by
  simp only [step] at taken
  split at taken
  · rename_i written up place
    exact ⟨up, written, place, (Option.some.inj taken).symm⟩
  · exact absurd taken.symm (Option.some_ne_none _)

/-- Processes go on while the kernel runs. -/
theorem step_next {process : ι} (taken : step layout quota system (.next process) = some after) :
    system.up = true ∧ NextStep layout system process after := by
  simp only [step] at taken
  split at taken
  · rename_i up
    exact ⟨up, next_step taken⟩
  · exact absurd taken.symm (Option.some_ne_none _)

/-- A process is killed while the kernel runs. -/
theorem step_kill {process : ι} (taken : step layout quota system (.kill process) = some after) :
    system.up = true ∧ after = system.moveTo process (system.places process).wakeup := by
  simp only [step] at taken
  split at taken
  · rename_i up
    exact ⟨up, (Option.some.inj taken).symm⟩
  · exact absurd taken.symm (Option.some_ne_none _)

/-- Recovery goes on unless the kernel has panicked. -/
theorem step_recover (taken : step layout quota system .recover = some after) :
    system.panicked = false ∧ RecoverStep layout system after := by
  simp only [step] at taken
  split at taken
  · exact absurd taken.symm (Option.some_ne_none _)
  · rename_i running
    exact ⟨Bool.eq_false_iff.mpr running, recover_step taken⟩

/-- Only buffers that are not dirty are recycled. -/
theorem step_recycle {address : Nat}
    (taken : step layout quota system (.recycle address) = some after) :
    system.device.dirty address = false ∧
      after = { system with device := system.device.evict address } := by
  simp only [step] at taken
  split at taken
  · exact absurd taken.symm (Option.some_ne_none _)
  · rename_i clean
    exact ⟨Bool.eq_false_iff.mpr clean, (Option.some.inj taken).symm⟩

end OsLabwork.Kernel.Logging
