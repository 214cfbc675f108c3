import OsLabwork.Kernel.FileStore

/-!
# Operations one after the other

Writing and emptying a file are operations of the log, each between `begin_op` and `end_op`.
Whatever operations are done on whatever files, one at a time, each returns what it would
return on lists of bytes, until one panics: `balloc` for want of blocks, or `log_write` because
the operation logs more than the log has room for. How much that is follows from the range that
is written.
-/

namespace OsLabwork.Kernel.Inodes

open Logging Outcomes Overwriting WordMemory

/-! ## Operations of the log -/

/-- `begin_op`. With no other operation in progress, and an empty log, it does not wait. -/
def Fs.beginOp (fs : Fs) : Fs :=
  ⟨{ fs.volume with outstanding := fs.volume.outstanding + 1 }, fs.inodes⟩

/-- `end_op`. The last operation commits, which empties the log. -/
def Fs.endOp (fs : Fs) : Fs :=
  ⟨{ fs.volume with
      logged := if fs.volume.outstanding - 1 = 0 then [] else fs.volume.logged
      outstanding := fs.volume.outstanding - 1 }, fs.inodes⟩

/-- No operation is in progress, and the log is empty. -/
structure Fs.Idle (fs : Fs) : Prop where
  logged : fs.volume.logged = []
  outstanding : fs.volume.outstanding = 0

/-- How many blocks of the bitmap there are. -/
def Superblock.bitmapBlocks (sb : Superblock) : Nat := (sb.size + (bpb - 1)) / bpb

/-- How many blocks a range of a file touches. -/
def rangeBlocks (off n : Nat) : Nat := (off % bsize + n + (bsize - 1)) / bsize

section Bounds

variable {geometry : Geometry} {fs : Fs}

/-- The log is no part of what holds between operations. -/
theorem Sound.of_same {after : Fs} (sound : Sound geometry fs)
    (blocks : after.volume.blocks = fs.volume.blocks) (inodes : after.inodes = fs.inodes) :
    Sound geometry after := by
  obtain ⟨⟨_, _, _⟩, _⟩ := after
  subst blocks inodes
  exact ⟨⟨sound.owned.inData, sound.owned.apart, sound.owned.marked⟩, sound.dense, sound.tight,
    sound.small, sound.stored⟩

/-- What holds between operations holds inside one as well. -/
theorem Sound.beginOp (sound : Sound geometry fs) : Sound geometry fs.beginOp :=
  sound.of_same rfl rfl

/-- The end of an operation changes nothing but the log. -/
theorem Sound.endOp (sound : Sound geometry fs) : Sound geometry fs.endOp :=
  sound.of_same rfl rfl

/-- An operation that started alone ends with an empty log. -/
theorem Fs.Idle.endOp {after : Fs} (idle : fs.Idle)
    (outstanding : after.volume.outstanding = fs.beginOp.volume.outstanding) : after.endOp.Idle := by
  have one : after.volume.outstanding = 1 := by
    rw [outstanding, Fs.beginOp, idle.outstanding]
  constructor <;> simp [Fs.endOp, one]

/-- A block of the bitmap has a number below the size of the bitmap. -/
theorem bitmap_lt {b : Nat} (inDisk : b < geometry.size) : b / bpb < geometry.bitmapBlocks := by
  simp only [Superblock.bitmapBlocks, bpb, bsize]
  omega

/-- A block with bytes of a range, counted from its first block. -/
theorem Touched.distance_lt {off n bn : Nat} (touched : Touched off n bn) :
    off / bsize ≤ bn ∧ bn - off / bsize < rangeBlocks off n := by
  obtain ⟨k, lower, upper, rfl⟩ := touched
  simp only [rangeBlocks, bsize]
  omega

/-- Different blocks, all of them given, of the bitmap or with bytes of a range, are no more
than these. -/
theorem length_le_of_logged (geometry : Geometry) (given : List Nat) (slot : Nat → Nat)
    (off n : Nat) {logged : List Nat} (distinct : logged.Nodup)
    (within : ∀ c ∈ logged, c ∈ given ∨ (∃ b, b < geometry.size ∧ c = geometry.bblock b) ∨
      ∃ bn, Touched off n bn ∧ c = slot bn) :
    logged.length ≤ given.length + geometry.bitmapBlocks + rangeBlocks off n := by
  obtain ⟨blocks, isBlocks⟩ : ∃ blocks : List Nat, blocks = given ++
    (List.range geometry.bitmapBlocks).map (· + geometry.bmapstart) ++
      (List.range (rangeBlocks off n)).map (fun d => slot (off / bsize + d)) := ⟨_, rfl⟩
  have among : logged ⊆ blocks := by
    intro c member
    rw [isBlocks, List.mem_append, List.mem_append]
    obtain isGiven | ⟨b, inDisk, isBitmap⟩ | ⟨bn, touched, isData⟩ := within c member
    · exact Or.inl (Or.inl isGiven)
    · refine Or.inl (Or.inr (List.mem_map.mpr ⟨b / bpb, List.mem_range.mpr ?_, isBitmap.symm⟩))
      exact bitmap_lt inDisk
    · obtain ⟨later, near⟩ := touched.distance_lt
      refine Or.inr (List.mem_map.mpr ⟨bn - off / bsize, List.mem_range.mpr near, ?_⟩)
      rw [Nat.add_sub_cancel' later, isData]
  calc logged.length ≤ blocks.length := (distinct.subperm among).length_le
    _ = given.length + geometry.bitmapBlocks + rangeBlocks off n := by
      simp [isBlocks, Nat.add_assoc]

/-- An operation that writes a range has logged no more than the blocks of the range and of the
bitmap, the indirect block and that of the inode. -/
theorem Logs.length_le {i off n : Nat} {after : Fs} (logs : Logs geometry i off n fs after)
    (empty : fs.volume.logged = []) :
    after.volume.logged.length ≤ geometry.bitmapBlocks + rangeBlocks off n + 2 := by
  have bound := length_le_of_logged geometry [geometry.iblock i, after.slot i ndirect]
    (fun bn => after.slot i (dataSlot bn)) off n
    (logs.distinct (by rw [empty]; exact List.nodup_nil)) (fun c member => ?_)
  · rw [List.length_cons, List.length_singleton] at bound
    omega
  obtain old | isInode | bitmap | isIndirect | isData := logs.blocks c member
  · rw [empty] at old
    exact absurd old List.not_mem_nil
  · exact Or.inl (by simp [isInode])
  · exact Or.inr (Or.inl bitmap)
  · exact Or.inl (by simp [isIndirect])
  · exact Or.inr (Or.inr isData)

/-- Why a write that started alone panics: there are too few free blocks, or the blocks to be
logged do not fit. -/
theorem Stuck.of_idle {i off n : Nat} {message : String} (idle : fs.Idle)
    (stuck : Stuck geometry i (Touched off n) fs.beginOp message) :
    message = outOfBlocks ∧ fs.spare geometry.toSuperblock < fs.vacant i ∨
      message = tooBig ∧ geometry.logRoom ≤ geometry.bitmapBlocks + rangeBlocks off n + 3 := by
  cases stuck with
  | full few => exact Or.inl ⟨rfl, few⟩
  | @crowded last grown little =>
    have empty : fs.beginOp.volume.logged = [] := idle.logged
    have bound := length_le_of_logged geometry [last.slot i ndirect]
      (fun bn => last.slot i (dataSlot bn)) off n
      (grown.distinct (by rw [empty]; exact List.nodup_nil)) (fun c member => ?_)
    · rw [List.length_singleton] at bound
      exact Or.inr ⟨rfl, by omega⟩
    obtain old | bitmap | ⟨-, bn, touched, isData | isIndirect⟩ := grown.logged c member
    · rw [empty] at old
      exact absurd old List.not_mem_nil
    · exact Or.inr (Or.inl bitmap)
    · exact Or.inr (Or.inr ⟨bn, touched, isData⟩)
    · exact Or.inl (by simp [isIndirect])
  | outside none => exact absurd none (Nat.succ_ne_zero _)

/-- Why emptying a file panics: the bitmap does not fit into the log. -/
theorem Interrupted.of_idle (owned : Owned geometry fs) {i : Nat} {message : String}
    (idle : fs.Idle)
    (interrupted : Interrupted geometry.toSuperblock fs.beginOp.volume (fs.blocksOf i) message) :
    message = tooBig ∧ geometry.logRoom ≤ geometry.bitmapBlocks := by
  obtain ⟨freed, among, refused⟩ := interrupted
  obtain ⟨within, distinct, outstanding⟩ :=
    releaseAll_logged geometry.toSuperblock fs.beginOp.volume freed
  have empty : fs.beginOp.volume.logged = [] := idle.logged
  obtain ⟨rfl, little⟩ | ⟨rfl, none⟩ := refused
  · have bound := length_le_of_logged geometry [] id 0 0
      (distinct (by rw [empty]; exact List.nodup_nil)) (fun c member => ?_)
    · simp only [List.length_nil, rangeBlocks, bsize] at bound
      exact ⟨rfl, by omega⟩
    obtain old | ⟨b, isFreed, here⟩ := within c member
    · rw [empty] at old
      exact absurd old List.not_mem_nil
    · obtain ⟨notZero, s, rfl⟩ := (mem_blocksOf fs i b).mp (among isFreed)
      exact Or.inr (Or.inl ⟨_, (owned.inData i s notZero).2, here⟩)
  · rw [outstanding] at none
    exact absurd none (Nat.succ_ne_zero _)

end Bounds

/-! ## One operation -/

/-- One operation. Those that change a file are operations of the log. -/
def Fs.apply (sb : Superblock) (devsw : Nat → Driver) (fs : Fs) : Op → Except String (Fs × Reply)
  | .read i off n => do
    let (volume, ip, result) ← readi sb devsw fs.volume (fs.inodes i) off n
    return (fs.put i volume ip, .bytes result)
  | .write i src off n => do
    let fs := fs.beginOp
    let (volume, ip, result) ← writei sb devsw fs.volume i (fs.inodes i) src off n
    return ((fs.put i volume ip).endOp, .count result)
  | .trunc i => do
    let fs := fs.beginOp
    let (volume, ip) ← itrunc sb fs.volume i (fs.inodes i)
    return ((fs.put i volume ip).endOp, .done)

/-- The panics of operations, each with its cause. -/
inductive Panics (geometry : Geometry) (fs : Fs) : Op → String → Prop
  | full {i : Nat} {src : Nat → Byte} {off n : BitVec 32}
      (few : fs.spare geometry.toSuperblock < fs.vacant i) :
      Panics geometry fs (.write i src off n) "balloc: out of blocks"
  | crowded {i : Nat} {src : Nat → Byte} {off n : BitVec 32}
      (little : geometry.logRoom ≤ geometry.bitmapBlocks + rangeBlocks off.toNat n.toNat + 3) :
      Panics geometry fs (.write i src off n) "too big a transaction"
  | crowdedTrunc {i : Nat} (little : geometry.logRoom ≤ geometry.bitmapBlocks) :
      Panics geometry fs (.trunc i) "too big a transaction"

/-- What an operation leaves and returns. -/
structure Applied (geometry : Geometry) (fs : Fs) (op : Op) (after : Fs) (reply : Reply) :
    Prop where
  sound : Sound geometry after
  spec : (fs.inodes op.file).type ≠ tDev → op.spec fs.contents = (after.contents, reply)
  idle : fs.Idle → after.Idle
  types : ∀ j, (after.inodes j).type = (fs.inodes j).type

section Operations

variable {geometry : Geometry} {fs : Fs}

/-- Reading changes nothing, and gives a part of the list. -/
theorem Sound.apply_read (sound : Sound geometry fs) (devsw : Nat → Driver) (i : Nat)
    (off n : BitVec 32) :
    ∃ reply, fs.apply geometry.toSuperblock devsw (.read i off n) = .ok (fs, reply) ∧
      Applied geometry fs (.read i off n) fs reply := by
  rw [Fs.apply]
  by_cases isDevice : (fs.inodes i).type = tDev
  · simp only [Inodes.readi, if_pos isDevice, pure_bind, put_self]
    exact ⟨_, rfl, sound, fun notDevice => absurd isDevice notDevice, id, fun _ => rfl⟩
  · simp only [sound.readi devsw isDevice off n, pure_bind, put_self]
    refine ⟨_, rfl, sound, fun _ => ?_, id, fun _ => rfl⟩
    rw [Op.spec]
    split <;> rfl

/-- Every operation panics for one of the causes, or returns what it returns on the lists and
leaves the lists that it leaves there. -/
theorem Sound.apply (sound : Sound geometry fs) (devsw : Nat → Driver) (op : Op)
    (isInode : op.file < geometry.ninodes) :
    Ensures (fun message => fs.Idle → Panics geometry fs op message)
      (fun outcome => Applied geometry fs op outcome.1 outcome.2)
      (fs.apply geometry.toSuperblock devsw op) := by
  cases op with
  | read i off n =>
    obtain ⟨reply, read, applied⟩ := sound.apply_read devsw i off n
    rw [read]
    exact applied
  | write i src off n =>
    refine (sound.beginOp.writei devsw isInode src off n).followedBy
      (fun message stuck idle => ?_) ?_
    · obtain ⟨rfl, few⟩ | ⟨rfl, little⟩ := stuck.of_idle idle
      · exact .full few
      · exact .crowded little
    · rintro ⟨volume, ip, result⟩ written
      exact ensures_pure ⟨written.sound.endOp, written.spec,
        fun idle => idle.endOp written.logs.outstanding, written.types⟩
  | trunc i =>
    refine (sound.beginOp.itrunc isInode).followedBy
      (fun message interrupted idle => ?_) ?_
    · obtain ⟨rfl, little⟩ := interrupted.of_idle sound.owned idle
      exact .crowdedTrunc little
    · rintro ⟨volume, ip⟩ emptied
      exact ensures_pure ⟨emptied.sound.endOp,
        fun _ => congrArg (·, Reply.done) emptied.contents.symm,
        fun idle => idle.endOp emptied.outstanding, emptied.types⟩

end Operations

/-! ## Whole runs -/

/-- Operations one after the other, up to the first panic. -/
def Fs.run (sb : Superblock) (devsw : Nat → Driver) (fs : Fs) :
    List Op → Except String (Fs × List Reply)
  | [] => return (fs, [])
  | op :: rest => do
    let (fs, reply) ← fs.apply sb devsw op
    let (fs, replies) ← fs.run sb devsw rest
    return (fs, reply :: replies)

/-- The same operations on lists of bytes. -/
def specRun (contents : Nat → List Byte) : List Op → (Nat → List Byte) × List Reply
  | [] => (contents, [])
  | op :: rest =>
    let (contents, reply) := op.spec contents
    let (contents, replies) := specRun contents rest
    (contents, reply :: replies)

/-- A run ends at an operation that panics. -/
structure EndsAt (geometry : Geometry) (devsw : Nat → Driver) (fs : Fs) (before : List Op) (op : Op)
    (message : String) (full : Fs) (replies : List Reply) : Prop where
  ran : fs.run geometry.toSuperblock devsw before = .ok (full, replies)
  failed : full.apply geometry.toSuperblock devsw op = .error message
  cause : fs.Idle → Panics geometry full op message

section Runs

variable {geometry : Geometry} {fs : Fs}

/-- An operation before a run. -/
theorem run_cons (sb : Superblock) (devsw : Nat → Driver) {op : Op} {mid : Fs} {reply : Reply}
    (applied : fs.apply sb devsw op = .ok (mid, reply)) (rest : List Op) :
    fs.run sb devsw (op :: rest) =
      (mid.run sb devsw rest >>= fun outcome => pure (outcome.1, reply :: outcome.2)) := by
  rw [Fs.run, applied]
  rfl

/-- A run ends at the first operation that panics, or returns what it returns on the lists. -/
theorem Sound.run (sound : Sound geometry fs) (devsw : Nat → Driver) (ops : List Op)
    (inodes : ∀ op ∈ ops, op.file < geometry.ninodes) :
    (∃ before op rest message full replies, ops = before ++ op :: rest ∧
        EndsAt geometry devsw fs before op message full replies ∧
        fs.run geometry.toSuperblock devsw ops = .error message) ∨
      ∃ after replies, fs.run geometry.toSuperblock devsw ops = .ok (after, replies) ∧
        Sound geometry after ∧
        ((∀ op ∈ ops, (fs.inodes op.file).type ≠ tDev) →
          specRun fs.contents ops = (after.contents, replies)) := by
  induction ops generalizing fs with
  | nil => exact Or.inr ⟨fs, [], rfl, sound, fun _ => rfl⟩
  | cons op rest inductionHypothesis =>
    obtain ⟨message, failed, cause⟩ | ⟨⟨mid, reply⟩, applied, step⟩ :=
      (sound.apply devsw op (inodes op List.mem_cons_self)).cases
    · exact Or.inl ⟨[], op, rest, message, fs, [], rfl, ⟨rfl, failed, cause⟩,
        by rw [Fs.run, failed]; rfl⟩
    obtain ⟨before, next, later, message, full, replies, isSplit, ends, panics⟩ |
        ⟨after, replies, ran, soundAfter, isRun⟩ :=
      inductionHypothesis step.sound
        (fun other member => inodes other (List.mem_cons_of_mem _ member))
    · refine Or.inl ⟨op :: before, next, later, message, full, reply :: replies, ?_,
        ⟨?_, ends.failed, fun idle => ends.cause (step.idle idle)⟩, ?_⟩
      · rw [isSplit, List.cons_append]
      · rw [run_cons _ _ applied, ends.ran]
        rfl
      · rw [run_cons _ _ applied, panics]
        rfl
    · refine Or.inr ⟨after, reply :: replies, ?_, soundAfter, fun noDevices => ?_⟩
      · rw [run_cons _ _ applied, ran]
        rfl
      · have laterSpec := isRun (fun other member =>
          step.types _ ▸ noDevices other (List.mem_cons_of_mem _ member))
        simp only [specRun, step.spec (noDevices op List.mem_cons_self), laterSpec]

end Runs

/-! ## A new file system -/

/-- The disk as `mkfs` leaves it before the first file: zeroes, and a bitmap with the blocks
before the data. -/
def blank (geometry : Geometry) : Fs where
  volume :=
    { blocks := fun c word =>
        if geometry.bmapstart ≤ c then
          BitVec.ofNat 32
            (2 ^ (geometry.datastart - ((c - geometry.bmapstart) * bpb + 32 * word)) - 1)
        else 0
      logged := []
      outstanding := 0 }
  inodes _ := ⟨0, 0, 0, 0, 0, fun _ => 0⟩

/-- No file has a block. -/
theorem slot_blank (geometry : Geometry) (i s : Nat) : (blank geometry).slot i s = 0 :=
  slot_of_clear (fun _ _ => rfl) s

/-- The blocks before the data are in use. -/
theorem inUse_blank (geometry : Geometry) (b : Nat) :
    (blank geometry).volume.inUse geometry.toSuperblock b = decide (b < geometry.datastart) := by
  have low := bmapstart_le_bblock geometry.toSuperblock b
  have bitmap : geometry.bblock b - geometry.bmapstart = b / bpb := Nat.add_sub_cancel ..
  simp only [Volume.inUse, blank, bitAt, byteAt, if_pos low, bitmap, BitVec.getLsbD_extractLsb',
    BitVec.getLsbD_ofNat, Nat.testBit_two_pow_sub_one]
  rw [Bool.eq_iff_iff]
  simp only [Bool.and_eq_true, decide_eq_true_eq]
  simp only [bpb, bsize]
  omega

/-- On a new disk all is as it is between operations. -/
theorem sound_blank (geometry : Geometry) : Sound geometry (blank geometry) where
  owned :=
    { inData := fun i s used => absurd (slot_blank geometry i s) used
      apart := fun i s _ _ used => absurd (slot_blank geometry i s) used
      marked := by
        intro b inDisk
        have := geometry.bitmapFits b inDisk
        simp only [inUse_blank, decide_eq_true_iff, slot_blank]
        refine ⟨Or.inl, ?_⟩
        rintro (low | ⟨_, _, rfl⟩)
        · exact low
        · omega }
  dense _ _ impossible := absurd impossible (Nat.not_lt_zero _)
  tight i bn used := by
    rw [slot_blank, slot_blank] at used
    exact (used.elim (fun used => used rfl) (fun used => used.2 rfl)).elim
  small _ := Nat.zero_le _
  stored i isInode := by
    have inode := geometry.inodesFit i isInode
    have zeroes : ∀ word, (blank geometry).volume.blocks (geometry.iblock i) word = 0 :=
      fun word => if_neg (by omega)
    simp only [readInode, zeroes]
    exact ⟨rfl, rfl, rfl, rfl, rfl, fun _ _ => rfl⟩

/-- The numbers that `mkfs` chooses. -/
def mkfsSuperblock : Superblock where
  size := 1000
  nlog := 30
  inodestart := 32
  bmapstart := 58

/-- The inodes are before the bitmap. -/
theorem mkfs_inodesFit (inum : Nat) (isInode : inum < 200) :
    mkfsSuperblock.iblock inum < mkfsSuperblock.bmapstart := by
  simp only [Superblock.iblock, mkfsSuperblock, ipb, bsize]
  omega

/-- The bitmap is before the data. -/
theorem mkfs_bitmapFits (b : Nat) (inDisk : b < mkfsSuperblock.size) :
    mkfsSuperblock.bblock b < 59 := by
  simp only [Superblock.bblock, mkfsSuperblock, bpb, bsize] at *
  omega

/-- There are blocks for data. -/
theorem mkfs_dataFits : 59 ≤ mkfsSuperblock.size := by decide

/-- Their numbers fit into a word. -/
theorem mkfs_addressable : mkfsSuperblock.size < 2 ^ 32 := by decide

/-- The disk that `mkfs` makes. -/
def mkfsGeometry : Geometry where
  toSuperblock := mkfsSuperblock
  ninodes := 200
  datastart := 59
  inodesFit := mkfs_inodesFit
  bitmapFits := mkfs_bitmapFits
  dataFits := mkfs_dataFits
  addressable := mkfs_addressable

/-- On a new disk no operation is in progress. -/
theorem idle_blank (geometry : Geometry) : (blank geometry).Idle := ⟨rfl, rfl⟩

/-- A table without drivers. -/
def noDrivers : Nat → Driver := fun _ => ⟨none, none⟩

/-- A file is written, overwritten in the middle and beyond its end, and read. -/
def writeAndRead : List Op :=
  [.write 2 (fun k => BitVec.ofNat 8 k) 0 3, .write 2 (fun _ => 7) 2 2, .read 2 0 10, .trunc 2]

/-- Whatever is read, written and emptied, in whatever order, one operation at a time, every
operation returns what it returns on lists of bytes, and the files are these lists in the end,
unless some operation panics: a write that finds fewer free blocks than its file lacks, or an
operation whose blocks do not fit into the log. -/
theorem files_are_lists_of_bytes (geometry : Geometry) (devsw : Nat → Driver) (fs : Fs)
    (sound : Sound geometry fs) (idle : fs.Idle) (ops : List Op)
    (inodes : ∀ op ∈ ops, op.file < geometry.ninodes)
    (noDevices : ∀ op ∈ ops, (fs.inodes op.file).type ≠ tDev) :
    (∃ before op rest message full replies, ops = before ++ op :: rest ∧
        fs.run geometry.toSuperblock devsw before = .ok (full, replies) ∧
        full.apply geometry.toSuperblock devsw op = .error message ∧
        fs.run geometry.toSuperblock devsw ops = .error message ∧
        Panics geometry full op message) ∨
      ∃ after replies, fs.run geometry.toSuperblock devsw ops = .ok (after, replies) ∧
        specRun fs.contents ops = (after.contents, replies) := by
  obtain ⟨before, op, rest, message, full, replies, isSplit, ends, panics⟩ |
      ⟨after, replies, ran, -, isSpec⟩ := sound.run devsw ops inodes
  · exact Or.inl ⟨before, op, rest, message, full, replies, isSplit, ends.ran, ends.failed, panics,
      ends.cause idle⟩
  · exact Or.inr ⟨after, replies, ran, isSpec noDevices⟩

/-- The operations on a new file system. -/
theorem files_are_lists_of_bytes_blank :
    ∃ after replies, (blank mkfsGeometry).run mkfsGeometry.toSuperblock noDrivers writeAndRead =
        .ok (after, replies) ∧
      specRun (blank mkfsGeometry).contents writeAndRead = (after.contents, replies) ∧
      replies = [.count (some 3), .count (some 2), .bytes (some [0, 1, 7, 7]), .done] := by
  have runs := files_are_lists_of_bytes mkfsGeometry noDrivers _ (sound_blank mkfsGeometry)
    (idle_blank mkfsGeometry) writeAndRead (by decide) (by decide)
  have answers : ((blank mkfsGeometry).run mkfsGeometry.toSuperblock noDrivers
      writeAndRead).toOption.map Prod.snd =
        some [.count (some 3), .count (some 2), .bytes (some [0, 1, 7, 7]), .done] := by
    decide +kernel
  obtain ⟨_, _, _, _, _, _, _, _, _, panics, _⟩ | ⟨after, replies, ran, isSpec⟩ := runs
  · rw [panics] at answers
    exact absurd answers (by simp [Except.toOption])
  · rw [ran] at answers
    exact ⟨after, replies, ran, isSpec, Option.some.inj answers⟩

/-- A write of forty blocks in one operation does not fit into the log. -/
example : (((blank mkfsGeometry).apply mkfsGeometry.toSuperblock noDrivers
    (.write 2 (fun _ => 1) 0 20000) >>= fun _ => pure "").tryCatch pure).toOption =
      some "too big a transaction" := by
  decide +kernel

/-- After any run the bitmap marks the blocks before the data and those that some file has, no
block has two places, a file has the blocks that its size needs and no others, and the inodes
on the disk are those in memory. -/
theorem disk_stays_consistent (geometry : Geometry) (devsw : Nat → Driver) (fs : Fs)
    (sound : Sound geometry fs) (ops : List Op) (inodes : ∀ op ∈ ops, op.file < geometry.ninodes)
    (final : Fs) (replies : List Reply)
    (ran : fs.run geometry.toSuperblock devsw ops = .ok (final, replies)) :
    (∀ b, b < geometry.size → (final.volume.inUse geometry.toSuperblock b = true ↔
      b < geometry.datastart ∨ ∃ i s, final.slot i s = b)) ∧
    (∀ i s j t, final.slot i s ≠ 0 → final.slot i s = final.slot j t → i = j ∧ s = t) ∧
    (∀ i bn, final.slot i (dataSlot bn) ≠ 0 ↔ bn * bsize < final.size i) ∧
    ∀ i, i < geometry.ninodes →
      (readInode geometry.toSuperblock final.volume i).Same (final.inodes i) := by
  obtain ⟨_, _, _, _, _, _, _, _, panics⟩ | ⟨after, _, ranAfter, soundAfter, _⟩ :=
    sound.run devsw ops inodes
  · rw [panics] at ran
    exact absurd ran (by simp)
  · rw [ranAfter] at ran
    obtain ⟨rfl, -⟩ := Prod.mk.inj (Except.ok.inj ran)
    exact ⟨soundAfter.owned.marked, soundAfter.owned.apart,
      fun i bn => ⟨fun used => soundAfter.tight i bn (Or.inl used), soundAfter.dense i bn⟩,
      soundAfter.stored⟩

/-- They leave it consistent. -/
theorem disk_stays_consistent_blank :
    ∃ final replies, (blank mkfsGeometry).run mkfsGeometry.toSuperblock noDrivers writeAndRead =
        .ok (final, replies) ∧
      (∀ i bn, final.slot i (dataSlot bn) ≠ 0 ↔ bn * bsize < final.size i) ∧
      ∀ i, i < mkfsGeometry.ninodes →
        (readInode mkfsGeometry.toSuperblock final.volume i).Same (final.inodes i) := by
  have succeeds : ((blank mkfsGeometry).run mkfsGeometry.toSuperblock noDrivers
      writeAndRead).isOk = true := by
    decide +kernel
  match ran : (blank mkfsGeometry).run mkfsGeometry.toSuperblock noDrivers writeAndRead with
  | .error message =>
    rw [ran] at succeeds
    exact absurd succeeds Bool.false_ne_true
  | .ok (final, replies) =>
    have consistent := disk_stays_consistent mkfsGeometry noDrivers _ (sound_blank mkfsGeometry)
      writeAndRead (by decide) final replies ran
    exact ⟨final, replies, rfl, consistent.2.2⟩

end OsLabwork.Kernel.Inodes
