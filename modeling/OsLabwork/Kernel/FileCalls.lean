import OsLabwork.Kernel.FileOperations

/-!
# Reading and writing through a descriptor

An open file has flags and an offset, which `fileread` and `filewrite` move. `filewrite` writes
in pieces of at most three blocks, each with a call of `writei` in an operation of its own, so
that no operation fills the log. Together the pieces are one write at the offset of the file,
which ends early only where `writei` refuses a piece, never with a short count.

Calls one after the other, on any open files that are for inodes other than devices, are calls
on lists of bytes with offsets.
-/

namespace OsLabwork.Kernel.Inodes

open Logging Outcomes Overwriting

/-- An open file for an inode. -/
structure OpenFile where
  readable : Bool
  writable : Bool
  ip : Nat
  off : BitVec 32

/-- How much `filewrite` writes in one operation. -/
def maxWrite : Nat := (maxopblocks - 1 - 1 - 2) / 2 * 512

section Code

variable (sb : Superblock) (devsw : Nat → Driver)

/-- The loop of `filewrite` for an inode. The last result has the blocks that each operation
logged. -/
def filewriteLoop (src : Nat → Byte) (n : Nat) :
    Nat → Fs → OpenFile → Nat → Except String (Fs × OpenFile × Nat × List (List Nat))
  | 0, fs, f, i => return (fs, f, i, [])
  | rounds + 1, fs, f, i =>
    if i < n then do
      let n1 := min (n - i) maxWrite
      let fs := fs.beginOp
      let (volume, ip, result) ← writei sb devsw fs.volume f.ip (fs.inodes f.ip)
        (fun k => src (i + k)) f.off (BitVec.ofNat 32 n1)
      let fs := (fs.put f.ip volume ip).endOp
      match result with
      | none => return (fs, f, i, [volume.logged])
      | some r =>
        if r.toNat ≠ n1 then .error "short filewrite"
        else do
          let (fs, f, i, operations) ←
            filewriteLoop src n rounds fs { f with off := f.off + r } (i + r.toNat)
          return (fs, f, i, volume.logged :: operations)
    else return (fs, f, i, [])

/-- `filewrite` for an inode; without a result where the source returns -1. -/
def filewrite (fs : Fs) (f : OpenFile) (src : Nat → Byte) (n : Nat) :
    Except String (Fs × OpenFile × Option Nat × List (List Nat)) :=
  if f.writable = false then return (fs, f, none, [])
  else do
    let (fs, f, i, operations) ← filewriteLoop sb devsw src n n fs f 0
    return (fs, f, if i = n then some n else none, operations)

/-- `fileread` for an inode. -/
def fileread (fs : Fs) (f : OpenFile) (n : Nat) :
    Except String (Fs × OpenFile × Option (List Byte)) :=
  if f.readable = false then return (fs, f, none)
  else do
    let (volume, ip, result) ←
      readi sb devsw fs.volume (fs.inodes f.ip) f.off (BitVec.ofNat 32 n)
    let fs := fs.put f.ip volume ip
    match result with
    | none => return (fs, f, none)
    | some bytes => return (fs, { f with off := f.off + BitVec.ofNat 32 bytes.length }, some bytes)

end Code

/-- The size of a piece. -/
theorem maxWrite_eq : maxWrite = 1536 := rfl

/-- The largest size of a file. -/
theorem maxfile_mul_bsize : maxfile * bsize = 71680 := rfl

/-- A count that fits into a word. -/
theorem toNat_ofNat_of_lt {n : Nat} (small : n < 2 ^ 32) : (BitVec.ofNat 32 n).toNat = n :=
  (BitVec.toNat_ofNat ..).trans (Nat.mod_eq_of_lt small)

/-- The offset behind `n` bytes. -/
theorem toNat_add_ofNat {off : BitVec 32} {n : Nat} (fits : off.toNat + n < 2 ^ 32) :
    (off + BitVec.ofNat 32 n).toNat = off.toNat + n := by
  have count := toNat_ofNat_of_lt (Nat.lt_of_le_of_lt (Nat.le_add_left n off.toNat) fits)
  rw [toNat_add_of_fits (by omega), count]

/-- How many of `n` bytes `filewrite` writes at an offset of a file: all, or as many pieces as
the largest size allows. -/
def accepted (size off n : Nat) : Nat :=
  if size < off then 0
  else if off + n ≤ maxfile * bsize then n
  else (maxfile * bsize - off) / maxWrite * maxWrite

/-- None, if `writei` refuses the first piece. -/
theorem accepted_eq_zero {size off left : Nat}
    (refused : ¬ (off ≤ size ∧ off + min left maxWrite ≤ maxfile * bsize) ∨ left = 0) :
    accepted size off left = 0 := by
  rw [maxfile_mul_bsize, maxWrite_eq] at refused
  rw [accepted, maxfile_mul_bsize, maxWrite_eq]
  split
  · rfl
  · split <;> omega

/-- A whole piece, and then the same question for what is left. -/
theorem accepted_add {size larger off left piece : Nat} (isPiece : piece = min left maxWrite)
    (inside : off ≤ size) (fits : off + piece ≤ maxfile * bsize) (grown : off + piece ≤ larger) :
    piece + accepted larger (off + piece) (left - piece) = accepted size off left := by
  rw [maxfile_mul_bsize] at fits
  rw [maxWrite_eq] at isPiece
  rw [accepted, accepted, if_neg (Nat.not_lt.mpr grown), if_neg (Nat.not_lt.mpr inside),
    maxfile_mul_bsize, maxWrite_eq]
  by_cases all : off + left ≤ 71680
  · rw [if_pos (by omega), if_pos all]
    omega
  · rw [if_neg (by omega), if_neg all]
    omega

/-- All, exactly if the offset is in the file or at its end and the largest size is not passed. -/
theorem accepted_eq_iff {size off left : Nat} (small : size ≤ maxfile * bsize) :
    accepted size off left = left ↔ left = 0 ∨ off ≤ size ∧ off + left ≤ maxfile * bsize := by
  rw [maxfile_mul_bsize] at small ⊢
  rw [accepted, maxfile_mul_bsize, maxWrite_eq]
  split
  · omega
  · split <;> omega

section Pieces

variable {geometry : Geometry} {fs : Fs}

/-- What an operation of `filewrite` leaves: its piece was refused or written as a whole, and it
logged seven blocks at most. -/
structure Piece (geometry : Geometry) (i : Nat) (src : Nat → Byte) (off : BitVec 32) (n : Nat)
    (fs after : Fs) (logged : List Nat) (result : Option (BitVec 32)) : Prop where
  sound : Sound geometry after
  idle : after.Idle
  types : ∀ j, (after.inodes j).type = (fs.inodes j).type
  few : logged.length ≤ 7
  outcome : result = none ∧ after.contents = fs.contents ∧
      ¬ (off.toNat ≤ fs.size i ∧ off.toNat + n ≤ maxfile * bsize) ∨
    result = some (BitVec.ofNat 32 n) ∧
      after.contents = Function.update fs.contents i
        (overwrite (fs.contents i) off.toNat ((List.range n).map src)) ∧
      off.toNat ≤ fs.size i ∧ off.toNat + n ≤ maxfile * bsize

/-- A piece touches four blocks at most. -/
theorem rangeBlocks_le {n : Nat} (few : n ≤ maxWrite) (off : Nat) : rangeBlocks off n ≤ 4 := by
  rw [maxWrite_eq] at few
  simp only [rangeBlocks, bsize]
  omega

/-- A bitmap for so few blocks is one block. -/
theorem bitmapBlocks_le (oneBitmap : geometry.size ≤ bpb) : geometry.bitmapBlocks ≤ 1 := by
  simp only [Superblock.bitmapBlocks, bpb, bsize] at *
  omega

/-- An operation of `filewrite` panics only for want of blocks: with a bitmap of one block, it
logs four blocks with bytes, the indirect block, the bitmap and the block of the inode at most. -/
theorem Sound.piece (sound : Sound geometry fs) (idle : fs.Idle) (oneBitmap : geometry.size ≤ bpb)
    (roomy : 8 < geometry.logRoom) (devsw : Nat → Driver) {i n : Nat}
    (isInode : i < geometry.ninodes) (notDevice : (fs.inodes i).type ≠ tDev) (src : Nat → Byte)
    (off : BitVec 32) (few : n ≤ maxWrite) :
    Ensures (· = outOfBlocks)
      (fun outcome => Piece geometry i src off n fs
        (fs.beginOp.put i outcome.1 outcome.2.1).endOp outcome.1.logged outcome.2.2)
      (Inodes.writei geometry.toSuperblock devsw fs.beginOp.volume i (fs.beginOp.inodes i) src off
        (BitVec.ofNat 32 n)) := by
  have oneBlock := bitmapBlocks_le oneBitmap
  have fourBlocks := rangeBlocks_le few off.toNat
  have count : (BitVec.ofNat 32 n).toNat = n :=
    toNat_ofNat_of_lt (by rw [maxWrite_eq] at few; omega)
  have written := sound.beginOp.writei devsw isInode src off (BitVec.ofNat 32 n)
  rw [count] at written
  refine written.mono (fun message stuck => ?_) ?_
  · obtain ⟨isFull, -⟩ | ⟨-, little⟩ := stuck.of_idle idle
    · exact isFull
    · omega
  rintro ⟨volume, ip, result⟩ written
  have logs := written.logs
  rw [count] at logs
  refine ⟨written.sound.endOp, idle.endOp written.logs.outstanding, written.types,
    (logs.length_le idle.logged).trans (by omega), ?_⟩
  have small := sound.small i
  have limit := maxfile_mul_bsize
  have isSpec := written.spec notDevice
  rw [Op.spec, contents_length, count] at isSpec
  split at isSpec
  · rename_i refused
    obtain ⟨contents, isResult⟩ := Prod.mk.inj isSpec
    refine Or.inl ⟨(Reply.count.inj isResult).symm, contents.symm, fun both => ?_⟩
    exact refused.elim (Nat.not_lt.mpr both.1) (by omega)
  · rename_i notRefused
    obtain ⟨contents, isResult⟩ := Prod.mk.inj isSpec
    exact Or.inr ⟨(Reply.count.inj isResult).symm, contents.symm,
      Nat.not_lt.mp (fun beyond => notRefused (Or.inl beyond)), by omega⟩

/-- What the loop of `filewrite` has done when it stops, from a state with `i` bytes written. -/
structure Filled (geometry : Geometry) (src : Nat → Byte) (n : Nat) (fs : Fs) (f : OpenFile)
    (i : Nat) (after : Fs) (g : OpenFile) (done : Nat) : Prop where
  sound : Sound geometry after
  idle : after.Idle
  types : ∀ j, (after.inodes j).type = (fs.inodes j).type
  file : g = { f with off := g.off }
  bounds : i + done ≤ n
  off : g.off.toNat = f.off.toNat + done
  contents : after.contents = Function.update fs.contents f.ip
    (overwrite (fs.contents f.ip) f.off.toNat ((List.range done).map (fun k => src (i + k))))
  amount : done = accepted (fs.size f.ip) f.off.toNat (n - i)

variable {src : Nat → Byte} {n i : Nat} {f : OpenFile}

/-- Nothing is written when nothing is left, or `writei` refuses. -/
theorem Filled.nothing {after : Fs} (sound : Sound geometry after) (idle : after.Idle)
    (types : ∀ j, (after.inodes j).type = (fs.inodes j).type)
    (same : after.contents = fs.contents) (bound : i ≤ n)
    (refused : ¬ (f.off.toNat ≤ fs.size f.ip ∧
      f.off.toNat + min (n - i) maxWrite ≤ maxfile * bsize) ∨ n - i = 0) :
    Filled geometry src n fs f i after f 0 where
  sound := sound
  idle := idle
  types := types
  file := rfl
  bounds := bound
  off := rfl
  contents := by rw [same, List.range_zero, List.map_nil, overwrite_nil, Function.update_eq_self]
  amount := (accepted_eq_zero refused).symm

/-- A piece, and what is written behind it. -/
theorem Filled.behind {mid after : Fs} {next : BitVec 32} {g : OpenFile} {piece done : Nat}
    (types : ∀ j, (mid.inodes j).type = (fs.inodes j).type)
    (off : next.toNat = f.off.toNat + piece)
    (contents : mid.contents = Function.update fs.contents f.ip
      (overwrite (fs.contents f.ip) f.off.toNat ((List.range piece).map (fun k => src (i + k)))))
    (inside : f.off.toNat ≤ fs.size f.ip) (fits : f.off.toNat + piece ≤ maxfile * bsize)
    (isPiece : piece = min (n - i) maxWrite)
    (rest : Filled geometry src n mid { f with off := next } (i + piece) after g done) :
    Filled geometry src n fs f i after g (piece + done) where
  sound := rest.sound
  idle := rest.idle
  types j := (rest.types j).trans (types j)
  file := rest.file
  bounds := by rw [← Nat.add_assoc]; exact rest.bounds
  off := by rw [rest.off, off, Nat.add_assoc]
  contents := by
    have length : ((List.range piece).map (fun k => src (i + k))).length = piece := by
      rw [List.length_map, List.length_range]
    have within : f.off.toNat ≤ (fs.contents f.ip).length := by rwa [contents_length]
    have joined := overwrite_overwrite (fs.contents f.ip)
      ((List.range piece).map (fun k => src (i + k)))
      ((List.range done).map (fun k => src (i + piece + k))) within
    rw [length] at joined
    rw [rest.contents, off, contents, Function.update_self, Function.update_idem, joined,
      map_range_add]
    simp only [Nat.add_assoc]
  amount := by
    have within : f.off.toNat ≤ (fs.contents f.ip).length := by rwa [contents_length]
    have longer := length_overwrite (fs.contents f.ip)
      ((List.range piece).map (fun k => src (i + k))) within
    rw [List.length_map, List.length_range] at longer
    have size : f.off.toNat + piece ≤ mid.size f.ip := by
      rw [← contents_length, contents, Function.update_self, longer]
      exact Nat.le_max_right ..
    rw [rest.amount, off, ← Nat.sub_sub]
    exact accepted_add isPiece inside fits size

variable (src) in
/-- The loop of `filewrite` panics for want of blocks, or writes pieces until one is refused. -/
theorem filewriteLoop_ensures (rounds : Nat) (sound : Sound geometry fs) (idle : fs.Idle)
    (oneBitmap : geometry.size ≤ bpb) (roomy : 8 < geometry.logRoom) (devsw : Nat → Driver)
    (isInode : f.ip < geometry.ninodes) (notDevice : (fs.inodes f.ip).type ≠ tDev) (bound : i ≤ n)
    (enough : n - i ≤ rounds) :
    Ensures (· = outOfBlocks)
      (fun outcome => ∃ done, outcome.2.2.1 = i + done ∧
        Filled geometry src n fs f i outcome.1 outcome.2.1 done ∧
        ∀ operation ∈ outcome.2.2.2, operation.length ≤ 7)
      (filewriteLoop geometry.toSuperblock devsw src n rounds fs f i) := by
  -- on the rounds: each writes a piece of at least one byte, so `n` of them are enough
  induction rounds generalizing fs f i with
  | zero =>
    exact ensures_pure ⟨0, rfl,
      .nothing sound idle (fun _ => rfl) rfl bound (Or.inr (by omega)), by simp⟩
  | succ rounds inductionHypothesis =>
    rw [filewriteLoop]
    by_cases more : i < n
    · have positive : 0 < maxWrite := Nat.succ_pos 1535
      have few : min (n - i) maxWrite ≤ maxWrite := Nat.min_le_right ..
      rw [if_pos more]
      refine Ensures.bind (sound.piece idle oneBitmap roomy devsw isInode notDevice
        (fun k => src (i + k)) f.off few) ?_
      rintro ⟨volume, ip, result⟩ piece
      obtain ⟨rfl, same, refused⟩ | ⟨rfl, contents, inside, fits⟩ := piece.outcome
      · refine ensures_pure ⟨0, rfl, .nothing piece.sound piece.idle piece.types same bound
          (Or.inl refused), fun operation member => ?_⟩
        rw [List.mem_singleton.mp member]
        exact piece.few
      · have limit := maxfile_mul_bsize
        have count : (BitVec.ofNat 32 (min (n - i) maxWrite)).toNat = min (n - i) maxWrite :=
          toNat_ofNat_of_lt (by omega)
        have off : (f.off + BitVec.ofNat 32 (min (n - i) maxWrite)).toNat =
            f.off.toNat + min (n - i) maxWrite := toNat_add_ofNat (by omega)
        simp only [count, ne_eq, not_true, if_false]
        refine Ensures.bind (inductionHypothesis (i := i + min (n - i) maxWrite)
          (f := { f with off := f.off + BitVec.ofNat 32 (min (n - i) maxWrite) }) piece.sound
          piece.idle isInode (piece.types f.ip ▸ notDevice) (by omega) (by omega)) ?_
        rintro ⟨after, g, j, operations⟩ ⟨done, rfl, filled, bounded⟩
        refine ensures_pure ⟨min (n - i) maxWrite + done, Nat.add_assoc .., ?_,
          fun operation member => ?_⟩
        · exact filled.behind piece.types off contents inside fits rfl
        · obtain rfl | later := List.mem_cons.mp member
          · exact piece.few
          · exact bounded operation later
    · rw [if_neg more]
      exact ensures_pure ⟨0, rfl,
        .nothing sound idle (fun _ => rfl) rfl bound (Or.inr (by omega)), by simp⟩

end Pieces

/-! ## Calls -/

section Calls

variable {geometry : Geometry} {fs : Fs}

/-- `filewrite` on a file that is open for writing. -/
theorem Sound.filewrite (sound : Sound geometry fs) (idle : fs.Idle)
    (oneBitmap : geometry.size ≤ bpb) (roomy : 8 < geometry.logRoom) (devsw : Nat → Driver)
    {f : OpenFile} (isOpen : f.writable = true) (isInode : f.ip < geometry.ninodes)
    (notDevice : (fs.inodes f.ip).type ≠ tDev) (src : Nat → Byte) (n : Nat) :
    Ensures (· = outOfBlocks)
      (fun outcome => ∃ done, outcome.2.2.1 = (if done = n then some n else none) ∧
        Filled geometry src n fs f 0 outcome.1 outcome.2.1 done ∧
        ∀ operation ∈ outcome.2.2.2, operation.length ≤ 7)
      (Inodes.filewrite geometry.toSuperblock devsw fs f src n) := by
  rw [Inodes.filewrite, if_neg (by simp [isOpen])]
  refine Ensures.bind (filewriteLoop_ensures src n sound idle oneBitmap roomy devsw isInode notDevice
    (Nat.zero_le n) (Nat.le_refl n)) ?_
  rintro ⟨after, g, j, operations⟩ ⟨done, rfl, filled, bounded⟩
  rw [Nat.zero_add]
  exact ensures_pure ⟨done, rfl, filled, bounded⟩

/-- `fileread` returns what is behind the offset, and moves the offset behind it. -/
theorem Sound.fileread (sound : Sound geometry fs) (devsw : Nat → Driver) {f : OpenFile}
    (isOpen : f.readable = true) (notDevice : (fs.inodes f.ip).type ≠ tDev) {n : Nat}
    (isInt : n < 2 ^ 31) :
    ∃ off, Inodes.fileread geometry.toSuperblock devsw fs f n =
        .ok (fs, { f with off := off }, if fs.size f.ip < f.off.toNat then none
          else some (((fs.contents f.ip).drop f.off.toNat).take n)) ∧
      off.toNat = if fs.size f.ip < f.off.toNat then f.off.toNat
        else f.off.toNat + (((fs.contents f.ip).drop f.off.toNat).take n).length := by
  have small := sound.small f.ip
  have limit := maxfile_mul_bsize
  have count : (BitVec.ofNat 32 n).toNat = n := toNat_ofNat_of_lt (by omega)
  have read := sound.readi devsw notDevice f.off (BitVec.ofNat 32 n)
  rw [contents_length, count] at read
  rw [Inodes.fileread, if_neg (by simp [isOpen]), read, pure_bind]
  by_cases beyond : fs.size f.ip < f.off.toNat
  · rw [if_pos (Or.inl beyond), if_pos beyond, if_pos beyond]
    exact ⟨f.off, by simp only [put_self]; rfl, rfl⟩
  · rw [if_neg (by omega), if_neg beyond, if_neg beyond]
    refine ⟨f.off + BitVec.ofNat 32 (((fs.contents f.ip).drop f.off.toNat).take n).length,
      by simp only [put_self]; rfl, ?_⟩
    have short : (((fs.contents f.ip).drop f.off.toNat).take n).length ≤
        fs.size f.ip - f.off.toNat := by
      rw [List.length_take, List.length_drop, contents_length]
      exact Nat.min_le_right ..
    exact toNat_add_ofNat (by omega)

end Calls

/-- On a file that is open for writing and not a device, `filewrite` panics for want of blocks,
or writes the bytes at the offset and moves the offset behind them. All are written exactly if
the offset is in the file or at its end and the largest size is not passed; otherwise some number
of them is, and the call fails. No operation logs more than seven blocks. -/
theorem filewrite_is_one_write (geometry : Geometry) (oneBitmap : geometry.size ≤ bpb)
    (roomy : 8 < geometry.logRoom) (devsw : Nat → Driver) (fs : Fs) (sound : Sound geometry fs)
    (idle : fs.Idle) (f : OpenFile) (isOpen : f.writable = true)
    (isInode : f.ip < geometry.ninodes) (notDevice : (fs.inodes f.ip).type ≠ tDev)
    (src : Nat → Byte) (n : Nat) :
    filewrite geometry.toSuperblock devsw fs f src n = .error "balloc: out of blocks" ∨
      ∃ after g done operations, filewrite geometry.toSuperblock devsw fs f src n =
          .ok (after, g, if done = n then some n else none, operations) ∧
        done ≤ n ∧ g = { f with off := g.off } ∧ g.off.toNat = f.off.toNat + done ∧
        after.contents = Function.update fs.contents f.ip
          (overwrite (fs.contents f.ip) f.off.toNat ((List.range done).map src)) ∧
        (done = n ↔ n = 0 ∨ f.off.toNat ≤ fs.size f.ip ∧ f.off.toNat + n ≤ maxfile * bsize) ∧
        ∀ operation ∈ operations, operation.length ≤ 7 := by
  obtain ⟨_, full, rfl⟩ | ⟨⟨after, g, result, operations⟩, ran, done, rfl, filled, bounded⟩ :=
    (sound.filewrite idle oneBitmap roomy devsw isOpen isInode notDevice src n).cases
  · exact Or.inl full
  · have bounds := filled.bounds
    have contents := filled.contents
    have amount := filled.amount
    simp only [Nat.zero_add, Nat.sub_zero] at bounds contents amount
    refine Or.inr ⟨after, g, done, operations, ran, bounds, filled.file, filled.off, contents,
      ?_, bounded⟩
    rw [amount]
    exact accepted_eq_iff (sound.small f.ip)

/-- A file that is open for reading and writing, at its start. -/
def fileTwo : OpenFile := ⟨true, true, 2, 0⟩

/-- Two pieces are written to a new file. -/
theorem filewrite_is_one_write_blank :
    ∃ after g operations, filewrite mkfsGeometry.toSuperblock noDrivers (blank mkfsGeometry) fileTwo
        (fun k => BitVec.ofNat 8 k) 2000 = .ok (after, g, some 2000, operations) ∧
      after.contents = Function.update (blank mkfsGeometry).contents 2
        ((List.range 2000).map (fun k => BitVec.ofNat 8 k)) ∧
      ∀ operation ∈ operations, operation.length ≤ 7 := by
  have succeeds : (filewrite mkfsGeometry.toSuperblock noDrivers (blank mkfsGeometry) fileTwo
      (fun k => BitVec.ofNat 8 k) 2000).isOk = true := by
    decide +kernel
  obtain full | ⟨after, g, done, operations, ran, -, -, -, contents, complete, bounded⟩ :=
    filewrite_is_one_write mkfsGeometry (by decide) (by decide) noDrivers _
      (sound_blank mkfsGeometry) (idle_blank mkfsGeometry) fileTwo rfl (by decide) (by decide)
      (fun k => BitVec.ofNat 8 k) 2000
  · rw [full] at succeeds
    exact absurd succeeds Bool.false_ne_true
  · obtain rfl := complete.mpr (Or.inr ⟨Nat.zero_le _, by decide⟩)
    have isEmpty : (blank mkfsGeometry).contents 2 = [] := rfl
    refine ⟨after, g, operations, ran, ?_, bounded⟩
    rw [contents]
    simp only [fileTwo, isEmpty, overwrite, List.take_nil, List.drop_nil, List.nil_append,
      List.append_nil]

/-! ## Calls one after the other -/

/-- The file system and the open files, each with its number. Several may be for one inode. -/
structure Session where
  fs : Fs
  files : Nat → OpenFile

/-- A call on an open file. -/
inductive Call where
  | read (f n : Nat)
  | write (f : Nat) (src : Nat → Byte) (n : Nat)

/-- What it returns. -/
inductive Answer where
  | bytes (result : Option (List Byte))
  | count (result : Option Nat)
  deriving DecidableEq

/-- One call. -/
def Session.call (sb : Superblock) (devsw : Nat → Driver) (session : Session) :
    Call → Except String (Session × Answer)
  | .read f n => do
    let (fs, file, result) ← fileread sb devsw session.fs (session.files f) n
    return (⟨fs, Function.update session.files f file⟩, .bytes result)
  | .write f src n => do
    let (fs, file, result, _) ← filewrite sb devsw session.fs (session.files f) src n
    return (⟨fs, Function.update session.files f file⟩, .count result)

/-- What a session is for: lists of bytes, and open files that each have a place in one. -/
structure Files where
  contents : Nat → List Byte
  readable : Nat → Bool
  writable : Nat → Bool
  ip : Nat → Nat
  off : Nat → Nat

/-- The lists and the places of a session. -/
def Session.view (session : Session) : Files where
  contents := session.fs.contents
  readable f := (session.files f).readable
  writable f := (session.files f).writable
  ip f := (session.files f).ip
  off f := (session.files f).off.toNat

/-- What a call does to lists with places. -/
def Call.spec (files : Files) : Call → Files × Answer
  | .read f n =>
    let content := files.contents (files.ip f)
    if files.readable f = false ∨ content.length < files.off f then (files, .bytes none)
    else
      let bytes := (content.drop (files.off f)).take n
      ({ files with off := Function.update files.off f (files.off f + bytes.length) },
        .bytes (some bytes))
  | .write f src n =>
    let content := files.contents (files.ip f)
    let done := accepted content.length (files.off f) n
    if files.writable f = false then (files, .count none)
    else
      ({ files with
          contents := Function.update files.contents (files.ip f)
            (overwrite content (files.off f) ((List.range done).map src))
          off := Function.update files.off f (files.off f + done) },
        .count (if done = n then some n else none))

/-- The count of a call is an `int`. -/
def Call.isInt : Call → Prop
  | .read _ n => n < 2 ^ 31
  | .write _ _ n => n < 2 ^ 31

/-- Calls one after the other, up to the first panic. -/
def Session.run (sb : Superblock) (devsw : Nat → Driver) (session : Session) :
    List Call → Except String (Session × List Answer)
  | [] => return (session, [])
  | call :: rest => do
    let (session, answer) ← session.call sb devsw call
    let (session, answers) ← session.run sb devsw rest
    return (session, answer :: answers)

/-- The same calls on lists with places. -/
def Files.run (files : Files) : List Call → Files × List Answer
  | [] => (files, [])
  | call :: rest =>
    let (files, answer) := call.spec files
    let (files, answers) := files.run rest
    (files, answer :: answers)

section Sessions

variable {geometry : Geometry} {session : Session}

/-- The view after a call that moved one offset. -/
theorem view_update (fs : Fs) (f : Nat) (off : BitVec 32) :
    Session.view ⟨fs, Function.update session.files f { session.files f with off := off }⟩ =
      { session.view with
        contents := fs.contents
        off := Function.update session.view.off f off.toNat } := by
  have field : ∀ {α : Type} (get : OpenFile → α)
      (_ : get { session.files f with off := off } = get (session.files f)),
      (fun g => get (Function.update session.files f { session.files f with off := off } g)) =
        fun g => get (session.files g) := by
    intro α get same
    funext g
    by_cases here : g = f
    · rw [here, Function.update_self, same]
    · rw [Function.update_of_ne here]
  simp only [Session.view, Files.mk.injEq, true_and]
  refine ⟨field OpenFile.readable rfl, field OpenFile.writable rfl, field OpenFile.ip rfl, ?_⟩
  funext g
  by_cases here : g = f
  · rw [here, Function.update_self, Function.update_self]
  · rw [Function.update_of_ne here, Function.update_of_ne here]

/-- What a call leaves and returns. -/
structure Called (geometry : Geometry) (session : Session) (call : Call) (after : Session)
    (answer : Answer) : Prop where
  sound : Sound geometry after.fs
  idle : after.fs.Idle
  types : ∀ j, (after.fs.inodes j).type = (session.fs.inodes j).type
  ip : after.view.ip = session.view.ip
  spec : call.spec session.view = (after.view, answer)

/-- A call that changes nothing. -/
theorem Called.nothing (sound : Sound geometry session.fs) (idle : session.fs.Idle) {call : Call}
    {f : Nat} {answer : Answer} (spec : call.spec session.view = (session.view, answer)) :
    Called geometry session call
      ⟨session.fs, Function.update session.files f (session.files f)⟩ answer := by
  rw [Function.update_eq_self]
  exact ⟨sound, idle, fun _ => rfl, rfl, spec⟩

/-- `fileread` gives the answer of the lists. -/
theorem Sound.call_read (sound : Sound geometry session.fs) (idle : session.fs.Idle)
    (devsw : Nat → Driver) {f n : Nat}
    (notDevice : (session.fs.inodes (session.view.ip f)).type ≠ tDev) (isInt : n < 2 ^ 31) :
    Ensures (· = outOfBlocks)
      (fun outcome => Called geometry session (.read f n) outcome.1 outcome.2)
      (session.call geometry.toSuperblock devsw (.read f n)) := by
  rw [Session.call]
  cases isOpen : (session.files f).readable with
  | false =>
    rw [Inodes.fileread, if_pos isOpen, pure_bind]
    exact ensures_pure (.nothing sound idle (if_pos (Or.inl isOpen)))
  | true =>
    obtain ⟨off, ran, isOff⟩ := sound.fileread devsw isOpen notDevice isInt
    have length : (session.view.contents (session.view.ip f)).length =
      session.fs.size (session.files f).ip := contents_length ..
    have isReadable : session.view.readable f = true := isOpen
    rw [ran]
    refine ensures_pure ⟨sound, idle, fun _ => rfl, by rw [view_update], ?_⟩
    rw [view_update, isOff]
    by_cases beyond : session.fs.size (session.files f).ip < (session.files f).off.toNat
    · have same := Function.update_eq_self f session.view.off
      rw [if_pos beyond, if_pos beyond]
      simp only [Call.spec, length]
      rw [if_pos (Or.inr (show _ < session.view.off f from beyond))]
      exact congrArg (fun off => ({ session.view with off := off }, _)) same.symm
    · rw [if_neg beyond, if_neg beyond]
      simp only [Call.spec, length, isReadable]
      rw [if_neg (fun either => either.elim Bool.noConfusion beyond)]
      rfl

/-- `filewrite` gives the answer of the lists, unless it panics for want of blocks. -/
theorem Sound.call_write (sound : Sound geometry session.fs) (idle : session.fs.Idle)
    (oneBitmap : geometry.size ≤ bpb) (roomy : 8 < geometry.logRoom) (devsw : Nat → Driver)
    {f : Nat} (isInode : session.view.ip f < geometry.ninodes)
    (notDevice : (session.fs.inodes (session.view.ip f)).type ≠ tDev) (src : Nat → Byte) (n : Nat) :
    Ensures (· = outOfBlocks)
      (fun outcome => Called geometry session (.write f src n) outcome.1 outcome.2)
      (session.call geometry.toSuperblock devsw (.write f src n)) := by
  rw [Session.call]
  cases isOpen : (session.files f).writable with
  | false =>
    rw [Inodes.filewrite, if_pos isOpen, pure_bind]
    exact ensures_pure (.nothing sound idle (if_pos isOpen))
  | true =>
    refine Ensures.bind
      (sound.filewrite idle oneBitmap roomy devsw isOpen isInode notDevice src n) ?_
    rintro ⟨after, file, result, operations⟩ ⟨done, rfl, filled, -⟩
    have contents := filled.contents
    have amount := filled.amount
    have off := filled.off
    have length : (session.view.contents (session.view.ip f)).length =
      session.fs.size (session.files f).ip := contents_length ..
    have isWritable : session.view.writable f = true := isOpen
    obtain ⟨next, rfl⟩ : ∃ next, file = { session.files f with off := next } := ⟨_, filled.file⟩
    refine ensures_pure ⟨filled.sound, filled.idle, filled.types, by rw [view_update], ?_⟩
    simp only [Nat.sub_zero, Nat.zero_add] at contents amount
    rw [view_update, off, contents, amount]
    simp only [Call.spec, length, isWritable]
    rfl

/-- A call before others. -/
theorem Session.run_cons (sb : Superblock) (devsw : Nat → Driver) {call : Call} {mid : Session}
    {answer : Answer} (called : session.call sb devsw call = .ok (mid, answer)) (rest : List Call) :
    session.run sb devsw (call :: rest) =
      (mid.run sb devsw rest >>= fun outcome => pure (outcome.1, answer :: outcome.2)) := by
  rw [Session.run, called]
  rfl

end Sessions

/-- Calls of `fileread` and `filewrite` one after the other, through any open files for inodes
other than devices, give the answers that lists of bytes with offsets give, and the files and
offsets are those in the end, unless `balloc` panics. A file that is not open for reading is not
read, and one that is not open for writing is not written. -/
theorem calls_are_calls_on_lists (geometry : Geometry) (oneBitmap : geometry.size ≤ bpb)
    (roomy : 8 < geometry.logRoom) (devsw : Nat → Driver) (session : Session)
    (sound : Sound geometry session.fs) (idle : session.fs.Idle)
    (inodes : ∀ f, session.view.ip f < geometry.ninodes)
    (noDevices : ∀ f, (session.fs.inodes (session.view.ip f)).type ≠ tDev) (calls : List Call)
    (isInt : ∀ call ∈ calls, call.isInt) :
    session.run geometry.toSuperblock devsw calls = .error "balloc: out of blocks" ∨
      ∃ after answers, session.run geometry.toSuperblock devsw calls = .ok (after, answers) ∧
        session.view.run calls = (after.view, answers) := by
  induction calls generalizing session with
  | nil => exact Or.inr ⟨session, [], rfl, rfl⟩
  | cons call rest inductionHypothesis =>
    have one : Ensures (· = outOfBlocks)
        (fun outcome => Called geometry session call outcome.1 outcome.2)
        (session.call geometry.toSuperblock devsw call) := by
      cases call with
      | read f n => exact sound.call_read idle devsw (noDevices f) (isInt _ List.mem_cons_self)
      | write f src n =>
        exact sound.call_write idle oneBitmap roomy devsw (inodes f) (noDevices f) src n
    obtain ⟨_, full, rfl⟩ | ⟨⟨mid, answer⟩, called, step⟩ := one.cases
    · exact Or.inl (by rw [Session.run, full]; rfl)
    · rw [Session.run_cons _ _ called, Files.run, step.spec]
      obtain panics | ⟨after, answers, ran, isRun⟩ := inductionHypothesis mid step.sound step.idle
        (by rwa [step.ip]) (fun f => by rw [step.types, step.ip]; exact noDevices f)
        (fun other member => isInt other (List.mem_cons_of_mem _ member))
      · exact Or.inl (by rw [panics]; rfl)
      · exact Or.inr ⟨after, answer :: answers, by rw [ran]; rfl, by simp only [isRun]⟩

/-- What is written through one open file is read through another for the same inode, and not
written through one that is open for reading only. -/
def writeThenRead : List Call :=
  [.write 0 (fun k => BitVec.ofNat 8 k) 3, .write 1 (fun _ => 9) 1, .read 1 2, .read 1 2, .read 0 5]

/-- A new file system, and two open files for one inode. -/
def twoFiles : Session :=
  ⟨blank mkfsGeometry, fun f => if f = 0 then fileTwo else { fileTwo with writable := false }⟩

/-- The calls on a new file system. -/
theorem calls_are_calls_on_lists_blank :
    ∃ after answers, twoFiles.run mkfsGeometry.toSuperblock noDrivers writeThenRead =
        .ok (after, answers) ∧
      twoFiles.view.run writeThenRead = (after.view, answers) ∧
      answers = [.count (some 3), .count none, .bytes (some [0, 1]), .bytes (some [2]),
        .bytes (some [])] := by
  have answered : (twoFiles.run mkfsGeometry.toSuperblock noDrivers writeThenRead).toOption.map
      Prod.snd = some [.count (some 3), .count none, .bytes (some [0, 1]), .bytes (some [2]),
        .bytes (some [])] := by
    decide +kernel
  have isInt : ∀ call ∈ writeThenRead, call.isInt := by
    simp [writeThenRead, Call.isInt]
  have isTwo : ∀ f, twoFiles.view.ip f = 2 := by
    intro f
    simp only [Session.view, twoFiles]
    split <;> rfl
  obtain panics | ⟨after, answers, ran, isRun⟩ := calls_are_calls_on_lists mkfsGeometry (by decide)
    (by decide) noDrivers twoFiles (sound_blank mkfsGeometry) (idle_blank mkfsGeometry)
    (fun f => by rw [isTwo]; decide) (fun f => by rw [isTwo]; decide) writeThenRead isInt
  · rw [panics] at answered
    exact absurd answered (by simp [Except.toOption])
  · rw [ran] at answered
    exact ⟨after, answers, ran, isRun, Option.some.inj answered⟩

end OsLabwork.Kernel.Inodes
