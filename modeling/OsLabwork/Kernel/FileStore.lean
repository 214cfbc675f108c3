import OsLabwork.Kernel.Truncation
import OsLabwork.Library.Overwriting

/-!
# Files as lists of bytes

What `readi`, `writei` and `itrunc` are for: every file is a list of bytes, which can be read in
parts, overwritten and extended in parts, and emptied. Each returns what it would return on the
lists, unless it panics. No operation frees a block that is free, or reaches beyond the indirect
block.

Between operations the blocks of a file are those that its size needs, each block in use
belongs to one file, and every inode on the disk is the same as in memory. A device has no
contents, and its driver leaves all this alone.
-/

namespace OsLabwork.Kernel.Inodes

open Logging Outcomes Overwriting WordMemory

/-- The size of a file. -/
def Fs.size (fs : Fs) (i : Nat) : Nat := (fs.inodes i).size.toNat

/-- The contents of a file. -/
def Fs.contents (fs : Fs) (i : Nat) : List Byte := (List.range (fs.size i)).map (fs.byte i)

/-- The contents are as long as the size. -/
@[simp] theorem contents_length (fs : Fs) (i : Nat) : (fs.contents i).length = fs.size i := by
  rw [Fs.contents, List.length_map, List.length_range]

/-- What holds between operations. -/
structure Sound (geometry : Geometry) (fs : Fs) : Prop where
  owned : Owned geometry fs
  dense : ∀ i bn, bn * bsize < fs.size i → fs.slot i (dataSlot bn) ≠ 0
  tight : ∀ i bn, fs.slot i (dataSlot bn) ≠ 0 ∨ bn = ndirect ∧ fs.slot i ndirect ≠ 0 →
    bn * bsize < fs.size i
  small : ∀ i, fs.size i ≤ maxfile * bsize
  stored : ∀ i, i < geometry.ninodes →
    (readInode geometry.toSuperblock fs.volume i).Same (fs.inodes i)

/-! ## The operations, and what they are for -/

/-- What is done to files. -/
inductive Op where
  | read (i : Nat) (off n : BitVec 32)
  | write (i : Nat) (src : Nat → Byte) (off n : BitVec 32)
  | trunc (i : Nat)

/-- What it returns. -/
inductive Reply where
  | bytes (result : Option (List Byte))
  | count (result : Option (BitVec 32))
  | done
  deriving DecidableEq

/-- The file that an operation is about. -/
def Op.file : Op → Nat
  | .read i _ _ => i
  | .write i _ _ _ => i
  | .trunc i => i

/-- What an operation does to lists of bytes. -/
def Op.spec (contents : Nat → List Byte) : Op → (Nat → List Byte) × Reply
  | .read i off n =>
    if (contents i).length < off.toNat ∨ 2 ^ 32 ≤ off.toNat + n.toNat then (contents, .bytes none)
    else (contents, .bytes (some (((contents i).drop off.toNat).take n.toNat)))
  | .write i src off n =>
    if (contents i).length < off.toNat ∨ 2 ^ 32 ≤ off.toNat + n.toNat ∨
        maxfile * bsize < off.toNat + n.toNat then (contents, .count none)
    else (Function.update contents i
      (overwrite (contents i) off.toNat ((List.range n.toNat).map src)), .count (some n))
  | .trunc i => (Function.update contents i [], .done)

/-! ## Reading -/

/-- The check of `readi` and `writei` for a sum that is too large. -/
theorem overflows_iff (off n : BitVec 32) : off + n < off ↔ 2 ^ 32 ≤ off.toNat + n.toNat := by
  rw [BitVec.lt_def, BitVec.toNat_add]
  have := off.isLt
  have := n.isLt
  omega

/-- Their whole check on the arguments. -/
theorem refused_iff (fs : Fs) (i : Nat) (off n : BitVec 32) :
    (fs.inodes i).size < off ∨ off + n < off ↔
      fs.size i < off.toNat ∨ 2 ^ 32 ≤ off.toNat + n.toNat := by
  rw [overflows_iff, BitVec.lt_def, Fs.size]

/-- Where it passes, the sum is the sum. -/
theorem toNat_add_of_fits {off n : BitVec 32} (fits : ¬ 2 ^ 32 ≤ off.toNat + n.toNat) :
    (off + n).toNat = off.toNat + n.toNat := by
  rw [BitVec.toNat_add]
  omega

section Operations

variable {geometry : Geometry} {fs : Fs}

/-- Every byte of the contents is in a block. -/
theorem Sound.present (sound : Sound geometry fs) {i k : Nat} (inside : k < fs.size i) :
    fs.slot i (dataSlot (k / bsize)) ≠ 0 := by
  refine sound.dense i (k / bsize) ?_
  have := Nat.div_mul_le_self k bsize
  omega

/-- `readi` returns a part of the contents, and changes nothing. -/
theorem Sound.readi (sound : Sound geometry fs) (devsw : Nat → Driver) {i : Nat}
    (notDevice : (fs.inodes i).type ≠ tDev) (off n : BitVec 32) :
    Inodes.readi geometry.toSuperblock devsw fs.volume (fs.inodes i) off n =
      pure (fs.volume, fs.inodes i,
        if (fs.contents i).length < off.toNat ∨ 2 ^ 32 ≤ off.toNat + n.toNat then none
        else some (((fs.contents i).drop off.toNat).take n.toNat)) := by
  have small := sound.small i
  rw [contents_length]
  by_cases refused : fs.size i < off.toNat ∨ 2 ^ 32 ≤ off.toNat + n.toNat
  · rw [Inodes.readi, if_neg notDevice, if_pos ((refused_iff fs i off n).mpr refused),
      if_pos refused]
  · have fits : ¬ 2 ^ 32 ≤ off.toNat + n.toNat := fun overflow => refused (Or.inr overflow)
    have inside : off.toNat ≤ fs.size i := Nat.not_lt.mp (fun beyond => refused (Or.inl beyond))
    have clipped : (if (fs.inodes i).size < off + n then (fs.inodes i).size - off else n).toNat =
        min n.toNat (fs.size i - off.toNat) := by
      have isSize : (fs.inodes i).size.toNat = fs.size i := rfl
      split
      · rename_i beyond
        rw [BitVec.lt_def, toNat_add_of_fits fits] at beyond
        rw [BitVec.toNat_sub_of_le (by rw [BitVec.le_def]; omega)]
        omega
      · rename_i within
        rw [BitVec.lt_def, toNat_add_of_fits fits] at within
        omega
    rw [Inodes.readi, if_neg notDevice, if_neg (fun bad => refused ((refused_iff fs i off n).mp bad)),
      if_neg refused]
    simp only [clipped]
    rw [readLoop_eq geometry.toSuperblock fs i _ _ _ (by omega) (Nat.le_refl _)
      (fun k _ upper => sound.present (by omega)), pure_bind]
    rw [Fs.contents, drop_map_range, take_map_range]

/-! ## Writing -/

section Stored

variable (owned : Owned geometry fs) {i : Nat} (isInode : i < geometry.ninodes) {ip : Inode}
  (addrs : ip.addrs = (fs.inodes i).addrs)

include owned isInode

/-- Storing an inode does not touch the blocks of files. -/
theorem Owned.storeInode_blocks {j t : Nat} (used : fs.slot j t ≠ 0) :
    (storeInode geometry.toSuperblock fs.volume i ip).blocks (fs.slot j t) =
      fs.volume.blocks (fs.slot j t) := by
  have inData := owned.inData j t used
  have bitmap := geometry.bitmapFits _ inData.2
  have start := bmapstart_le_bblock geometry.toSuperblock (fs.slot j t)
  have inode := geometry.inodesFit i isInode
  exact storeInode_blocks_of_ne _ _ _ _ (by omega)

omit owned in
/-- Nor the bitmap. -/
theorem inUse_storeInode (b : Nat) :
    (storeInode geometry.toSuperblock fs.volume i ip).inUse geometry.toSuperblock b =
      fs.volume.inUse geometry.toSuperblock b := by
  have start := bmapstart_le_bblock geometry.toSuperblock b
  have inode := geometry.inodesFit i isInode
  rw [Volume.inUse, storeInode_blocks_of_ne _ _ _ _ (by omega), Volume.inUse]

include addrs

/-- Storing an inode with the same addresses moves no block. -/
theorem slot_storeInode (j t : Nat) :
    (fs.put i (storeInode geometry.toSuperblock fs.volume i ip) ip).slot j t = fs.slot j t := by
  refine Fs.slot_congr (fun k _ _ => ?_) (fun used => owned.storeInode_blocks isInode used)
  by_cases isFile : j = i
  · simp [Fs.put, isFile, addrs]
  · simp [Fs.put, isFile]

/-- Blocks belong to files as before. -/
theorem Owned.storeInode :
    Owned geometry (fs.put i (storeInode geometry.toSuperblock fs.volume i ip) ip) :=
  owned.congr (slot_storeInode owned isInode addrs) (fun b _ => inUse_storeInode isInode b)

/-- Storing an inode changes no contents. -/
theorem byte_storeInode {j k : Nat} (used : fs.slot j (dataSlot (k / bsize)) ≠ 0) :
    (fs.put i (storeInode geometry.toSuperblock fs.volume i ip) ip).byte j k = fs.byte j k := by
  rw [Fs.byte, slot_storeInode owned isInode addrs]
  simp only [Fs.put]
  rw [owned.storeInode_blocks isInode used, Fs.byte]

end Stored

/-- Inodes that are the same as a third. -/
theorem Inode.Same.trans {first second third : Inode} (one : first.Same second)
    (two : second.Same third) : first.Same third where
  type := one.type.trans two.type
  major := one.major.trans two.major
  minor := one.minor.trans two.minor
  nlink := one.nlink.trans two.nlink
  size := one.size.trans two.size
  addrs k inArray := (one.addrs k inArray).trans (two.addrs k inArray)

/-- After storing an inode all inodes on the disk are as in memory, if the others were. -/
theorem stored_storeInode {i : Nat} {ip : Inode}
    (stored : ∀ j, j < geometry.ninodes → j ≠ i →
      (readInode geometry.toSuperblock fs.volume j).Same (fs.inodes j))
    (j : Nat) (isInode : j < geometry.ninodes) :
    (readInode geometry.toSuperblock
        (fs.put i (storeInode geometry.toSuperblock fs.volume i ip) ip).volume j).Same
      ((fs.put i (storeInode geometry.toSuperblock fs.volume i ip) ip).inodes j) := by
  by_cases isFile : j = i
  · subst isFile
    simp only [Fs.put, Function.update_self]
    exact readInode_storeInode_self ..
  · simp only [Fs.put, Function.update_of_ne isFile]
    exact (readInode_storeInode_of_ne _ _ _ _ isFile).trans (stored j isInode isFile)

/-- Inodes are read from blocks before the bitmap. -/
theorem readInode_congr {volume other : Volume}
    (low : ∀ c, c < geometry.bmapstart → other.blocks c = volume.blocks c) {j : Nat}
    (isInode : j < geometry.ninodes) :
    readInode geometry.toSuperblock other j = readInode geometry.toSuperblock volume j := by
  rw [readInode, readInode, low _ (geometry.inodesFit j isInode)]

section Extended

/-! What `writeLoop` leaves is complete once the size has been adjusted. -/

variable (sound : Sound geometry fs) {i off n : Nat} {src : Nat → Byte} {mid after : Fs}
  (wrote : Wrote geometry i off n src fs mid) (inside : off ≤ fs.size i)
  (slots : ∀ j t, after.slot j t = mid.slot j t)
  (sizes : ∀ j, after.size j = if j = i then max (fs.size i) (off + n) else fs.size j)

/-- A block of a range starts before its end. -/
theorem start_lt_of_touched {bn : Nat} (touched : Touched off n bn) :
    bn * bsize < off + n := by
  obtain ⟨k, -, upper, rfl⟩ := touched
  exact Nat.lt_of_le_of_lt (Nat.div_mul_le_self k bsize) upper

include sizes in
/-- No file gets shorter. -/
theorem size_le_of_extended (j : Nat) : fs.size j ≤ after.size j := by
  rw [sizes]
  split
  · rename_i isFile
    rw [isFile]
    exact Nat.le_max_left ..
  · exact Nat.le_refl _

include sound wrote inside slots sizes

/-- A file has the blocks that its new size needs. -/
theorem Sound.dense_of_wrote (j bn : Nat) (needed : bn * bsize < after.size j) :
    after.slot j (dataSlot bn) ≠ 0 := by
  rw [slots]
  by_cases old : bn * bsize < fs.size j
  · have used := sound.dense j bn old
    rwa [wrote.grown.kept j _ used]
  · rw [sizes] at needed
    split at needed
    · rename_i isFile
      subst isFile
      have here : bn * bsize / bsize = bn := Nat.mul_div_cancel bn (Nat.succ_pos 511)
      have fresh := (wrote.fresh (bn * bsize) (by omega) (by omega)).1
      rwa [here] at fresh
    · exact absurd needed old

omit inside in
/-- And no others. -/
theorem Sound.tight_of_wrote (j bn : Nat)
    (used : after.slot j (dataSlot bn) ≠ 0 ∨ bn = ndirect ∧ after.slot j ndirect ≠ 0) :
    bn * bsize < after.size j := by
  rw [slots, slots] at used
  have larger := size_le_of_extended sizes j
  obtain isData | ⟨isFirst, isIndirect⟩ := used
  · by_cases isNew : fs.slot j (dataSlot bn) = 0
    · obtain ⟨rfl, other, reached, isPlace | ⟨isPlace, -⟩⟩ := wrote.grown.added j _ isData isNew
      · obtain rfl := dataSlot_injective isPlace
        have := start_lt_of_touched reached
        rw [sizes, if_pos rfl]
        omega
      · exact absurd isPlace (dataSlot_ne bn)
    · exact Nat.lt_of_lt_of_le (sound.tight j bn (Or.inl isNew)) larger
  · by_cases isNew : fs.slot j ndirect = 0
    · obtain ⟨rfl, other, reached, isPlace | ⟨-, beyond⟩⟩ := wrote.grown.added j _ isIndirect isNew
      · exact absurd isPlace.symm (dataSlot_ne other)
      · have := start_lt_of_touched reached
        have := Nat.mul_le_mul_right bsize beyond
        rw [sizes, if_pos rfl, isFirst]
        omega
    · exact Nat.lt_of_lt_of_le (sound.tight j bn (Or.inr ⟨isFirst, isNew⟩)) larger

omit slots in
/-- The contents of the file have been overwritten, those of the others are what they were. -/
theorem Sound.contents_of_wrote
    (bytes : ∀ j k, mid.slot j (dataSlot (k / bsize)) ≠ 0 → after.byte j k = mid.byte j k) :
    after.contents = Function.update fs.contents i
      (overwrite (fs.contents i) off ((List.range n).map src)) := by
  have old : ∀ j k, k < fs.size j → ¬ (j = i ∧ off ≤ k ∧ k < off + n) →
      after.byte j k = fs.byte j k := by
    intro j k present untouched
    have used := sound.present present
    rw [bytes j k (by rwa [wrote.grown.kept j _ used]), wrote.kept j k used, if_neg untouched]
  funext j
  by_cases isFile : j = i
  · subst isFile
    rw [Function.update_self, Fs.contents, sizes, if_pos rfl]
    refine map_range_overwrite (fs.byte j) (after.byte j) src inside
      (fun k present outside => old j k present (by omega)) (fun k isNew => ?_)
    obtain ⟨used, isByte⟩ := wrote.fresh (off + k) (by omega) (by omega)
    rw [bytes j _ used, isByte, Nat.add_sub_cancel_left]
  · rw [Function.update_of_ne isFile, Fs.contents, Fs.contents, sizes, if_neg isFile]
    refine List.map_congr_left (fun k member => old j k (List.mem_range.mp member) ?_)
    exact fun this => isFile this.1

/-- Everything that holds between operations holds again. -/
theorem Sound.of_wrote (fits : off + n ≤ maxfile * bsize) (owned : Owned geometry after)
    (bytes : ∀ j k, mid.slot j (dataSlot (k / bsize)) ≠ 0 → after.byte j k = mid.byte j k)
    (stored : ∀ j, j < geometry.ninodes →
      (readInode geometry.toSuperblock after.volume j).Same (after.inodes j)) :
    Sound geometry after ∧ after.contents = Function.update fs.contents i
      (overwrite (fs.contents i) off ((List.range n).map src)) := by
  refine ⟨⟨owned, sound.dense_of_wrote wrote inside slots sizes,
    sound.tight_of_wrote wrote slots sizes, fun j => ?_, stored⟩,
    sound.contents_of_wrote wrote inside sizes bytes⟩
  have := sound.small j
  rw [sizes]
  split
  · rename_i isFile
    rw [isFile] at this
    omega
  · exact this

omit inside slots sizes in
/-- Writing leaves the inodes on the disk alone. -/
theorem Sound.stored_of_wrote (j : Nat) (isInode : j < geometry.ninodes) :
    (readInode geometry.toSuperblock mid.volume j).Same (fs.inodes j) := by
  rw [readInode_congr wrote.grown.low isInode]
  exact sound.stored j isInode

omit slots sizes in
/-- A write within the file leaves its inode as it is. -/
theorem Sound.staying (within : off + n ≤ fs.size i) :
    Sound geometry mid ∧ mid.contents = Function.update fs.contents i
      (overwrite (fs.contents i) off ((List.range n).map src)) := by
  have small := sound.small i
  have inodes : mid.inodes = fs.inodes := by
    funext j
    by_cases isFile : j = i
    · rw [isFile]
      exact wrote.idle (fun k _ upper => sound.present (by omega))
    · exact wrote.grown.others j isFile
  refine sound.of_wrote wrote inside (fun _ _ => rfl) (fun j => ?_) (by omega) wrote.grown.owned
    (fun _ _ _ => rfl) (fun j isInode => ?_)
  · rw [Fs.size, inodes, Nat.max_eq_left within]
    split
    · rename_i isFile
      rw [isFile, Fs.size]
    · rfl
  · rw [inodes]
    exact sound.stored_of_wrote wrote j isInode

omit slots sizes in
/-- After a write beyond the end of the file, its inode is stored with the new size. -/
theorem Sound.growing (fits : off + n ≤ maxfile * bsize) (isInode : i < geometry.ninodes)
    (beyond : fs.size i ≤ off + n) (ip : Inode) (addrs : ip.addrs = (mid.inodes i).addrs)
    (isSize : ip.size.toNat = off + n) :
    Sound geometry (mid.put i (storeInode geometry.toSuperblock mid.volume i ip) ip) ∧
      (mid.put i (storeInode geometry.toSuperblock mid.volume i ip) ip).contents =
        Function.update fs.contents i
          (overwrite (fs.contents i) off ((List.range n).map src)) := by
  refine sound.of_wrote wrote inside (slot_storeInode wrote.grown.owned isInode addrs) (fun j => ?_)
    fits (wrote.grown.owned.storeInode isInode addrs)
    (fun j k used => byte_storeInode wrote.grown.owned isInode addrs used)
    (stored_storeInode (fun j isOther notFile => ?_))
  · by_cases isFile : j = i
    · rw [if_pos isFile, Nat.max_eq_right beyond, ← isSize]
      simp only [Fs.size, Fs.put, isFile, Function.update_self]
    · rw [if_neg isFile]
      simp only [Fs.size, Fs.put, Function.update_of_ne isFile, wrote.grown.others j isFile]
  · rw [wrote.grown.others j notFile]
    exact sound.stored_of_wrote wrote j isOther

end Extended

/-- What a write of `n` bytes at `off` may log: the bitmap, the block of the inode, the indirect
block and the blocks with the bytes, each once. -/
structure Logs (geometry : Geometry) (i off n : Nat) (fs after : Fs) : Prop where
  blocks : ∀ c ∈ after.volume.logged, c ∈ fs.volume.logged ∨ c = geometry.iblock i ∨
    (∃ b, b < geometry.size ∧ c = geometry.bblock b) ∨ c = after.slot i ndirect ∨
    ∃ bn, Touched off n bn ∧ c = after.slot i (dataSlot bn)
  distinct : fs.volume.logged.Nodup → after.volume.logged.Nodup
  outstanding : after.volume.outstanding = fs.volume.outstanding

/-- Nothing is logged. -/
theorem Logs.refl (geometry : Geometry) (i off n : Nat) (fs : Fs) : Logs geometry i off n fs fs :=
  ⟨fun _ => Or.inl, id, rfl⟩

/-- What the loop of `writei` logs. -/
theorem Wrote.logs {i off n : Nat} {src : Nat → Byte} {after : Fs}
    (wrote : Wrote geometry i off n src fs after) : Logs geometry i off n fs after where
  blocks c member := by
    obtain old | bitmap | ⟨-, bn, touched, isData | isIndirect⟩ := wrote.grown.logged c member
    · exact Or.inl old
    · exact Or.inr (Or.inr (Or.inl bitmap))
    · exact Or.inr (Or.inr (Or.inr (Or.inr ⟨bn, touched, isData⟩)))
    · exact Or.inr (Or.inr (Or.inr (Or.inl isIndirect)))
  distinct := wrote.grown.distinct
  outstanding := wrote.grown.outstanding

/-- Storing the inode logs its block. -/
theorem Logs.storeInode {i off n : Nat} {mid : Fs} (logs : Logs geometry i off n fs mid)
    (owned : Owned geometry mid) (isInode : i < geometry.ninodes) {ip : Inode}
    (addrs : ip.addrs = (mid.inodes i).addrs) :
    Logs geometry i off n fs
      (mid.put i (Inodes.storeInode geometry.toSuperblock mid.volume i ip) ip) where
  blocks c member := by
    simp only [slot_storeInode owned isInode addrs]
    obtain before | isStored := (mem_record_logged ..).mp member
    · exact logs.blocks c before
    · exact Or.inr (Or.inl isStored)
  distinct before := nodup_record_logged _ _ _ (logs.distinct before)
  outstanding := logs.outstanding

/-- What `writei` leaves and returns. -/
structure Written (geometry : Geometry) (i : Nat) (src : Nat → Byte) (off n : BitVec 32)
    (fs after : Fs) (result : Option (BitVec 32)) : Prop where
  sound : Sound geometry after
  spec : (fs.inodes i).type ≠ tDev →
    Op.spec fs.contents (.write i src off n) = (after.contents, .count result)
  logs : Logs geometry i off.toNat n.toNat fs after
  types : ∀ j, (after.inodes j).type = (fs.inodes j).type

/-- A call of `writei` that changes nothing. -/
theorem Written.nothing (sound : Sound geometry fs) {i : Nat} {src : Nat → Byte}
    {off n : BitVec 32} {result : Option (BitVec 32)}
    (spec : (fs.inodes i).type ≠ tDev →
      Op.spec fs.contents (.write i src off n) = (fs.contents, .count result)) :
    Written geometry i src off n fs fs result :=
  ⟨sound, spec, Logs.refl .., fun _ => rfl⟩

/-- Writing changes the type of no inode. -/
theorem Wrote.types {i off n : Nat} {src : Nat → Byte} {after : Fs}
    (wrote : Wrote geometry i off n src fs after) (j : Nat) :
    (after.inodes j).type = (fs.inodes j).type := by
  by_cases isFile : j = i
  · rw [isFile, wrote.grown.same]
  · rw [wrote.grown.others j isFile]

/-- `writei` does to the lists what it is for. -/
theorem Sound.writei (sound : Sound geometry fs) (devsw : Nat → Driver) {i : Nat}
    (isInode : i < geometry.ninodes) (src : Nat → Byte) (off n : BitVec 32) :
    Ensures (Stuck geometry i (Touched off.toNat n.toNat) fs)
      (fun outcome => Written geometry i src off n fs (fs.put i outcome.1 outcome.2.1) outcome.2.2)
      (Inodes.writei geometry.toSuperblock devsw fs.volume i (fs.inodes i) src off n) := by
  rw [Inodes.writei]
  by_cases isDevice : (fs.inodes i).type = tDev
  · rw [if_pos isDevice]
    refine ensures_pure ?_
    rw [put_self]
    exact .nothing sound (fun notDevice => absurd isDevice notDevice)
  rw [if_neg isDevice]
  by_cases refused : fs.size i < off.toNat ∨ 2 ^ 32 ≤ off.toNat + n.toNat
  · rw [if_pos ((refused_iff fs i off n).mpr refused)]
    refine ensures_pure ?_
    rw [put_self]
    refine .nothing sound (fun _ => ?_)
    rw [Op.spec, contents_length, if_pos (refused.imp_right Or.inl)]
  have total := toNat_add_of_fits (fun overflow => refused (Or.inr overflow))
  rw [if_neg (fun bad => refused ((refused_iff fs i off n).mp bad)), total]
  by_cases tooLarge : maxfile * bsize < off.toNat + n.toNat
  · rw [if_pos tooLarge]
    refine ensures_pure ?_
    rw [put_self]
    refine .nothing sound (fun _ => ?_)
    rw [Op.spec, contents_length, if_pos (Or.inr (Or.inr tooLarge))]
  have inside : off.toNat ≤ fs.size i := Nat.not_lt.mp (fun beyond => refused (Or.inl beyond))
  have spec : Op.spec fs.contents (.write i src off n) = (Function.update fs.contents i
      (overwrite (fs.contents i) off.toNat ((List.range n.toNat).map src)), .count (some n)) := by
    rw [Op.spec, contents_length, if_neg (fun bad => (or_assoc.mpr bad).elim refused tooLarge)]
  rw [if_neg tooLarge]
  refine Ensures.bind (writeLoop_ensures n.toNat sound.owned i src off.toNat n.toNat
    (Nat.not_lt.mp tooLarge) (Nat.le_refl _)) ?_
  rintro ⟨volume, ip⟩ wrote
  have sameInode : (fs.put i volume ip).inodes i = ip := Function.update_self ..
  have isSize : ip.size.toNat = fs.size i := by
    have same := congrArg (fun ip => ip.size.toNat) wrote.grown.same
    rwa [sameInode] at same
  -- only a write beyond the end stores the inode again
  by_cases grows : 0 < n ∧ ip.size < off + n
  · have beyond : fs.size i < off.toNat + n.toNat := by
      rw [← total, ← isSize]
      exact grows.2
    have addrs : { ip with size := off + n }.addrs = ((fs.put i volume ip).inodes i).addrs := by
      rw [sameInode]
    obtain ⟨soundAfter, contents⟩ := sound.growing wrote inside (Nat.not_lt.mp tooLarge) isInode
      (Nat.le_of_lt beyond) _ addrs total
    have logs := wrote.logs.storeInode wrote.grown.owned isInode addrs
    rw [put_put] at soundAfter contents logs
    simp only [if_pos grows]
    refine logWrite_ensures.followedBy (fun _ refused =>
      (Stuck.of_refuses wrote.grown.owned refused (Nat.zero_le _)).later wrote.grown) ?_
    rintro _ rfl
    refine ensures_pure ⟨soundAfter, fun _ => spec.trans (by rw [← contents]; rfl), logs,
      fun j => ?_⟩
    have types := wrote.types j
    by_cases isFile : j = i
    · rw [isFile, sameInode] at types
      rw [isFile, ← types]
      simp [Fs.put]
    · simp [Fs.put, isFile]
  · have within : off.toNat + n.toNat ≤ fs.size i := by
      rw [BitVec.lt_def, BitVec.lt_def, total, isSize] at grows
      have zero : (0 : BitVec 32).toNat = 0 := rfl
      omega
    obtain ⟨soundAfter, contents⟩ := sound.staying wrote inside within
    simp only [if_neg grows]
    exact ensures_pure ⟨soundAfter, fun _ => spec.trans (by rw [← contents]), wrote.logs,
      wrote.types⟩

/-! ## Truncating -/

/-- A file without blocks and of size zero is empty, and the others are what they were. -/
theorem Sound.of_emptied (sound : Sound geometry fs) {i : Nat} {after : Fs}
    (owned : Owned geometry after)
    (slots : ∀ j t, after.slot j t = if j = i then 0 else fs.slot j t)
    (sizes : ∀ j, after.size j = if j = i then 0 else fs.size j)
    (bytes : ∀ j k, j ≠ i → fs.slot j (dataSlot (k / bsize)) ≠ 0 → after.byte j k = fs.byte j k)
    (stored : ∀ j, j < geometry.ninodes →
      (readInode geometry.toSuperblock after.volume j).Same (after.inodes j)) :
    Sound geometry after ∧ after.contents = Function.update fs.contents i [] := by
  refine ⟨⟨owned, fun j bn => ?_, fun j bn => ?_, fun j => ?_, stored⟩, funext fun j => ?_⟩
  · rw [slots, sizes]
    split
    · exact fun impossible => absurd impossible (Nat.not_lt_zero _)
    · exact sound.dense j bn
  · rw [slots, slots, sizes]
    split
    · exact fun impossible => (impossible.elim (fun used => used rfl) (fun used => used.2 rfl)).elim
    · exact sound.tight j bn
  · rw [sizes]
    split
    · exact Nat.zero_le _
    · exact sound.small j
  · by_cases isFile : j = i
    · rw [isFile, Function.update_self, Fs.contents, sizes, if_pos rfl]
      rfl
    · rw [Function.update_of_ne isFile, Fs.contents, Fs.contents, sizes, if_neg isFile]
      exact List.map_congr_left (fun k member =>
        bytes j k isFile (sound.present (List.mem_range.mp member)))

/-- What `itrunc` leaves. -/
structure Emptied (geometry : Geometry) (i : Nat) (fs after : Fs) : Prop where
  sound : Sound geometry after
  contents : after.contents = Function.update fs.contents i []
  outstanding : after.volume.outstanding = fs.volume.outstanding
  types : ∀ j, (after.inodes j).type = (fs.inodes j).type

/-- `itrunc` empties the file. -/
theorem Sound.itrunc (sound : Sound geometry fs) {i : Nat} (isInode : i < geometry.ninodes) :
    Ensures (Interrupted geometry.toSuperblock fs.volume (fs.blocksOf i))
      (fun outcome => Emptied geometry i fs (fs.put i outcome.1 outcome.2))
      (Inodes.itrunc geometry.toSuperblock fs.volume i (fs.inodes i)) := by
  refine (itrunc_ensures sound.owned i i).mono (fun _ => id) ?_
  rintro _ rfl
  obtain ⟨ip, isEmpty⟩ : ∃ ip : Inode,
    ip = { (fs.inodes i).clear (List.range (ndirect + 1)) with size := 0 } := ⟨_, rfl⟩
  have clear : ∀ k, k ≤ ndirect → ip.addrs k = 0 := by
    intro k inArray
    have cleared : k ∈ List.range (ndirect + 1) := List.mem_range.mpr (Nat.lt_succ_of_le inArray)
    simp only [isEmpty, Inode.clear, if_pos cleared]
  have size : ip.size.toNat = 0 := by
    rw [isEmpty]
    rfl
  have type : ip.type = (fs.inodes i).type := by
    rw [isEmpty]
    rfl
  simp only [← isEmpty]
  rw [← put_put fs i (releaseAll geometry.toSuperblock fs.volume (fs.blocksOf i)) _ ip]
  have owned := sound.owned.release i clear
  have addrs : ip.addrs = ((fs.put i (releaseAll geometry.toSuperblock fs.volume (fs.blocksOf i))
      ip).inodes i).addrs := by
    simp only [Fs.put, Function.update_self]
  have emptied := sound.of_emptied (i := i) (owned.storeInode isInode addrs) (fun j t => ?_)
    (fun j => ?_) (fun j k isOther used => ?_) (stored_storeInode (fun j isOther notFile => ?_))
  · refine ⟨emptied.1, emptied.2, (releaseAll_logged _ _ _).2.2, fun j => ?_⟩
    by_cases isFile : j = i
    · simp [Fs.put, isFile, type]
    · simp [Fs.put, isFile]
  · exact (slot_storeInode owned isInode addrs j t).trans (slot_release sound.owned i clear j t)
  · by_cases isFile : j = i
    · simp only [Fs.size, Fs.put, isFile, Function.update_self, if_true, size]
    · simp only [Fs.size, Fs.put, Function.update_of_ne isFile, if_neg isFile]
  · have slots := slot_release sound.owned i clear j (dataSlot (k / bsize))
    rw [if_neg isOther] at slots
    refine (byte_storeInode owned isInode addrs (by rwa [slots])).trans ?_
    rw [Fs.byte, slots]
    simp only [Fs.put]
    rw [sound.owned.releaseAll_blocks i used, Fs.byte]
  · simp only [Fs.put, Function.update_of_ne notFile]
    rw [readInode_congr (releaseAll_low fs.volume (fs.blocksOf i)) isOther]
    exact sound.stored j isOther

end Operations

end OsLabwork.Kernel.Inodes
