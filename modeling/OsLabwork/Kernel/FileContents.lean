import OsLabwork.Kernel.BlockOwnership

/-!
# The contents of files

The contents of a file are the bytes of its blocks, up to its size. The loops of `readi` and
`writei` go block by block; what they read and write is a range of the contents, and the
contents of other files, and of the rest of this one, stay as they are.
-/

namespace OsLabwork.Kernel.Inodes

open Logging Outcomes WordMemory

/-- Byte `k` of a file. -/
def Fs.byte (fs : Fs) (i k : Nat) : Byte :=
  byteAt (fs.volume.blocks (fs.slot i (dataSlot (k / bsize)))) (k % bsize)

/-- Different blocks of the contents have different places. -/
theorem dataSlot_injective {first second : Nat} (same : dataSlot first = dataSlot second) :
    first = second := by
  unfold dataSlot at same
  split at same <;> split at same <;> omega

variable {geometry : Geometry} {fs : Fs}

/-- A block of contents is written. -/
theorem Grown.write (owned : Owned geometry fs) {i bn : Nat} (used : fs.slot i (dataSlot bn) ≠ 0)
    (block : Block) {ip : Inode} (sameInode : fs.inodes i = ip) :
    Grown geometry i (· = bn) fs
        (fs.put i (fs.volume.record (fs.slot i (dataSlot bn)) block) ip) ∧
      ∀ j t, (fs.put i (fs.volume.record (fs.slot i (dataSlot bn)) block) ip).slot j t =
        fs.slot j t := by
  subst sameInode
  have inData := owned.inData i _ used
  have slots : ∀ j t, (fs.put i (fs.volume.record (fs.slot i (dataSlot bn)) block)
      (fs.inodes i)).slot j t = fs.slot j t := by
    intro j t
    refine Fs.slot_congr (fun k _ _ => by simp [Fs.put]) (fun hasIndirect => ?_)
    refine record_blocks_of_ne _ _ _ (fun same => ?_)
    exact dataSlot_ne bn (owned.apart _ _ _ _ hasIndirect same).2.symm
  have marks : ∀ c, c < geometry.size →
      (fs.volume.record (fs.slot i (dataSlot bn)) block).inUse geometry.toSuperblock c =
        fs.volume.inUse geometry.toSuperblock c :=
    fun c inDisk => inUse_record geometry _ _ inDisk inData.1
  refine ⟨⟨owned.congr slots marks, fun j t _ => slots j t, fun j t now before => ?_,
    fun j isOther => Function.update_of_ne isOther _ _, by simp [Fs.put], fun c below => ?_, ?_,
    fun c member => ?_, nodup_record_logged _ _ _, rfl⟩, slots⟩
  · exact absurd before (slots j t ▸ now)
  · have bitmap := geometry.bitmapFits _ inData.2
    have start := bmapstart_le_bblock geometry.toSuperblock (fs.slot i (dataSlot bn))
    exact record_blocks_of_ne _ _ _ (by omega)
  · have spare : (fs.put i (fs.volume.record (fs.slot i (dataSlot bn)) block)
        (fs.inodes i)).spare geometry.toSuperblock = fs.spare geometry.toSuperblock := by
      refine congrArg Finset.card (Finset.filter_congr (fun c inRange => ?_))
      simp only [Fs.put, marks c (Finset.mem_range.mp inRange)]
    rw [spare]
    simp only [Fs.vacant, slots]
  · simp only [Fs.put, mem_record_logged] at member
    obtain old | isNew := member
    · exact Or.inl old
    · exact Or.inr (Or.inr ⟨isNew ▸ used, bn, rfl, Or.inl (by rw [slots, isNew])⟩)

/-- The blocks with some bytes of a range. -/
def Touched (off len bn : Nat) : Prop := ∃ k, off ≤ k ∧ k < off + len ∧ bn = k / bsize

/-- A part of a range touches no other blocks. -/
theorem Touched.mono {off len inner amount bn : Nat} (touched : Touched inner amount bn)
    (lower : off ≤ inner) (upper : inner + amount ≤ off + len) : Touched off len bn := by
  obtain ⟨k, above, below, here⟩ := touched
  exact ⟨k, by omega, by omega, here⟩

/-- A range of a file was written, and nothing else changed. -/
structure Wrote (geometry : Geometry) (i off len : Nat) (src : Nat → Byte) (fs after : Fs) :
    Prop where
  grown : Grown geometry i (Touched off len) fs after
  kept : ∀ j k, fs.slot j (dataSlot (k / bsize)) ≠ 0 → after.byte j k =
    if j = i ∧ off ≤ k ∧ k < off + len then src (k - off) else fs.byte j k
  fresh : ∀ k, off ≤ k → k < off + len →
    after.slot i (dataSlot (k / bsize)) ≠ 0 ∧ after.byte i k = src (k - off)
  idle : (∀ k, off ≤ k → k < off + len → fs.slot i (dataSlot (k / bsize)) ≠ 0) →
    after.inodes i = fs.inodes i

/-- Nothing was written. -/
theorem Wrote.nothing (owned : Owned geometry fs) (i off : Nat) (src : Nat → Byte) :
    Wrote geometry i off 0 src fs fs where
  grown := Grown.refl owned i _
  kept j k _ := by rw [if_neg (by omega)]
  fresh k lower upper := by omega
  idle _ := rfl

/-- Two ranges that follow each other make one. -/
theorem Wrote.append {i off len more : Nat} {src : Nat → Byte} {middle after : Fs}
    (first : Wrote geometry i off len src fs middle)
    (second : Wrote geometry i (off + len) more (fun k => src (len + k)) middle after) :
    Wrote geometry i off (len + more) src fs after where
  grown := by
    exact (first.grown.mono (fun _ touched => touched.mono (by omega) (by omega))).trans
      (second.grown.mono (fun _ touched => touched.mono (by omega) (by omega)))
  kept j k used := by
    have still : middle.slot j (dataSlot (k / bsize)) ≠ 0 := first.grown.kept j _ used ▸ used
    rw [second.kept j k still, first.kept j k used]
    by_cases later : j = i ∧ off + len ≤ k ∧ k < off + len + more
    · rw [if_pos later, if_pos (by omega)]
      exact congrArg src (by omega)
    · rw [if_neg later]
      by_cases earlier : j = i ∧ off ≤ k ∧ k < off + len
      · rw [if_pos earlier, if_pos (by omega)]
      · rw [if_neg earlier, if_neg (by omega)]
  fresh k lower upper := by
    by_cases later : off + len ≤ k
    · obtain ⟨used, isByte⟩ := second.fresh k later (by omega)
      exact ⟨used, isByte.trans (congrArg src (by omega))⟩
    · obtain ⟨used, isByte⟩ := first.fresh k lower (by omega)
      refine ⟨second.grown.kept i _ used ▸ used, ?_⟩
      rw [second.kept i k used, if_neg (by omega), isByte]
  idle present := by
    rw [second.idle, first.idle]
    · exact fun k lower upper => present k lower (by omega)
    · intro k lower upper
      have used := present k (by omega) (by omega)
      exact first.grown.kept i _ used ▸ used

/-- Inside one block, a range of the file is a range of the block. -/
theorem inBlock_iff {off m k : Nat} (_ : m ≤ bsize - off % bsize)
    (sameBlock : k / bsize = off / bsize) :
    (off % bsize ≤ k % bsize ∧ k % bsize < off % bsize + m ↔ off ≤ k ∧ k < off + m) ∧
      (off ≤ k → k % bsize - off % bsize = k - off) := by
  simp only [bsize] at *
  omega

/-- A range inside one block touches that block only. -/
theorem sameBlock_of_range {off m k : Nat} (inBlock : m ≤ bsize - off % bsize) (lower : off ≤ k)
    (upper : k < off + m) : k / bsize = off / bsize := by
  simp only [bsize] at *
  omega

/-- Part of one block of a file is written. -/
theorem Wrote.block (owned : Owned geometry fs) {i off m : Nat} (src : Nat → Byte)
    (used : fs.slot i (dataSlot (off / bsize)) ≠ 0) (inBlock : m ≤ bsize - off % bsize)
    (positive : 0 < m) {ip : Inode} (sameInode : fs.inodes i = ip) :
    Wrote geometry i off m src fs (fs.put i (fs.volume.record
      (fs.slot i (dataSlot (off / bsize)))
      (writeBytes (fs.volume.blocks (fs.slot i (dataSlot (off / bsize)))) (off % bsize) src m))
      ip) := by
  obtain ⟨grown, slots⟩ := Grown.write owned used
    (writeBytes (fs.volume.blocks (fs.slot i (dataSlot (off / bsize)))) (off % bsize) src m)
    sameInode
  -- In the block that is written the range decides; other blocks are as they were.
  have bytes : ∀ j k, fs.slot j (dataSlot (k / bsize)) ≠ 0 →
      (fs.put i (fs.volume.record (fs.slot i (dataSlot (off / bsize)))
        (writeBytes (fs.volume.blocks (fs.slot i (dataSlot (off / bsize)))) (off % bsize) src m))
        ip).byte j k =
      if j = i ∧ off ≤ k ∧ k < off + m then src (k - off) else fs.byte j k := by
    intro j k usedHere
    rw [Fs.byte, slots]
    by_cases here : j = i ∧ k / bsize = off / bsize
    · obtain ⟨inRange, offset⟩ := inBlock_iff inBlock here.2
      rw [here.1, here.2]
      simp only [Fs.put, record_blocks_self, byteAt_writeBytes, inRange, true_and]
      split
      · rename_i range
        rw [offset range.1]
      · rw [Fs.byte, here.2]
    · have different : fs.slot j (dataSlot (k / bsize)) ≠ fs.slot i (dataSlot (off / bsize)) := by
        intro same
        obtain ⟨sameFile, samePlace⟩ := owned.apart _ _ _ _ usedHere same
        exact here ⟨sameFile, dataSlot_injective samePlace⟩
      have outside : ¬ (j = i ∧ off ≤ k ∧ k < off + m) :=
        fun inside => here ⟨inside.1, sameBlock_of_range inBlock inside.2.1 inside.2.2⟩
      simp only [Fs.put]
      rw [record_blocks_of_ne _ _ _ different, if_neg outside, Fs.byte]
  refine ⟨grown.mono ?_, bytes, fun k lower upper => ?_, fun _ => ?_⟩
  · rintro bn rfl
    exact ⟨off, Nat.le_refl _, by omega, rfl⟩
  · have usedHere : fs.slot i (dataSlot (k / bsize)) ≠ 0 := by
      rw [sameBlock_of_range inBlock lower upper]
      exact used
    rw [slots, bytes i k usedHere, if_pos ⟨rfl, lower, upper⟩]
    exact ⟨usedHere, rfl⟩
  · simp [Fs.put, sameInode]

/-- A block of the contents was reached: no byte has changed. -/
theorem Reached.byte {i bn : Nat} {after : Fs}
    (here : Reached geometry i (dataSlot bn) (· = bn) fs after) {j k : Nat}
    (used : fs.slot j (dataSlot (k / bsize)) ≠ 0) : after.byte j k = fs.byte j k := by
  rw [Fs.byte, here.grown.kept j _ used, here.data j _ used (dataSlot_ne _), Fs.byte]

/-- One round of the loop of `writei`: a block is reached, and a part of it is written. -/
theorem Wrote.chunk {i off m : Nat} {src : Nat → Byte} {middle after : Fs} (positive : 0 < m)
    (here : Reached geometry i (dataSlot (off / bsize)) (· = off / bsize) fs middle)
    (written : Wrote geometry i off m src middle after) : Wrote geometry i off m src fs after where
  grown := by
    refine (here.grown.mono ?_).trans written.grown
    rintro bn rfl
    exact ⟨off, Nat.le_refl _, by omega, rfl⟩
  kept j k used := by
    rw [written.kept j k (here.grown.kept j _ used ▸ used), here.byte used]
  fresh := written.fresh
  idle present := by
    have same := here.idle (present off (Nat.le_refl _) (by omega))
    rw [same] at written
    exact written.idle present

/-- Every round copies at least one byte. -/
theorem chunk_pos (off : Nat) {left : Nat} (more : left ≠ 0) :
    0 < min left (bsize - off % bsize) := by
  simp only [bsize]
  omega

/-- A range within the largest size is in blocks that a file can have. -/
theorem chunk_inFile {off left : Nat} (more : left ≠ 0) (fits : off + left ≤ maxfile * bsize) :
    off / bsize < maxfile := by
  simp only [maxfile, ndirect, nindirect, bsize] at *
  omega

/-- The loop of `writei` writes its range. -/
theorem writeLoop_ensures (rounds : Nat) (owned : Owned geometry fs) (i : Nat) (src : Nat → Byte)
    (off left : Nat) (fits : off + left ≤ maxfile * bsize) (enough : left ≤ rounds) :
    Ensures (Stuck geometry i (Touched off left) fs)
      (fun result => Wrote geometry i off left src fs (fs.put i result.1 result.2))
      (writeLoop geometry.toSuperblock rounds fs.volume (fs.inodes i) src off left) := by
  induction rounds generalizing fs src off left with
  | zero =>
    obtain rfl : left = 0 := Nat.le_zero.mp enough
    refine ensures_pure ?_
    rw [put_self]
    exact Wrote.nothing owned i off src
  | succ rounds inductionHypothesis =>
    rw [writeLoop]
    by_cases more : left = 0
    · rw [if_pos more]
      refine ensures_pure ?_
      rw [put_self, more]
      exact Wrote.nothing owned i off src
    · have positive := chunk_pos off more
      have atMost : min left (bsize - off % bsize) ≤ left := Nat.min_le_left ..
      have inBlock : min left (bsize - off % bsize) ≤ bsize - off % bsize := Nat.min_le_right ..
      have first : ∀ bn, bn = off / bsize → Touched off left bn :=
        fun _ here => ⟨off, Nat.le_refl _, by omega, here⟩
      rw [if_neg more]
      refine (bmap_ensures owned i (chunk_inFile more fits)).followedBy
        (fun _ stuck => stuck.mono first) ?_
      rintro ⟨volume, ip, address⟩ ⟨isSlot, here⟩
      refine logWrite_ensures.followedBy (fun _ refused =>
        (Stuck.of_refuses here.grown.owned refused (Nat.zero_le _)).later (here.grown.mono first)) ?_
      rintro _ rfl
      generalize min left (bsize - off % bsize) = m at positive atMost inBlock ⊢
      generalize isWritten : volume.record address
        (writeBytes (volume.blocks address) (off % bsize) src m) = written
      have round : Wrote geometry i off m src fs (fs.put i written ip) := by
        have block := Wrote.block here.grown.owned src here.used inBlock positive
          (show (fs.put i volume ip).inodes i = ip from Function.update_self ..)
        rw [← isSlot, put_put] at block
        exact isWritten ▸ Wrote.chunk positive here block
      have sameInode : (fs.put i written ip).inodes i = ip := Function.update_self ..
      have rest := inductionHypothesis round.grown.owned (fun k => src (m + k)) (off + m)
        (left - m) (by omega) (by omega)
      rw [sameInode] at rest
      refine rest.mono (fun _ stuck => ?_) (fun result wrote => ?_)
      · exact (stuck.mono (fun _ touched => touched.mono (by omega) (by omega))).later
          (round.grown.mono (fun _ touched => touched.mono (by omega) (by omega)))
      · rw [put_put] at wrote
        have whole := round.append wrote
        rwa [Nat.add_sub_cancel' atMost] at whole

/-- `bmap` changes nothing when the block is there. -/
theorem bmap_of_used (sb : Superblock) (fs : Fs) {i bn : Nat} (inFile : bn < maxfile)
    (used : fs.slot i (dataSlot bn) ≠ 0) :
    bmap sb fs.volume (fs.inodes i) bn =
      pure (fs.volume, fs.inodes i, fs.slot i (dataSlot bn)) := by
  by_cases isDirect : bn < ndirect
  · have place : dataSlot bn = bn := by rw [dataSlot, if_pos isDirect]
    have hasAddr : (fs.inodes i).addrs bn ≠ 0 := by
      rw [ne_eq, addrs_eq_zero_iff fs i (Nat.le_of_lt isDirect), ← place]
      exact used
    simp only [bmap, isDirect, if_true, ensureAddr, hasAddr, if_false, place, Fs.slot, Inode.slot,
      Nat.le_of_lt isDirect, pure_bind]
  · have inBlock : bn - ndirect < nindirect := by simp only [maxfile] at inFile; omega
    have place : dataSlot bn = bn + 1 := by rw [dataSlot, if_neg isDirect]
    have hasAddr : (fs.inodes i).addrs ndirect ≠ 0 := by
      intro none
      exact used (by rw [place, Fs.slot, Inode.slot, if_neg (by omega), if_neg (by simp [none])])
    have entry : fs.slot i (dataSlot bn) =
        (fs.volume.blocks ((fs.inodes i).addrs ndirect).toNat (bn - ndirect)).toNat := by
      rw [place, Fs.slot, Inode.slot, if_neg (by omega), if_pos ⟨by omega, hasAddr⟩]
      exact congrArg _ (congrArg _ (by omega))
    have hasEntry : fs.volume.blocks ((fs.inodes i).addrs ndirect).toNat (bn - ndirect) ≠ 0 := by
      intro none
      exact used (by rw [entry, none]; rfl)
    simp only [bmap, isDirect, if_false, inBlock, if_true, ensureAddr, hasAddr, ensureEntry,
      hasEntry, entry, pure_bind]

/-- The loop of `readi` returns its range of the contents, and changes nothing. -/
theorem readLoop_eq (sb : Superblock) (fs : Fs) (i rounds off left : Nat)
    (fits : off + left ≤ maxfile * bsize) (enough : left ≤ rounds)
    (present : ∀ k, off ≤ k → k < off + left → fs.slot i (dataSlot (k / bsize)) ≠ 0) :
    readLoop sb rounds fs.volume (fs.inodes i) off left = pure (fs.volume, fs.inodes i,
      (List.range left).map (fun k => fs.byte i (off + k))) := by
  induction rounds generalizing off left with
  | zero =>
    obtain rfl : left = 0 := Nat.le_zero.mp enough
    rfl
  | succ rounds inductionHypothesis =>
    by_cases more : left = 0
    · rw [readLoop, if_pos more, more]
      rfl
    · have positive := chunk_pos off more
      have atMost : min left (bsize - off % bsize) ≤ left := Nat.min_le_left ..
      have inBlock : min left (bsize - off % bsize) ≤ bsize - off % bsize := Nat.min_le_right ..
      have mapped := bmap_of_used sb fs (chunk_inFile more fits)
        (present off (Nat.le_refl _) (by omega))
      simp only [readLoop, more, if_false, mapped, pure_bind]
      generalize min left (bsize - off % bsize) = m at positive atMost inBlock ⊢
      rw [inductionHypothesis (off + m) (left - m) (by omega) (by omega)
        (fun k lower upper => present k (by omega) (by omega))]
      have split : left = m + (left - m) := (Nat.add_sub_cancel' atMost).symm
      have bytes : (List.range left).map (fun k => fs.byte i (off + k)) =
          (List.range m).map (fun k => fs.byte i (off + k)) ++
            (List.range (left - m)).map (fun k => fs.byte i (off + m + k)) := by
        rw [split, List.range_add, List.map_append, List.map_map, Nat.add_sub_cancel_left]
        simp only [Function.comp_def, Nat.add_assoc]
      rw [bytes, pure_bind]
      refine congrArg (fun bytes => Except.ok (fs.volume, fs.inodes i, bytes ++ _))
        (List.map_congr_left (fun k member => ?_))
      have small := List.mem_range.mp member
      have sameBlock := sameBlock_of_range (k := off + k) inBlock (by omega) (by omega)
      have sameOffset : (off + k) % bsize = off % bsize + k := by
        simp only [bsize] at *
        omega
      rw [Fs.byte, sameBlock, sameOffset]

end OsLabwork.Kernel.Inodes
