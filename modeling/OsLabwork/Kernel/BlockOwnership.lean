import Mathlib.Data.Finset.Range
import OsLabwork.Kernel.BlockAllocation

/-!
# Which file a block belongs to

Every block that is in use beyond the blocks at the start of the disk belongs to one place of
one inode: a direct block, the indirect block, or an entry of the indirect block. No two places
have the same block. `balloc` finds a block that belongs to nobody, and `bmap` puts it into a
place that has none, without a change to any other place.

On the way `balloc` may find no block, and `log_write` no room in the log. Both panics are
followed to their causes.
-/

namespace OsLabwork.Kernel.Inodes

open Logging Outcomes WordMemory

/-- All inodes, and the blocks they list. -/
structure Fs where
  volume : Volume
  inodes : Nat → Inode

/-- The block at a place of an inode, or zero: the direct blocks, then the indirect block, then
its entries. -/
def Inode.slot (blocks : Nat → Block) (ip : Inode) (s : Nat) : Nat :=
  if s ≤ ndirect then (ip.addrs s).toNat
  else if s ≤ ndirect + nindirect ∧ ip.addrs ndirect ≠ 0 then
    (blocks (ip.addrs ndirect).toNat (s - (ndirect + 1))).toNat
  else 0

/-- The block at a place of the inode with a number. -/
def Fs.slot (fs : Fs) (i s : Nat) : Nat := (fs.inodes i).slot fs.volume.blocks s

/-- The place of a block of the contents. -/
def dataSlot (bn : Nat) : Nat := if bn < ndirect then bn else bn + 1

/-- The indirect block is no block of the contents. -/
theorem dataSlot_ne (bn : Nat) : dataSlot bn ≠ ndirect := by
  unfold dataSlot
  split <;> omega

/-- How many blocks are free. -/
def Fs.spare (sb : Superblock) (fs : Fs) : Nat :=
  ((Finset.range sb.size).filter (fun b => fs.volume.inUse sb b = false)).card

/-- How many places of an inode are empty. -/
def Fs.vacant (fs : Fs) (i : Nat) : Nat :=
  ((Finset.range (maxfile + 1)).filter (fun s => fs.slot i s = 0)).card

/-- Each block in use belongs to one place of one inode. -/
structure Owned (geometry : Geometry) (fs : Fs) : Prop where
  inData : ∀ i s, fs.slot i s ≠ 0 →
    geometry.datastart ≤ fs.slot i s ∧ fs.slot i s < geometry.size
  apart : ∀ i s j t, fs.slot i s ≠ 0 → fs.slot i s = fs.slot j t → i = j ∧ s = t
  marked : ∀ b, b < geometry.size → (fs.volume.inUse geometry.toSuperblock b = true ↔
    b < geometry.datastart ∨ ∃ i s, fs.slot i s = b)

section Ownership

variable {geometry : Geometry} {fs after : Fs}

/-- A block that is free is a data block at no place. -/
theorem Owned.free (owned : Owned geometry fs) {b : Nat} (inDisk : b < geometry.size)
    (isFree : fs.volume.inUse geometry.toSuperblock b = false) :
    geometry.datastart ≤ b ∧ 0 < b ∧ ∀ i s, fs.slot i s ≠ b := by
  have notMarked : ¬ (b < geometry.datastart ∨ ∃ i s, fs.slot i s = b) := by
    rw [← owned.marked b inDisk, isFree]
    exact Bool.false_ne_true
  have bitmap := geometry.bitmapFits b inDisk
  refine ⟨by omega, by omega, fun i s here => notMarked (Or.inr ⟨i, s, here⟩)⟩

/-- Changes to contents, and to blocks that are not listed, do not matter. -/
theorem Owned.congr (owned : Owned geometry fs) (slots : ∀ j t, after.slot j t = fs.slot j t)
    (marks : ∀ c, c < geometry.size → after.volume.inUse geometry.toSuperblock c =
      fs.volume.inUse geometry.toSuperblock c) : Owned geometry after where
  inData j t := by simpa only [slots] using owned.inData j t
  apart j t k u := by simpa only [slots] using owned.apart j t k u
  marked b inDisk := by simpa only [slots, marks b inDisk] using owned.marked b inDisk

/-- A free block is put into an empty place. -/
theorem Owned.place (owned : Owned geometry fs) {i s b : Nat} (inDisk : b < geometry.size)
    (isFree : fs.volume.inUse geometry.toSuperblock b = false) (empty : fs.slot i s = 0)
    (slots : ∀ j t, after.slot j t = if j = i ∧ t = s then b else fs.slot j t)
    (marks : ∀ c, c < geometry.size → after.volume.inUse geometry.toSuperblock c =
      if c = b then true else fs.volume.inUse geometry.toSuperblock c) : Owned geometry after := by
  obtain ⟨isData, positive, nowhere⟩ := owned.free inDisk isFree
  refine ⟨fun j t used => ?_, fun j t k u used same => ?_, fun c inDisk => ?_⟩
  · rw [slots] at used ⊢
    split
    · exact ⟨isData, inDisk⟩
    · rename_i elsewhere
      rw [if_neg elsewhere] at used
      exact owned.inData j t used
  · rw [slots j t] at used same
    rw [slots k u] at same
    split at same
    · rename_i here
      split at same
      · rename_i there
        exact ⟨here.1.trans there.1.symm, here.2.trans there.2.symm⟩
      · exact absurd same.symm (nowhere k u)
    · rename_i elsewhere
      rw [if_neg elsewhere] at used
      split at same
      · exact absurd same (nowhere j t)
      · exact owned.apart j t k u used same
  · have bitmap := geometry.bitmapFits c inDisk
    rw [marks c inDisk]
    by_cases isNew : c = b
    · rw [if_pos isNew]
      exact ⟨fun _ => Or.inr ⟨i, s, by rw [slots, if_pos ⟨rfl, rfl⟩, isNew]⟩, fun _ => rfl⟩
    · rw [if_neg isNew, owned.marked c inDisk]
      refine or_congr_right' (fun inArea => ⟨?_, ?_⟩)
      · rintro ⟨j, t, here⟩
        refine ⟨j, t, ?_⟩
        rw [slots, if_neg, here]
        rintro ⟨rfl, rfl⟩
        omega
      · rintro ⟨j, t, here⟩
        rw [slots] at here
        split at here
        · exact absurd here.symm isNew
        · exact ⟨j, t, here⟩

/-- One of the numbers below a bound loses a property. -/
theorem card_filter_range_of_place {p q : Nat → Prop} [DecidablePred p] [DecidablePred q]
    {bound place : Nat} (inRange : place < bound) (before : p place) (now : ¬ q place)
    (elsewhere : ∀ other, other < bound → other ≠ place → (q other ↔ p other)) :
    ((Finset.range bound).filter q).card + 1 = ((Finset.range bound).filter p).card := by
  have member : place ∈ (Finset.range bound).filter p := by
    simp [inRange, before]
  have erased : (Finset.range bound).filter q = ((Finset.range bound).filter p).erase place := by
    ext other
    by_cases isPlace : other = place
    · simp [isPlace, now]
    · simp only [Finset.mem_filter, Finset.mem_range, Finset.mem_erase, ne_eq, isPlace,
        not_false_eq_true, true_and]
      exact and_congr_right (fun small => elsewhere other small isPlace)
  rw [erased, Finset.card_erase_add_one member]

/-- A place is found from the addresses of the inode and the indirect block. -/
theorem slot_congr {blocks later : Nat → Block} {ip other : Inode} {s : Nat}
    (addrs : ∀ k, k ≤ ndirect → k = s ∨ k = ndirect → other.addrs k = ip.addrs k)
    (indirect : ip.addrs ndirect ≠ 0 →
      later (ip.addrs ndirect).toNat = blocks (ip.addrs ndirect).toNat) :
    other.slot later s = ip.slot blocks s := by
  have same := addrs ndirect (Nat.le_refl _) (Or.inr rfl)
  unfold Inode.slot
  split
  · rename_i inArray
    rw [addrs s inArray (Or.inl rfl)]
  · rw [same]
    split
    · rename_i inBlock
      rw [indirect inBlock.2]
    · rfl

/-- The place of the indirect block. -/
theorem slot_indirect (fs : Fs) (i : Nat) :
    fs.slot i ndirect = ((fs.inodes i).addrs ndirect).toNat := by
  rw [Fs.slot, Inode.slot, if_pos (Nat.le_refl _)]

/-- Places change only with the addresses of the inode and what is in the indirect block. -/
theorem Fs.slot_congr {i s : Nat}
    (addrs : ∀ k, k ≤ ndirect → k = s ∨ k = ndirect →
      (after.inodes i).addrs k = (fs.inodes i).addrs k)
    (indirect : fs.slot i ndirect ≠ 0 →
      after.volume.blocks (fs.slot i ndirect) = fs.volume.blocks (fs.slot i ndirect)) :
    after.slot i s = fs.slot i s := by
  refine Inodes.slot_congr addrs (fun hasIndirect => ?_)
  rw [slot_indirect] at indirect
  refine indirect (fun none => hasIndirect ?_)
  exact BitVec.eq_of_toNat_eq none

/-- Replace the volume and one inode. -/
def Fs.put (fs : Fs) (i : Nat) (volume : Volume) (ip : Inode) : Fs :=
  ⟨volume, Function.update fs.inodes i ip⟩

/-- How a file system may change while blocks of one file are reached: places keep their
blocks, and only places on the way to what is reached get new ones. What is logged is the
bitmap and blocks of the file. -/
structure Grown (geometry : Geometry) (i : Nat) (reached : Nat → Prop) (fs after : Fs) : Prop where
  owned : Owned geometry after
  kept : ∀ j t, fs.slot j t ≠ 0 → after.slot j t = fs.slot j t
  added : ∀ j t, after.slot j t ≠ 0 → fs.slot j t = 0 → j = i ∧
    ∃ bn, reached bn ∧ (t = dataSlot bn ∨ t = ndirect ∧ ndirect ≤ bn)
  others : ∀ j, j ≠ i → after.inodes j = fs.inodes j
  same : after.inodes i = { fs.inodes i with addrs := (after.inodes i).addrs }
  low : ∀ c, c < geometry.bmapstart → after.volume.blocks c = fs.volume.blocks c
  room : fs.spare geometry.toSuperblock + after.vacant i =
    after.spare geometry.toSuperblock + fs.vacant i
  logged : ∀ c ∈ after.volume.logged, c ∈ fs.volume.logged ∨
    (∃ b, b < geometry.size ∧ c = geometry.bblock b) ∨
    (c ≠ 0 ∧ ∃ bn, reached bn ∧ (c = after.slot i (dataSlot bn) ∨ c = after.slot i ndirect))
  distinct : fs.volume.logged.Nodup → after.volume.logged.Nodup
  outstanding : after.volume.outstanding = fs.volume.outstanding

/-- The blocks of contents are as they were. -/
def SameData (fs after : Fs) : Prop :=
  ∀ j t, fs.slot j t ≠ 0 → t ≠ ndirect →
    after.volume.blocks (fs.slot j t) = fs.volume.blocks (fs.slot j t)

/-- Nothing has changed. -/
theorem Grown.refl (owned : Owned geometry fs) (i : Nat) (reached : Nat → Prop) :
    Grown geometry i reached fs fs where
  owned := owned
  kept _ _ _ := rfl
  added _ _ used empty := absurd empty used
  others _ _ := rfl
  same := rfl
  low _ _ := rfl
  room := rfl
  logged _ member := Or.inl member
  distinct := id
  outstanding := rfl

/-- More may be reached. -/
theorem Grown.mono {i : Nat} {reached wider : Nat → Prop} (grown : Grown geometry i reached fs after)
    (weaker : ∀ bn, reached bn → wider bn) : Grown geometry i wider fs after where
  owned := grown.owned
  kept := grown.kept
  added j t used empty := by
    obtain ⟨isFile, bn, isReached, way⟩ := grown.added j t used empty
    exact ⟨isFile, bn, weaker bn isReached, way⟩
  others := grown.others
  same := grown.same
  low := grown.low
  room := grown.room
  logged c member := by
    obtain old | bitmap | ⟨used, bn, isReached, way⟩ := grown.logged c member
    · exact Or.inl old
    · exact Or.inr (Or.inl bitmap)
    · exact Or.inr (Or.inr ⟨used, bn, weaker bn isReached, way⟩)
  distinct := grown.distinct
  outstanding := grown.outstanding

/-- One change after another. -/
theorem Grown.trans {i : Nat} {reached : Nat → Prop} {middle : Fs}
    (first : Grown geometry i reached fs middle) (second : Grown geometry i reached middle after) :
    Grown geometry i reached fs after where
  owned := second.owned
  kept j t used := by
    have same := first.kept j t used
    rw [second.kept j t (same ▸ used), same]
  added j t used empty := by
    by_cases already : middle.slot j t = 0
    · exact second.added j t used already
    · exact first.added j t already empty
  others j isOther := (second.others j isOther).trans (first.others j isOther)
  same := by rw [second.same, first.same]
  low c below := (second.low c below).trans (first.low c below)
  room := by
    have := first.room
    have := second.room
    omega
  logged c member := by
    obtain old | bitmap | fresh := second.logged c member
    · obtain older | bitmap | ⟨used, bn, isReached, way⟩ := first.logged c old
      · exact Or.inl older
      · exact Or.inr (Or.inl bitmap)
      · refine Or.inr (Or.inr ⟨used, bn, isReached, way.imp (fun here => ?_) (fun here => ?_)⟩)
        · rw [second.kept i _ (here ▸ used), here]
        · rw [second.kept i _ (here ▸ used), here]
    · exact Or.inr (Or.inl bitmap)
    · exact Or.inr (Or.inr fresh)
  distinct before := second.distinct (first.distinct before)
  outstanding := second.outstanding.trans first.outstanding

end Ownership

section Placing

variable {geometry : Geometry} {fs : Fs} (owned : Owned geometry fs) {i b : Nat}
  (inDisk : b < geometry.size) (isFree : fs.volume.inUse geometry.toSuperblock b = false)

include owned inDisk isFree

/-- Allocating a free block leaves all blocks that have a place alone. -/
theorem Owned.allocate_blocks {j t : Nat} (used : fs.slot j t ≠ 0) :
    (fs.volume.allocate geometry.toSuperblock b).blocks (fs.slot j t) =
      fs.volume.blocks (fs.slot j t) := by
  obtain ⟨-, -, nowhere⟩ := owned.free inDisk isFree
  have isData := (owned.inData j t used).1
  exact allocate_blocks_of_ne _ _ (nowhere j t) (bblock_ne geometry inDisk isData).symm

/-- Allocating a block leaves the inodes on the disk alone. -/
theorem allocate_low {c : Nat} (below : c < geometry.bmapstart) :
    (fs.volume.allocate geometry.toSuperblock b).blocks c = fs.volume.blocks c := by
  obtain ⟨isData, -, -⟩ := owned.free inDisk isFree
  have bitmap := geometry.bitmapFits b inDisk
  have start := bmapstart_le_bblock geometry.toSuperblock b
  exact allocate_blocks_of_ne _ _ (by omega) (by omega)

/-- The places after a free block was put into the array of addresses. -/
theorem slot_setAddr {k : Nat} (inArray : k ≤ ndirect) (empty : (fs.inodes i).addrs k = 0)
    (j t : Nat) :
    (fs.put i (fs.volume.allocate geometry.toSuperblock b) ((fs.inodes i).setAddr k b)).slot j t =
      if j = i ∧ t = k then b else fs.slot j t := by
  have small : b < 4294967296 := Nat.lt_trans inDisk geometry.addressable
  have sameBlock : ∀ j, fs.slot j ndirect ≠ 0 →
      (fs.volume.allocate geometry.toSuperblock b).blocks (fs.slot j ndirect) =
        fs.volume.blocks (fs.slot j ndirect) :=
    fun j used => owned.allocate_blocks inDisk isFree used
  by_cases isFile : j = i
  · subst isFile
    by_cases here : t = k
    · rw [if_pos ⟨rfl, here⟩, here, Fs.slot, Inode.slot, if_pos inArray]
      simp [Fs.put, Inode.setAddr, Nat.mod_eq_of_lt small]
    · rw [if_neg (fun both => here both.2)]
      by_cases isIndirect : k = ndirect
      · subst isIndirect
        -- A new indirect block is clear, and without one there are no entries.
        by_cases inArray : t ≤ ndirect
        · simp [Fs.slot, Inode.slot, inArray, Fs.put, Inode.setAddr, here]
        · simp [Fs.slot, Inode.slot, inArray, Fs.put, Inode.setAddr, empty,
            Nat.mod_eq_of_lt small, allocate_blocks_self]
      · refine Fs.slot_congr (fun other _ isOther => ?_) (sameBlock j)
        have different : other ≠ k := by
          rintro rfl
          exact isOther.elim (fun same => here same.symm) isIndirect
        simp [Fs.put, Inode.setAddr, different]
  · rw [if_neg (fun both => isFile both.1)]
    refine Fs.slot_congr (fun other _ _ => ?_) (sameBlock j)
    simp [Fs.put, isFile]

/-- The places after a free block was put into an entry of the indirect block. -/
theorem slot_setEntry {k : Nat} (inBlock : k < nindirect) (hasIndirect : fs.slot i ndirect ≠ 0)
    (j t : Nat) :
    (fs.put i ((fs.volume.allocate geometry.toSuperblock b).record (fs.slot i ndirect)
        (Function.update (fs.volume.blocks (fs.slot i ndirect)) k (BitVec.ofNat 32 b)))
        (fs.inodes i)).slot j t =
      if j = i ∧ t = ndirect + 1 + k then b else fs.slot j t := by
  have small : b < 4294967296 := Nat.lt_trans inDisk geometry.addressable
  by_cases isFile : j = i
  · subst isFile
    have hasAddr : (fs.inodes j).addrs ndirect ≠ 0#32 := by
      intro none
      rw [slot_indirect, none] at hasIndirect
      exact hasIndirect rfl
    by_cases inArray : t ≤ ndirect
    · rw [if_neg (by omega)]
      simp [Fs.slot, Inode.slot, inArray, Fs.put]
    · rw [slot_indirect]
      by_cases here : t = ndirect + 1 + k
      · have inEntries : ndirect + 1 + k ≤ ndirect + nindirect := by omega
        have notInArray : ¬ ndirect + 1 + k ≤ ndirect := by omega
        simp [here, Fs.slot, Inode.slot, Fs.put, inEntries, notInArray, hasAddr,
          Nat.mod_eq_of_lt small]
      · have elsewhere : t - (ndirect + 1) ≠ k := by omega
        simp [here, Fs.slot, Inode.slot, Fs.put, inArray, elsewhere]
  · rw [if_neg (fun both => isFile both.1)]
    refine Fs.slot_congr (fun other _ _ => ?_) (fun used => ?_)
    · simp [Fs.put]
    · have different : fs.slot j ndirect ≠ fs.slot i ndirect :=
        fun same => isFile (owned.apart j _ i _ used same).1
      simp only [Fs.put]
      rw [record_blocks_of_ne _ _ _ different]
      exact owned.allocate_blocks inDisk isFree used

/-- Putting a free block into a place on the way to what is reached. -/
theorem Owned.grown {after : Fs} {reached : Nat → Prop} {bn s : Nat} (isReached : reached bn)
    (isPlace : s ≤ maxfile) (way : s = dataSlot bn ∨ s = ndirect ∧ ndirect ≤ bn)
    (empty : fs.slot i s = 0)
    (slots : ∀ j t, after.slot j t = if j = i ∧ t = s then b else fs.slot j t)
    (marks : ∀ c, c < geometry.size → after.volume.inUse geometry.toSuperblock c =
      if c = b then true else fs.volume.inUse geometry.toSuperblock c)
    (others : ∀ j, j ≠ i → after.inodes j = fs.inodes j)
    (same : after.inodes i = { fs.inodes i with addrs := (after.inodes i).addrs })
    (low : ∀ c, c < geometry.bmapstart → after.volume.blocks c = fs.volume.blocks c)
    (logged : ∀ c ∈ after.volume.logged, c ∈ fs.volume.logged ∨ c = geometry.bblock b ∨ c = b ∨
      c ≠ 0 ∧ c = after.slot i ndirect)
    (distinct : fs.volume.logged.Nodup → after.volume.logged.Nodup)
    (outstanding : after.volume.outstanding = fs.volume.outstanding) :
    Grown geometry i reached fs after where
  owned := owned.place inDisk isFree empty slots marks
  kept j t used := by
    rw [slots, if_neg]
    rintro ⟨rfl, rfl⟩
    exact used empty
  added j t used unused := by
    rw [slots] at used
    split at used
    · rename_i here
      exact ⟨here.1, bn, isReached, here.2 ▸ way⟩
    · exact absurd unused used
  others := others
  same := same
  low := low
  room := by
    have spare : after.spare geometry.toSuperblock + 1 = fs.spare geometry.toSuperblock := by
      refine card_filter_range_of_place inDisk isFree ?_ (fun c inRange different => ?_)
      · rw [marks b inDisk, if_pos rfl]
        exact Bool.noConfusion
      · rw [marks c inRange, if_neg different]
    have vacant : after.vacant i + 1 = fs.vacant i := by
      refine card_filter_range_of_place (Nat.lt_succ_of_le isPlace) empty ?_
        (fun t _ different => ?_)
      · rw [slots, if_pos ⟨rfl, rfl⟩]
        exact Nat.ne_of_gt (owned.free inDisk isFree).2.1
      · rw [slots, if_neg (fun both => different both.2)]
    omega
  logged c member := by
    obtain ⟨-, positive, -⟩ := owned.free inDisk isFree
    have placed : after.slot i s = b := by rw [slots, if_pos ⟨rfl, rfl⟩]
    obtain old | bitmap | isNew | ⟨used, isIndirect⟩ := logged c member
    · exact Or.inl old
    · exact Or.inr (Or.inl ⟨b, inDisk, bitmap⟩)
    · refine Or.inr (Or.inr ⟨by omega, bn, isReached, ?_⟩)
      obtain isData | ⟨isIndirect, -⟩ := way
      · exact Or.inl (by rw [← isData, placed, isNew])
      · exact Or.inr (by rw [← isIndirect, placed, isNew])
    · exact Or.inr (Or.inr ⟨used, bn, isReached, Or.inr isIndirect⟩)
  distinct := distinct
  outstanding := outstanding

end Placing

section Mapping

variable {geometry : Geometry} {fs : Fs}

/-- `balloc` fails only when there are fewer free blocks than free places. -/
theorem spare_lt_vacant
    (full : ∀ b, b < geometry.size → fs.volume.inUse geometry.toSuperblock b = true)
    {i s : Nat} (isPlace : s ≤ maxfile) (empty : fs.slot i s = 0) :
    fs.spare geometry.toSuperblock < fs.vacant i := by
  have none : fs.spare geometry.toSuperblock = 0 := by
    refine Finset.card_eq_zero.mpr (Finset.filter_eq_empty_iff.mpr (fun b inDisk => ?_))
    simp [full b (Finset.mem_range.mp inDisk)]
  rw [none]
  refine Finset.card_pos.mpr ⟨s, ?_⟩
  simp [empty, Nat.lt_succ_of_le isPlace]

/-- A place of an inode was reached, and has a block. -/
structure Reached (geometry : Geometry) (i s : Nat) (reached : Nat → Prop) (fs after : Fs) :
    Prop where
  grown : Grown geometry i reached fs after
  data : SameData fs after
  used : after.slot i s ≠ 0
  idle : fs.slot i s ≠ 0 → after = fs

/-- A place that has a block is reached. -/
theorem Reached.refl (owned : Owned geometry fs) {i s : Nat} (used : fs.slot i s ≠ 0)
    (reached : Nat → Prop) : Reached geometry i s reached fs fs :=
  ⟨Grown.refl owned i reached, fun _ _ _ _ => rfl, used, fun _ => rfl⟩

/-- One change after another. -/
theorem SameData.trans {i : Nat} {reached : Nat → Prop} {middle after : Fs}
    (grown : Grown geometry i reached fs middle) (first : SameData fs middle)
    (second : SameData middle after) : SameData fs after := by
  intro j t used isData
  have same := grown.kept j t used
  have later := second j t (same ▸ used) isData
  rw [same] at later
  rw [later, first j t used isData]

/-- What allocating a block logs. -/
theorem logged_allocate (sb : Superblock) (volume : Volume) (b c : Nat)
    (member : c ∈ (volume.allocate sb b).logged) : c ∈ volume.logged ∨ c = sb.bblock b ∨ c = b := by
  rw [Volume.allocate, mem_record_logged, Volume.marked, mem_record_logged, or_assoc] at member
  exact member

/-- Putting back what is there. -/
@[simp] theorem put_self (fs : Fs) (i : Nat) : fs.put i fs.volume (fs.inodes i) = fs := by
  rw [Fs.put, Function.update_eq_self]

/-- The last inode that is put counts. -/
theorem put_put (fs : Fs) (i : Nat) (first second : Volume) (ip other : Inode) :
    (fs.put i first ip).put i second other = fs.put i second other := by
  simp [Fs.put]

/-- A place in the array of addresses is empty where the address is zero. -/
theorem addrs_eq_zero_iff (fs : Fs) (i : Nat) {k : Nat} (inArray : k ≤ ndirect) :
    (fs.inodes i).addrs k = 0 ↔ fs.slot i k = 0 := by
  rw [Fs.slot, Inode.slot, if_pos inArray]
  exact ⟨fun none => by rw [none]; rfl, fun none => BitVec.eq_of_toNat_eq none⟩

/-- Why the kernel panics while blocks of a file are reached: there are fewer free blocks than
the file lacks, or the log gets full on the way, or no operation is in progress. -/
inductive Stuck (geometry : Geometry) (i : Nat) (reached : Nat → Prop) (fs : Fs) : String → Prop
  | full (few : fs.spare geometry.toSuperblock < fs.vacant i) :
      Stuck geometry i reached fs outOfBlocks
  | crowded {last : Fs} (grown : Grown geometry i reached fs last)
      (little : geometry.logRoom ≤ last.volume.logged.length + 2) :
      Stuck geometry i reached fs tooBig
  | outside (none : fs.volume.outstanding = 0) : Stuck geometry i reached fs outsideTrans

/-- A panic of `log_write` itself. -/
theorem Stuck.of_refuses (owned : Owned geometry fs) {i more : Nat} {reached : Nat → Prop}
    {message : String} (refused : fs.volume.Refuses geometry.toSuperblock more message)
    (atMost : more ≤ 2) : Stuck geometry i reached fs message := by
  obtain ⟨rfl, little⟩ | ⟨rfl, none⟩ := refused
  · exact .crowded (Grown.refl owned i reached) (by omega)
  · exact .outside none

/-- A panic later on. -/
theorem Stuck.later {i : Nat} {reached : Nat → Prop} {middle : Fs} {message : String}
    (grown : Grown geometry i reached fs middle) (stuck : Stuck geometry i reached middle message) :
    Stuck geometry i reached fs message := by
  cases stuck with
  | full few =>
    have room := grown.room
    exact .full (by omega)
  | crowded later little => exact .crowded (grown.trans later) little
  | outside none => exact .outside (grown.outstanding ▸ none)

/-- More may be reached. -/
theorem Stuck.mono {i : Nat} {reached wider : Nat → Prop} {message : String}
    (stuck : Stuck geometry i reached fs message) (weaker : ∀ bn, reached bn → wider bn) :
    Stuck geometry i wider fs message := by
  cases stuck with
  | full few => exact .full few
  | crowded grown little => exact .crowded (grown.mono weaker) little
  | outside none => exact .outside none

/-- A panic of `balloc` for a place that is empty. -/
theorem Stuck.of_balloc (owned : Owned geometry fs) {i s : Nat} {reached : Nat → Prop}
    (isPlace : s ≤ maxfile) (empty : fs.slot i s = 0) {message : String}
    (failed : message = outOfBlocks ∧
        (∀ b, b < geometry.size → fs.volume.inUse geometry.toSuperblock b = true) ∨
      fs.volume.Refuses geometry.toSuperblock 1 message) :
    Stuck geometry i reached fs message := by
  obtain ⟨rfl, full⟩ | refused := failed
  · exact .full (spare_lt_vacant full isPlace empty)
  · exact .of_refuses owned refused (by decide)

/-- A place in the array of addresses is reached. -/
theorem ensureAddr_ensures (owned : Owned geometry fs) (i : Nat) {k : Nat} (inArray : k ≤ ndirect)
    (reached : Nat → Prop) {bn : Nat} (isReached : reached bn)
    (way : k = dataSlot bn ∨ k = ndirect ∧ ndirect ≤ bn) :
    Ensures (Stuck geometry i reached fs)
      (fun result => Reached geometry i k reached fs (fs.put i result.1 result.2))
      (ensureAddr geometry.toSuperblock fs.volume (fs.inodes i) k) := by
  have isPlace : k ≤ maxfile := Nat.le_trans inArray (by decide)
  rw [ensureAddr]
  split
  · rename_i empty
    have noBlock := (addrs_eq_zero_iff fs i inArray).mp empty
    refine (balloc_ensures geometry.toSuperblock fs.volume).followedBy
      (fun _ failed => .of_balloc owned isPlace noBlock failed) ?_
    rintro _ ⟨b, inDisk, isFree, rfl⟩
    have isData := (owned.free inDisk isFree).1
    have slots := slot_setAddr owned (i := i) inDisk isFree inArray empty
    refine ensures_pure ⟨owned.grown inDisk isFree isReached isPlace way noBlock slots
      (fun c inRange => inUse_allocate geometry fs.volume isData inRange)
      (fun j isOther => Function.update_of_ne isOther _ _) ?_
      (fun c below => allocate_low owned inDisk isFree below) (fun c member => ?_)
      (nodup_allocate _ _ _) rfl,
      fun j t used _ => owned.allocate_blocks inDisk isFree used, ?_,
      fun used => absurd noBlock used⟩
    · simp [Fs.put, Inode.setAddr]
    · obtain old | bitmap | isNew := logged_allocate _ _ _ _ member
      · exact Or.inl old
      · exact Or.inr (Or.inl bitmap)
      · exact Or.inr (Or.inr (Or.inl isNew))
    · rw [slots, if_pos ⟨rfl, rfl⟩]
      exact Nat.ne_of_gt (owned.free inDisk isFree).2.1
  · rename_i hasAddr
    refine ensures_pure ?_
    rw [put_self]
    exact Reached.refl owned (fun none => hasAddr ((addrs_eq_zero_iff fs i inArray).mpr none)) _

/-- An entry of the indirect block. -/
theorem entry_slot (fs : Fs) (i : Nat) (hasIndirect : (fs.inodes i).addrs ndirect ≠ 0) {k : Nat}
    (inBlock : k < nindirect) :
    (fs.volume.blocks (fs.slot i ndirect) k).toNat = fs.slot i (ndirect + 1 + k) := by
  rw [slot_indirect, Fs.slot, Inode.slot, if_neg (by omega), if_pos ⟨by omega, hasIndirect⟩,
    Nat.add_sub_cancel_left]

/-- An entry of the indirect block is reached. -/
theorem ensureEntry_ensures (owned : Owned geometry fs) (i : Nat) {k : Nat}
    (inBlock : k < nindirect) (hasIndirect : fs.slot i ndirect ≠ 0) (reached : Nat → Prop)
    (isReached : reached (ndirect + k)) :
    Ensures (Stuck geometry i reached fs)
      (fun result => result.2 = (fs.put i result.1 (fs.inodes i)).slot i (ndirect + 1 + k) ∧
        Reached geometry i (ndirect + 1 + k) reached fs (fs.put i result.1 (fs.inodes i)))
      (ensureEntry geometry.toSuperblock fs.volume (fs.slot i ndirect) k) := by
  have isPlace : ndirect + 1 + k ≤ maxfile := by simp only [maxfile]; omega
  have way : ndirect + 1 + k = dataSlot (ndirect + k) := by
    rw [dataSlot, if_neg (by omega)]
    omega
  have entry := entry_slot fs i
    (fun none => hasIndirect ((addrs_eq_zero_iff fs i (Nat.le_refl _)).mp none)) inBlock
  simp only [ensureEntry]
  split
  · rename_i empty
    have noBlock : fs.slot i (ndirect + 1 + k) = 0 := by rw [← entry, empty]; rfl
    refine (balloc_ensures geometry.toSuperblock fs.volume).followedBy
      (fun _ failed => .of_balloc owned isPlace noBlock failed) ?_
    rintro _ ⟨b, inDisk, isFree, rfl⟩
    -- The block is allocated when `log_write` looks at the log for the third time.
    refine logWrite_ensures.followedBy
      (fun _ refused => .of_refuses owned refused.before.before (by decide)) ?_
    rintro _ rfl
    have isData := (owned.free inDisk isFree).1
    have slots := slot_setEntry owned (i := i) inDisk isFree inBlock hasIndirect
    have indirect := owned.inData i ndirect hasIndirect
    refine ensures_pure ⟨?_, owned.grown inDisk isFree isReached isPlace (Or.inl way) noBlock slots
      (fun c inRange => ?_) (fun j isOther => Function.update_of_ne isOther _ _) ?_
      (fun c below => ?_) (fun c member => ?_)
      (fun distinct => nodup_record_logged _ _ _ (nodup_allocate _ _ _ distinct)) rfl,
      fun j t used isContents => ?_, ?_, fun used => absurd noBlock used⟩
    · exact ((slots i _).trans (if_pos ⟨rfl, rfl⟩)).symm
    · simp only [Fs.put]
      rw [inUse_record geometry _ _ inRange indirect.1, inUse_allocate geometry _ isData inRange]
    · simp [Fs.put]
    · have bitmap := geometry.bitmapFits b inDisk
      have start := bmapstart_le_bblock geometry.toSuperblock b
      simp only [Fs.put]
      rw [record_blocks_of_ne _ _ _ (by omega), allocate_low owned inDisk isFree below]
    · simp only [Fs.put, mem_record_logged] at member
      obtain earlier | isIndirect := member
      · obtain old | bitmap | isNew := logged_allocate _ _ _ _ earlier
        · exact Or.inl old
        · exact Or.inr (Or.inl bitmap)
        · exact Or.inr (Or.inr (Or.inl isNew))
      · refine Or.inr (Or.inr (Or.inr ⟨isIndirect ▸ hasIndirect, ?_⟩))
        rw [slots, if_neg (by omega), isIndirect]
    · have different : fs.slot j t ≠ fs.slot i ndirect :=
        fun same => isContents (owned.apart j t i ndirect used same).2
      simp only [Fs.put]
      rw [record_blocks_of_ne _ _ _ different, owned.allocate_blocks inDisk isFree used]
    · rw [slots, if_pos ⟨rfl, rfl⟩]
      exact Nat.ne_of_gt (owned.free inDisk isFree).2.1
  · rename_i hasEntry
    refine ensures_pure ?_
    rw [put_self]
    refine ⟨entry, Reached.refl owned (fun none => hasEntry ?_) _⟩
    rw [← entry] at none
    exact BitVec.eq_of_toNat_eq none

/-- `bmap` reaches the block of the contents it is asked for. -/
theorem bmap_ensures (owned : Owned geometry fs) (i : Nat) {bn : Nat} (inFile : bn < maxfile) :
    Ensures (Stuck geometry i (· = bn) fs)
      (fun result => result.2.2 = (fs.put i result.1 result.2.1).slot i (dataSlot bn) ∧
        Reached geometry i (dataSlot bn) (· = bn) fs (fs.put i result.1 result.2.1))
      (bmap geometry.toSuperblock fs.volume (fs.inodes i) bn) := by
  rw [bmap]
  by_cases isDirect : bn < ndirect
  · have place : dataSlot bn = bn := by rw [dataSlot, if_pos isDirect]
    rw [if_pos isDirect]
    refine Ensures.bind (ensureAddr_ensures owned i (Nat.le_of_lt isDirect) (· = bn) rfl
      (Or.inl place.symm)) ?_
    rintro ⟨volume, ip⟩ here
    refine ensures_pure ⟨?_, place.symm ▸ here⟩
    simp [place, Fs.slot, Inode.slot, Nat.le_of_lt isDirect, Fs.put]
  · obtain ⟨k, rfl⟩ := Nat.exists_eq_add_of_le (Nat.not_lt.mp isDirect)
    have inBlock : k < nindirect := by simp only [maxfile] at inFile; omega
    have place : dataSlot (ndirect + k) = ndirect + 1 + k := by
      rw [dataSlot, if_neg isDirect]
      omega
    rw [if_neg isDirect, Nat.add_sub_cancel_left, if_pos inBlock]
    refine Ensures.bind (ensureAddr_ensures owned i (Nat.le_refl ndirect) (· = ndirect + k) rfl
      (Or.inr ⟨rfl, Nat.le_add_right ..⟩)) ?_
    rintro ⟨first, ip⟩ there
    have sameInode : (fs.put i first ip).inodes i = ip := Function.update_self ..
    have indirect : (fs.put i first ip).slot i ndirect = (ip.addrs ndirect).toNat := by
      rw [slot_indirect, sameInode]
    have entered := ensureEntry_ensures there.grown.owned i inBlock there.used (· = ndirect + k) rfl
    simp only [indirect, sameInode, put_put] at entered
    refine entered.followedBy (fun _ stuck => stuck.later there.grown) ?_
    rintro ⟨volume, address⟩ ⟨isSlot, here⟩
    refine ensures_pure ⟨by rw [place]; exact isSlot, there.grown.trans here.grown,
      there.data.trans there.grown here.data, by rw [place]; exact here.used, fun used => ?_⟩
    -- An entry is there only in an indirect block that is there.
    rw [place] at used
    have hasIndirect : fs.slot i ndirect ≠ 0 := by
      intro none
      rw [← addrs_eq_zero_iff fs i (Nat.le_refl _)] at none
      exact used (by rw [Fs.slot, Inode.slot, if_neg (by omega), if_neg (by simp [none])])
    have same := there.idle hasIndirect
    rw [same] at here
    exact here.idle used

end Mapping

end OsLabwork.Kernel.Inodes
