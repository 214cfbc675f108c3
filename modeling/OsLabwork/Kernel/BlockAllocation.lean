import OsLabwork.Kernel.Inodes
import OsLabwork.Library.Outcomes

/-!
# Finding a free block

`balloc` looks through the bitmap for a bit that is not set, and sets it. It finds one exactly
when some block is free. Every change goes through `log_write`, which panics when the log is
full; what that depends on is how many blocks have been logged.
-/

namespace OsLabwork.Kernel.Inodes

open Logging Outcomes WordMemory

/-- A disk whose inodes and bitmap are before the first data block. -/
structure Geometry extends Superblock where
  ninodes : Nat
  datastart : Nat
  inodesFit : ∀ inum, inum < ninodes → toSuperblock.iblock inum < bmapstart
  bitmapFits : ∀ b, b < size → toSuperblock.bblock b < datastart
  dataFits : datastart ≤ size
  addressable : size < 2 ^ 32

/-- Whether the bitmap says that a block is in use. -/
def Volume.inUse (sb : Superblock) (volume : Volume) (b : Nat) : Bool :=
  bitAt (volume.blocks (sb.bblock b)) (b % bpb)

/-! ## The log -/

section Log

variable (sb : Superblock) (volume : Volume) (address : Nat) (block : Block)

/-- The block that is changed has its new data. -/
@[simp] theorem record_blocks_self : (volume.record address block).blocks address = block :=
  Function.update_self ..

/-- The other blocks have what they had. -/
theorem record_blocks_of_ne {other : Nat} (different : other ≠ address) :
    (volume.record address block).blocks other = volume.blocks other :=
  Function.update_of_ne different ..

/-- The block is logged, and those before it. -/
theorem mem_record_logged (c : Nat) :
    c ∈ (volume.record address block).logged ↔ c ∈ volume.logged ∨ c = address := by
  simp only [Volume.record]
  split
  · rename_i already
    exact ⟨Or.inl, fun either => either.elim id (fun same => same ▸ already)⟩
  · rw [List.mem_append, List.mem_singleton]

/-- Every block is logged once. -/
theorem nodup_record_logged (distinct : volume.logged.Nodup) :
    (volume.record address block).logged.Nodup := by
  simp only [Volume.record]
  split
  · exact distinct
  · rename_i isNew
    exact List.nodup_append.mpr ⟨distinct, List.nodup_singleton _, fun c member other isAddress =>
      fun same => isNew (List.mem_singleton.mp isAddress ▸ same ▸ member)⟩

/-- The log gets longer by one block at most. -/
theorem length_record_logged :
    (volume.record address block).logged.length ≤ volume.logged.length + 1 := by
  simp only [Volume.record]
  split
  · exact Nat.le_succ _
  · rw [List.length_append, List.length_singleton]

/-- How many blocks an operation may log before `log_write` panics. -/
def Superblock.logRoom : Nat := min logsize (sb.nlog - 1)

/-- Why `log_write` panics, where up to `more` blocks have been logged since. -/
def Volume.Refuses (more : Nat) (message : String) : Prop :=
  message = tooBig ∧ sb.logRoom ≤ volume.logged.length + more ∨
    message = outsideTrans ∧ volume.outstanding = 0

variable {sb volume address block}

/-- `log_write` records the block, or panics for one of its two reasons. -/
theorem logWrite_ensures : Ensures (volume.Refuses sb 0) (· = volume.record address block)
    (volume.logWrite sb address block) := by
  rw [Volume.logWrite]
  split
  · rename_i crowded
    exact Or.inl ⟨rfl, by rw [Superblock.logRoom]; omega⟩
  · split
    · rename_i none
      exact Or.inr ⟨rfl, by omega⟩
    · rfl

/-- More may have been logged. -/
theorem Volume.Refuses.mono {fewer more : Nat} {message : String}
    (refused : volume.Refuses sb fewer message) (less : fewer ≤ more) :
    volume.Refuses sb more message :=
  refused.imp_left (fun crowded => ⟨crowded.1, by have := crowded.2; omega⟩)

/-- A panic after one more block was logged. -/
theorem Volume.Refuses.before {more : Nat} {message : String}
    (refused : (volume.record address block).Refuses sb more message) :
    volume.Refuses sb (more + 1) message := by
  have longer := length_record_logged volume address block
  exact refused.imp_left (fun crowded => ⟨crowded.1, by have := crowded.2; omega⟩)

end Log

/-! ## Free blocks -/

section Allocation

variable {sb : Superblock}

/-- A bit that the inner loop finds is clear. -/
theorem scanBits_some {block : Block} {b rounds bi found : Nat}
    (scanned : scanBits sb block b rounds bi = some found) :
    bi ≤ found ∧ found < bi + rounds ∧ b + found < sb.size ∧ bitAt block found = false := by
  induction rounds generalizing bi with
  | zero => simp [scanBits] at scanned
  | succ rounds inductionHypothesis =>
    rw [scanBits] at scanned
    split at scanned
    · rename_i inDisk
      split at scanned
      · rename_i isFree
        obtain rfl := Option.some.inj scanned
        exact ⟨Nat.le_refl _, by omega, inDisk, isFree⟩
      · obtain ⟨lower, upper, rest⟩ := inductionHypothesis scanned
        exact ⟨by omega, by omega, rest⟩
    · cases scanned

/-- Where the inner loop finds nothing, all bits are set. -/
theorem scanBits_none {block : Block} {b rounds bi : Nat}
    (scanned : scanBits sb block b rounds bi = none) (other : Nat) (lower : bi ≤ other)
    (upper : other < bi + rounds) (inDisk : b + other < sb.size) : bitAt block other = true := by
  induction rounds generalizing bi with
  | zero => omega
  | succ rounds inductionHypothesis =>
    rw [scanBits, if_pos (by omega)] at scanned
    split at scanned
    · cases scanned
    · rename_i notFree
      by_cases first : other = bi
      · rw [first]
        exact Bool.eq_true_of_not_eq_false notFree
      · exact inductionHypothesis scanned (by omega) (by omega)

/-- A bit that the outer loop finds is clear. -/
theorem scanBlocks_some {volume : Volume} {rounds b base bi : Nat} (aligned : b % bpb = 0)
    (scanned : scanBlocks sb volume rounds b = some (base, bi)) :
    base % bpb = 0 ∧ bi < bpb ∧ base + bi < sb.size ∧
      bitAt (volume.blocks (sb.bblock base)) bi = false := by
  induction rounds generalizing b with
  | zero => simp [scanBlocks] at scanned
  | succ rounds inductionHypothesis =>
    rw [scanBlocks] at scanned
    split at scanned
    · split at scanned
      · rename_i found inBlock
        obtain ⟨rfl, rfl⟩ := Prod.mk.inj (Option.some.inj scanned)
        obtain ⟨-, small, inDisk, isFree⟩ := scanBits_some inBlock
        exact ⟨aligned, by omega, inDisk, isFree⟩
      · exact inductionHypothesis (by rw [Nat.add_mod_right, aligned]) scanned
    · cases scanned

/-- The bitmap starts where the superblock has it. -/
theorem bmapstart_le_bblock (sb : Superblock) (b : Nat) : sb.bmapstart ≤ sb.bblock b :=
  Nat.le_add_left ..

/-- A block and the bit for it, from what the loops count. -/
theorem bblock_add (sb : Superblock) {b bi : Nat} (aligned : b % bpb = 0) (small : bi < bpb) :
    sb.bblock (b + bi) = sb.bblock b ∧ (b + bi) % bpb = bi := by
  simp only [Superblock.bblock, bpb, bsize] at *
  omega

/-- Where the outer loop finds nothing, all blocks are in use. -/
theorem scanBlocks_none {volume : Volume} {rounds b : Nat} (aligned : b % bpb = 0)
    (enough : sb.size ≤ b + rounds) (scanned : scanBlocks sb volume rounds b = none)
    (other : Nat) (lower : b ≤ other) (inDisk : other < sb.size) :
    volume.inUse sb other = true := by
  induction rounds generalizing b with
  | zero => omega
  | succ rounds inductionHypothesis =>
    rw [scanBlocks, if_pos (by omega)] at scanned
    split at scanned
    · cases scanned
    · rename_i inBlock
      have positive : 0 < bpb := by decide
      by_cases here : other < b + bpb
      · obtain ⟨bi, rfl⟩ := Nat.exists_eq_add_of_le lower
        obtain ⟨sameBlock, sameBit⟩ := bblock_add sb aligned (by omega : bi < bpb)
        rw [Volume.inUse, sameBlock, sameBit]
        exact scanBits_none inBlock bi (Nat.zero_le _) (by omega) inDisk
      · exact inductionHypothesis (by rw [Nat.add_mod_right, aligned]) (by omega) scanned
          (by omega)

/-- The volume with a block marked as in use, or as free. -/
def Volume.marked (volume : Volume) (bitmap bi : Nat) (inUse : Bool) : Volume :=
  volume.record bitmap (setBit (volume.blocks bitmap) bi inUse)

/-- The volume with a block marked as in use and cleared. -/
def Volume.allocate (sb : Superblock) (volume : Volume) (b : Nat) : Volume :=
  (volume.marked (sb.bblock b) (b % bpb) true).record b (fun _ => 0)

/-- `balloc` allocates a block that is free. It panics when every block is in use, or for want
of room in the log, where it logs two blocks. -/
theorem balloc_ensures (sb : Superblock) (volume : Volume) :
    Ensures
      (fun message => message = outOfBlocks ∧ (∀ b, b < sb.size → volume.inUse sb b = true) ∨
        volume.Refuses sb 1 message)
      (fun found => ∃ b, b < sb.size ∧ volume.inUse sb b = false ∧
        found = (volume.allocate sb b, b))
      (balloc sb volume) := by
  rw [balloc]
  cases scanned : scanBlocks sb volume sb.size 0 with
  | none =>
    refine Or.inl ⟨rfl, fun b inDisk => ?_⟩
    exact scanBlocks_none (Nat.zero_mod _) (by omega) scanned b (Nat.zero_le _) inDisk
  | some found =>
    obtain ⟨b, bi⟩ := found
    obtain ⟨aligned, small, inDisk, isFree⟩ := scanBlocks_some (Nat.zero_mod _) scanned
    obtain ⟨sameBlock, sameBit⟩ := bblock_add sb aligned small
    refine logWrite_ensures.followedBy
      (fun _ refused => Or.inr (refused.mono (Nat.zero_le _))) ?_
    rintro _ rfl
    refine logWrite_ensures.followedBy
      (fun _ refused => Or.inr refused.before) ?_
    rintro _ rfl
    refine ⟨b + bi, inDisk, ?_, ?_⟩
    · rw [Volume.inUse, sameBlock, sameBit]
      exact isFree
    · rw [Volume.allocate, Volume.marked, sameBlock, sameBit]

end Allocation

section Geometry

variable (geometry : Geometry)

/-- Two blocks with bits in one block of the bitmap have different bits. -/
theorem bblock_eq_iff {b c : Nat} (sameBlock : geometry.bblock b = geometry.bblock c) :
    b % bpb = c % bpb ↔ b = c := by
  simp only [Superblock.bblock, bpb, bsize] at *
  omega

/-- Marking a block changes its bit only. -/
theorem inUse_marked (volume : Volume) (b c : Nat) (value : Bool) :
    (volume.marked (geometry.bblock b) (b % bpb) value).inUse geometry.toSuperblock c =
      if c = b then value else volume.inUse geometry.toSuperblock c := by
  simp only [Volume.inUse, Volume.marked, Volume.record]
  by_cases sameBlock : geometry.bblock c = geometry.bblock b
  · simp only [sameBlock, Function.update_self, bitAt_setBit, bblock_eq_iff geometry sameBlock]
  · have different : c ≠ b := fun same => sameBlock (by rw [same])
    rw [Function.update_of_ne sameBlock, if_neg different]

/-- A block of the data area is not part of the bitmap. -/
theorem bblock_ne {b c : Nat} (inDisk : b < geometry.size) (isData : geometry.datastart ≤ c) :
    geometry.bblock b ≠ c := by
  have := geometry.bitmapFits b inDisk
  omega

/-- Changes to the data area leave the bitmap alone. -/
theorem inUse_record (volume : Volume) {address c : Nat} (block : Block)
    (inDisk : c < geometry.size) (isData : geometry.datastart ≤ address) :
    (volume.record address block).inUse geometry.toSuperblock c =
      volume.inUse geometry.toSuperblock c := by
  simp only [Volume.inUse, Volume.record, Function.update_of_ne (bblock_ne geometry inDisk isData)]

/-- Allocating a block sets its bit and no other. -/
theorem inUse_allocate (volume : Volume) {b c : Nat} (isData : geometry.datastart ≤ b)
    (inDisk : c < geometry.size) :
    (volume.allocate geometry.toSuperblock b).inUse geometry.toSuperblock c =
      if c = b then true else volume.inUse geometry.toSuperblock c := by
  rw [Volume.allocate, inUse_record geometry _ _ inDisk isData, inUse_marked]

/-- A block that is allocated is clear. -/
theorem allocate_blocks_self (sb : Superblock) (volume : Volume) (b : Nat) :
    (volume.allocate sb b).blocks b = fun _ => 0 :=
  Function.update_self ..

/-- Allocating changes the block and its part of the bitmap. -/
theorem allocate_blocks_of_ne (sb : Superblock) (volume : Volume) {b c : Nat} (different : c ≠ b)
    (notBitmap : c ≠ sb.bblock b) : (volume.allocate sb b).blocks c = volume.blocks c := by
  rw [Volume.allocate, record_blocks_of_ne _ _ _ different, Volume.marked,
    record_blocks_of_ne _ _ _ notBitmap]

/-- Allocating a block logs every block once. -/
theorem nodup_allocate (sb : Superblock) (volume : Volume) (b : Nat)
    (distinct : volume.logged.Nodup) : (volume.allocate sb b).logged.Nodup :=
  nodup_record_logged _ _ _ (nodup_record_logged _ _ _ distinct)

end Geometry

end OsLabwork.Kernel.Inodes
