import OsLabwork.Kernel.FileContents

/-!
# Inodes on the disk, and freeing the blocks of a file

`iupdate` changes the words of one inode on the disk, and `ilock` reads them back. `itrunc` frees
exactly the blocks of its file, each once, so it never finds one of them free. All it logs is the
bitmap and the block of the inode.
-/

namespace OsLabwork.Kernel.Inodes

open Logging Outcomes WordMemory

/-- Two inodes with the same fields. -/
structure Inode.Same (first second : Inode) : Prop where
  type : first.type = second.type
  major : first.major = second.major
  minor : first.minor = second.minor
  nlink : first.nlink = second.nlink
  size : first.size = second.size
  addrs : ∀ k, k ≤ ndirect → first.addrs k = second.addrs k

section Update

variable (sb : Superblock) (volume : Volume) (inum : Nat) (ip : Inode)

/-- The volume with an inode copied to the disk. -/
def storeInode : Volume := volume.record (sb.iblock inum) (inodeBlock sb volume inum ip)

/-- Storing an inode changes its block only. -/
theorem storeInode_blocks_of_ne {address : Nat} (different : address ≠ sb.iblock inum) :
    (storeInode sb volume inum ip).blocks address = volume.blocks address :=
  record_blocks_of_ne _ _ _ different

/-- What `iupdate` wrote is what `ilock` reads. -/
theorem readInode_storeInode_self : (readInode sb (storeInode sb volume inum ip) inum).Same ip := by
  have word : ∀ k, k < 16 →
      (storeInode sb volume inum ip).blocks (sb.iblock inum) (inum % ipb * 16 + k) = ip.words k := by
    intro k small
    simp only [storeInode, record_blocks_self, inodeBlock]
    rw [if_pos (by omega), Nat.add_sub_cancel_left]
  constructor
  · simp only [readInode, Inode.ofWords, word 0 (by decide), Inode.words]
    exact BitVec.extractLsb'_append_eq_right
  · simp only [readInode, Inode.ofWords, word 0 (by decide), Inode.words]
    exact BitVec.extractLsb'_append_eq_left
  · simp only [readInode, Inode.ofWords, word 1 (by decide), Inode.words]
    exact BitVec.extractLsb'_append_eq_right
  · simp only [readInode, Inode.ofWords, word 1 (by decide), Inode.words]
    exact BitVec.extractLsb'_append_eq_left
  · simp only [readInode, Inode.ofWords, word 2 (by decide), Inode.words]
  · intro k inArray
    simp only [ndirect] at inArray
    simp only [readInode, Inode.ofWords, word (k + 3) (by omega), Inode.words]

/-- The words of other inodes stay. -/
theorem readInode_storeInode_of_ne {other : Nat} (different : other ≠ inum) :
    (readInode sb (storeInode sb volume inum ip) other).Same (readInode sb volume other) := by
  have word : ∀ k, k < 16 →
      (storeInode sb volume inum ip).blocks (sb.iblock other) (other % ipb * 16 + k) =
        volume.blocks (sb.iblock other) (other % ipb * 16 + k) := by
    intro k small
    by_cases sameBlock : sb.iblock other = sb.iblock inum
    · simp only [storeInode, sameBlock, record_blocks_self, inodeBlock]
      rw [if_neg]
      simp only [Superblock.iblock, ipb, bsize] at *
      omega
    · rw [storeInode_blocks_of_ne sb volume inum ip sameBlock]
  constructor
  · simp only [readInode, Inode.ofWords, word 0 (by decide)]
  · simp only [readInode, Inode.ofWords, word 0 (by decide)]
  · simp only [readInode, Inode.ofWords, word 1 (by decide)]
  · simp only [readInode, Inode.ofWords, word 1 (by decide)]
  · simp only [readInode, Inode.ofWords, word 2 (by decide)]
  · intro k inArray
    simp only [ndirect] at inArray
    simp only [readInode, Inode.ofWords, Nat.add_comm k 3, word (3 + k) (by omega)]

end Update

section Freeing

variable (sb : Superblock)

/-- The volume with blocks marked as free. -/
def releaseAll (volume : Volume) (bs : List Nat) : Volume :=
  bs.foldl (fun volume b => volume.marked (sb.bblock b) (b % bpb) false) volume

/-- The blocks that a list of places has. -/
def blocksAt (a : Nat → BitVec 32) (places : List Nat) : List Nat :=
  (places.map (fun k => (a k).toNat)).filter (fun b => b ≠ 0)

/-- Freeing blocks changes their parts of the bitmap only. -/
theorem releaseAll_blocks {volume : Volume} {bs : List Nat} {c : Nat}
    (notBitmap : ∀ b ∈ bs, c ≠ sb.bblock b) :
    (releaseAll sb volume bs).blocks c = volume.blocks c := by
  induction bs generalizing volume with
  | nil => rfl
  | cons b rest inductionHypothesis =>
    rw [releaseAll, List.foldl_cons]
    refine (inductionHypothesis (fun other member => notBitmap other (by simp [member]))).trans ?_
    exact record_blocks_of_ne _ _ _ (notBitmap b (by simp))

/-- Blocks that are freed one after the other. -/
theorem releaseAll_append (volume : Volume) (first second : List Nat) :
    releaseAll sb (releaseAll sb volume first) second = releaseAll sb volume (first ++ second) := by
  rw [releaseAll, releaseAll, releaseAll, List.foldl_append]

/-- What freeing blocks logs is the bitmap, each block of it once. -/
theorem releaseAll_logged (volume : Volume) (bs : List Nat) :
    (∀ c ∈ (releaseAll sb volume bs).logged, c ∈ volume.logged ∨ ∃ b ∈ bs, c = sb.bblock b) ∧
      (volume.logged.Nodup → (releaseAll sb volume bs).logged.Nodup) ∧
      (releaseAll sb volume bs).outstanding = volume.outstanding := by
  induction bs generalizing volume with
  | nil => exact ⟨fun _ => Or.inl, id, rfl⟩
  | cons b rest inductionHypothesis =>
    rw [releaseAll, List.foldl_cons]
    obtain ⟨within, distinct, outstanding⟩ :=
      inductionHypothesis (volume.marked (sb.bblock b) (b % bpb) false)
    refine ⟨fun c member => ?_, fun before => distinct (nodup_record_logged _ _ _ before),
      outstanding⟩
    obtain earlier | ⟨other, isLater, here⟩ := within c member
    · obtain old | isFirst := (mem_record_logged ..).mp earlier
      · exact Or.inl old
      · exact Or.inr ⟨b, List.mem_cons_self, isFirst⟩
    · exact Or.inr ⟨other, List.mem_cons_of_mem _ isLater, here⟩

/-- Freeing these blocks ends at a panic of `log_write`, after some of them. -/
def Interrupted (volume : Volume) (bs : List Nat) (message : String) : Prop :=
  ∃ freed, freed ⊆ bs ∧ (releaseAll sb volume freed).Refuses sb 0 message

variable {sb}

/-- The panic is at one of the first blocks. -/
theorem Interrupted.left {volume : Volume} {first : List Nat} {message : String}
    (interrupted : Interrupted sb volume first message) (second : List Nat) :
    Interrupted sb volume (first ++ second) message := by
  obtain ⟨freed, among, refused⟩ := interrupted
  exact ⟨freed, fun _ member => List.mem_append_left _ (among member), refused⟩

/-- The panic is at one of the later blocks. -/
theorem Interrupted.right {volume : Volume} {first second : List Nat} {message : String}
    (interrupted : Interrupted sb (releaseAll sb volume first) second message) :
    Interrupted sb volume (first ++ second) message := by
  obtain ⟨freed, among, refused⟩ := interrupted
  rw [releaseAll_append] at refused
  exact ⟨first ++ freed, List.append_subset.mpr ⟨List.subset_append_left _ _,
    fun _ member => List.mem_append_right _ (among member)⟩, refused⟩

/-- The panic is at the next block. -/
theorem Interrupted.here {volume : Volume} {message : String}
    (refused : volume.Refuses sb 0 message) (bs : List Nat) : Interrupted sb volume bs message :=
  ⟨[], List.nil_subset _, refused⟩

end Freeing

variable {geometry : Geometry} {fs : Fs}

/-- The bits of the blocks are cleared, and no others. -/
theorem inUse_releaseAll (volume : Volume) (bs : List Nat) (c : Nat) :
    (releaseAll geometry.toSuperblock volume bs).inUse geometry.toSuperblock c =
      if c ∈ bs then false else volume.inUse geometry.toSuperblock c := by
  induction bs generalizing volume with
  | nil => simp [releaseAll]
  | cons b rest inductionHypothesis =>
    rw [releaseAll, List.foldl_cons]
    refine (inductionHypothesis _).trans ?_
    rw [inUse_marked]
    by_cases isFirst : c = b
    · simp [isFirst]
    · simp [isFirst]

/-- `bfree` frees a block that is in use. -/
theorem bfree_ensures {volume : Volume} {b : Nat}
    (inUse : volume.inUse geometry.toSuperblock b = true) :
    Ensures (volume.Refuses geometry.toSuperblock 0)
      (· = volume.marked (geometry.bblock b) (b % bpb) false)
      (bfree geometry.toSuperblock volume b) := by
  rw [Volume.inUse] at inUse
  rw [bfree, if_neg (by simp [inUse])]
  exact logWrite_ensures

/-- Blocks that are all in use are freed one after the other. -/
theorem freeEntries_ensures (a : Nat → BitVec 32) (places : List Nat) (volume : Volume)
    (distinct : (blocksAt a places).Nodup)
    (used : ∀ b ∈ blocksAt a places, volume.inUse geometry.toSuperblock b = true) :
    Ensures (Interrupted geometry.toSuperblock volume (blocksAt a places))
      (· = releaseAll geometry.toSuperblock volume (blocksAt a places))
      (freeEntries geometry.toSuperblock a places volume) := by
  induction places generalizing volume with
  | nil => exact ensures_pure rfl
  | cons k rest inductionHypothesis =>
    by_cases none : a k = 0
    · have same : blocksAt a (k :: rest) = blocksAt a rest := by simp [blocksAt, none]
      rw [same] at distinct used ⊢
      rw [freeEntries, if_pos none]
      exact inductionHypothesis volume distinct used
    · have notZero : (a k).toNat ≠ 0 := fun zero => none (BitVec.eq_of_toNat_eq zero)
      have split : blocksAt a (k :: rest) = [(a k).toNat] ++ blocksAt a rest := by
        simp [blocksAt, notZero]
      rw [split] at distinct used ⊢
      obtain ⟨notLater, laterDistinct⟩ := List.nodup_cons.mp distinct
      rw [freeEntries, if_neg none, ← releaseAll_append]
      refine (bfree_ensures (used (a k).toNat (by simp))).followedBy
        (fun _ refused => .here refused _) ?_
      rintro _ rfl
      refine (inductionHypothesis _ laterDistinct (fun b member => ?_)).mono
        (fun _ later => .right later) (fun _ => id)
      have different : b ≠ (a k).toNat := by
        rintro rfl
        exact notLater member
      rw [inUse_marked, if_neg different]
      exact used b (by simp [member])

/-- Only the entries at the places count. -/
theorem freeEntries_congr (sb : Superblock) {a other : Nat → BitVec 32} {places : List Nat}
    (same : ∀ k ∈ places, other k = a k) (volume : Volume) :
    freeEntries sb other places volume = freeEntries sb a places volume := by
  induction places generalizing volume with
  | nil => rfl
  | cons k rest inductionHypothesis =>
    have later := inductionHypothesis (fun other member => same other (by simp [member]))
    simp only [freeEntries, same k (by simp), later]

/-- Clear some addresses. -/
def Inode.clear (ip : Inode) (places : List Nat) : Inode :=
  { ip with addrs := fun k => if k ∈ places then 0 else ip.addrs k }

/-- The loop over the direct blocks frees them as the other loop does, and clears them. -/
theorem freeDirect_eq (sb : Superblock) (places : List Nat) (distinct : places.Nodup)
    (volume : Volume) (ip : Inode) :
    freeDirect sb places volume ip =
      (freeEntries sb ip.addrs places volume >>= fun volume => pure (volume, ip.clear places)) := by
  induction places generalizing volume ip with
  | nil => simp [freeDirect, freeEntries, Inode.clear]
  | cons k rest inductionHypothesis =>
    obtain ⟨notLater, laterDistinct⟩ := List.nodup_cons.mp distinct
    have cleared : (ip.setAddr k 0).clear rest = ip.clear (k :: rest) := by
      simp only [Inode.clear, Inode.setAddr, Inode.mk.injEq, true_and]
      funext other
      by_cases isFirst : other = k
      · simp [isFirst]
      · simp [isFirst]
    by_cases none : ip.addrs k = 0
    · have already : ip.clear (k :: rest) = ip.clear rest := by
        simp only [Inode.clear, Inode.mk.injEq, true_and]
        funext other
        by_cases isFirst : other = k
        · simp [isFirst, none, notLater]
        · simp [isFirst]
      rw [freeDirect, freeEntries, if_pos none, if_pos none, already]
      exact inductionHypothesis laterDistinct volume ip
    · have addrs : ∀ other ∈ rest, (ip.setAddr k 0).addrs other = ip.addrs other := by
        intro other member
        have different : other ≠ k := fun same => notLater (same ▸ member)
        simp [Inode.setAddr, different]
      rw [freeDirect, freeEntries, if_neg none, if_neg none]
      cases bfree sb volume (ip.addrs k).toNat with
      | error message => rfl
      | ok volume =>
        have later := inductionHypothesis laterDistinct volume (ip.setAddr k 0)
        rw [freeEntries_congr sb addrs, cleared] at later
        exact later

/-- Some place has such a block. -/
theorem mem_blocksAt (a : Nat → BitVec 32) (places : List Nat) (c : Nat) :
    c ∈ blocksAt a places ↔ c ≠ 0 ∧ ∃ k ∈ places, (a k).toNat = c := by
  simp [blocksAt, and_comm]

/-- No block is there twice if no two places have one. -/
theorem blocksAt_nodup {a : Nat → BitVec 32} {places : List Nat} (distinct : places.Nodup)
    (apart : ∀ j ∈ places, ∀ k ∈ places, (a j).toNat ≠ 0 → (a j).toNat = (a k).toNat → j = k) :
    (blocksAt a places).Nodup := by
  rw [blocksAt, List.filter_map]
  refine List.Nodup.map_on (fun j inJ k inK same => ?_) (distinct.filter _)
  obtain ⟨memberJ, notZero⟩ := List.mem_filter.mp inJ
  exact apart j memberJ k (List.mem_of_mem_filter inK) (by simpa using notZero) same

/-- The blocks of a file. -/
def Fs.blocksOf (fs : Fs) (i : Nat) : List Nat :=
  blocksAt (fs.inodes i).addrs (List.range ndirect) ++
    if (fs.inodes i).addrs ndirect = 0 then []
    else blocksAt (fs.volume.blocks (fs.slot i ndirect)) (List.range nindirect) ++
      [fs.slot i ndirect]

/-- A place in the array of addresses. -/
theorem direct_slot (fs : Fs) (i : Nat) {k : Nat} (inArray : k ≤ ndirect) :
    ((fs.inodes i).addrs k).toNat = fs.slot i k := by
  rw [Fs.slot, Inode.slot, if_pos inArray]

/-- They are the blocks at its places. -/
theorem mem_blocksOf (fs : Fs) (i c : Nat) :
    c ∈ fs.blocksOf i ↔ c ≠ 0 ∧ ∃ s, fs.slot i s = c := by
  rw [Fs.blocksOf, List.mem_append, mem_blocksAt]
  constructor
  · rintro (⟨notZero, k, inArray, here⟩ | inIndirect)
    · refine ⟨notZero, k, ?_⟩
      rw [← direct_slot fs i (Nat.le_of_lt (List.mem_range.mp inArray)), here]
    · split at inIndirect
      · cases inIndirect
      · rename_i hasIndirect
        rw [List.mem_append, mem_blocksAt, List.mem_singleton] at inIndirect
        obtain ⟨notZero, k, inBlock, here⟩ | isIndirect := inIndirect
        · refine ⟨notZero, ndirect + 1 + k, ?_⟩
          rw [← entry_slot fs i hasIndirect (List.mem_range.mp inBlock), here]
        · refine ⟨?_, ndirect, isIndirect.symm⟩
          rw [isIndirect]
          exact fun none => hasIndirect ((addrs_eq_zero_iff fs i (Nat.le_refl _)).mpr none)
  · rintro ⟨notZero, s, here⟩
    by_cases isDirect : s < ndirect
    · refine Or.inl ⟨notZero, s, List.mem_range.mpr isDirect, ?_⟩
      rw [direct_slot fs i (Nat.le_of_lt isDirect), here]
    · have hasIndirect : (fs.inodes i).addrs ndirect ≠ 0 := by
        intro none
        refine notZero (here.symm.trans ?_)
        by_cases isIndirect : s = ndirect
        · rw [isIndirect, ← addrs_eq_zero_iff fs i (Nat.le_refl _)]
          exact none
        · rw [Fs.slot, Inode.slot, if_neg (by omega), if_neg (by simp [none])]
      rw [if_neg hasIndirect, List.mem_append, mem_blocksAt, List.mem_singleton]
      by_cases isIndirect : s = ndirect
      · exact Or.inr (Or.inr (by rw [← here, isIndirect]))
      · by_cases inBlock : s ≤ ndirect + nindirect
        · obtain ⟨k, rfl⟩ := Nat.exists_eq_add_of_le (by omega : ndirect + 1 ≤ s)
          refine Or.inr (Or.inl ⟨notZero, k, List.mem_range.mpr (by omega), ?_⟩)
          rw [entry_slot fs i hasIndirect (by omega), here]
        · refine absurd (here.symm.trans ?_) notZero
          rw [Fs.slot, Inode.slot, if_neg (by omega), if_neg (fun both => inBlock both.1)]

section Truncate

variable (owned : Owned geometry fs) (i : Nat)

include owned

/-- A block at a place is in use. -/
theorem Owned.inUse {s : Nat} (used : fs.slot i s ≠ 0) :
    fs.volume.inUse geometry.toSuperblock (fs.slot i s) = true :=
  (owned.marked _ (owned.inData i s used).2).mpr (Or.inr ⟨i, s, rfl⟩)

/-- The direct blocks are freed. -/
theorem freeDirect_ensures :
    Ensures (Interrupted geometry.toSuperblock fs.volume
        (blocksAt (fs.inodes i).addrs (List.range ndirect)))
      (· = (releaseAll geometry.toSuperblock fs.volume
        (blocksAt (fs.inodes i).addrs (List.range ndirect)),
        (fs.inodes i).clear (List.range ndirect)))
      (freeDirect geometry.toSuperblock (List.range ndirect) fs.volume (fs.inodes i)) := by
  have slot : ∀ k ∈ List.range ndirect, ((fs.inodes i).addrs k).toNat = fs.slot i k :=
    fun k member => direct_slot fs i (Nat.le_of_lt (List.mem_range.mp member))
  rw [freeDirect_eq _ _ List.nodup_range]
  refine Ensures.bind (freeEntries_ensures _ _ _ ?_ ?_) ?_
  · refine blocksAt_nodup List.nodup_range (fun j inJ k inK notZero same => ?_)
    rw [slot j inJ] at notZero same
    rw [slot k inK] at same
    exact (owned.apart i j i k notZero same).2
  · intro b member
    obtain ⟨notZero, k, inArray, here⟩ := (mem_blocksAt _ _ _).mp member
    rw [slot k inArray] at here
    rw [← here] at notZero ⊢
    exact owned.inUse i notZero
  · rintro _ rfl
    exact ensures_pure rfl

/-- The indirect block and its entries are freed. -/
theorem freeIndirect_ensures :
    Ensures (Interrupted geometry.toSuperblock fs.volume (fs.blocksOf i))
      (· = (releaseAll geometry.toSuperblock fs.volume (fs.blocksOf i),
        (fs.inodes i).clear (List.range (ndirect + 1))))
      (freeIndirect geometry.toSuperblock
        (releaseAll geometry.toSuperblock fs.volume
          (blocksAt (fs.inodes i).addrs (List.range ndirect)))
        ((fs.inodes i).clear (List.range ndirect))) := by
  have sameAddr : ((fs.inodes i).clear (List.range ndirect)).addrs ndirect =
      (fs.inodes i).addrs ndirect := by
    simp [Inode.clear]
  by_cases none : (fs.inodes i).addrs ndirect = 0
  · have cleared : (fs.inodes i).clear (List.range ndirect) =
        (fs.inodes i).clear (List.range (ndirect + 1)) := by
      simp only [Inode.clear, Inode.mk.injEq, true_and]
      funext k
      by_cases isIndirect : k = ndirect
      · simp [isIndirect, none]
      · have same : k < ndirect + 1 ↔ k < ndirect := by omega
        simp [same]
    rw [freeIndirect, if_pos (sameAddr.trans none), Fs.blocksOf, if_pos none, List.append_nil,
      cleared]
    exact ensures_pure rfl
  · have hasIndirect : fs.slot i ndirect ≠ 0 :=
      fun zero => none ((addrs_eq_zero_iff fs i (Nat.le_refl _)).mpr zero)
    have direct : ∀ b ∈ blocksAt (fs.inodes i).addrs (List.range ndirect), b ≠ 0 ∧
        ∃ k, k < ndirect ∧ fs.slot i k = b := by
      intro b member
      obtain ⟨notZero, k, inArray, here⟩ := (mem_blocksAt _ _ _).mp member
      have isDirect := List.mem_range.mp inArray
      exact ⟨notZero, k, isDirect, by rw [← direct_slot fs i (Nat.le_of_lt isDirect), here]⟩
    have entries : ∀ b ∈ blocksAt (fs.volume.blocks (fs.slot i ndirect)) (List.range nindirect),
        b ≠ 0 ∧ ∃ k, k < nindirect ∧ fs.slot i (ndirect + 1 + k) = b := by
      intro b member
      obtain ⟨notZero, k, inBlock, here⟩ := (mem_blocksAt _ _ _).mp member
      have isEntry := List.mem_range.mp inBlock
      exact ⟨notZero, k, isEntry, by rw [← entry_slot fs i none isEntry, here]⟩
    have sameBlock : (releaseAll geometry.toSuperblock fs.volume
        (blocksAt (fs.inodes i).addrs (List.range ndirect))).blocks (fs.slot i ndirect) =
          fs.volume.blocks (fs.slot i ndirect) := by
      refine releaseAll_blocks _ (fun b member => ?_)
      obtain ⟨notZero, k, -, rfl⟩ := direct b member
      exact (bblock_ne geometry (owned.inData i k notZero).2
        (owned.inData i ndirect hasIndirect).1).symm
    have distinct : (blocksAt (fs.volume.blocks (fs.slot i ndirect))
        (List.range nindirect)).Nodup := by
      refine blocksAt_nodup List.nodup_range (fun j inJ k inK notZero same => ?_)
      rw [entry_slot fs i none (List.mem_range.mp inJ)] at notZero same
      rw [entry_slot fs i none (List.mem_range.mp inK)] at same
      exact Nat.add_left_cancel (owned.apart i _ i _ notZero same).2
    have entriesUsed : ∀ b ∈ blocksAt (fs.volume.blocks (fs.slot i ndirect)) (List.range nindirect),
        (releaseAll geometry.toSuperblock fs.volume
          (blocksAt (fs.inodes i).addrs (List.range ndirect))).inUse geometry.toSuperblock b =
            true := by
      intro b member
      obtain ⟨notZero, k, -, rfl⟩ := entries b member
      rw [inUse_releaseAll, if_neg]
      · exact owned.inUse i notZero
      · intro isDirect
        obtain ⟨-, j, inArray, same⟩ := direct _ isDirect
        have := (owned.apart i _ i _ notZero same.symm).2
        omega
    have indirectUsed : (releaseAll geometry.toSuperblock (releaseAll geometry.toSuperblock
        fs.volume (blocksAt (fs.inodes i).addrs (List.range ndirect)))
        (blocksAt (fs.volume.blocks (fs.slot i ndirect)) (List.range nindirect))).inUse
          geometry.toSuperblock (fs.slot i ndirect) = true := by
      rw [inUse_releaseAll, if_neg, inUse_releaseAll, if_neg]
      · exact owned.inUse i hasIndirect
      · intro isDirect
        obtain ⟨-, j, inArray, same⟩ := direct _ isDirect
        have := (owned.apart i _ i _ hasIndirect same.symm).2
        omega
      · intro isEntry
        obtain ⟨-, j, inBlock, same⟩ := entries _ isEntry
        have := (owned.apart i _ i _ hasIndirect same.symm).2
        omega
    have cleared : ((fs.inodes i).clear (List.range ndirect)).setAddr ndirect 0 =
        (fs.inodes i).clear (List.range (ndirect + 1)) := by
      simp only [Inode.clear, Inode.setAddr, Inode.mk.injEq, true_and]
      funext k
      by_cases isIndirect : k = ndirect
      · simp [isIndirect]
      · have same : k < ndirect + 1 ↔ k < ndirect := by omega
        simp [isIndirect, same]
    rw [freeIndirect, if_neg (sameAddr ▸ none), sameAddr, ← slot_indirect, Fs.blocksOf, if_neg none]
    simp only [sameBlock]
    refine (freeEntries_ensures _ _ _ distinct entriesUsed).followedBy
      (fun _ interrupted => .right (interrupted.left _)) ?_
    rintro _ rfl
    refine (bfree_ensures indirectUsed).followedBy
      (fun _ refused => .right (.right (.here refused _))) ?_
    rintro _ rfl
    rw [cleared, ← releaseAll_append, ← releaseAll_append]
    exact ensures_pure rfl

/-- `itrunc` frees the blocks of its file and clears the inode. Only `log_write` may panic. -/
theorem itrunc_ensures (inum : Nat) :
    Ensures (Interrupted geometry.toSuperblock fs.volume (fs.blocksOf i))
      (· = (storeInode geometry.toSuperblock
          (releaseAll geometry.toSuperblock fs.volume (fs.blocksOf i)) inum
          { (fs.inodes i).clear (List.range (ndirect + 1)) with size := 0 },
        { (fs.inodes i).clear (List.range (ndirect + 1)) with size := 0 }))
      (itrunc geometry.toSuperblock fs.volume inum (fs.inodes i)) := by
  rw [itrunc]
  refine (freeDirect_ensures owned i).followedBy
    (fun _ interrupted => interrupted.left _) ?_
  rintro _ rfl
  refine Ensures.bind (freeIndirect_ensures owned i) ?_
  rintro _ rfl
  refine logWrite_ensures.followedBy
    (fun _ refused => ⟨fs.blocksOf i, List.Subset.refl _, refused⟩) ?_
  rintro _ rfl
  exact ensures_pure rfl

omit owned in
/-- An inode without addresses has no blocks. -/
theorem slot_of_clear {blocks : Nat → Block} {ip : Inode}
    (clear : ∀ k, k ≤ ndirect → ip.addrs k = 0) (s : Nat) : ip.slot blocks s = 0 := by
  unfold Inode.slot
  split
  · rename_i inArray
    rw [clear s inArray]
    rfl
  · rw [if_neg (fun both => both.2 (clear ndirect (Nat.le_refl _)))]

omit owned in
/-- Freeing blocks changes the bitmap only. -/
theorem releaseAll_low (volume : Volume) (bs : List Nat) (c : Nat) (low : c < geometry.bmapstart) :
    (releaseAll geometry.toSuperblock volume bs).blocks c = volume.blocks c := by
  refine releaseAll_blocks _ (fun b _ => ?_)
  have start := bmapstart_le_bblock geometry.toSuperblock b
  omega

/-- Freeing the blocks of a file changes no block that a file owns. -/
theorem Owned.releaseAll_blocks {j s : Nat} (used : fs.slot j s ≠ 0) :
    (releaseAll geometry.toSuperblock fs.volume (fs.blocksOf i)).blocks (fs.slot j s) =
      fs.volume.blocks (fs.slot j s) := by
  refine Inodes.releaseAll_blocks _ (fun b member => ?_)
  obtain ⟨notZero, t, rfl⟩ := (mem_blocksOf fs i b).mp member
  exact (bblock_ne geometry (owned.inData i t notZero).2 (owned.inData j s used).1).symm

/-- The places after the blocks of a file were freed, and its addresses cleared. -/
theorem slot_release {ip : Inode} (clear : ∀ k, k ≤ ndirect → ip.addrs k = 0) (j t : Nat) :
    (fs.put i (releaseAll geometry.toSuperblock fs.volume (fs.blocksOf i)) ip).slot j t =
      if j = i then 0 else fs.slot j t := by
  by_cases isFile : j = i
  · subst isFile
    rw [if_pos rfl, Fs.slot]
    simp only [Fs.put, Function.update_self]
    exact slot_of_clear clear t
  · rw [if_neg isFile]
    exact Fs.slot_congr (fun k _ _ => by simp [Fs.put, isFile])
      (fun hasIndirect => owned.releaseAll_blocks i hasIndirect)

/-- Freeing the blocks of a file gives the bitmap these blocks back, and no others. -/
theorem Owned.release {ip : Inode} (clear : ∀ k, k ≤ ndirect → ip.addrs k = 0) :
    Owned geometry (fs.put i (releaseAll geometry.toSuperblock fs.volume (fs.blocksOf i)) ip) := by
  have slots := slot_release owned i clear
  refine ⟨fun j t used => ?_, fun j t k u used same => ?_, fun b inDisk => ?_⟩
  · rw [slots] at used ⊢
    split at used
    · exact absurd rfl used
    · rename_i isOther
      rw [if_neg isOther]
      exact owned.inData j t used
  · rw [slots j t] at used same
    rw [slots k u] at same
    split at used
    · exact absurd rfl used
    · rename_i isOther
      rw [if_neg isOther] at same
      split at same
      · exact absurd same used
      · exact owned.apart j t k u used same
  · have bitmap := geometry.bitmapFits b inDisk
    simp only [Fs.put] at slots ⊢
    rw [inUse_releaseAll]
    simp only [slots]
    have marked := owned.marked b inDisk
    split
    · rename_i here
      obtain ⟨notZero, s, here⟩ := (mem_blocksOf fs i b).mp here
      have inData := owned.inData i s (here ▸ notZero)
      refine ⟨fun impossible => absurd impossible Bool.false_ne_true, ?_⟩
      rintro (low | ⟨j, t, there⟩)
      · omega
      · split at there
        · exact absurd there.symm notZero
        · rename_i isOther
          exact absurd (owned.apart i s j t (here ▸ notZero) (here.trans there.symm)).1.symm isOther
    · rename_i notHere
      rw [marked]
      refine or_congr_right' (fun inArea => ⟨?_, ?_⟩)
      · rintro ⟨j, t, there⟩
        refine ⟨j, t, ?_⟩
        rw [if_neg, there]
        rintro rfl
        exact notHere ((mem_blocksOf fs j b).mpr ⟨by omega, t, there⟩)
      · rintro ⟨j, t, there⟩
        split at there
        · omega
        · exact ⟨j, t, there⟩

end Truncate

end OsLabwork.Kernel.Inodes
