import OsLabwork.Kernel.Log
import OsLabwork.Library.WordMemory

/-!
# Blocks and inodes

The part of `fs.c` that keeps the contents of files. A bitmap says which blocks of the disk are
in use. An inode lists the blocks of a file: twelve directly, and the others in an indirect
block. `bmap` finds the block for a part of a file, and allocates it when there is none;
`readi` and `writei` copy bytes block by block, or call a driver; `itrunc` frees the blocks.

The code sees the blocks through `bread` and changes them with `log_write`, whatever is on the
disk and in the log. Of the log it is kept which blocks are logged, each once, and how many
operations are in progress: `log_write` looks at both before it does anything. The caller holds
the lock of the inode. A panic is an error with the text of the source.

What a driver does to its device is not part of this, only what it returns.
-/

namespace OsLabwork.Kernel.Inodes

open Logging WordMemory

/-- A byte of memory or of a file. -/
abbrev Byte := BitVec 8

/-- Bytes in a block. -/
def bsize : Nat := 512

/-- How many blocks an inode lists directly. -/
def ndirect : Nat := 12

/-- How many blocks an indirect block lists. -/
def nindirect : Nat := bsize / 4

/-- The largest file, in blocks. -/
def maxfile : Nat := ndirect + nindirect

/-- Bits in a block of the bitmap. -/
def bpb : Nat := bsize * 8

/-- Inodes in a block. -/
def ipb : Nat := bsize / 64

/-- `T_DEV`, the type of inodes that stand for devices. -/
def tDev : BitVec 16 := 3

/-- The number of entries of `devsw`. -/
def ndev : Nat := 10

/-- The fields of the superblock that are read here and in the log. -/
structure Superblock where
  size : Nat
  nlog : Nat
  inodestart : Nat
  bmapstart : Nat

/-- The blocks, and what the log knows: the blocks that are logged, and how many operations are in
progress. -/
structure Volume where
  blocks : Nat → Block
  logged : List Nat
  outstanding : Nat

/-- The fields of an inode that are on the disk. -/
structure Inode where
  type : BitVec 16
  major : BitVec 16
  minor : BitVec 16
  nlink : BitVec 16
  size : BitVec 32
  addrs : Nat → BitVec 32

/-- An entry of `devsw`. A driver returns bytes or a count, or nothing where it returns -1. -/
structure Driver where
  read : Option (Inode → BitVec 32 → Option (List Byte))
  write : Option (Inode → (Nat → Byte) → BitVec 32 → Option (BitVec 32))

/-- The text of `log_write` for a log that is full. -/
def tooBig : String := "too big a transaction"

/-- The text of `log_write` when no operation is in progress. -/
def outsideTrans : String := "log_write outside of trans"

/-- The text of `balloc` for a disk that is full. -/
def outOfBlocks : String := "balloc: out of blocks"

/-- The volume with a block changed and logged. -/
def Volume.record (volume : Volume) (address : Nat) (block : Block) : Volume :=
  { volume with
    blocks := Function.update volume.blocks address block
    logged := if address ∈ volume.logged then volume.logged else volume.logged ++ [address] }

section Blocks

variable (sb : Superblock)

/-- Change the data of a buffer and pass it to `log_write`. -/
def Volume.logWrite (volume : Volume) (address : Nat) (block : Block) : Except String Volume :=
  if logsize ≤ volume.logged.length ∨ sb.nlog - 1 ≤ volume.logged.length then .error tooBig
  else if volume.outstanding < 1 then .error outsideTrans
  else .ok (volume.record address block)

/-- Zero a block. -/
def Volume.bzero (volume : Volume) (address : Nat) : Except String Volume :=
  volume.logWrite sb address (fun _ => 0)

/-- `BBLOCK`. -/
def Superblock.bblock (b : Nat) : Nat := b / bpb + sb.bmapstart

/-- The inner loop of `balloc`, from bit `bi` on. -/
def scanBits (block : Block) (b : Nat) : Nat → Nat → Option Nat
  | 0, _ => none
  | rounds + 1, bi =>
    if b + bi < sb.size then
      if bitAt block bi = false then some bi else scanBits block b rounds (bi + 1)
    else none

/-- The outer loop, from block `b` on. -/
def scanBlocks (volume : Volume) : Nat → Nat → Option (Nat × Nat)
  | 0, _ => none
  | rounds + 1, b =>
    if b < sb.size then
      match scanBits sb (volume.blocks (sb.bblock b)) b bpb 0 with
      | some bi => some (b, bi)
      | none => scanBlocks volume rounds (b + bpb)
    else none

/-- Mark a block as in use, or as free. -/
def Volume.mark (volume : Volume) (bitmap bi : Nat) (inUse : Bool) : Except String Volume :=
  volume.logWrite sb bitmap (setBit (volume.blocks bitmap) bi inUse)

/-- Allocate a zeroed block. -/
def balloc (volume : Volume) : Except String (Volume × Nat) :=
  match scanBlocks sb volume sb.size 0 with
  | none => .error outOfBlocks
  | some (b, bi) => do
    let volume ← volume.mark sb (sb.bblock b) bi true
    let volume ← volume.bzero sb (b + bi)
    return (volume, b + bi)

/-- Free a block. -/
def bfree (volume : Volume) (b : Nat) : Except String Volume :=
  if bitAt (volume.blocks (sb.bblock b)) (b % bpb) = false then .error "freeing free block"
  else volume.mark sb (sb.bblock b) (b % bpb) false

end Blocks

/-! ## Inodes on the disk -/

/-- The words of `struct dinode`. -/
def Inode.words (ip : Inode) : Nat → BitVec 32
  | 0 => ip.major ++ ip.type
  | 1 => ip.nlink ++ ip.minor
  | 2 => ip.size
  | k + 3 => ip.addrs k

/-- The inode that the words of `struct dinode` describe. -/
def Inode.ofWords (words : Nat → BitVec 32) : Inode where
  type := (words 0).extractLsb' 0 16
  major := (words 0).extractLsb' 16 16
  minor := (words 1).extractLsb' 0 16
  nlink := (words 1).extractLsb' 16 16
  size := words 2
  addrs k := words (k + 3)

section Code

variable (sb : Superblock)

/-- `IBLOCK`. -/
def Superblock.iblock (inum : Nat) : Nat := inum / ipb + sb.inodestart

/-- The block of an inode, with the inode copied into it. -/
def inodeBlock (volume : Volume) (inum : Nat) (ip : Inode) : Block := fun word =>
  let place := inum % ipb * 16
  if place ≤ word ∧ word < place + 16 then ip.words (word - place)
  else volume.blocks (sb.iblock inum) word

/-- Copy an inode to the disk. -/
def iupdate (volume : Volume) (inum : Nat) (ip : Inode) : Except String Volume :=
  volume.logWrite sb (sb.iblock inum) (inodeBlock sb volume inum ip)

/-- The inode that `ilock` reads from the disk. -/
def readInode (volume : Volume) (inum : Nat) : Inode :=
  Inode.ofWords (fun word => volume.blocks (sb.iblock inum) (inum % ipb * 16 + word))

/-! ## The contents of an inode -/

/-- Change an address of an inode in memory. -/
def Inode.setAddr (ip : Inode) (k address : Nat) : Inode :=
  { ip with addrs := Function.update ip.addrs k (BitVec.ofNat 32 address) }

/-- Allocate the block of `addrs[k]` if there is none. -/
def ensureAddr (volume : Volume) (ip : Inode) (k : Nat) : Except String (Volume × Inode) :=
  if ip.addrs k = 0 then do
    let (volume, address) ← balloc sb volume
    return (volume, ip.setAddr k address)
  else return (volume, ip)

/-- Allocate the block of entry `k` of an indirect block if there is none. -/
def ensureEntry (volume : Volume) (indirect k : Nat) : Except String (Volume × Nat) :=
  let a := volume.blocks indirect
  if a k = 0 then do
    let (volume, address) ← balloc sb volume
    let volume ← volume.logWrite sb indirect (Function.update a k (BitVec.ofNat 32 address))
    return (volume, address)
  else return (volume, (a k).toNat)

/-- The address of block `bn` of a file. -/
def bmap (volume : Volume) (ip : Inode) (bn : Nat) : Except String (Volume × Inode × Nat) :=
  if bn < ndirect then do
    let (volume, ip) ← ensureAddr sb volume ip bn
    return (volume, ip, (ip.addrs bn).toNat)
  else if bn - ndirect < nindirect then do
    let (volume, ip) ← ensureAddr sb volume ip ndirect
    let (volume, address) ← ensureEntry sb volume (ip.addrs ndirect).toNat (bn - ndirect)
    return (volume, ip, address)
  else .error "bmap: out of range"

/-- The first loop of `itrunc`, over the direct blocks. -/
def freeDirect : List Nat → Volume → Inode → Except String (Volume × Inode)
  | [], volume, ip => return (volume, ip)
  | i :: rest, volume, ip =>
    if ip.addrs i = 0 then freeDirect rest volume ip
    else do
      let volume ← bfree sb volume (ip.addrs i).toNat
      freeDirect rest volume (ip.setAddr i 0)

/-- The second loop of `itrunc`, over the entries of the indirect block. -/
def freeEntries (a : Block) : List Nat → Volume → Except String Volume
  | [], volume => return volume
  | j :: rest, volume =>
    if a j = 0 then freeEntries a rest volume
    else do
      let volume ← bfree sb volume (a j).toNat
      freeEntries a rest volume

/-- Free the indirect block and what it lists. -/
def freeIndirect (volume : Volume) (ip : Inode) : Except String (Volume × Inode) :=
  if ip.addrs ndirect = 0 then return (volume, ip)
  else do
    let indirect := (ip.addrs ndirect).toNat
    let volume ← freeEntries sb (volume.blocks indirect) (List.range nindirect) volume
    let volume ← bfree sb volume indirect
    return (volume, ip.setAddr ndirect 0)

/-- Discard the contents. -/
def itrunc (volume : Volume) (inum : Nat) (ip : Inode) : Except String (Volume × Inode) := do
  let (volume, ip) ← freeDirect sb (List.range ndirect) volume ip
  let (volume, ip) ← freeIndirect sb volume ip
  let ip := { ip with size := 0 }
  let volume ← iupdate sb volume inum ip
  return (volume, ip)

/-- The loop of `readi`, with the bytes that are left to read. Each round copies at least one
byte, so as many rounds as bytes are enough. -/
def readLoop : Nat → Volume → Inode → Nat → Nat → Except String (Volume × Inode × List Byte)
  | 0, volume, ip, _, _ => return (volume, ip, [])
  | rounds + 1, volume, ip, off, left =>
    if left = 0 then return (volume, ip, [])
    else do
      let (volume, ip, address) ← bmap sb volume ip (off / bsize)
      let m := min left (bsize - off % bsize)
      let (after, ip, bytes) ← readLoop rounds volume ip (off + m) (left - m)
      return (after, ip,
        (List.range m).map (fun k => byteAt (volume.blocks address) (off % bsize + k)) ++ bytes)

/-- The loop of `writei`. -/
def writeLoop : Nat → Volume → Inode → (Nat → Byte) → Nat → Nat → Except String (Volume × Inode)
  | 0, volume, ip, _, _, _ => return (volume, ip)
  | rounds + 1, volume, ip, src, off, left =>
    if left = 0 then return (volume, ip)
    else do
      let (volume, ip, address) ← bmap sb volume ip (off / bsize)
      let m := min left (bsize - off % bsize)
      let volume ← volume.logWrite sb address
        (writeBytes (volume.blocks address) (off % bsize) src m)
      writeLoop rounds volume ip (fun k => src (m + k)) (off + m) (left - m)

variable (devsw : Nat → Driver)

/-- The entry of `devsw` for an inode that stands for a device. -/
def Inode.driver (ip : Inode) : Option Driver :=
  if ip.major.toInt < 0 ∨ ndev ≤ ip.major.toInt then none else some (devsw ip.major.toInt.toNat)

/-- Read bytes; without a result where the source returns -1. -/
def readi (volume : Volume) (ip : Inode) (off n : BitVec 32) :
    Except String (Volume × Inode × Option (List Byte)) :=
  if ip.type = tDev then
    return (volume, ip, ((ip.driver devsw).bind Driver.read).bind (fun read => read ip n))
  else if ip.size < off ∨ off + n < off then return (volume, ip, none)
  else do
    let n := if ip.size < off + n then ip.size - off else n
    let (volume, ip, bytes) ← readLoop sb n.toNat volume ip off.toNat n.toNat
    return (volume, ip, some bytes)

/-- Write bytes from memory; without a result where the source returns -1. -/
def writei (volume : Volume) (inum : Nat) (ip : Inode) (src : Nat → Byte) (off n : BitVec 32) :
    Except String (Volume × Inode × Option (BitVec 32)) :=
  if ip.type = tDev then
    return (volume, ip, ((ip.driver devsw).bind Driver.write).bind (fun write => write ip src n))
  else if ip.size < off ∨ off + n < off then return (volume, ip, none)
  else if maxfile * bsize < (off + n).toNat then return (volume, ip, none)
  else do
    let (volume, ip) ← writeLoop sb n.toNat volume ip src off.toNat n.toNat
    if 0 < n ∧ ip.size < off + n then
      let ip := { ip with size := off + n }
      let volume ← iupdate sb volume inum ip
      return (volume, ip, some n)
    else return (volume, ip, some n)

end Code

end OsLabwork.Kernel.Inodes
