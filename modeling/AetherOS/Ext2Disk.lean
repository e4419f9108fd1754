import AetherOS.ByteBitmap

/-!
# Blocks, descriptors and inodes of an ext2 volume

The disk is addressed in bytes from the start of the partition. Block buffers, group
descriptors and inodes are byte buffers in the on-disk layout, whose fields are read and
written in place. A block is transferred through one bounce page; pages, heap memory and
transfers are asked for, and `outcomes` says which requests are granted. A transfer that
fails leaves the disk as it was. The shared scratch buffer is not modelled: it is always
filled before it is read.
-/
namespace AetherOS.Ext2
open ByteMemory Nat

/-- What `ext2_mount` keeps of the superblock. It accepts three block sizes. -/
structure Geometry where
  logBlockSize : Fin 3
  inodesPerGroup : ℕ
  blocksPerGroup : ℕ
  inodeSize : ℕ
  firstDataBlock : ℕ

namespace Geometry

variable (g : Geometry)

def blockSize : ℕ := 1024 <<< g.logBlockSize.val

def bgdBlock : ℕ := if g.blockSize = 1024 then 2 else 1

def bgdsPerBlock : ℕ := g.blockSize / 32

def inodesPerBlock : ℕ := g.blockSize / g.inodeSize

def ptrs : ℕ := g.blockSize / 4

lemma blockSize_cases : g.blockSize = 1024 ∨ g.blockSize = 2048 ∨ g.blockSize = 4096 := by
  unfold blockSize
  generalize g.logBlockSize = k
  revert k
  decide

lemma blockSize_pos : 0 < g.blockSize := by
  have := g.blockSize_cases
  omega

lemma four_mul_ptrs : 4 * g.ptrs = g.blockSize := by
  have := g.blockSize_cases
  unfold ptrs
  omega

lemma bgdsPerBlock_mul : g.bgdsPerBlock * 32 = g.blockSize := by
  have := g.blockSize_cases
  unfold bgdsPerBlock
  omega

end Geometry

/-- The volume: the disk, the cached superblock, and which of the coming requests for
memory and transfers are granted. -/
structure Fs where
  disk : Mem
  sb : Mem
  outcomes : ℕ → Bool

def u32 (n : ℕ) : ℕ := n % 2 ^ 32

def Fs.request (s : Fs) : Bool × Fs :=
  (s.outcomes 0, { s with outcomes := fun n => s.outcomes (n + 1) })

/-- Every request is granted. -/
def NoFault (s : Fs) : Prop := ∀ n, s.outcomes n = true

/-! Fields of the superblock, of a group descriptor and of an inode. -/

def sInodesCount (sb : Mem) : ℕ := readLE sb 4 0
def sBlocksCount (sb : Mem) : ℕ := readLE sb 4 4
def sFreeBlocksCount (sb : Mem) : ℕ := readLE sb 4 12
def sFreeInodesCount (sb : Mem) : ℕ := readLE sb 4 16

def bgBlockBitmap (bgd : Mem) : ℕ := readLE bgd 4 0
def bgInodeBitmap (bgd : Mem) : ℕ := readLE bgd 4 4
def bgInodeTable (bgd : Mem) : ℕ := readLE bgd 4 8
def bgFreeBlocksCount (bgd : Mem) : ℕ := readLE bgd 2 12
def bgFreeInodesCount (bgd : Mem) : ℕ := readLE bgd 2 14

def iMode (inode : Mem) : ℕ := readLE inode 2 0
def iUid (inode : Mem) : ℕ := readLE inode 2 2
def iSize (inode : Mem) : ℕ := readLE inode 4 4
def iGid (inode : Mem) : ℕ := readLE inode 2 24
def iBlock (inode : Mem) (k : ℕ) : ℕ := readLE inode 4 (40 + 4 * k)

def setISize (inode : Mem) (v : ℕ) : Mem := writeLE inode 4 4 v
def setIBlocks (inode : Mem) (v : ℕ) : Mem := writeLE inode 4 28 v
def setIBlock (inode : Mem) (k v : ℕ) : Mem := writeLE inode 4 (40 + 4 * k) v

def zeros : Mem := fun _ => 0

section

variable (g : Geometry)

def readBlock (s : Fs) (blockNo : ℕ) : Option Mem × Fs :=
  let page := s.request
  if page.1 then
    let transfer := page.2.request
    if transfer.1 then
      (some (slice s.disk (blockNo * g.blockSize) g.blockSize), transfer.2)
    else (none, transfer.2)
  else (none, page.2)

def writeBlock (s : Fs) (blockNo : ℕ) (buf : Mem) : Bool × Fs :=
  let page := s.request
  if page.1 then
    let transfer := page.2.request
    if transfer.1 then
      (true, { transfer.2 with disk := blit s.disk g.blockSize (blockNo * g.blockSize) buf })
    else (false, transfer.2)
  else (false, page.2)

/-- The superblock is the kilobyte from byte 1024. -/
def writeSuper (s : Fs) : Bool × Fs :=
  let page := s.request
  if page.1 then
    let transfer := page.2.request
    if transfer.1 then (true, { transfer.2 with disk := blit s.disk 1024 1024 s.sb })
    else (false, transfer.2)
  else (false, page.2)

def readBgd (s : Fs) (group : ℕ) : Option Mem × Fs :=
  match readBlock g s (g.bgdBlock + group / g.bgdsPerBlock) with
  | (none, s) => (none, s)
  | (some buf, s) => (some (slice buf (group % g.bgdsPerBlock * 32) 32), s)

def writeBgd (s : Fs) (group : ℕ) (bgd : Mem) : Bool × Fs :=
  let tmp := s.request
  if tmp.1 then
    match readBlock g tmp.2 (g.bgdBlock + group / g.bgdsPerBlock) with
    | (none, s) => (false, s)
    | (some buf, s) =>
      writeBlock g s (g.bgdBlock + group / g.bgdsPerBlock)
        (blit buf 32 (group % g.bgdsPerBlock * 32) bgd)
  else (false, tmp.2)

def inodeGroup (ino : ℕ) : ℕ := (ino - 1) / g.inodesPerGroup

def inodeIndex (ino : ℕ) : ℕ := (ino - 1) % g.inodesPerGroup

/-- The block of the inode table that holds the inode. -/
def inodeBlock (bgd : Mem) (ino : ℕ) : ℕ :=
  u32 (bgInodeTable bgd + inodeIndex g ino / g.inodesPerBlock)

def inodeSlot (ino : ℕ) : ℕ := inodeIndex g ino % g.inodesPerBlock

def readInode (s : Fs) (ino : ℕ) : Option Mem × Fs :=
  if ino = 0 then (none, s)
  else
    match readBgd g s (inodeGroup g ino) with
    | (none, s) => (none, s)
    | (some bgd, s) =>
      match readBlock g s (inodeBlock g bgd ino) with
      | (none, s) => (none, s)
      | (some buf, s) => (some (slice buf (inodeSlot g ino * g.inodeSize) 128), s)

def writeInode (s : Fs) (ino : ℕ) (inode : Mem) : Bool × Fs :=
  if ino = 0 then (false, s)
  else
    let tmp := s.request
    if tmp.1 then
      match readBgd g tmp.2 (inodeGroup g ino) with
      | (none, s) => (false, s)
      | (some bgd, s) =>
        match readBlock g s (inodeBlock g bgd ino) with
        | (none, s) => (false, s)
        | (some buf, s) =>
          writeBlock g s (inodeBlock g bgd ino) (blit buf 128 (inodeSlot g ino * g.inodeSize) inode)
    else (false, tmp.2)

end

/-! What the transfers do when every request is granted. -/

section

variable (g : Geometry) {s : Fs}

section

variable (h : NoFault s)
include h

lemma NoFault.setDisk (disk : Mem) : NoFault { s with disk := disk } := h

lemma request_eq : s.request = (true, s) := by
  have hdrop : (fun n => s.outcomes (n + 1)) = s.outcomes := by
    funext n
    rw [h n, h (n + 1)]
  simp [Fs.request, h 0, hdrop]

lemma readBlock_eq (b : ℕ) : readBlock g s b = (some (slice s.disk (b * g.blockSize) g.blockSize), s) := by
  simp [readBlock, request_eq h]

lemma writeBlock_eq (b : ℕ) (buf : Mem) : writeBlock g s b buf =
    (true, { s with disk := blit s.disk g.blockSize (b * g.blockSize) buf }) := by
  simp [writeBlock, request_eq h]

lemma writeSuper_eq : writeSuper s = (true, { s with disk := blit s.disk 1024 1024 s.sb }) := by
  simp [writeSuper, request_eq h]

end

/-- The address of a group descriptor. -/
def bgdAddr (i : ℕ) : ℕ := g.bgdBlock * g.blockSize + i * 32

def bgdAt (disk : Mem) (i : ℕ) : Mem := slice disk (bgdAddr g i) 32

lemma bgdAddr_eq (i : ℕ) :
    (g.bgdBlock + i / g.bgdsPerBlock) * g.blockSize + i % g.bgdsPerBlock * 32 = bgdAddr g i := by
  have hdiv := div_add_mod i g.bgdsPerBlock
  calc (g.bgdBlock + i / g.bgdsPerBlock) * g.blockSize + i % g.bgdsPerBlock * 32
      = g.bgdBlock * g.blockSize + (g.bgdsPerBlock * (i / g.bgdsPerBlock) + i % g.bgdsPerBlock) * 32 := by
        rw [← g.bgdsPerBlock_mul]
        ring
    _ = bgdAddr g i := by rw [hdiv, bgdAddr]

lemma bgd_slot_le (i : ℕ) : i % g.bgdsPerBlock * 32 + 32 ≤ g.blockSize := by
  have hmul := g.bgdsPerBlock_mul
  have hpos := g.blockSize_pos
  have hlt : i % g.bgdsPerBlock < g.bgdsPerBlock := mod_lt i (by omega)
  omega

lemma readBgd_eq (h : NoFault s) (i : ℕ) : readBgd g s i = (some (bgdAt g s.disk i), s) := by
  simp only [readBgd, readBlock_eq g h]
  rw [slice_slice s.disk (bgd_slot_le g i), bgdAddr_eq, bgdAt]

lemma writeBgd_eq (h : NoFault s) (i : ℕ) (bgd : Mem) :
    writeBgd g s i bgd = (true, { s with disk := blit s.disk 32 (bgdAddr g i) bgd }) := by
  simp only [writeBgd, request_eq h, if_true, readBlock_eq g h, writeBlock_eq g h]
  rw [blit_slice_blit s.disk bgd (bgd_slot_le g i), bgdAddr_eq]

/-- The address of an inode. -/
def inodeAddr (disk : Mem) (ino : ℕ) : ℕ :=
  inodeBlock g (bgdAt g disk (inodeGroup g ino)) ino * g.blockSize + inodeSlot g ino * g.inodeSize

def inodeAt (disk : Mem) (ino : ℕ) : Mem := slice disk (inodeAddr g disk ino) 128

/-- Inodes lie within blocks. -/
structure Geometry.InodesFit : Prop where
  min : 128 ≤ g.inodeSize
  max : g.inodeSize ≤ g.blockSize

variable {g}

lemma Geometry.InodesFit.slot_le (h : g.InodesFit) (ino : ℕ) : inodeSlot g ino * g.inodeSize + 128 ≤ g.blockSize := by
  have hmin := h.min
  have hpos : 0 < g.inodesPerBlock := Nat.div_pos h.max (by omega)
  have hlt : inodeSlot g ino < g.inodesPerBlock := mod_lt _ hpos
  have hmul : g.inodesPerBlock * g.inodeSize ≤ g.blockSize := div_mul_le_self _ _
  have hslot : (inodeSlot g ino + 1) * g.inodeSize ≤ g.inodesPerBlock * g.inodeSize :=
    Nat.mul_le_mul_right _ hlt
  rw [add_mul] at hslot
  omega

lemma readInode_eq (hfit : g.InodesFit) (h : NoFault s) {ino : ℕ} (hino : ino ≠ 0) :
    readInode g s ino = (some (inodeAt g s.disk ino), s) := by
  simp only [readInode, if_neg hino, readBgd_eq g h, readBlock_eq g h]
  rw [slice_slice s.disk (hfit.slot_le ino), inodeAt, inodeAddr]

lemma writeInode_eq (hfit : g.InodesFit) (h : NoFault s) {ino : ℕ} (hino : ino ≠ 0) (inode : Mem) :
    writeInode g s ino inode = (true, { s with disk := blit s.disk 128 (inodeAddr g s.disk ino) inode }) := by
  simp only [writeInode, if_neg hino, request_eq h, if_true, readBgd_eq g h, readBlock_eq g h, writeBlock_eq g h]
  rw [blit_slice_blit s.disk inode (hfit.slot_le ino), inodeAddr]

end

end AetherOS.Ext2
