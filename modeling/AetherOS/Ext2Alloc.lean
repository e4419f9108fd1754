import AetherOS.Ext2Disk

/-!
# Allocating blocks and inodes

Each group has a bitmap of its blocks and one of its inodes, and its descriptor counts
the free ones; the superblock has the totals. The allocators go through the groups and
take the first clear bit of the first group that has one.
-/
namespace AetherOS.Ext2
open ByteMemory ByteBitmap

variable (g : Geometry)

/-- The number of groups, rounded up. -/
def numGroups (count perGroup : ℕ) : ℕ := u32 (count + perGroup - 1) / perGroup

/-- How many bits of the bitmap of a group `alloc_block` looks at. -/
def blocksInGroup (s : Fs) (i : ℕ) : ℕ :=
  if sBlocksCount s.sb < u32 ((i + 1) * g.blocksPerGroup) then
    sBlocksCount s.sb - i * g.blocksPerGroup
  else g.blocksPerGroup

/-- Mark the bit, count the block as used, and clear the block. -/
def takeBlock (s : Fs) (i : ℕ) (bgd bmap : Mem) (bit : ℕ) : ℕ × Fs :=
  let s := (writeBlock g s (bgBlockBitmap bgd) (setBit bmap bit)).2
  let s := (writeBgd g s i (writeLE bgd 2 12 (bgFreeBlocksCount bgd + 2 ^ 16 - 1))).2
  let s := { s with sb := writeLE s.sb 4 12 (sFreeBlocksCount s.sb + 2 ^ 32 - 1) }
  let s := (writeSuper s).2
  let blockNo := u32 (i * g.blocksPerGroup + g.firstDataBlock + bit)
  let zbuf := s.request
  if zbuf.1 then (blockNo, (writeBlock g zbuf.2 blockNo zeros).2) else (blockNo, zbuf.2)

/-- The `n` groups from `i` that are still to be looked at. -/
def allocBlockFrom (s : Fs) : ℕ → ℕ → ℕ × Fs
  | 0, _ => (0, s)
  | n + 1, i =>
    match readBgd g s i with
    | (none, s) => allocBlockFrom s n (i + 1)
    | (some bgd, s) =>
      if bgFreeBlocksCount bgd = 0 then allocBlockFrom s n (i + 1)
      else
        let bmap := s.request
        if bmap.1 then
          match readBlock g bmap.2 (bgBlockBitmap bgd) with
          | (none, s) => allocBlockFrom s n (i + 1)
          | (some bmap, s) =>
            match firstClear bmap (blocksInGroup g s i) 0 with
            | none => allocBlockFrom s n (i + 1)
            | some bit => takeBlock g s i bgd bmap bit
        else (0, bmap.2)

/-- The number of a new block, or 0. -/
def allocBlock (s : Fs) : ℕ × Fs :=
  allocBlockFrom g s (numGroups (sBlocksCount s.sb) g.blocksPerGroup) 0

def freeBlock (s : Fs) (blockNo : ℕ) : Fs :=
  if blockNo < g.firstDataBlock then s
  else
    let idx := blockNo - g.firstDataBlock
    let i := idx / g.blocksPerGroup
    let bit := idx % g.blocksPerGroup
    match readBgd g s i with
    | (none, s) => s
    | (some bgd, s) =>
      let bmap := s.request
      if bmap.1 then
        match readBlock g bmap.2 (bgBlockBitmap bgd) with
        | (none, s) => s
        | (some bmap, s) =>
          let s := (writeBlock g s (bgBlockBitmap bgd) (clearBit bmap bit)).2
          let s := (writeBgd g s i (writeLE bgd 2 12 (bgFreeBlocksCount bgd + 1))).2
          let s := { s with sb := writeLE s.sb 4 12 (sFreeBlocksCount s.sb + 1) }
          (writeSuper s).2
      else bmap.2

def takeInode (s : Fs) (i : ℕ) (bgd bmap : Mem) (bit : ℕ) : ℕ × Fs :=
  let s := (writeBlock g s (bgInodeBitmap bgd) (setBit bmap bit)).2
  let s := (writeBgd g s i (writeLE bgd 2 14 (bgFreeInodesCount bgd + 2 ^ 16 - 1))).2
  let s := { s with sb := writeLE s.sb 4 16 (sFreeInodesCount s.sb + 2 ^ 32 - 1) }
  let s := (writeSuper s).2
  (u32 (i * g.inodesPerGroup + bit + 1), s)

def allocInodeFrom (s : Fs) : ℕ → ℕ → ℕ × Fs
  | 0, _ => (0, s)
  | n + 1, i =>
    match readBgd g s i with
    | (none, s) => allocInodeFrom s n (i + 1)
    | (some bgd, s) =>
      if bgFreeInodesCount bgd = 0 then allocInodeFrom s n (i + 1)
      else
        let bmap := s.request
        if bmap.1 then
          match readBlock g bmap.2 (bgInodeBitmap bgd) with
          | (none, s) => allocInodeFrom s n (i + 1)
          | (some bmap, s) =>
            match firstClear bmap g.inodesPerGroup 0 with
            | none => allocInodeFrom s n (i + 1)
            | some bit => takeInode g s i bgd bmap bit
        else (0, bmap.2)

/-- The number of a new inode, or 0. -/
def allocInode (s : Fs) : ℕ × Fs :=
  allocInodeFrom g s (numGroups (sInodesCount s.sb) g.inodesPerGroup) 0

def freeInode (s : Fs) (ino : ℕ) : Fs :=
  if ino < 2 then s
  else
    let i := inodeGroup g ino
    let bit := inodeIndex g ino
    match readBgd g s i with
    | (none, s) => s
    | (some bgd, s) =>
      let bmap := s.request
      if bmap.1 then
        match readBlock g bmap.2 (bgInodeBitmap bgd) with
        | (none, s) => s
        | (some bmap, s) =>
          let s := (writeBlock g s (bgInodeBitmap bgd) (clearBit bmap bit)).2
          let s := (writeBgd g s i (writeLE bgd 2 14 (bgFreeInodesCount bgd + 1))).2
          let s := { s with sb := writeLE s.sb 4 16 (sFreeInodesCount s.sb + 1) }
          (writeSuper s).2
      else bmap.2

end AetherOS.Ext2
