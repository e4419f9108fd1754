import AetherOS.Ext2Alloc

/-!
# Reading, writing and truncating files

An inode refers to twelve data blocks, and through an indirect block and a doubly
indirect block to further ones; the driver does not follow the triply indirect block.
`ext2_read` and `ext2_write` go through the file block by block.
-/
namespace AetherOS.Ext2
open ByteMemory

variable (g : Geometry)

/-- Entry `i` of a block of block numbers. -/
def entry (buf : Mem) (i : ℕ) : ℕ := readLE buf 4 (4 * i)

def setEntry (buf : Mem) (i v : ℕ) : Mem := writeLE buf 4 (4 * i) v

/-- Where `ext2_read` finds a block of the file: a block number (0 for a hole), beyond
what is mapped, or a failed transfer. -/
inductive Found where
  | block (blockNo : ℕ)
  | stop
  | fail
  deriving DecidableEq

def findBlock (s : Fs) (inode : Mem) (blockIdx : ℕ) : Found × Fs :=
  if blockIdx < 12 then (.block (iBlock inode blockIdx), s)
  else if blockIdx < 12 + g.ptrs then
    if iBlock inode 12 = 0 then (.stop, s)
    else
      match readBlock g s (iBlock inode 12) with
      | (none, s) => (.fail, s)
      | (some indir, s) => (.block (entry indir (blockIdx - 12)), s)
  else if blockIdx < 12 + g.ptrs + g.ptrs * g.ptrs then
    let dblIdx := blockIdx - 12 - g.ptrs
    if iBlock inode 13 = 0 then (.stop, s)
    else
      match readBlock g s (iBlock inode 13) with
      | (none, s) => (.fail, s)
      | (some dbl, s) =>
        if entry dbl (dblIdx / g.ptrs) = 0 then (.stop, s)
        else
          match readBlock g s (entry dbl (dblIdx / g.ptrs)) with
          | (none, s) => (.fail, s)
          | (some indir, s) => (.block (entry indir (dblIdx % g.ptrs)), s)
  else (.stop, s)

/-- The number of bytes from offset `off` to the end of its block, at most `remaining`. -/
def chunk (off remaining : ℕ) : ℕ := min (g.blockSize - off % g.blockSize) remaining

lemma chunk_le (off remaining : ℕ) : chunk g off remaining ≤ remaining := min_le_right _ _

lemma chunk_pos {off remaining : ℕ} (h : 0 < remaining) : 0 < chunk g off remaining := by
  have hmod := Nat.mod_lt off g.blockSize_pos
  unfold chunk
  omega

def readLoop (inode : Mem) (s : Fs) (curOff remaining : ℕ) (dst : List UInt8) :
    Option (List UInt8) × Fs :=
  if remaining = 0 then (some dst, s)
  else
    match findBlock g s inode (curOff / g.blockSize) with
    | (.fail, s) => (none, s)
    | (.stop, s) => (some dst, s)
    | (.block blockNo, s) =>
      let toCopy := chunk g curOff remaining
      if blockNo = 0 then
        readLoop inode s (curOff + toCopy) (remaining - toCopy) (dst ++ List.replicate toCopy 0)
      else
        match readBlock g s blockNo with
        | (none, s) => (none, s)
        | (some buf, s) =>
          readLoop inode s (curOff + toCopy) (remaining - toCopy)
            (dst ++ bytes buf (curOff % g.blockSize) toCopy)
termination_by remaining
decreasing_by
  all_goals
    have hpos : 0 < chunk g curOff remaining := chunk_pos g (by omega)
    omega

/-- The bytes read; `none` stands for the result -1. -/
def ext2Read (s : Fs) (ino off size : ℕ) : Option (List UInt8) × Fs :=
  match readInode g s ino with
  | (none, s) => (none, s)
  | (some inode, s) =>
    if iSize inode ≤ off then (some [], s)
    else readLoop g inode s off (if iSize inode < off + size then iSize inode - off else size) []

def ext2FileSize (s : Fs) (ino : ℕ) : ℕ × Fs :=
  match readInode g s ino with
  | (none, s) => (0, s)
  | (some inode, s) => (iSize inode, s)

/-- The mode, owner and group of an inode. -/
def ext2InodeStat (s : Fs) (ino : ℕ) : Option (ℕ × ℕ × ℕ) × Fs :=
  match readInode g s ino with
  | (none, s) => (none, s)
  | (some inode, s) => (some (iMode inode, iUid inode, iGid inode), s)

/-- A new data block. -/
def newData (s : Fs) : Option ℕ × Fs :=
  let r := allocBlock g s
  if r.1 = 0 then (none, r.2) else (some r.1, r.2)

/-- A new block of block numbers, which `ext2_write` clears once more. -/
def newTable (s : Fs) : Option ℕ × Fs :=
  let r := allocBlock g s
  if r.1 = 0 then (none, r.2)
  else
    let w := writeBlock g r.2 r.1 zeros
    if w.1 then (some r.1, w.2) else (none, w.2)

/-- The block at slot `k` of the inode, allocated if there is none. -/
def ensureSlot (new : Fs → Option ℕ × Fs) (s : Fs) (inode : Mem) (k : ℕ) : Option ℕ × Mem × Fs :=
  if iBlock inode k ≠ 0 then (some (iBlock inode k), inode, s)
  else
    match new s with
    | (none, s) => (none, inode, s)
    | (some b, s) => (some b, setIBlock inode k b, s)

/-- The block at entry `i` of the block `table`, allocated if there is none. -/
def ensureEntry (new : Fs → Option ℕ × Fs) (s : Fs) (table i : ℕ) : Option ℕ × Fs :=
  let tmp := s.request
  if tmp.1 then
    match readBlock g tmp.2 table with
    | (none, s) => (none, s)
    | (some buf, s) =>
      if entry buf i ≠ 0 then (some (entry buf i), s)
      else
        match new s with
        | (none, s) => (none, s)
        | (some b, s) =>
          let w := writeBlock g s table (setEntry buf i b)
          if w.1 then (some b, w.2) else (none, w.2)
  else (none, tmp.2)

/-- The block of the file that `ext2_write` writes to, with the inode, whose slots may have
been filled; `none` ends the write. -/
def mapBlock (s : Fs) (inode : Mem) (blockIdx : ℕ) : Option ℕ × Mem × Fs :=
  if blockIdx < 12 then ensureSlot (newData g) s inode blockIdx
  else if blockIdx < 12 + g.ptrs then
    match ensureSlot (newTable g) s inode 12 with
    | (none, inode, s) => (none, inode, s)
    | (some indir, inode, s) =>
      let r := ensureEntry g (newData g) s indir (blockIdx - 12)
      (r.1, inode, r.2)
  else if blockIdx < 12 + g.ptrs + g.ptrs * g.ptrs then
    let dblIdx := blockIdx - 12 - g.ptrs
    match ensureSlot (newTable g) s inode 13 with
    | (none, inode, s) => (none, inode, s)
    | (some dbl, inode, s) =>
      match ensureEntry g (newTable g) s dbl (dblIdx / g.ptrs) with
      | (none, s) => (none, inode, s)
      | (some l1, s) =>
        let r := ensureEntry g (newData g) s l1 (dblIdx % g.ptrs)
        (r.1, inode, r.2)
  else (none, inode, s)

/-- The loop of `ext2_write`, with the data that is left. -/
def writeLoop (s : Fs) (inode : Mem) (off written : ℕ) (data : List UInt8) : ℕ × Mem × Fs :=
  if data = [] then (written, inode, s)
  else
    let pos := (off + written) % 2 ^ 64
    let blockOff := pos % g.blockSize
    let toWrite := chunk g pos data.length
    match mapBlock g s inode (u32 (pos / g.blockSize)) with
    | (none, inode, s) => (written, inode, s)
    | (some bno, inode, s) =>
      match (if 0 < blockOff ∨ toWrite < g.blockSize then readBlock g s bno else (some zeros, s)) with
      | (none, s) => (written, inode, s)
      | (some blkbuf, s) =>
        let w := writeBlock g s bno (blit blkbuf toWrite blockOff fun i => data.getD i 0)
        if w.1 then writeLoop w.2 inode off (written + toWrite) (data.drop toWrite)
        else (written, inode, w.2)
termination_by data.length
decreasing_by
  have hlen : 0 < data.length := List.length_pos_iff.mpr (by assumption)
  have hpos : 0 < chunk g ((off + written) % 2 ^ 64) data.length := chunk_pos g hlen
  simp only [List.length_drop]
  omega

/-- How many of the first fourteen slots are filled. -/
def usedSlots (inode : Mem) : ℕ := (List.range 14).countP fun k => iBlock inode k ≠ 0

/-- The inode after a write that ended at `newEnd`. -/
def extend (inode : Mem) (newEnd : ℕ) : Mem :=
  if iSize inode < newEnd then
    setIBlocks (setISize inode newEnd) (usedSlots inode * (g.blockSize / 512))
  else inode

/-- The number of bytes written; `none` stands for the result -1. -/
def ext2Write (s : Fs) (ino off : ℕ) (data : List UInt8) : Option ℕ × Fs :=
  if ino = 0 ∨ data = [] then (none, s)
  else
    match readInode g s ino with
    | (none, s) => (none, s)
    | (some inode, s) =>
      let blkbuf := s.request
      if blkbuf.1 then
        match writeLoop g blkbuf.2 inode off 0 data with
        | (written, inode, s) =>
          if 0 < written then
            (some written, (writeInode g s ino (extend g inode ((off + written) % 2 ^ 64))).2)
          else (some written, s)
      else (none, blkbuf.2)

/-- Free the block at slot `k` of the inode. -/
def freeSlot (r : Mem × Fs) (k : ℕ) : Mem × Fs :=
  if iBlock r.1 k ≠ 0 then (setIBlock r.1 k 0, freeBlock g r.2 (iBlock r.1 k)) else r

/-- Free the blocks that the entries of `buf` refer to. -/
def freeEntries (s : Fs) (buf : Mem) : Fs :=
  (List.range g.ptrs).foldl
    (fun s i => if entry buf i ≠ 0 then freeBlock g s (entry buf i) else s) s

/-- Free the direct blocks and those behind the indirect block. -/
def freeBlocks (s : Fs) (inode : Mem) : Mem × Fs :=
  let r := (List.range 12).foldl (freeSlot g) (inode, s)
  if iBlock r.1 12 ≠ 0 then
    let indir := r.2.request
    let s :=
      if indir.1 then
        match readBlock g indir.2 (iBlock r.1 12) with
        | (none, s) => s
        | (some buf, s) => freeEntries g s buf
      else indir.2
    freeSlot g (r.1, s) 12
  else r

def ext2Truncate (s : Fs) (ino : ℕ) : Bool × Fs :=
  if ino < 2 then (false, s)
  else
    match readInode g s ino with
    | (none, s) => (false, s)
    | (some inode, s) =>
      let r := freeBlocks g s inode
      writeInode g r.2 ino (setIBlocks (setISize r.1 0) 0)

end AetherOS.Ext2
