import AetherOS.Ext2Alloc

/-!
# Mounting a volume

`ext2_mount` checks the magic number and the block size of the superblock, and keeps the other
fields of the geometry as they are. The functions below divide by them and use them to find
their way in buffers of one block. For each function, `Uses` lists the divisors and the parts
of such buffers in the order in which it comes to them.
-/
namespace AetherOS.Ext2
open ByteMemory ByteBitmap List

def sFirstDataBlock (sb : Mem) : ℕ := readLE sb 4 20
def sLogBlockSize (sb : Mem) : ℕ := readLE sb 4 24
def sBlocksPerGroup (sb : Mem) : ℕ := readLE sb 4 32
def sInodesPerGroup (sb : Mem) : ℕ := readLE sb 4 40
def sMagic (sb : Mem) : ℕ := readLE sb 2 56
def sRevLevel (sb : Mem) : ℕ := readLE sb 4 76
def sInodeSize (sb : Mem) : ℕ := readLE sb 2 88

/-- The geometry of a superblock that is accepted, when memory and transfers are granted. -/
def ext2Mount (sb : Mem) : Option Geometry :=
  if sMagic sb ≠ 0xef53 then none
  else if h : sLogBlockSize sb ≤ 2 then
    some
      { logBlockSize := ⟨sLogBlockSize sb, Nat.lt_succ_of_le h⟩
        inodesPerGroup := sInodesPerGroup sb
        blocksPerGroup := sBlocksPerGroup sb
        inodeSize := if 1 ≤ sRevLevel sb then sInodeSize sb else 128
        firstDataBlock := sFirstDataBlock sb }
  else none

/-- A division, or an access to `len` bytes of a block-sized buffer. -/
inductive Use where
  | divides (d : ℕ)
  | touches (off len : ℕ)
  deriving DecidableEq

section

variable (g : Geometry)

def Use.Safe : Use → Prop
  | .divides d => d ≠ 0
  | .touches off len => off + len ≤ g.blockSize

/-- The descriptor of group `i` in the buffer of its block. -/
def descriptorUse (i : ℕ) : Use := .touches (i % g.bgdsPerBlock * 32) 32

def readBgdUses (s : Fs) (i : ℕ) : List Use :=
  .divides g.bgdsPerBlock ::
    match readBlock g s (g.bgdBlock + i / g.bgdsPerBlock) with
    | (none, _) => []
    | (some _, _) => [descriptorUse g i]

def writeBgdUses (s : Fs) (i : ℕ) : List Use :=
  .divides g.bgdsPerBlock ::
    if s.request.1 then
      match readBlock g s.request.2 (g.bgdBlock + i / g.bgdsPerBlock) with
      | (none, _) => []
      | (some _, _) => [descriptorUse g i]
    else []

/-- From the descriptor of the group to the slot of the inode. -/
def inodeUses (s : Fs) (ino : ℕ) : List Use :=
  match readBgd g s (inodeGroup g ino) with
  | (none, _) => []
  | (some bgd, s) =>
    descriptorUse g (inodeGroup g ino) :: .divides g.inodeSize :: .divides g.inodesPerBlock ::
      match readBlock g s (inodeBlock g bgd ino) with
      | (none, _) => []
      | (some _, _) => [.touches (inodeSlot g ino * g.inodeSize) 128]

def readInodeUses (s : Fs) (ino : ℕ) : List Use :=
  if ino = 0 then [] else .divides g.inodesPerGroup :: .divides g.bgdsPerBlock :: inodeUses g s ino

def writeInodeUses (s : Fs) (ino : ℕ) : List Use :=
  if ino = 0 then []
  else
    .divides g.inodesPerGroup :: .divides g.bgdsPerBlock ::
      if s.request.1 then inodeUses g s.request.2 ino else []

/-- The byte of a bitmap that holds bit `i`. -/
def bitUse (i : ℕ) : Use := .touches (i / 8) 1

/-- The search for a clear bit among `n` bits, which is then set. -/
def scanUses (bmap : Mem) (n : ℕ) : List Use :=
  match firstClear bmap n 0 with
  | none => (List.range n).map bitUse
  | some bit => (List.range (bit + 1)).map bitUse ++ [bitUse bit]

/-- The loop of `alloc_block` or `alloc_inode` over `n` groups from `i` on. -/
def allocFromUses (freeCount bitmap : Mem → ℕ) (bits : Fs → ℕ → ℕ) (s : Fs) : ℕ → ℕ → List Use
  | 0, _ => []
  | n + 1, i => readBgdUses g s i ++ match readBgd g s i with
    | (none, s) => allocFromUses freeCount bitmap bits s n (i + 1)
    | (some bgd, s) =>
      if freeCount bgd = 0 then allocFromUses freeCount bitmap bits s n (i + 1)
      else
        let bmap := s.request
        if bmap.1 then
          match readBlock g bmap.2 (bitmap bgd) with
          | (none, s) => allocFromUses freeCount bitmap bits s n (i + 1)
          | (some bmap, s) => scanUses bmap (bits s i) ++ match firstClear bmap (bits s i) 0 with
            | none => allocFromUses freeCount bitmap bits s n (i + 1)
            | some bit => writeBgdUses g (writeBlock g s (bitmap bgd) (setBit bmap bit)).2 i
        else []

def allocBlockUses (s : Fs) : List Use :=
  .divides g.blocksPerGroup :: allocFromUses g bgFreeBlocksCount bgBlockBitmap (blocksInGroup g) s
    (numGroups (sBlocksCount s.sb) g.blocksPerGroup) 0

def allocInodeUses (s : Fs) : List Use :=
  .divides g.inodesPerGroup :: allocFromUses g bgFreeInodesCount bgInodeBitmap (fun _ _ => g.inodesPerGroup) s
    (numGroups (sInodesCount s.sb) g.inodesPerGroup) 0

/-- Clear bit `idx % perGroup` of group `idx / perGroup`. -/
def freeBitUses (perGroup : ℕ) (bitmap : Mem → ℕ) (s : Fs) (idx : ℕ) : List Use :=
  .divides perGroup :: (readBgdUses g s (idx / perGroup) ++ match readBgd g s (idx / perGroup) with
    | (none, _) => []
    | (some bgd, s) =>
      let bmap := s.request
      if bmap.1 then
        match readBlock g bmap.2 (bitmap bgd) with
        | (none, _) => []
        | (some bmap, s) => bitUse (idx % perGroup) ::
          writeBgdUses g (writeBlock g s (bitmap bgd) (clearBit bmap (idx % perGroup))).2 (idx / perGroup)
      else [])

def freeBlockUses (s : Fs) (blockNo : ℕ) : List Use :=
  if blockNo < g.firstDataBlock then []
  else freeBitUses g g.blocksPerGroup bgBlockBitmap s (blockNo - g.firstDataBlock)

def freeInodeUses (s : Fs) (ino : ℕ) : List Use :=
  if ino < 2 then [] else freeBitUses g g.inodesPerGroup bgInodeBitmap s (ino - 1)

/-- The driver divides by zero nowhere and stays in its buffers, on every volume with the counts
of the superblock. -/
structure DriverSafe (sb : Mem) : Prop where
  readInode : ∀ s ino, ino < 2 ^ 32 → ∀ u ∈ readInodeUses g s ino, u.Safe g
  writeInode : ∀ s ino, ino < 2 ^ 32 → ∀ u ∈ writeInodeUses g s ino, u.Safe g
  allocBlock : ∀ s, sBlocksCount s.sb = sBlocksCount sb → ∀ u ∈ allocBlockUses g s, u.Safe g
  freeBlock : ∀ s b, b < 2 ^ 32 → ∀ u ∈ freeBlockUses g s b, u.Safe g
  allocInode : ∀ s, sInodesCount s.sb = sInodesCount sb → ∀ u ∈ allocInodeUses g s, u.Safe g
  freeInode : ∀ s ino, ino < 2 ^ 32 → ∀ u ∈ freeInodeUses g s ino, u.Safe g

/-- What the fields of the superblock have to satisfy. -/
structure SafeGeometry (sb : Mem) : Prop where
  inodesPerGroup : g.inodesPerGroup ≠ 0
  blocksPerGroup : g.blocksPerGroup ≠ 0
  inodeSize : g.inodeSize ≠ 0
  inodeSize_le : g.inodeSize ≤ g.blockSize
  lastSlot : (min g.inodesPerGroup g.inodesPerBlock - 1) * g.inodeSize + 128 ≤ g.blockSize
  inodeBitmap : g.inodesPerGroup ≤ 8 * g.blockSize
  blockBitmap : min g.blocksPerGroup (2 ^ 32 - g.firstDataBlock) ≤ 8 * g.blockSize
  firstGroup : numGroups (sBlocksCount sb) g.blocksPerGroup ≠ 0 →
    min g.blocksPerGroup (sBlocksCount sb) ≤ 8 * g.blockSize

end

section

variable {g : Geometry} {s : Fs} {i : ℕ} {bitmap : Mem → ℕ} {sb : Mem}

lemma descriptorUse_safe (i : ℕ) : (descriptorUse g i).Safe g := bgd_slot_le g i

lemma bgdsPerBlock_safe : (Use.divides g.bgdsPerBlock).Safe g := by
  have hmul := g.bgdsPerBlock_mul
  have hpos := g.blockSize_pos
  rw [Use.Safe]
  omega

lemma bitUse_safe (h : i < 8 * g.blockSize) : (bitUse i).Safe g := by
  rw [bitUse, Use.Safe]
  omega

lemma readBgdUses_safe (s : Fs) (i : ℕ) : ∀ u ∈ readBgdUses g s i, u.Safe g := by
  rw [readBgdUses]
  refine forall_mem_cons.mpr ⟨bgdsPerBlock_safe, ?_⟩
  split
  · exact forall_mem_nil _
  · exact forall_mem_singleton.mpr (descriptorUse_safe i)

lemma writeBgdUses_safe (s : Fs) (i : ℕ) : ∀ u ∈ writeBgdUses g s i, u.Safe g := by
  rw [writeBgdUses]
  refine forall_mem_cons.mpr ⟨bgdsPerBlock_safe, ?_⟩
  split
  · split
    · exact forall_mem_nil _
    · exact forall_mem_singleton.mpr (descriptorUse_safe i)
  · exact forall_mem_nil _

lemma inodeSlot_safe (h0 : g.inodesPerGroup ≠ 0) (hb : g.inodesPerBlock ≠ 0)
    (hlast : (min g.inodesPerGroup g.inodesPerBlock - 1) * g.inodeSize + 128 ≤ g.blockSize) (ino : ℕ) :
    inodeSlot g ino * g.inodeSize + 128 ≤ g.blockSize := by
  have hindex : inodeIndex g ino < g.inodesPerGroup := Nat.mod_lt _ (pos_of_ne_zero h0)
  have hslot : inodeSlot g ino < g.inodesPerBlock := Nat.mod_lt _ (pos_of_ne_zero hb)
  have hle : inodeSlot g ino ≤ inodeIndex g ino := Nat.mod_le _ _
  have hmul : inodeSlot g ino * g.inodeSize ≤ (min g.inodesPerGroup g.inodesPerBlock - 1) * g.inodeSize :=
    Nat.mul_le_mul_right _ (by omega)
  omega

lemma scanUses_safe {bmap : Mem} {n : ℕ} (hn : n ≤ 8 * g.blockSize) : ∀ u ∈ scanUses bmap n, u.Safe g := by
  intro u hu
  rw [scanUses] at hu
  split at hu
  · obtain ⟨i, hi, rfl⟩ := mem_map.mp hu
    have hi := mem_range.mp hi
    exact bitUse_safe (by omega)
  rename_i bit hbit
  have hlt := (firstClear_spec hbit).2.1
  rcases mem_append.mp hu with hu | hu
  · obtain ⟨i, hi, rfl⟩ := mem_map.mp hu
    have hi := mem_range.mp hi
    exact bitUse_safe (by omega)
  · obtain rfl := mem_singleton.mp hu
    exact bitUse_safe (by omega)

lemma readBlock_sb (s : Fs) (b : ℕ) : (readBlock g s b).2.sb = s.sb := by
  simp only [readBlock]
  split
  · split
    · rfl
    · rfl
  · rfl

lemma readBgd_sb (s : Fs) (i : ℕ) : (readBgd g s i).2.sb = s.sb := by
  have hsb := readBlock_sb (g := g) s (g.bgdBlock + i / g.bgdsPerBlock)
  rw [readBgd]
  split
  next he =>
    rw [he] at hsb
    exact hsb
  next he =>
    rw [he] at hsb
    exact hsb

/-- The loop over the groups, if the bits that it looks at are those of one block. -/
lemma allocFromUses_safe {freeCount : Mem → ℕ} {bits : Fs → ℕ → ℕ} (n i : ℕ)
    (hbits : ∀ s' j, s'.sb = s.sb → i ≤ j → j < i + n → bits s' j ≤ 8 * g.blockSize) :
    ∀ u ∈ allocFromUses g freeCount bitmap bits s n i, u.Safe g := by
  induction n generalizing s i with
  | zero => exact forall_mem_nil _
  | succ n ih =>
    have hnext : ∀ s', s'.sb = s.sb → ∀ u ∈ allocFromUses g freeCount bitmap bits s' n (i + 1), u.Safe g := by
      intro s' hs'
      exact ih (i + 1) fun t j ht h1 h2 => hbits t j (ht.trans hs') (by omega) (by omega)
    rw [allocFromUses]
    refine forall_mem_append.mpr ⟨readBgdUses_safe s i, ?_⟩
    have hsb := readBgd_sb (g := g) s i
    split
    next s1 he =>
      rw [he] at hsb
      exact hnext s1 hsb
    rename_i bgd s1 he
    rw [he] at hsb
    have hsb : s1.sb = s.sb := hsb
    split
    · exact hnext s1 hsb
    simp only
    split
    · have hblock := readBlock_sb (g := g) s1.request.2 (bitmap bgd)
      split
      next s2 he2 =>
        rw [he2] at hblock
        exact hnext s2 (hblock.trans hsb)
      rename_i bmap s2 he2
      rw [he2] at hblock
      have hs2 : s2.sb = s.sb := hblock.trans hsb
      refine forall_mem_append.mpr ⟨scanUses_safe (hbits s2 i hs2 (by omega) (by omega)), ?_⟩
      split
      · exact hnext s2 hs2
      · exact writeBgdUses_safe _ i
    · exact forall_mem_nil _

lemma freeBitUses_safe {perGroup idx : ℕ} (h0 : perGroup ≠ 0)
    (hbit : idx % perGroup < 8 * g.blockSize) : ∀ u ∈ freeBitUses g perGroup bitmap s idx, u.Safe g := by
  rw [freeBitUses]
  refine forall_mem_cons.mpr ⟨h0, forall_mem_append.mpr ⟨readBgdUses_safe s _, ?_⟩⟩
  split
  · exact forall_mem_nil _
  simp only
  split
  · split
    · exact forall_mem_nil _
    · exact forall_mem_cons.mpr ⟨bitUse_safe hbit, writeBgdUses_safe _ _⟩
  · exact forall_mem_nil _

lemma inodeUses_safe (h : SafeGeometry g sb) (s : Fs) (ino : ℕ) : ∀ u ∈ inodeUses g s ino, u.Safe g := by
  have hb : g.inodesPerBlock ≠ 0 := Nat.pos_iff_ne_zero.mp (Nat.div_pos h.inodeSize_le (pos_of_ne_zero h.inodeSize))
  rw [inodeUses]
  split
  · exact forall_mem_nil _
  refine forall_mem_cons.mpr ⟨descriptorUse_safe _, forall_mem_cons.mpr ⟨h.inodeSize, forall_mem_cons.mpr ⟨hb, ?_⟩⟩⟩
  split
  · exact forall_mem_nil _
  · exact forall_mem_singleton.mpr (inodeSlot_safe h.inodesPerGroup hb h.lastSlot ino)

lemma blocksInGroup_le (h : SafeGeometry g sb) (hs : sBlocksCount s.sb = sBlocksCount sb)
    (hi : i < numGroups (sBlocksCount sb) g.blocksPerGroup) : blocksInGroup g s i ≤ 8 * g.blockSize := by
  have hfirst := h.firstGroup (by omega)
  have hmul : (i + 1) * g.blocksPerGroup ≤ numGroups (sBlocksCount sb) g.blocksPerGroup * g.blocksPerGroup :=
    Nat.mul_le_mul_right _ hi
  have hgroups : numGroups (sBlocksCount sb) g.blocksPerGroup * g.blocksPerGroup < 2 ^ 32 :=
    lt_of_le_of_lt (Nat.div_mul_le_self _ _) (Nat.mod_lt _ (by decide))
  have hu : u32 ((i + 1) * g.blocksPerGroup) = (i + 1) * g.blocksPerGroup := Nat.mod_eq_of_lt (by omega)
  have hpos : g.blocksPerGroup ≤ (i + 1) * g.blocksPerGroup := Nat.le_mul_of_pos_left _ (by omega)
  have hsucc : (i + 1) * g.blocksPerGroup = i * g.blocksPerGroup + g.blocksPerGroup := Nat.succ_mul _ _
  rw [blocksInGroup, hs, hu]
  split <;> omega

theorem SafeGeometry.driverSafe (h : SafeGeometry g sb) : DriverSafe g sb where
  readInode s ino _ := by
    rw [readInodeUses]
    split
    · exact forall_mem_nil _
    · exact forall_mem_cons.mpr ⟨h.inodesPerGroup, forall_mem_cons.mpr ⟨bgdsPerBlock_safe, inodeUses_safe h s ino⟩⟩
  writeInode s ino _ := by
    rw [writeInodeUses]
    split
    · exact forall_mem_nil _
    refine forall_mem_cons.mpr ⟨h.inodesPerGroup, forall_mem_cons.mpr ⟨bgdsPerBlock_safe, ?_⟩⟩
    split
    · exact inodeUses_safe h _ ino
    · exact forall_mem_nil _
  allocBlock s hs := by
    refine forall_mem_cons.mpr ⟨h.blocksPerGroup, allocFromUses_safe _ 0 fun s' j hs' _ hj => ?_⟩
    rw [zero_add, hs] at hj
    exact blocksInGroup_le h ((congrArg sBlocksCount hs').trans hs) hj
  freeBlock s b hb := by
    rw [freeBlockUses]
    split
    · exact forall_mem_nil _
    refine freeBitUses_safe h.blocksPerGroup ?_
    have hmod := Nat.mod_lt (b - g.firstDataBlock) (pos_of_ne_zero h.blocksPerGroup)
    have hle := Nat.mod_le (b - g.firstDataBlock) g.blocksPerGroup
    have hmap := h.blockBitmap
    omega
  allocInode s _ :=
    forall_mem_cons.mpr ⟨h.inodesPerGroup, allocFromUses_safe _ 0 fun _ _ _ _ _ => h.inodeBitmap⟩
  freeInode s ino _ := by
    rw [freeInodeUses]
    split
    · exact forall_mem_nil _
    refine freeBitUses_safe h.inodesPerGroup ?_
    have hmod := Nat.mod_lt (ino - 1) (pos_of_ne_zero h.inodesPerGroup)
    have hmap := h.inodeBitmap
    omega

end

section

variable {g : Geometry} {sb : Mem} {u : Use}

/-- A volume on which every bit is set and every request is granted. -/
def fullVolume (sb : Mem) : Fs := ⟨fun _ => 0xff, sb, fun _ => true⟩

lemma fullVolume_noFault (sb : Mem) : NoFault (fullVolume sb) := fun _ => rfl

lemma mem_inodeUses (ino : ℕ) (hu : u ∈ [Use.divides g.inodeSize, .divides g.inodesPerBlock,
    .touches (inodeSlot g ino * g.inodeSize) 128]) : u ∈ inodeUses g (fullVolume sb) ino := by
  simp only [inodeUses, readBgd_eq g (fullVolume_noFault sb), readBlock_eq g (fullVolume_noFault sb)]
  exact mem_cons_of_mem _ hu

lemma mem_readInodeUses {ino : ℕ} (h0 : ino ≠ 0) (hu : u ∈ inodeUses g (fullVolume sb) ino) :
    u ∈ readInodeUses g (fullVolume sb) ino := by
  rw [readInodeUses, if_neg h0]
  exact mem_cons_of_mem _ (mem_cons_of_mem _ hu)

lemma mem_freeBitUses (g : Geometry) (sb : Mem) (perGroup : ℕ) (bitmap : Mem → ℕ) (idx : ℕ) :
    bitUse (idx % perGroup) ∈ freeBitUses g perGroup bitmap (fullVolume sb) idx := by
  simp only [freeBitUses, readBgd_eq g (fullVolume_noFault sb), request_eq (fullVolume_noFault sb), if_true,
    readBlock_eq g (fullVolume_noFault sb)]
  exact mem_cons_of_mem _ (mem_append_right _ mem_cons_self)

lemma mem_scanUses {bmap : Mem} {n j : ℕ} (hj : j < n) (hset : ∀ i < j, testBit bmap i = true) :
    bitUse j ∈ scanUses bmap n := by
  rw [scanUses]
  split
  · exact mem_map_of_mem (mem_range.mpr hj)
  rename_i bit hbit
  have hclear := (firstClear_spec hbit).2.2
  have hle : j ≤ bit := by
    by_contra hlt
    rw [hset bit (by omega)] at hclear
    cases hclear
  exact mem_append_left _ (mem_map_of_mem (mem_range.mpr (by omega)))

/-- A byte behind the bitmap is looked at when the first group has more bits than a block. -/
lemma mem_allocBlockUses (hgroups : numGroups (sBlocksCount sb) g.blocksPerGroup ≠ 0)
    (hbits : 8 * g.blockSize < blocksInGroup g (fullVolume sb) 0) :
    bitUse (8 * g.blockSize) ∈ allocBlockUses g (fullVolume sb) := by
  have hn := fullVolume_noFault sb
  have hfree : bgFreeBlocksCount (bgdAt g (fullVolume sb).disk 0) ≠ 0 := by
    have hbyte : ∀ a < 32, bgdAt g (fullVolume sb).disk 0 a = 0xff := fun a ha => slice_inside _ ha
    simp only [bgFreeBlocksCount, readLE, hbyte 12 (by omega), hbyte 13 (by omega)]
    decide
  obtain ⟨k, hk⟩ := Nat.exists_eq_succ_of_ne_zero hgroups
  have hcount : sBlocksCount (fullVolume sb).sb = sBlocksCount sb := rfl
  simp only [allocBlockUses, hcount, hk, allocFromUses, readBgd_eq g hn, if_neg hfree, request_eq hn, if_true,
    readBlock_eq g hn]
  refine mem_cons_of_mem _ (mem_append_right _ (mem_append_left _ (mem_scanUses hbits fun i hi => ?_)))
  have hin : i / 8 < g.blockSize := by omega
  rw [testBit, slice_inside _ hin]
  have hbit : i % 8 < 8 := Nat.mod_lt _ (by decide)
  revert hbit
  generalize i % 8 = j
  revert j
  change ∀ j, j < 8 → (0xff : UInt8).toNat.testBit j = true
  decide

/-- Every condition on the fields is needed. -/
theorem DriverSafe.safeGeometry (hm : ext2Mount sb = some g) (h : DriverSafe g sb) : SafeGeometry g sb := by
  obtain ⟨hipg, hbpg, hfdb⟩ : g.inodesPerGroup < 2 ^ 32 ∧ g.blocksPerGroup < 2 ^ 32 ∧ g.firstDataBlock < 2 ^ 32 := by
    rw [ext2Mount] at hm
    split at hm
    · cases hm
    split at hm
    · cases hm
      exact ⟨readLE_lt _ 4 _, readLE_lt _ 4 _, readLE_lt _ 4 _⟩
    · cases hm
  have hbs := g.blockSize_pos
  have hbs' := g.blockSize_cases
  -- the bit behind the bitmap is outside the buffer
  have hbehind : ¬(bitUse (8 * g.blockSize)).Safe g := by
    rw [bitUse, Use.Safe]
    omega
  have hinode : ∀ ino, ino ≠ 0 → ino < 2 ^ 32 → ∀ u ∈ inodeUses g (fullVolume sb) ino, u.Safe g :=
    fun ino h0 hlt u hu => h.readInode (fullVolume sb) ino hlt u (mem_readInodeUses h0 hu)
  have hpg : g.inodesPerGroup ≠ 0 := h.readInode (fullVolume sb) 1 (by decide) (.divides g.inodesPerGroup)
    mem_cons_self
  have hsize : g.inodeSize ≠ 0 := hinode 1 (by decide) (by decide) (.divides g.inodeSize)
    (mem_inodeUses 1 mem_cons_self)
  have hblock : g.inodesPerBlock ≠ 0 := hinode 1 (by decide) (by decide) (.divides g.inodesPerBlock)
    (mem_inodeUses 1 (mem_cons_of_mem _ mem_cons_self))
  refine ⟨hpg, ?_, hsize, ?_, ?_, ?_, ?_, fun hgroups => ?_⟩
  · exact h.allocBlock (fullVolume sb) rfl (.divides g.blocksPerGroup) mem_cons_self
  · by_contra hlt
    exact hblock (Nat.div_eq_of_lt (Nat.not_le.mp hlt))
  · -- the last slot that an inode of the first group can have
    let n := min g.inodesPerGroup g.inodesPerBlock
    have hslot : inodeSlot g n = min g.inodesPerGroup g.inodesPerBlock - 1 := by
      have hindex : inodeIndex g n = min g.inodesPerGroup g.inodesPerBlock - 1 := Nat.mod_eq_of_lt (by omega)
      rw [inodeSlot, hindex, Nat.mod_eq_of_lt (by omega)]
    have hsafe := hinode n (by omega) (by omega) (.touches _ 128)
      (mem_inodeUses _ (mem_cons_of_mem _ (mem_cons_of_mem _ mem_cons_self)))
    rw [hslot] at hsafe
    exact hsafe
  · by_contra hlt
    have hmem := mem_freeBitUses g sb g.inodesPerGroup bgInodeBitmap (8 * g.blockSize)
    rw [Nat.mod_eq_of_lt (by omega)] at hmem
    refine hbehind (h.freeInode (fullVolume sb) (8 * g.blockSize + 1) (by omega) _ ?_)
    rw [freeInodeUses, if_neg (by omega), Nat.add_sub_cancel]
    exact hmem
  · by_contra hlt
    have hmem := mem_freeBitUses g sb g.blocksPerGroup bgBlockBitmap (8 * g.blockSize)
    rw [Nat.mod_eq_of_lt (by omega)] at hmem
    refine hbehind (h.freeBlock (fullVolume sb) (8 * g.blockSize + g.firstDataBlock) (by omega) _ ?_)
    rw [freeBlockUses, if_neg (by omega), Nat.add_sub_cancel]
    exact hmem
  by_contra hlt
  refine hbehind (h.allocBlock (fullVolume sb) rfl _ (mem_allocBlockUses hgroups ?_))
  have hcount : sBlocksCount (fullVolume sb).sb = sBlocksCount sb := rfl
  have hu : u32 ((0 + 1) * g.blocksPerGroup) = g.blocksPerGroup := by
    rw [zero_add, one_mul]
    exact Nat.mod_eq_of_lt hbpg
  rw [blocksInGroup, hcount, hu, Nat.zero_mul, Nat.sub_zero]
  split <;> omega

end

/-- For every superblock that `ext2_mount` accepts: the functions of the driver divide by zero
nowhere and stay in their buffers, whatever is on the disk, exactly if the fields satisfy
`SafeGeometry`. -/
theorem driverSafe_iff (sb : Mem) (g : Geometry) (hm : ext2Mount sb = some g) : DriverSafe g sb ↔ SafeGeometry g sb :=
  ⟨fun h => h.safeGeometry hm, SafeGeometry.driverSafe⟩

/-- A superblock with the counts of a volume of sixteen blocks. -/
def sixteenBlocks : Mem := fun a =>
  match a with
  | 4 => 16
  | 20 => 1
  | 32 => 16
  | 40 => 8
  | 56 => 0x53
  | 57 => 0xef
  | _ => 0

theorem driverSafe_sixteenBlocks : ∃ g, ext2Mount sixteenBlocks = some g ∧ DriverSafe g sixteenBlocks := by
  have hm : ext2Mount sixteenBlocks = some ⟨0, 8, 16, 128, 1⟩ := rfl
  exact ⟨_, hm, (driverSafe_iff sixteenBlocks _ hm).mpr
    ⟨by decide, by decide, by decide, by decide, by decide, by decide, by decide, by decide +kernel⟩⟩

/-- The magic number alone. -/
def bareMagic : Mem := fun a =>
  match a with
  | 56 => 0x53
  | 57 => 0xef
  | _ => 0

/-- Sixteen inodes in each group, of 64 bytes each. -/
def smallInodes : Mem := fun a =>
  match a with
  | 32 => 16
  | 40 => 16
  | 56 => 0x53
  | 57 => 0xef
  | 76 => 1
  | 88 => 64
  | _ => 0

/-- Both are mounted. Reading the first inode of the one divides by zero; the last inode of the
other is read from 960 on, beyond the end of the block. -/
theorem mount_accepts_unsafe_geometry :
    (∃ g, ext2Mount bareMagic = some g ∧ .divides 0 ∈ readInodeUses g (fullVolume bareMagic) 1) ∧
      ∃ g, ext2Mount smallInodes = some g ∧ g.blockSize = 1024 ∧
        .touches 960 128 ∈ readInodeUses g (fullVolume smallInodes) 16 := by
  constructor
  · exact ⟨⟨0, 0, 0, 128, 0⟩, rfl, mem_cons_self⟩
  · refine ⟨⟨0, 16, 16, 64, 0⟩, rfl, rfl, mem_readInodeUses (by decide) (mem_inodeUses 16 ?_)⟩
    decide +kernel

end AetherOS.Ext2
