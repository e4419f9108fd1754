import AetherOS.Ext2RoundTrip

/-!
# Limits of the allocator

`alloc_block` computes the number of groups, and the length of the last one, without the first
data block that the number of a block includes. A write that finds no block for its data has
taken blocks of block numbers before.
-/
namespace AetherOS.Ext2
open ByteMemory ByteBitmap PointerTree Option Nat

/-- The bit is one that `alloc_block` would take: it is clear, and its group counts free blocks. -/
def Offered (g : Geometry) (s : Fs) (k bit : ℕ) : Prop :=
  k < numGroups (sBlocksCount s.sb) g.blocksPerGroup ∧ bgFreeBlocksCount (bgdAt g s.disk k) ≠ 0 ∧
    bit < blocksInGroup g s k ∧ blockBit g s.disk k bit = false

section

variable {g : Geometry} {s : Fs} {k bit : ℕ}

lemma Offered.pos (h : Offered g s k bit) : 0 < g.blocksPerGroup := by
  by_contra h0
  have hk := h.1
  rw [Nat.eq_zero_of_not_pos h0, numGroups, Nat.div_zero] at hk
  omega

/-- The groups are searched from the first one on. -/
lemma allocBlockFrom_le (hn : NoFault s) (h : Offered g s k bit) {n i : ℕ} (hi : i ≤ k) (hk : k < i + n) :
    ∃ k' bit', Offered g s k' bit' ∧ blockNumber g k' bit' ≤ blockNumber g k bit ∧
      allocBlockFrom g s n i = takeBlock g s k' (bgdAt g s.disk k')
        (slice s.disk (bgBlockBitmap (bgdAt g s.disk k') * g.blockSize) g.blockSize) bit' := by
  induction n generalizing i with
  | zero => omega
  | succ n ih =>
    by_cases hcount : bgFreeBlocksCount (bgdAt g s.disk i) = 0
    · have hne : i ≠ k := fun he => h.2.1 (he ▸ hcount)
      simp only [allocBlockFrom, readBgd_eq g hn, if_pos hcount]
      exact ih (by omega) (by omega)
    simp only [allocBlockFrom, readBgd_eq g hn, if_neg hcount, request_eq hn, if_true, readBlock_eq g hn]
    cases hf : firstClear (slice s.disk (bgBlockBitmap (bgdAt g s.disk i) * g.blockSize) g.blockSize)
        (blocksInGroup g s i) 0 with
    | none =>
      have hne : i ≠ k := by
        rintro rfl
        obtain ⟨b, hb, -⟩ := firstClear_least (Nat.zero_le _) (by simpa using h.2.2.1) h.2.2.2
        rw [hf] at hb
        cases hb
      exact ih (by omega) (by omega)
    | some b =>
      obtain ⟨hlt, hclear⟩ := firstClear_blockBit hf
      have hin : i < numGroups (sBlocksCount s.sb) g.blocksPerGroup := lt_of_le_of_lt hi h.1
      refine ⟨i, b, ⟨hin, hcount, hlt, hclear⟩, ?_, rfl⟩
      have hb := (group_bounds h.pos hin hlt).2
      unfold blockNumber
      rcases Nat.eq_or_lt_of_le hi with rfl | hik
      · obtain ⟨b', hb', hle⟩ := firstClear_least (Nat.zero_le _) (by simpa using h.2.2.1) h.2.2.2
        rw [hf] at hb'
        cases hb'
        omega
      · have hmul := Nat.mul_le_mul_right g.blocksPerGroup hik
        rw [succ_mul] at hmul
        omega

lemma Offered.allocBlock_fst (hn : NoFault s) (h : Offered g s k bit) : ∃ k' bit', Offered g s k' bit' ∧
    blockNumber g k' bit' ≤ blockNumber g k bit ∧ (allocBlock g s).1 = u32 (blockNumber g k' bit') := by
  obtain ⟨k', bit', hoff, hle, htaken⟩ := allocBlockFrom_le hn h (Nat.zero_le k) (by simpa using h.1)
  exact ⟨k', bit', hoff, hle, by rw [allocBlock, htaken, takeBlock_eq hn]⟩

/-- A block that is offered changes the count of free blocks. -/
lemma Offered.allocBlock_ne (hn : NoFault s) (h : Offered g s k bit) : allocBlock g s ≠ (0, s) := by
  intro hz
  obtain ⟨k', bit', -, -, htaken⟩ := allocBlockFrom_le hn h (Nat.zero_le k) (by simpa using h.1)
  rw [allocBlock, htaken, takeBlock_eq hn] at hz
  have hsb : writeLE s.sb 4 12 (sFreeBlocksCount s.sb + 2 ^ 32 - 1) = s.sb :=
    congrArg (fun r : ℕ × Fs => r.2.sb) hz
  have hlt : sFreeBlocksCount s.sb < 256 ^ 4 := readLE_lt _ 4 12
  have hread : sFreeBlocksCount s.sb = (sFreeBlocksCount s.sb + 2 ^ 32 - 1) % 256 ^ 4 := by
    conv_lhs => rw [← hsb]
    exact readLE_writeLE_same _ _ _ _
  omega

lemma allocBlock_eq_zero_iff (hn : NoFault s) : allocBlock g s = (0, s) ↔ ∀ k bit, ¬Offered g s k bit := by
  refine ⟨fun hz k bit hoff => hoff.allocBlock_ne hn hz, fun hnone => ?_⟩
  rcases allocBlockFrom_cases hn (numGroups (sBlocksCount s.sb) g.blocksPerGroup) 0 with
    hz | ⟨k, bit, hk, hoff, -⟩
  · exact hz
  · exact absurd ⟨by omega, hoff⟩ (hnone k bit)

end

section

variable {g : Geometry} {s : Fs}

/-- On a full volume nothing is changed on the way to a block. -/
lemma mapBlock_same (hn : NoFault s) (hz : allocBlock g s = (0, s)) (inode : Mem) (idx : ℕ) :
    (mapBlock g s inode idx).2.2 = s := by
  have hslot : ∀ k new, new s = (none, s) → (ensureSlot new s inode k).2.2 = s := by
    intro k new hs
    unfold ensureSlot
    split
    · rfl
    · rw [hs]
  have hentry : ∀ i j new, new s = (none, s) → (ensureEntry g new s i j).2 = s := by
    intro i j new hs
    simp only [ensureEntry, request_eq hn, readBlock_eq g hn, if_true]
    split
    · rfl
    · rw [hs]
  have hdata : newData g s = (none, s) := by simp [newData, hz]
  have htable : newTable g s = (none, s) := by simp [newTable, hz]
  unfold mapBlock
  split_ifs
  · exact hslot _ _ hdata
  · have hs := hslot 12 _ htable
    generalize ensureSlot (newTable g) s inode 12 = r at hs ⊢
    obtain ⟨_ | b, inode', s'⟩ := r
    · exact hs
    · obtain rfl : s = s' := hs.symm
      exact hentry _ _ _ hdata
  · have hs := hslot 13 _ htable
    generalize ensureSlot (newTable g) s inode 13 = r at hs ⊢
    obtain ⟨_ | b, inode', s'⟩ := r
    · exact hs
    · obtain rfl : s = s' := hs.symm
      have hs := hentry b ((idx - 12 - g.ptrs) / g.ptrs) _ htable
      simp only
      generalize ensureEntry g (newTable g) s b ((idx - 12 - g.ptrs) / g.ptrs) = r at hs ⊢
      obtain ⟨_ | b, s'⟩ := r
      · exact hs
      · obtain rfl : s = s' := hs.symm
        exact hentry _ _ _ hdata
  · rfl

lemma le_writeLoop (s : Fs) (inode : Mem) (off written : ℕ) (data : List UInt8) :
    written ≤ (writeLoop g s inode off written data).1 := by
  fun_induction writeLoop g s inode off written data with
  | case4 =>
    rename_i ih
    exact le_trans (Nat.le_add_right _ _) ih
  | _ => exact le_refl _

end

/-- The block bitmaps and all counts of free blocks are the same. -/
def SameFree (g : Geometry) (s s' : Fs) : Prop :=
  sFreeBlocksCount s'.sb = sFreeBlocksCount s.sb ∧ ∀ k,
    bgFreeBlocksCount (bgdAt g s'.disk k) = bgFreeBlocksCount (bgdAt g s.disk k) ∧
    ∀ bit, blockBit g s'.disk k bit = blockBit g s.disk k bit

/-- For every consistent volume, inode in use, offset and data: a write that stores nothing changes
no bitmap and no count exactly if it lies behind the largest file, or no block is free. -/
theorem ext2Write_nothing_iff (g : Geometry) (s s' : Fs) (live : ℕ → Prop) (ino off : ℕ) (data : List UInt8)
    (h : Consistent g (s.mounted g live)) (hn : NoFault s) (hlive : live ino)
    (hw : ext2Write g s ino off data = (some 0, s')) : SameFree g s s' ↔
      maxBlocks g ≤ u32 (off % 2 ^ 64 / g.blockSize) ∨ ∀ k bit, ¬Offered g s k bit := by
  have hino := (h.live ino hlive).1
  unfold ext2Write at hw
  split at hw
  · cases hw
  rename_i hne
  rw [not_or] at hne
  simp only [readInode_eq h.inodesFit hn hino, request_eq hn, if_true] at hw
  have hmapped := mapBlock_spec (openView_inodeAt ▸ h) hn hlive (u32 (off % 2 ^ 64 / g.blockSize))
  have hsame := fun hz : allocBlock g s = (0, s) =>
    mapBlock_same hn hz (inodeAt g s.disk ino) (u32 (off % 2 ^ 64 / g.blockSize))
  rw [writeLoop, if_neg hne.2, add_zero] at hw
  rcases hm : mapBlock g s (inodeAt g s.disk ino) (u32 (off % 2 ^ 64 / g.blockSize)) with ⟨_ | b, inode1, s1⟩
  · -- there is no block
    rw [hm] at hmapped hsame
    simp only [hm, lt_irrefl, if_false] at hw
    obtain rfl : s1 = s' := (Prod.mk.inj hw).2
    constructor
    · intro hfree
      refine (Nat.lt_or_ge _ _).symm.imp_right fun hmax k bit hoff => ?_
      refine (allocBlock_eq_zero_iff hmapped.noFault).mp (hmapped.full rfl hmax) k bit ?_
      have hcount : sBlocksCount s1.sb = sBlocksCount s.sb := hmapped.grown.count
      have hbits := hfree.2 k
      unfold Offered blocksInGroup at hoff ⊢
      rwa [hcount, hbits.1, hbits.2]
    · intro hor
      have hs1 : s1 = s := by
        rcases hor with hfar | hnone
        · unfold mapBlock at hm
          unfold maxBlocks at hfar
          rw [if_neg (by omega), if_neg (by omega), if_neg (by omega)] at hm
          exact (Prod.mk.inj (Prod.mk.inj hm).2).2.symm
        · exact hsame ((allocBlock_eq_zero_iff hn).mpr hnone)
      rw [hs1]
      exact ⟨rfl, fun _ => ⟨rfl, fun _ => rfl⟩⟩
  -- the first bytes are stored
  rw [hm] at hmapped
  have hn1 : NoFault s1 := hmapped.noFault
  obtain ⟨blkbuf, hblk, -⟩ := readForWrite_spec g (off % 2 ^ 64) data.length hn1 b
  have hpos : 0 < chunk g (off % 2 ^ 64) data.length := chunk_pos g (List.length_pos_iff.mpr hne.2)
  simp only [hm, hblk, writeBlock_eq g hn1, if_true, zero_add] at hw
  generalize chunk g (off % 2 ^ 64) data.length = n at hw hpos
  generalize ({ s1 with disk := _ } : Fs) = s2 at hw
  have hle := le_writeLoop (g := g) s2 inode1 off n (data.drop n)
  rw [if_pos (by omega)] at hw
  have hzero := some.inj (Prod.mk.inj hw).1
  omega

/-- A volume with an empty file, inode 3, and one free block, checked for consistency. -/
def oneBlockLeft : {s : Fs // Checked smallGeometry (s.mounted smallGeometry (· ∈ [3])) [3]} where
  val :=
    { disk := image [(2048, [3, 0, 0, 0, 4, 0, 0, 0, 5, 0, 0, 0, 1]), (3072, [0xff, 0xbf]), (5377, [0x81])]
      sb := image [(4, [16]), (12, [1])]
      outcomes _ := true }
  property := by decide +kernel

/-- Behind the doubly indirect blocks nothing can be written. -/
theorem ext2Write_nothing_far :
    SameFree smallGeometry oneBlockLeft.1 (ext2Write smallGeometry oneBlockLeft.1 3 67383296 [1]).2 :=
  (ext2Write_nothing_iff smallGeometry oneBlockLeft.1 _ (· ∈ [3]) 3 67383296 [1]
    (oneBlockLeft.2.consistent rfl) (fun _ => rfl) (List.mem_singleton.mpr rfl)
    (Prod.ext (by decide +kernel : (ext2Write smallGeometry oneBlockLeft.1 3 67383296 [1]).1 = some 0)
      rfl)).mpr (.inl (by decide +kernel))

/-- The block goes to the block numbers, none is left for the data, and the inode is not written. -/
theorem ext2Write_loses_block :
    Consistent smallGeometry (oneBlockLeft.1.mounted smallGeometry (· ∈ [3])) ∧
      (ext2Write smallGeometry oneBlockLeft.1 3 12288 [1]).1 = some 0 ∧
      sFreeBlocksCount oneBlockLeft.1.sb = 1 ∧
      sFreeBlocksCount (ext2Write smallGeometry oneBlockLeft.1 3 12288 [1]).2.sb = 0 ∧
      blockBit smallGeometry oneBlockLeft.1.disk 0 14 = false ∧
      blockBit smallGeometry (ext2Write smallGeometry oneBlockLeft.1 3 12288 [1]).2.disk 0 14 = true :=
  ⟨oneBlockLeft.2.consistent rfl, by decide +kernel, by decide +kernel, by decide +kernel, by decide +kernel,
    by decide +kernel⟩

end AetherOS.Ext2
