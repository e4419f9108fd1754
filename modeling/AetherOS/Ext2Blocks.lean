import AetherOS.Ext2Layout

/-!
# Allocated blocks are fresh

Allocating and freeing change a bitmap, a group descriptor and the superblock, and
nothing else. A block that `alloc_block` returns had no role, is marked used, and is
cleared.
-/
namespace AetherOS.Ext2
open ByteMemory ByteBitmap

section

variable (g : Geometry)

/-- The volume after the allocators wrote a bitmap `buf` to block `b`, a descriptor and the
superblock. -/
def record (s : Fs) (b : ℕ) (buf : Mem) (i : ℕ) (bgd sb : Mem) : Fs :=
  { s with
    disk := blit (blit (blit s.disk g.blockSize (b * g.blockSize) buf) 32 (bgdAddr g i) bgd) 1024 1024 sb
    sb := sb }

variable {g} {s : Fs} {b c i k : ℕ} {buf bgd sb : Mem}

lemma record_outcomes : (record g s b buf i bgd sb).outcomes = s.outcomes := by simp [record]

lemma super_le : 1024 / g.blockSize * g.blockSize ≤ 1024 ∧
    1024 + 1024 ≤ 1024 / g.blockSize * g.blockSize + g.blockSize := by
  rcases g.blockSize_cases with h | h | h <;> rw [h] <;> decide

lemma descriptor_le : (g.bgdBlock + i / g.bgdsPerBlock) * g.blockSize ≤ bgdAddr g i ∧
    bgdAddr g i + 32 ≤ (g.bgdBlock + i / g.bgdsPerBlock) * g.blockSize + g.blockSize := by
  have hslot := bgd_slot_le g i
  rw [← bgdAddr_eq]
  omega

lemma record_same (hb : c ≠ b) (hi : c ≠ g.bgdBlock + i / g.bgdsPerBlock)
    (hs : c ≠ 1024 / g.blockSize) : Same g s.disk (record g s b buf i bgd sb).disk c := by
  have h1 : Same g s.disk (blit s.disk g.blockSize (b * g.blockSize) buf) c := same_writeBlock buf hb
  exact (h1.trans (same_blit bgd descriptor_le.1 descriptor_le.2 hi)).trans
    (same_blit sb super_le.1 super_le.2 hs)

lemma record_bitmap (hi : b ≠ g.bgdBlock + i / g.bgdsPerBlock) (hs : b ≠ 1024 / g.blockSize) :
    slice (record g s b buf i bgd sb).disk (b * g.blockSize) g.blockSize = slice buf 0 g.blockSize := by
  have h1 : Same g (blit s.disk g.blockSize (b * g.blockSize) buf) (record g s b buf i bgd sb).disk b :=
    (same_blit bgd descriptor_le.1 descriptor_le.2 hi).trans (same_blit sb super_le.1 super_le.2 hs)
  rw [h1.block, slice_blit_self]

lemma record_bgd_self (hs : g.bgdBlock + i / g.bgdsPerBlock ≠ 1024 / g.blockSize) :
    bgdAt g (record g s b buf i bgd sb).disk i = slice bgd 0 32 := by
  rw [record, bgdAt_eq_of_same (same_blit sb super_le.1 super_le.2 hs), bgdAt, slice_blit_self]

lemma record_bgd_of_ne (hk : k ≠ i) (hb : g.bgdBlock + k / g.bgdsPerBlock ≠ b)
    (hs : g.bgdBlock + k / g.bgdsPerBlock ≠ 1024 / g.blockSize) :
    bgdAt g (record g s b buf i bgd sb).disk k = bgdAt g s.disk k := by
  rw [record, bgdAt_eq_of_same (same_blit sb super_le.1 super_le.2 hs), bgdAt,
    slice_blit_disjoint _ _ (by unfold bgdAddr; omega)]
  exact bgdAt_eq_of_same (same_writeBlock buf hb)

end

section

variable {g : Geometry} {s : Fs} {slots : ℕ → ℕ → ℕ} {live : ℕ → Prop} {b c i j k : ℕ}
  {buf bgd sb : Mem} {r r' : Role}

/-- The two bitmaps of a group. -/
inductive BitmapOf (i : ℕ) : Role → Prop
  | block : BitmapOf i (.blockBitmap i)
  | inode : BitmapOf i (.inodeBitmap i)

/-- What the allocators write: a bitmap of a group, its descriptor, in which only counts
changed, and the superblock. -/
structure Recorded (g : Geometry) (v : View) (b i : ℕ) (r : Role) (bgd : Mem) : Prop where
  real : RealGroup g v i
  role : HasRole g v b r
  bitmap : BitmapOf i r
  places : SamePlaces (bgdAt g v.disk i) (slice bgd 0 32)

lemma BitmapOf.ne_super (h : BitmapOf i r) : r ≠ .super := by cases h <;> simp

lemma BitmapOf.ne_descriptors (h : BitmapOf i r) : r ≠ .descriptors := by cases h <;> simp

section

variable (h : Consistent g (s.view slots live))
include h

section

variable (hw : Recorded g (s.view slots live) b i r bgd)
include hw

lemma Recorded.same (hc : HasRole g (s.view slots live) c r')
    (hr : r' ≠ r) (hd : r' ≠ .descriptors) (hs : r' ≠ .super) : Same g s.disk (record g s b buf i bgd sb).disk c :=
  record_same (h.role_ne hc hw.role hr)
    (h.role_ne hc (Consistent.descriptor_role hw.real.described) hd)
    (h.role_ne hc Consistent.super_role hs)

lemma Recorded.bgd_self : bgdAt g (record g s b buf i bgd sb).disk i = slice bgd 0 32 :=
  record_bgd_self (h.role_ne (Consistent.descriptor_role hw.real.described)
    Consistent.super_role (by simp))

lemma Recorded.bgd_of_ne (hk : k ≠ i) (hkd : k * g.blocksPerGroup < sBlocksCount s.sb) :
    bgdAt g (record g s b buf i bgd sb).disk k = bgdAt g s.disk k := by
  have hkrole : HasRole g (s.view slots live) _ .descriptors := Consistent.descriptor_role hkd
  exact record_bgd_of_ne hk (h.role_ne hkrole hw.role hw.bitmap.ne_descriptors.symm)
    (h.role_ne hkrole Consistent.super_role (by simp))

lemma Recorded.sameRoles (hsb : sBlocksCount sb = sBlocksCount s.sb) :
    SameRoles g (s.view slots live) ((record g s b buf i bgd sb).view slots live) where
  live := rfl
  count := hsb
  slots _ _ _ _ := rfl
  groups k hk := by
    by_cases hki : k = i
    · subst hki
      have hbgd : bgdAt g ((record g s b buf k bgd sb).view slots live).disk k = slice bgd 0 32 :=
        hw.bgd_self h
      rw [hbgd]
      exact hw.places
    · exact SamePlaces.of_eq (hw.bgd_of_ne h hki hk.described)
  tables n p m c hn hc := by
    refine hw.same h (Consistent.file_role hn hc) ?_ (by simp) (by simp)
    rintro rfl
    cases hw.bitmap

lemma Recorded.blockBit_of_ne (hk : RealGroup g (s.view slots live) k) (hr : r ≠ .blockBitmap k) :
    blockBit g (record g s b buf i bgd sb).disk k j = blockBit g s.disk k j := by
  have hrole : HasRole g (s.view slots live) _ (.blockBitmap k) := Consistent.blockBitmap_role hk
  have hsame : Same g s.disk (record g s b buf i bgd sb).disk _ :=
    hw.same h hrole hr.symm (by simp) (by simp)
  have hplace : bgBlockBitmap (bgdAt g (record g s b buf i bgd sb).disk k) = bgBlockBitmap (bgdAt g s.disk k) := by
    by_cases hki : k = i
    · subst hki
      rw [hw.bgd_self h]
      exact hw.places.blockBitmap
    · rw [hw.bgd_of_ne h hki hk.described]
  rw [blockBit, blockBit, hplace]
  exact congrArg (testBit · j) hsame.block

end

lemma Recorded.blockBit_self
    (hw : Recorded g (s.view slots live) b i (.blockBitmap i) bgd) (hj : j < g.blocksPerGroup) :
    blockBit g (record g s b buf i bgd sb).disk i j = testBit buf j := by
  have hle := h.blocksPerGroup_le
  have hplace : bgBlockBitmap (bgdAt g (record g s b buf i bgd sb).disk i) = b := by
    rw [hw.bgd_self h, hw.role.2]
    exact hw.places.blockBitmap
  have hbitmap : slice (record g s b buf i bgd sb).disk _ _ = _ := record_bitmap
    (h.role_ne hw.role (Consistent.descriptor_role hw.real.described) (by simp))
    (h.role_ne hw.role Consistent.super_role (by simp))
  rw [blockBit, hplace, hbitmap]
  apply testBit_congr
  rw [slice_inside _ (by omega), zero_add]

lemma Recorded.past (hw : Recorded g (s.view slots live) b i r bgd) (hk : k * g.blocksPerGroup < sBlocksCount s.sb)
    (hreal : ¬RealGroup g (s.view slots live) k) :
    bgFreeBlocksCount (bgdAt g (record g s b buf i bgd sb).disk k) = 0 := by
  have hki : k ≠ i := by
    rintro rfl
    exact hreal hw.real
  rw [hw.bgd_of_ne h hki hk]
  exact h.past k hk hreal

end

end

section

variable {g : Geometry} {s s' : Fs} {slots : ℕ → ℕ → ℕ} {live : ℕ → Prop} {c i n bit a k : ℕ}

/-- A block that is marked used, that nobody refers to, and that is cleared. -/
structure Spare (g : Geometry) (v : View) (c : ℕ) : Prop where
  ne_zero : c ≠ 0
  lt : c < v.blocksCount
  noRole : ∀ r, ¬HasRole g v c r
  used : ∀ i j, RealGroup g v i → j < g.blocksPerGroup → blockNumber g i j = c → blockBit g v.disk i j = true
  zero : ∀ x < g.blockSize, v.disk (c * g.blockSize + x) = 0

/-- Blocks in use other than the free-space administration are untouched. -/
def Untouched (g : Geometry) (v v' : View) : Prop :=
  ∀ b r, HasRole g v b r → r ≠ .super → r ≠ .descriptors → (∀ i, r ≠ .blockBitmap i) → Same g v.disk v'.disk b

/-- The volume with block `c` allocated. -/
structure Allocated (g : Geometry) (s s' : Fs) (slots : ℕ → ℕ → ℕ) (live : ℕ → Prop) (c : ℕ) : Prop where
  noFault : NoFault s'
  consistent : Consistent g (s'.view slots live)
  roles : SameRoles g (s.view slots live) (s'.view slots live)
  untouched : Untouched g (s.view slots live) (s'.view slots live)
  inodesCount : sInodesCount s'.sb = sInodesCount s.sb
  spare : Spare g (s'.view slots live) c

lemma takeBlock_eq (h : NoFault s) (i : ℕ) (bgd bmap : Mem) (bit : ℕ) :
    takeBlock g s i bgd bmap bit = (u32 (blockNumber g i bit),
        let s' := record g s (bgBlockBitmap bgd) (setBit bmap bit) i
          (writeLE bgd 2 12 (bgFreeBlocksCount bgd + 2 ^ 16 - 1))
          (writeLE s.sb 4 12 (sFreeBlocksCount s.sb + 2 ^ 32 - 1))
        { s' with
          disk := blit s'.disk g.blockSize (u32 (blockNumber g i bit) * g.blockSize) zeros }) := by
  have h' : ∀ d sb, NoFault { s with disk := d, sb := sb } := fun _ _ => h
  simp only [takeBlock, writeBlock_eq g h, writeBgd_eq g (h' _ _), writeSuper_eq (h' _ _),
    request_eq (h' _ _), if_true, writeBlock_eq g (h' _ _), record, blockNumber]

lemma firstClear_blockBit
    (h : firstClear (slice s.disk (bgBlockBitmap (bgdAt g s.disk i) * g.blockSize) g.blockSize) k 0 =
      some bit) : bit < k ∧ blockBit g s.disk i bit = false := by
  obtain ⟨-, hlt, hclear⟩ := firstClear_spec h
  exact ⟨by omega, hclear⟩

/-- A search over `n` groups from `i` on, where each group is passed over or gives the result. -/
lemma group_search {α : Type*} {f : ℕ → ℕ → α} {none : α} {Q : ℕ → ℕ → Prop} {taken : ℕ → ℕ → α}
    (hzero : ∀ i, f 0 i = none)
    (hsucc : ∀ n i, f (n + 1) i = f n (i + 1) ∨ ∃ bit, Q i bit ∧ f (n + 1) i = taken i bit) (n i : ℕ) :
    f n i = none ∨ ∃ k bit, k < i + n ∧ Q k bit ∧ f n i = taken k bit := by
  induction n generalizing i with
  | zero => exact .inl (hzero i)
  | succ n ih =>
    rcases hsucc n i with he | ⟨bit, hbit⟩
    · rw [he]
      rcases ih (i + 1) with hz | ⟨k, bit, hk, hrest⟩
      · exact .inl hz
      · exact .inr ⟨k, bit, by omega, hrest⟩
    · exact .inr ⟨i, bit, by omega, hbit⟩

/-- `alloc_block` finds nothing, or takes a clear bit of a group that counts free blocks. -/
lemma allocBlockFrom_cases (h : NoFault s) (n i : ℕ) : allocBlockFrom g s n i = (0, s) ∨
    ∃ k bit, k < i + n ∧ (bgFreeBlocksCount (bgdAt g s.disk k) ≠ 0 ∧ bit < blocksInGroup g s k ∧
      blockBit g s.disk k bit = false) ∧
      allocBlockFrom g s n i = takeBlock g s k (bgdAt g s.disk k)
        (slice s.disk (bgBlockBitmap (bgdAt g s.disk k) * g.blockSize) g.blockSize) bit := by
  refine group_search (fun _ => rfl) (fun n i => ?_) n i
  by_cases hcount : bgFreeBlocksCount (bgdAt g s.disk i) = 0
  · left
    simp [allocBlockFrom, readBgd_eq g h, if_pos hcount]
  cases hf : firstClear (slice s.disk (bgBlockBitmap (bgdAt g s.disk i) * g.blockSize)
      g.blockSize) (blocksInGroup g s i) 0 with
  | none =>
    left
    simp [allocBlockFrom, readBgd_eq g h, request_eq h, readBlock_eq g h, hf]
  | some bit =>
    obtain ⟨hlt, hclear⟩ := firstClear_blockBit hf
    refine .inr ⟨bit, ⟨hcount, hlt, hclear⟩, ?_⟩
    simp [allocBlockFrom, readBgd_eq g h, if_neg hcount, request_eq h, readBlock_eq g h, hf]

lemma group_bounds (hpos : 0 < g.blocksPerGroup)
    (hk : k < numGroups (sBlocksCount s.sb) g.blocksPerGroup) (hbit : bit < blocksInGroup g s k) :
    k * g.blocksPerGroup < sBlocksCount s.sb ∧ bit < g.blocksPerGroup := by
  have hle : (k + 1) * g.blocksPerGroup ≤ u32 (sBlocksCount s.sb + g.blocksPerGroup - 1) :=
    (Nat.le_div_iff_mul_le hpos).mp hk
  have hmod : u32 (sBlocksCount s.sb + g.blocksPerGroup - 1) ≤
      sBlocksCount s.sb + g.blocksPerGroup - 1 := Nat.mod_le _ _
  have hmod' : u32 ((k + 1) * g.blocksPerGroup) ≤ (k + 1) * g.blocksPerGroup := Nat.mod_le _ _
  rw [Nat.succ_mul] at hle hmod'
  have hk' : k * g.blocksPerGroup < sBlocksCount s.sb := by omega
  refine ⟨hk', ?_⟩
  unfold blocksInGroup at hbit
  split at hbit
  next hlt =>
    rw [Nat.succ_mul] at hlt
    omega
  · exact hbit

lemma sInodesCount_writeLE (sb : Mem) (ha : 4 ≤ a) (x : ℕ) : sInodesCount (writeLE sb 4 a x) = sInodesCount sb :=
  readLE_outside sb (.inr (by omega))

lemma sBlocksCount_writeLE (sb : Mem) (ha : 8 ≤ a) (x : ℕ) : sBlocksCount (writeLE sb 4 a x) = sBlocksCount sb :=
  readLE_outside sb (.inr (by omega))

lemma samePlaces_count (disk : Mem) (i : ℕ) (ha : 12 ≤ a) (x : ℕ) :
    SamePlaces (bgdAt g disk i) (slice (writeLE (bgdAt g disk i) 2 a x) 0 32) := by
  have hfield : ∀ o, o + 4 ≤ 12 → readLE (slice (writeLE (bgdAt g disk i) 2 a x) 0 32) 4 o =
      readLE (bgdAt g disk i) 4 o := by
    intro o ho
    rw [readLE_slice _ (by omega), zero_add]
    exact readLE_outside _ (.inr (by omega))
  exact ⟨hfield 0 (by omega), hfield 4 (by omega), hfield 8 (by omega)⟩

section

variable (h : Consistent g (s.view slots live)) (hn : NoFault s)
include h hn

lemma takeBlock_spec (hi : RealGroup g (s.view slots live) i) (hbit : bit < g.blocksPerGroup)
    (hclear : blockBit g s.disk i bit = false) :
    ∃ c s', takeBlock g s i (bgdAt g s.disk i)
        (slice s.disk (bgBlockBitmap (bgdAt g s.disk i) * g.blockSize) g.blockSize) bit = (c, s') ∧
      Allocated g s s' slots live c := by
  obtain ⟨hlt, hfree⟩ := h.free i bit hi hbit hclear
  have hcount := h.blocksCount_lt
  have hu32 : u32 (blockNumber g i bit) = blockNumber g i bit :=
    Nat.mod_eq_of_lt (lt_trans hlt hcount)
  rw [takeBlock_eq hn, hu32]
  refine ⟨_, _, rfl, ?_⟩
  generalize hc : blockNumber g i bit = c at hlt hfree
  -- first the bitmap, the descriptor and the superblock
  have hw : Recorded g (s.view slots live) (bgBlockBitmap (bgdAt g s.disk i)) i (.blockBitmap i)
      (writeLE (bgdAt g s.disk i) 2 12 (bgFreeBlocksCount (bgdAt g s.disk i) + 2 ^ 16 - 1)) :=
    ⟨hi, Consistent.blockBitmap_role hi, .block, samePlaces_count s.disk i (le_refl 12) _⟩
  generalize hs1 : record g s _ _ i _ _ = s1
  have hn1 : NoFault s1 := by
    intro n
    rw [← hs1, record_outcomes]
    exact hn n
  have hroles := hs1 ▸ hw.sameRoles h (sBlocksCount_writeLE s.sb (by omega) _)
  have hself : ∀ j < g.blocksPerGroup, blockBit g s1.disk i j = (blockBit g s.disk i j || decide (j = bit)) := by
    intro j hj
    rw [← hs1, hw.blockBit_self h hj, testBit_setBit]
    rfl
  have h1 : Consistent g (s1.view slots live) := by
    refine h.of_sameRoles hroles (fun k j hk hj hclear' => ?_) fun k hk hreal => ?_
    · have hclear' : blockBit g s1.disk k j = false := hclear'
      by_cases hki : k = i
      · subst hki
        rw [hself j hj, Bool.or_eq_false_iff] at hclear'
        exact hclear'.1
      · rw [← hs1, hw.blockBit_of_ne h hk (by simp [Ne.symm hki])] at hclear'
        exact hclear'
    · rw [← hs1]
      exact hw.past h hk hreal
  have hfree1 : ∀ r, ¬HasRole g (s1.view slots live) c r :=
    fun r hr => hfree r ((hroles.hasRole c r).mp hr)
  -- then the block itself
  obtain ⟨hroles2, h2, hbits⟩ := h1.write (c := c)
    (blit s1.disk g.blockSize (c * g.blockSize) zeros) (fun b hb => same_writeBlock zeros hb)
    (hfree1 _) (fun _ => hfree1 _) fun n p m hn hp => hfree1 _ (Consistent.file_role hn hp)
  have hinodes : sInodesCount s1.sb = sInodesCount s.sb :=
    hs1 ▸ sInodesCount_writeLE s.sb (by omega) _
  refine ⟨hn1.setDisk _, h2, hroles.trans hroles2, fun b r hb hs hd hbm => ?_, hinodes,
    ⟨?_, hroles.count.symm ▸ hlt, fun r hr => hfree1 r ((hroles2.hasRole c r).mp hr), fun k j hk hj he => ?_,
      fun x hx => ?_⟩⟩
  · have hbc : b ≠ c := by
      rintro rfl
      exact hfree r hb
    have hsame : Same g s.disk s1.disk b := hs1 ▸ hw.same h hb (hbm i) hd hs
    exact hsame.trans (same_writeBlock zeros hbc)
  · -- block 0 is the superblock where data starts at block 0
    intro h0
    have hfirst := h.firstDataBlock
    have hnumber : i * g.blocksPerGroup + g.firstDataBlock + bit = c := hc
    have hsuper : c = 1024 / g.blockSize := by omega
    exact hfree .super hsuper
  · obtain ⟨rfl, rfl⟩ := blockNumber_inj hj hbit (he.trans hc.symm)
    have hset : blockBit g s1.disk k j = true := by
      rw [hself j hj]
      simp
    exact (hbits k j ((hroles2.realGroup k).mp hk)).trans hset
  · exact blit_inside _ _ hx

/-- `alloc_block` finds nothing and changes nothing, or allocates a block. -/
theorem allocBlock_spec :
    allocBlock g s = (0, s) ∨ ∃ c s', allocBlock g s = (c, s') ∧ Allocated g s s' slots live c := by
  rcases allocBlockFrom_cases hn (numGroups (sBlocksCount s.sb) g.blocksPerGroup) 0 with
    hz | ⟨k, bit, hk, ⟨hcount, hbit, hclear⟩, he⟩
  · exact .inl hz
  obtain ⟨hkd, hbit'⟩ := group_bounds h.blocksPerGroup_pos (by omega) hbit
  have hreal : RealGroup g (s.view slots live) k := by
    by_contra hnot
    exact hcount (h.past k hkd hnot)
  obtain ⟨c, s', hs', ha⟩ := takeBlock_spec h hn hreal hbit' hclear
  exact .inr ⟨c, s', he.trans hs', ha⟩

end

end

end AetherOS.Ext2
