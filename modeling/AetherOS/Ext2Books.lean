import AetherOS.Ext2Blocks
import AetherOS.FreeCounts
import AetherOS.Runs

/-!
# The books of free blocks and inodes

What is free is recorded three times: in the bitmap of the group, in the counts of the
group descriptor, and in the totals of the superblock. `alloc_block`, `alloc_inode`,
`free_block` and `free_inode` change the three one after the other. Blocks and inodes are
two instances of one ledger.
-/
namespace AetherOS.Ext2
open ByteMemory ByteBitmap FreeCounts Runs Nat

/-- The two kinds of objects that are allocated. -/
inductive Kind where
  | block
  | inode
  deriving DecidableEq

namespace Kind

/-- Where a descriptor says that the bitmap is. -/
def bitmap : Kind → Mem → ℕ
  | .block => bgBlockBitmap
  | .inode => bgInodeBitmap

/-- The offset of the count in a descriptor. -/
def count : Kind → ℕ
  | .block => 12
  | .inode => 14

/-- The offset of the total in the superblock. -/
def total : Kind → ℕ
  | .block => 12
  | .inode => 16

def role (i : ℕ) : Kind → Role
  | .block => .blockBitmap i
  | .inode => .inodeBitmap i

end Kind

section

variable (g : Geometry)

/-- The view of the metadata alone. -/
def Fs.bare (s : Fs) : View := s.view (fun _ _ => 0) fun _ => False

def blockShape (blocksCount : ℕ) : Shape where
  groups := (blocksCount + g.blocksPerGroup - 1) / g.blocksPerGroup
  size := g.blocksPerGroup
  width := 8 * g.blockSize
  real i j := blockNumber g i j < blocksCount
  real_zero i j h := by
    unfold blockNumber at h ⊢
    omega

def inodeShape (inodesCount : ℕ) : Shape where
  groups := (inodesCount + g.inodesPerGroup - 1) / g.inodesPerGroup
  size := g.inodesPerGroup
  width := 8 * g.blockSize
  real i j := i * g.inodesPerGroup + j < inodesCount
  real_zero i j h := by omega

instance (n i j : ℕ) : Decidable ((blockShape g n).real i j) := Nat.decLt _ _

instance (n i j : ℕ) : Decidable ((inodeShape g n).real i j) := Nat.decLt _ _

def Kind.shape (sb : Mem) : Kind → Shape
  | .block => blockShape g (sBlocksCount sb)
  | .inode => inodeShape g (sInodesCount sb)

instance (k : Kind) (sb : Mem) (i j : ℕ) : Decidable ((k.shape g sb).real i j) :=
  match k with
  | .block => inferInstanceAs (Decidable ((blockShape g (sBlocksCount sb)).real i j))
  | .inode => inferInstanceAs (Decidable ((inodeShape g (sInodesCount sb)).real i j))

def blockLedger (s : Fs) : Ledger where
  bits := blockBit g s.disk
  counts i := bgFreeBlocksCount (bgdAt g s.disk i)
  total := sFreeBlocksCount s.sb

def inodeLedger (s : Fs) : Ledger where
  bits := inodeBit g s.disk
  counts i := bgFreeInodesCount (bgdAt g s.disk i)
  total := sFreeInodesCount s.sb

def Kind.ledger (s : Fs) : Kind → Ledger
  | .block => blockLedger g s
  | .inode => inodeLedger g s

/-- The inodes are in groups that exist, the bitmaps have a bit for each, and the bits of
inodes that do not exist are set. -/
structure InodeMaps (s : Fs) : Prop where
  groups : ∀ i, i * g.inodesPerGroup < sInodesCount s.sb → RealGroup g s.bare i
  size : g.inodesPerGroup ≤ 8 * g.blockSize
  padding : ∀ i j, i * g.inodesPerGroup < sInodesCount s.sb → j < g.inodesPerGroup →
    inodeBit g s.disk i j = false → i * g.inodesPerGroup + j < sInodesCount s.sb

/-- The books of a volume are right: the metadata is laid out soundly, bits of blocks and
inodes that do not exist are set, every count is the number of clear bits, and the totals
are the sums of the counts. -/
structure Booked (s : Fs) : Prop where
  layout : Consistent g s.bare
  inodeMaps : InodeMaps g s
  blocks : Balanced (blockShape g (sBlocksCount s.sb)) (blockLedger g s)
  inodes : Balanced (inodeShape g (sInodesCount s.sb)) (inodeLedger g s)

/-- The bits and counts of both kinds are the same in both volumes. -/
structure SameBooks (s s' : Fs) : Prop where
  blocks : Agree (blockShape g (sBlocksCount s.sb)) (blockLedger g s) (blockLedger g s')
  inodes : Agree (inodeShape g (sInodesCount s.sb)) (inodeLedger g s) (inodeLedger g s')

/-- What the allocators write for an object of group `i`: a bitmap, a count and a total. -/
def mark (k : Kind) (s : Fs) (i : ℕ) (buf : Mem) (count total : ℕ) : Fs :=
  record g s (k.bitmap (bgdAt g s.disk i)) buf i (writeLE (bgdAt g s.disk i) 2 k.count count)
    (writeLE s.sb 4 k.total total)

/-- The bitmap of group `i`. -/
def bitmapOf (k : Kind) (s : Fs) (i : ℕ) : Mem :=
  slice s.disk (k.bitmap (bgdAt g s.disk i) * g.blockSize) g.blockSize

end

section

variable {g : Geometry} {s : Fs} {slots : ℕ → ℕ → ℕ} {live : ℕ → Prop} {k k' : Kind} {i j m c t : ℕ}
  {buf : Mem}

lemma ledger_bits (k : Kind) (s : Fs) (i j : ℕ) : (k.ledger g s).bits i j = testBit (bitmapOf g k s i) j := by
  cases k <;> rfl

lemma ledger_counts (k : Kind) (s : Fs) (i : ℕ) : (k.ledger g s).counts i = readLE (bgdAt g s.disk i) 2 k.count := by
  cases k <;> rfl

lemma ledger_total (k : Kind) (s : Fs) : (k.ledger g s).total = readLE s.sb 4 k.total := by cases k <;> rfl

lemma shape_width (k : Kind) (sb : Mem) : (k.shape g sb).width = 8 * g.blockSize := by cases k <;> rfl

lemma bitmap_role (k : Kind) (hi : RealGroup g (s.view slots live) i) :
    HasRole g (s.view slots live) (k.bitmap (bgdAt g s.disk i)) (k.role i) := by
  cases k
  · exact ⟨hi, rfl⟩
  · exact ⟨hi, rfl⟩

lemma mark_recorded (hi : RealGroup g (s.view slots live) i) :
    Recorded g (s.view slots live) (k.bitmap (bgdAt g s.disk i)) i (k.role i)
      (writeLE (bgdAt g s.disk i) 2 k.count c) where
  real := hi
  role := bitmap_role k hi
  bitmap := by
    cases k
    · exact .block
    · exact .inode
  places := samePlaces_count s.disk i (by cases k <;> decide) c

lemma mark_inodesCount : sInodesCount (mark g k s i buf c t).sb = sInodesCount s.sb :=
  readLE_outside _ (.inr (by cases k <;> decide))

lemma mark_blocksCount : sBlocksCount (mark g k s i buf c t).sb = sBlocksCount s.sb :=
  sBlocksCount_writeLE s.sb (by cases k <;> decide) t

lemma shape_congr {sb sb' : Mem} (hb : sBlocksCount sb' = sBlocksCount sb)
    (hi : sInodesCount sb' = sInodesCount sb) (k : Kind) : k.shape g sb' = k.shape g sb := by
  cases k
  · simp only [Kind.shape, hb]
  · simp [Kind.shape, hi]

lemma mark_total : readLE (mark g k s i buf c t).sb 4 k'.total =
    if k' = k then t % 2 ^ 32 else readLE s.sb 4 k'.total := by
  change readLE (writeLE s.sb 4 k.total t) 4 k'.total = _
  split
  next hk =>
    rw [hk, readLE_writeLE_same]
    rfl
  next hk =>
    exact readLE_outside _ (by cases k <;> cases k' <;> first | exact absurd rfl hk | decide)

/-- The objects of this kind are in groups that exist. -/
structure Placed (g : Geometry) (s : Fs) (k : Kind) : Prop where
  real : ∀ m, (k.shape g s.sb).real m 0 → m * g.blocksPerGroup + g.firstDataBlock < sBlocksCount s.sb
  described : ∀ m < (k.shape g s.sb).groups, m * g.blocksPerGroup < sBlocksCount s.sb

lemma Placed.congr {s' : Fs} (hp : Placed g s k) (hb : sBlocksCount s'.sb = sBlocksCount s.sb)
    (hi : sInodesCount s'.sb = sInodesCount s.sb) : Placed g s' k := by
  obtain ⟨hreal, hdescribed⟩ := hp
  rw [← shape_congr hb hi, ← hb] at hreal hdescribed
  exact ⟨hreal, hdescribed⟩

section

variable (h : Consistent g (s.view slots live)) (hi : RealGroup g (s.view slots live) i)
include h hi

lemma mark_sameRoles : SameRoles g (s.view slots live) ((mark g k s i buf c t).view slots live) :=
  (mark_recorded hi).sameRoles h (sBlocksCount_writeLE s.sb (by cases k <;> decide) t)

lemma mark_count :
    readLE (bgdAt g (mark g k s i buf c t).disk i) 2 k'.count =
      if k' = k then c % 2 ^ 16 else readLE (bgdAt g s.disk i) 2 k'.count := by
  rw [mark, (mark_recorded hi).bgd_self h, readLE_slice _ (by cases k' <;> decide), zero_add]
  split
  next hk =>
    rw [hk, readLE_writeLE_same]
    rfl
  next hk =>
    exact readLE_outside _ (by cases k <;> cases k' <;> first | exact absurd rfl hk | decide)

lemma mark_count_of_ne (hm : m ≠ i) (hd : m * g.blocksPerGroup < sBlocksCount s.sb) :
    bgdAt g (mark g k s i buf c t).disk m = bgdAt g s.disk m :=
  (mark_recorded hi).bgd_of_ne h hm hd

lemma mark_place (hm : RealGroup g (s.view slots live) m) :
    k'.bitmap (bgdAt g (mark g k s i buf c t).disk m) = k'.bitmap (bgdAt g s.disk m) := by
  have hplaces : SamePlaces (bgdAt g s.disk m) (bgdAt g (mark g k s i buf c t).disk m) :=
    (mark_sameRoles h hi).groups m hm
  cases k'
  · exact hplaces.blockBitmap
  · exact hplaces.inodeBitmap

lemma mark_bits_self (hj : j < 8 * g.blockSize) :
    testBit (bitmapOf g k (mark g k s i buf c t) i) j = testBit buf j := by
  have hw := mark_recorded (k := k) (c := c) hi
  have hbitmap : slice (mark g k s i buf c t).disk _ _ = _ := record_bitmap
    (h.role_ne hw.role (Consistent.descriptor_role hi.described) hw.bitmap.ne_descriptors)
    (h.role_ne hw.role Consistent.super_role hw.bitmap.ne_super)
  rw [bitmapOf, mark_place h hi hi, hbitmap]
  apply testBit_congr
  rw [slice_inside _ (by omega), zero_add]

lemma mark_bits_of_ne (hm : RealGroup g (s.view slots live) m) (hne : k' ≠ k ∨ m ≠ i) :
    bitmapOf g k' (mark g k s i buf c t) m = bitmapOf g k' s m := by
  have hsame : Same g s.disk (mark g k s i buf c t).disk _ :=
    (mark_recorded hi).same h (bitmap_role k' hm)
      (by cases k <;> cases k' <;> simp_all [Kind.role]) (by cases k' <;> simp [Kind.role])
      (by cases k' <;> simp [Kind.role])
  rw [bitmapOf, mark_place h hi hm]
  exact hsame.block

lemma mark_other (hp : Placed g s k') (hk : k' ≠ k) :
    Agree (k'.shape g s.sb) (k'.ledger g s) (k'.ledger g (mark g k s i buf c t)) where
  bits m n hm _ := by rw [ledger_bits, ledger_bits, mark_bits_of_ne h hi (hp.real m hm) (.inl hk)]
  counts m hm := by
    rw [ledger_counts, ledger_counts]
    by_cases hmi : m = i
    · subst hmi
      rw [mark_count h hi, if_neg hk]
    · rw [mark_count_of_ne h hi hmi (hp.described m hm)]
  total := by rw [ledger_total, ledger_total, mark_total, if_neg hk]

lemma mark_others (hp : Placed g s k) {bit : ℕ} (hbuf : ∀ n, n ≠ bit → testBit buf n = testBit (bitmapOf g k s i) n)
    (n : ℕ) (hm : (k.shape g s.sb).real m 0) (hn : n < (k.shape g s.sb).width) (hne : (m, n) ≠ (i, bit)) :
    (k.ledger g (mark g k s i buf c t)).bits m n = (k.ledger g s).bits m n := by
  rw [shape_width] at hn
  rw [ledger_bits, ledger_bits]
  by_cases hmi : m = i
  · subst hmi
    rw [mark_bits_self h hi hn]
    exact hbuf n fun hbit => hne (by rw [hbit])
  · rw [mark_bits_of_ne h hi (hp.real m hm) (.inr hmi)]

end

end

section

variable {g : Geometry} {s s' s'' : Fs} {slots : ℕ → ℕ → ℕ} {live : ℕ → Prop} {k k' : Kind}
  {i j n bit c m per : ℕ} {disk' : Mem}

lemma mul_lt_of_lt_groups (hm : m < (n + per - 1) / per) : m * per < n := by
  rcases Nat.eq_zero_or_pos per with rfl | hpos
  · rw [Nat.div_zero] at hm
    omega
  have hle := (Nat.le_div_iff_mul_le hpos).mp hm
  rw [succ_mul] at hle
  omega

lemma lt_groups (hpos : 0 < per) (hm : m * per < n) : m < (n + per - 1) / per := by
  apply (Nat.le_div_iff_mul_le hpos).mpr
  rw [succ_mul]
  omega

lemma placed_block : Placed g s .block where
  real _ hm := hm
  described _ hm := mul_lt_of_lt_groups hm

lemma InodeMaps.placed (hm : InodeMaps g s) (k : Kind) : Placed g s k := by
  cases k with
  | block => exact placed_block
  | inode =>
    refine ⟨fun m hreal => hm.groups m hreal, fun m hlt => ?_⟩
    exact (hm.groups m (mul_lt_of_lt_groups hlt)).described

lemma Booked.placed (hb : Booked g s) (k : Kind) : Placed g s k := hb.inodeMaps.placed k

lemma Booked.balanced (hb : Booked g s) (k : Kind) : Balanced (k.shape g s.sb) (k.ledger g s) := by
  cases k with
  | block => exact hb.blocks
  | inode => exact hb.inodes

/-- Object `j` of group `i` is taken between the two volumes. -/
structure Booking (g : Geometry) (k : Kind) (s s' : Fs) (i j : ℕ) : Prop where
  blocksCount : sBlocksCount s'.sb = sBlocksCount s.sb
  inodesCount : sInodesCount s'.sb = sInodesCount s.sb
  taken : Taken (k.shape g s.sb) (k.ledger g s) (k.ledger g s') i j
  other : ∀ k', k' ≠ k → Placed g s k' → Agree (k'.shape g s.sb) (k'.ledger g s) (k'.ledger g s')

section

variable (h : Booking g k s s' i j)
include h

lemma Booking.shape (k' : Kind) : k'.shape g s'.sb = k'.shape g s.sb :=
  shape_congr h.blocksCount h.inodesCount k'

lemma Booking.realGroup (m : ℕ) : RealGroup g s'.bare m ↔ RealGroup g s.bare m := by
  simp [RealGroup, Fs.bare, Fs.view, h.blocksCount]

lemma Booking.take (hb : Booked g s) (k' : Kind) : Balanced (k'.shape g s'.sb) (k'.ledger g s') := by
  refine Balanced.of_eq (h.shape k') ?_
  by_cases hk : k' = k
  · subst hk
    exact h.taken.balanced_iff.mpr (hb.balanced k')
  · exact (h.other k' hk (hb.placed k')).balanced (hb.balanced k')

lemma Booking.placed (hp : Placed g s' k') : Placed g s k' :=
  hp.congr h.blocksCount.symm h.inodesCount.symm

lemma Booking.give (hb : Booked g s') (k' : Kind) : Balanced (k'.shape g s.sb) (k'.ledger g s) := by
  have hbal := (hb.balanced k').of_eq (h.shape k').symm
  by_cases hk : k' = k
  · subst hk
    exact h.taken.balanced_iff.mp hbal
  · exact (h.other k' hk (h.placed (hb.placed k'))).symm.balanced hbal

lemma Booking.bits (hp : Placed g s k') (hm : (k'.shape g s.sb).real m 0) (hn : n < (k'.shape g s.sb).width)
    (hne : (k', m, n) ≠ (k, i, j)) : (k'.ledger g s').bits m n = (k'.ledger g s).bits m n := by
  by_cases hk : k' = k
  · subst hk
    exact h.taken.others m n hm hn fun he => hne (by rw [he])
  · exact (h.other k' hk hp).bits m n hm hn

end

lemma InodeMaps.take (hm : InodeMaps g s) (h : Booking g k s s' i j) : InodeMaps g s' where
  groups m hlt := (h.realGroup m).mpr (hm.groups m (h.inodesCount ▸ hlt))
  size := hm.size
  padding m n hlt hn hclear := by
    rw [h.inodesCount] at hlt ⊢
    refine hm.padding m n hlt hn ?_
    by_cases hne : (Kind.inode, m, n) = (k, i, j)
    · cases hne
      exact h.taken.clear
    · have hbit := h.bits (hm.placed .inode) hlt (lt_of_lt_of_le hn hm.size) hne
      exact hbit.symm.trans hclear

lemma InodeMaps.give (hm : InodeMaps g s') (h : Booking g k s s' i j) : InodeMaps g s where
  groups m hlt := (h.realGroup m).mp (hm.groups m (h.inodesCount ▸ hlt))
  size := hm.size
  padding m n hlt hn hclear := by
    by_cases hne : (Kind.inode, m, n) = (k, i, j)
    · cases hne
      exact h.taken.real
    have hbit := h.bits (h.placed (hm.placed .inode)) hlt (lt_of_lt_of_le hn hm.size) hne
    rw [← h.inodesCount] at hlt ⊢
    exact hm.padding m n hlt hn (hbit.trans hclear)

theorem Booked.take (hb : Booked g s) (h : Booking g k s s' i j) (hc : Consistent g s'.bare) : Booked g s' :=
  ⟨hc, hb.inodeMaps.take h, h.take hb .block, h.take hb .inode⟩

theorem Booked.give (hb : Booked g s') (h : Booking g k s s' i j) (hc : Consistent g s.bare) : Booked g s :=
  ⟨hc, hb.inodeMaps.give h, h.give hb .block, h.give hb .inode⟩

/-- Giving an object back restores the books. -/
theorem Booking.restored (h : Booking g k s s' i j) (h' : Booking g k s'' s' i j) (hb : Booked g s) :
    SameBooks g s s'' := by
  have hshape : ∀ k' : Kind, k'.shape g s''.sb = k'.shape g s.sb :=
    fun k' => (h'.shape k').symm.trans (h.shape k')
  have hagree : ∀ k' : Kind, Agree (k'.shape g s.sb) (k'.ledger g s) (k'.ledger g s'') := by
    intro k'
    by_cases hk : k' = k
    · subst hk
      exact h.taken.restored (hshape k' ▸ h'.taken)
    have hp : Placed g s'' k' := (hb.placed k').congr (h'.blocksCount.symm.trans h.blocksCount)
      (h'.inodesCount.symm.trans h.inodesCount)
    exact (h.other k' hk (hb.placed k')).trans (hshape k' ▸ (h'.other k' hk hp).symm)
  exact ⟨hagree .block, hagree .inode⟩

lemma agree_disk (hp : Placed g s k)
    (hdesc : ∀ b, HasRole g (s.view slots live) b .descriptors → Same g s.disk disk' b)
    (hbitmap : ∀ m b, HasRole g (s.view slots live) b (k.role m) → Same g s.disk disk' b) :
    Agree (k.shape g s.sb) (k.ledger g s) (k.ledger g { s with disk := disk' }) := by
  have hbgd : ∀ m, m * g.blocksPerGroup < sBlocksCount s.sb → bgdAt g disk' m = bgdAt g s.disk m :=
    fun m hm => bgdAt_eq_of_same (hdesc _ (Consistent.descriptor_role hm))
  refine ⟨fun m n hm _ => ?_, fun m hm => ?_, ?_⟩
  · have hreal : RealGroup g (s.view slots live) m := hp.real m hm
    rw [ledger_bits, ledger_bits, bitmapOf, bitmapOf, hbgd m hreal.described,
      (hbitmap m _ (bitmap_role k hreal)).block]
  · rw [ledger_counts, ledger_counts, hbgd m (hp.described m hm)]
  · rw [ledger_total, ledger_total]

lemma agree_write (hp : Placed g s k)
    (hd : ∀ b, b ≠ c → Same g s.disk disk' b) (hdesc : ¬HasRole g (s.view slots live) c .descriptors)
    (hbitmap : ∀ m, ¬HasRole g (s.view slots live) c (k.role m)) :
    Agree (k.shape g s.sb) (k.ledger g s) (k.ledger g { s with disk := disk' }) := by
  have hsame : ∀ b r, HasRole g (s.view slots live) b r → ¬HasRole g (s.view slots live) c r →
      Same g s.disk disk' b := by
    intro b r hb hc
    refine hd b ?_
    rintro rfl
    exact hc hb
  exact agree_disk hp (fun b hb => hsame b _ hb hdesc) fun m b hb => hsame b _ hb (hbitmap m)

section

variable (h : Consistent g (s.view slots live)) (hp : Placed g s k)
  (hi : i < (k.shape g s.sb).groups) (hbit : bit < (k.shape g s.sb).size)
  (hw : bit < (k.shape g s.sb).width) (hr : (k.shape g s.sb).real i bit)
include h hp hi hbit hw hr

lemma mark_booking (hclear : (k.ledger g s).bits i bit = false) (hcount : 0 < (k.ledger g s).counts i)
    (htotal : 0 < (k.ledger g s).total) :
    Booking g k s (mark g k s i (setBit (bitmapOf g k s i) bit)
      ((k.ledger g s).counts i + 2 ^ 16 - 1) ((k.ledger g s).total + 2 ^ 32 - 1)) i bit := by
  have hreal : RealGroup g (s.view slots live) i := hp.real i ((k.shape g s.sb).real_zero i bit hr)
  refine ⟨mark_blocksCount, mark_inodesCount, ?_, fun _ hk hp' => mark_other h hreal hp' hk⟩
  refine ⟨hi, hbit, hr, hclear, ?_, fun m n hm hn hne => ?_, ?_, fun m hm hmi => ?_, ?_⟩
  · rw [shape_width] at hw
    rw [ledger_bits, mark_bits_self h hreal hw, testBit_setBit]
    simp
  · refine mark_others h hreal hp (fun n hn => ?_) n hm hn hne
    rw [testBit_setBit, decide_eq_false hn, Bool.or_false]
  · have hlt : (k.ledger g s).counts i < 2 ^ 16 := by
      rw [ledger_counts]
      exact readLE_lt _ 2 _
    rw [ledger_counts, mark_count h hreal, if_pos rfl]
    omega
  · rw [ledger_counts k _ m, ledger_counts k s m, mark_count_of_ne h hreal hmi (hp.described m hm)]
  have hlt : (k.ledger g s).total < 2 ^ 32 := by
    rw [ledger_total]
    exact readLE_lt _ 4 _
  rw [ledger_total, mark_total, if_pos rfl]
  omega

lemma mark_unbooking (hset : (k.ledger g s).bits i bit = true) (hcount : (k.ledger g s).counts i + 1 < 2 ^ 16)
    (htotal : (k.ledger g s).total + 1 < 2 ^ 32) :
    Booking g k (mark g k s i (clearBit (bitmapOf g k s i) bit)
      ((k.ledger g s).counts i + 1) ((k.ledger g s).total + 1)) s i bit := by
  have hreal : RealGroup g (s.view slots live) i := hp.real i ((k.shape g s.sb).real_zero i bit hr)
  refine ⟨mark_blocksCount.symm, mark_inodesCount.symm, ?_, fun k' hk hp' => ?_⟩
  swap
  · rw [shape_congr mark_blocksCount mark_inodesCount k']
    exact (mark_other h hreal (hp'.congr mark_blocksCount.symm mark_inodesCount.symm) hk).symm
  rw [shape_congr mark_blocksCount mark_inodesCount k]
  refine ⟨hi, hbit, hr, ?_, hset, fun m n hm hn hne => ?_, ?_, fun m hm hmi => ?_, ?_⟩
  · rw [shape_width] at hw
    rw [ledger_bits, mark_bits_self h hreal hw, testBit_clearBit]
    simp
  · refine (mark_others h hreal hp (fun n hn => ?_) n hm hn hne).symm
    rw [testBit_clearBit, decide_eq_true hn, Bool.and_true]
  · rw [ledger_counts _ (mark _ _ _ _ _ _ _), mark_count h hreal, if_pos rfl, mod_eq_of_lt hcount]
  · rw [ledger_counts k s m, ledger_counts k _ m, mark_count_of_ne h hreal hmi (hp.described m hm)]
  · rw [ledger_total _ (mark _ _ _ _ _ _ _), mark_total, if_pos rfl, mod_eq_of_lt htotal]

end

lemma Booking.write (h : Booking g k s s' i j) (hp : Placed g s k) (hw : j < (k.shape g s.sb).width)
    (ha : ∀ k' : Kind, Placed g s' k' →
      Agree (k'.shape g s'.sb) (k'.ledger g s') (k'.ledger g { s' with disk := disk' })) :
    Booking g k s { s' with disk := disk' } i j where
  __ := h
  taken := by
    have hagree := ha k (hp.congr h.blocksCount h.inodesCount)
    rw [h.shape] at hagree
    exact h.taken.agree hw hagree
  other k' hk hp' := by
    have hagree := ha k' (hp'.congr h.blocksCount h.inodesCount)
    rw [h.shape] at hagree
    exact (h.other k' hk hp').trans hagree

/-- The volume with the bit of an object set, and counted as taken. -/
def marked (g : Geometry) (k : Kind) (s : Fs) (i bit : ℕ) : Fs :=
  mark g k s i (setBit (bitmapOf g k s i) bit) ((k.ledger g s).counts i + 2 ^ 16 - 1)
    ((k.ledger g s).total + 2 ^ 32 - 1)

/-- The volume with the bit of an object clear, and counted as free. -/
def unmarked (g : Geometry) (k : Kind) (s : Fs) (i bit : ℕ) : Fs :=
  mark g k s i (clearBit (bitmapOf g k s i) bit) ((k.ledger g s).counts i + 1) ((k.ledger g s).total + 1)

section

variable (h : Consistent g (s.view slots live))
include h

omit h in
lemma freeBlock_eq (hn : NoFault s) (hj : j < g.blocksPerGroup) :
    freeBlock g s (blockNumber g i j) = unmarked g .block s i j := by
  have h' : ∀ d sb, NoFault { s with disk := d, sb := sb } := fun _ _ => hn
  have hidx : blockNumber g i j - g.firstDataBlock = g.blocksPerGroup * i + j := by
    rw [blockNumber, mul_comm]
    omega
  have hge : ¬blockNumber g i j < g.firstDataBlock := by
    unfold blockNumber
    omega
  have hdiv : (g.blocksPerGroup * i + j) / g.blocksPerGroup = i := by
    rw [mul_add_div (by omega), div_eq_of_lt hj, add_zero]
  have hmod : (g.blocksPerGroup * i + j) % g.blocksPerGroup = j := by rw [mul_add_mod, mod_eq_of_lt hj]
  simp only [freeBlock, if_neg hge, hidx, hdiv, hmod, readBgd_eq g hn, request_eq hn, if_true,
    readBlock_eq g hn, writeBlock_eq g hn, writeBgd_eq g (h' _ _), writeSuper_eq (h' _ _)]
  rfl

section

variable (hn : NoFault s) (hb : Balanced (blockShape g (sBlocksCount s.sb)) (blockLedger g s))
include hn hb

/-- Taking a block keeps the books. -/
theorem allocBlock_booking :
    allocBlock g s = (0, s) ∨ ∃ i j s', allocBlock g s = (blockNumber g i j, s') ∧ Booking g .block s s' i j := by
  rcases allocBlockFrom_cases hn (numGroups (sBlocksCount s.sb) g.blocksPerGroup) 0 with
    hz | ⟨i, bit, hi, ⟨hcount, hbit, hclear⟩, he⟩
  · exact .inl hz
  obtain ⟨hd, hbit⟩ := group_bounds h.blocksPerGroup_pos (by omega) hbit
  have hreal : RealGroup g (s.view slots live) i := by
    by_contra hnot
    exact hcount (h.past i hd hnot)
  obtain ⟨hlt, hfree⟩ := h.free i bit hreal hbit hclear
  have hwidth := lt_of_lt_of_le hbit h.blocksPerGroup_le
  have hu32 : u32 (blockNumber g i bit) = blockNumber g i bit :=
    mod_eq_of_lt (lt_trans hlt h.blocksCount_lt)
  have hgroup : i < (blockShape g (sBlocksCount s.sb)).groups := lt_groups h.blocksPerGroup_pos hd
  have hpos : 0 < (blockLedger g s).total :=
    lt_of_lt_of_le (pos_of_ne_zero hcount) (hb.count_le_total hgroup)
  have hmark := mark_booking h placed_block hgroup hbit hwidth hlt hclear (pos_of_ne_zero hcount) hpos
  have hroles : SameRoles g (s.view slots live) ((marked g .block s i bit).view slots live) :=
    mark_sameRoles h hreal
  rw [takeBlock_eq hn, hu32] at he
  refine .inr ⟨i, bit, _, he, hmark.write placed_block hwidth fun k' hp' => ?_⟩
  -- the block that is cleared has no role
  have hnone : ∀ r, ¬HasRole g ((marked g .block s i bit).view slots live) (blockNumber g i bit) r :=
    fun r hr => hfree r ((hroles.hasRole _ r).mp hr)
  exact agree_write hp' (fun b hne => same_writeBlock zeros hne) (hnone _) fun m => hnone _

/-- Giving a block back keeps the books. -/
theorem freeBlock_booking (hj : j < g.blocksPerGroup)
    (hlt : blockNumber g i j < sBlocksCount s.sb) (hset : blockBit g s.disk i j = true) :
    Booking g .block (freeBlock g s (blockNumber g i j)) s i j := by
  have hle := h.blocksPerGroup_le
  have hsize := g.blockSize_cases
  have hgroup : i < (blockShape g (sBlocksCount s.sb)).groups := by
    apply lt_groups h.blocksPerGroup_pos
    unfold blockNumber at hlt
    omega
  have hcount : (blockLedger g s).counts i < g.blocksPerGroup := hb.count_lt hgroup hj hset
  have htotal : (blockLedger g s).total < sBlocksCount s.sb := by
    refine hb.total_lt (fun m n hr => ?_) hj hlt hset
    have hr : blockNumber g m n < sBlocksCount s.sb := hr
    unfold blockNumber at hr
    change m * g.blocksPerGroup + n < _
    omega
  have hlt32 : sBlocksCount s.sb < 2 ^ 32 := h.blocksCount_lt
  rw [freeBlock_eq hn hj]
  refine mark_unbooking h placed_block hgroup hj (lt_of_lt_of_le hj hle) hlt hset ?_ ?_
  · change (blockLedger g s).counts i + 1 < 2 ^ 16
    omega
  · change (blockLedger g s).total + 1 < 2 ^ 32
    omega

end

lemma unmarked_consistent (hlt : blockNumber g i j < sBlocksCount s.sb)
    (hnone : ∀ r, ¬HasRole g (s.view slots live) (blockNumber g i j) r) :
    SameRoles g (s.view slots live) ((unmarked g .block s i j).view slots live) ∧
      Consistent g ((unmarked g .block s i j).view slots live) := by
  have hreal : RealGroup g (s.view slots live) i := .of_number hlt
  have hroles : SameRoles g (s.view slots live) ((unmarked g .block s i j).view slots live) :=
    mark_sameRoles h hreal
  refine ⟨hroles, h.of_sameRoles_free hroles (fun m n hm hn hclear => ?_) fun m hm hm' => ?_⟩
  · by_cases he : (m, n) = (i, j)
    · cases he
      exact ⟨hlt, hnone⟩
    have hwidth := lt_of_lt_of_le hn h.blocksPerGroup_le
    have hbit : blockBit g (unmarked g .block s i j).disk m n = blockBit g s.disk m n :=
      mark_others h hreal placed_block
        (fun q hq => by rw [testBit_clearBit, decide_eq_true hq, Bool.and_true]) n hm hwidth he
    exact h.free m n hm hn (hbit.symm.trans hclear)
  · exact (mark_recorded hreal).past h hm hm'

omit h in
lemma firstClear_inodeBit
    (h : firstClear (bitmapOf g .inode s i) m 0 = some bit) : bit < m ∧ inodeBit g s.disk i bit = false := by
  obtain ⟨-, hlt, hclear⟩ := firstClear_spec h
  exact ⟨by omega, hclear⟩

omit h in
lemma takeInode_eq (hn : NoFault s) (i bit : ℕ) :
    takeInode g s i (bgdAt g s.disk i) (bitmapOf g .inode s i) bit =
      (u32 (i * g.inodesPerGroup + bit + 1), marked g .inode s i bit) := by
  have h' : ∀ d sb, NoFault { s with disk := d, sb := sb } := fun _ _ => hn
  simp only [takeInode, writeBlock_eq g hn, writeBgd_eq g (h' _ _), writeSuper_eq (h' _ _)]
  rfl

omit h in
/-- `alloc_inode` finds nothing, or takes a clear bit of a group that counts free inodes. -/
lemma allocInodeFrom_cases (hn : NoFault s) (n i : ℕ) : allocInodeFrom g s n i = (0, s) ∨
    ∃ m bit, m < i + n ∧ (bgFreeInodesCount (bgdAt g s.disk m) ≠ 0 ∧ bit < g.inodesPerGroup ∧
      inodeBit g s.disk m bit = false) ∧
      allocInodeFrom g s n i = (u32 (m * g.inodesPerGroup + bit + 1), marked g .inode s m bit) := by
  refine group_search (fun _ => rfl) (fun n i => ?_) n i
  by_cases hcount : bgFreeInodesCount (bgdAt g s.disk i) = 0
  · left
    simp [allocInodeFrom, readBgd_eq g hn, if_pos hcount]
  cases hf : firstClear (bitmapOf g .inode s i) g.inodesPerGroup 0 with
  | none =>
    left
    rw [bitmapOf, Kind.bitmap] at hf
    simp [allocInodeFrom, readBgd_eq g hn, request_eq hn, readBlock_eq g hn, hf]
  | some bit =>
    obtain ⟨hlt, hclear⟩ := firstClear_inodeBit hf
    refine .inr ⟨bit, ⟨hcount, hlt, hclear⟩, ?_⟩
    have htake := takeInode_eq (g := g) hn i bit
    rw [bitmapOf, Kind.bitmap] at hf htake
    simp [allocInodeFrom, readBgd_eq g hn, if_neg hcount, request_eq hn, readBlock_eq g hn, hf, htake]

omit h in
/-- `alloc_inode` finds nothing and changes nothing, or marks an inode whose bit was clear. -/
theorem allocInode_cases (hm : InodeMaps g s) (hn : NoFault s) : allocInode g s = (0, s) ∨
    ∃ n, n ≠ 0 ∧ n ≤ sInodesCount s.sb ∧ bgFreeInodesCount (bgdAt g s.disk (inodeGroup g n)) ≠ 0 ∧
      inodeBit g s.disk (inodeGroup g n) (inodeIndex g n) = false ∧
      allocInode g s = (n, marked g .inode s (inodeGroup g n) (inodeIndex g n)) := by
  rcases allocInodeFrom_cases hn (numGroups (sInodesCount s.sb) g.inodesPerGroup) 0 with
    hz | ⟨i, bit, hi, ⟨hcount, hbit, hclear⟩, he⟩
  · exact .inl hz
  have hgroup : i * g.inodesPerGroup < sInodesCount s.sb := by
    have hgroups : numGroups (sInodesCount s.sb) g.inodesPerGroup ≤
        (sInodesCount s.sb + g.inodesPerGroup - 1) / g.inodesPerGroup :=
      Nat.div_le_div_right (mod_le _ _)
    exact mul_lt_of_lt_groups (lt_of_lt_of_le hi (le_trans (le_of_eq (zero_add _)) hgroups))
  have hlt := hm.padding i bit hgroup hbit hclear
  have hcount32 : sInodesCount s.sb < 2 ^ 32 := readLE_lt _ 4 _
  let n := i * g.inodesPerGroup + bit + 1
  have hu32 : u32 n = i * g.inodesPerGroup + bit + 1 := mod_eq_of_lt (by omega)
  have hig : inodeGroup g n = i := by
    rw [inodeGroup, Nat.add_sub_cancel, mul_comm, mul_add_div (by omega), div_eq_of_lt hbit, add_zero]
  have hix : inodeIndex g n = bit := by
    rw [inodeIndex, Nat.add_sub_cancel, mul_comm, mul_add_mod, mod_eq_of_lt hbit]
  rw [hu32] at he
  refine .inr ⟨i * g.inodesPerGroup + bit + 1, by omega, by omega, ?_⟩
  rw [hig, hix]
  exact ⟨hcount, hclear, he⟩

omit h in
lemma freeInode_eq (hn : NoFault s) (h2 : 2 ≤ n) :
    freeInode g s n = unmarked g .inode s (inodeGroup g n) (inodeIndex g n) := by
  have h' : ∀ d sb, NoFault { s with disk := d, sb := sb } := fun _ _ => hn
  simp only [freeInode, if_neg (Nat.not_lt.mpr h2), readBgd_eq g hn, request_eq hn, if_true,
    readBlock_eq g hn, writeBlock_eq g hn, writeBgd_eq g (h' _ _), writeSuper_eq (h' _ _)]
  rfl

omit h in
lemma inode_real (hpos : 0 < g.inodesPerGroup) (h0 : n ≠ 0) (hle : n ≤ sInodesCount s.sb) :
    (inodeShape g (sInodesCount s.sb)).real (inodeGroup g n) (inodeIndex g n) ∧ inodeIndex g n < g.inodesPerGroup ∧
      inodeGroup g n < (inodeShape g (sInodesCount s.sb)).groups := by
  have hdiv := div_add_mod (n - 1) g.inodesPerGroup
  have hreal : inodeGroup g n * g.inodesPerGroup + inodeIndex g n < sInodesCount s.sb := by
    rw [inodeGroup, inodeIndex, mul_comm]
    omega
  refine ⟨hreal, mod_lt _ hpos, lt_groups hpos ?_⟩
  omega

lemma mark_inode_consistent {buf : Mem} {count total : ℕ} (hi : RealGroup g (s.view slots live) i) :
    Consistent g ((mark g .inode s i buf count total).view slots live) := by
  refine h.of_sameRoles (mark_sameRoles h hi) (fun m n hm hn hclear => ?_) fun m hm hm' => ?_
  · have hbit : blockBit g (mark g .inode s i buf count total).disk m n = blockBit g s.disk m n :=
      (mark_other h hi placed_block (by decide)).bits m n hm (lt_of_lt_of_le hn h.blocksPerGroup_le)
    exact hbit.symm.trans hclear
  · exact (mark_recorded hi).past h hm hm'

/-- Taking an inode keeps the books. -/
theorem allocInode_booking (hb : Booked g s) (h0 : n ≠ 0)
    (hle : n ≤ sInodesCount s.sb) (hcount : bgFreeInodesCount (bgdAt g s.disk (inodeGroup g n)) ≠ 0)
    (hclear : inodeBit g s.disk (inodeGroup g n) (inodeIndex g n) = false) :
    Booking g .inode s (marked g .inode s (inodeGroup g n) (inodeIndex g n)) (inodeGroup g n)
      (inodeIndex g n) := by
  obtain ⟨hreal, hindex, hgroup⟩ := inode_real h.inodesPerGroup_pos h0 hle
  have hpos : 0 < (inodeLedger g s).total :=
    lt_of_lt_of_le (pos_of_ne_zero hcount) (hb.inodes.count_le_total hgroup)
  exact mark_booking h (hb.placed .inode) hgroup hindex (lt_of_lt_of_le hindex hb.inodeMaps.size)
    hreal hclear (pos_of_ne_zero hcount) hpos

/-- Giving an inode back keeps the books. -/
theorem freeInode_booking (hn : NoFault s) (hb : Booked g s)
    (h2 : 2 ≤ n) (hle : n ≤ sInodesCount s.sb) (hset : inodeBit g s.disk (inodeGroup g n) (inodeIndex g n) = true) :
    Booking g .inode (freeInode g s n) s (inodeGroup g n) (inodeIndex g n) := by
  obtain ⟨hreal, hindex, hgroup⟩ := inode_real h.inodesPerGroup_pos (by omega) hle
  have hsize := g.blockSize_cases
  have hwidth := hb.inodeMaps.size
  have hcount : (inodeLedger g s).counts (inodeGroup g n) < g.inodesPerGroup :=
    hb.inodes.count_lt hgroup hindex hset
  have htotal : (inodeLedger g s).total < sInodesCount s.sb :=
    hb.inodes.total_lt (fun _ _ hr => hr) hindex hreal hset
  have hlt32 : sInodesCount s.sb < 2 ^ 32 := readLE_lt _ 4 _
  rw [freeInode_eq hn h2]
  refine mark_unbooking h (hb.placed .inode) hgroup hindex (lt_of_lt_of_le hindex hwidth) hreal
    hset ?_ ?_
  · change (inodeLedger g s).counts (inodeGroup g n) + 1 < 2 ^ 16
    omega
  · change (inodeLedger g s).total + 1 < 2 ^ 32
    omega

end

end

end AetherOS.Ext2
