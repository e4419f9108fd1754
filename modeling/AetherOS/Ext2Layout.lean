import AetherOS.Ext2Files
import AetherOS.PointerTree

/-!
# What the blocks of a volume are for

The inodes and the blocks of block numbers form trees. Every block of the volume has at
most one role: it holds metadata of a certain kind, or it is the block at one path below
one inode. A consistent volume is one where roles are unique and blocks marked free have
none. The slots of the inodes are a parameter, since `ext2_write` works on a copy of the
inode that it writes back at the end.
-/
namespace AetherOS.Ext2
open ByteMemory ByteBitmap PointerTree Nat

/-- A node of the trees: an inode, or a block with the number of levels below it. -/
inductive Node where
  | inode (ino : ℕ)
  | block (height blockNo : ℕ)
  deriving DecidableEq

/-- A volume as it is read: the disk, the number of blocks, the slots of the inodes, and
the inodes that are in use. -/
structure View where
  disk : Mem
  blocksCount : ℕ
  slots : ℕ → ℕ → ℕ
  live : ℕ → Prop

/-- The view of a volume with given slots and inodes in use. -/
def Fs.view (s : Fs) (slots : ℕ → ℕ → ℕ) (live : ℕ → Prop) : View where
  disk := s.disk
  blocksCount := sBlocksCount s.sb
  slots := slots
  live := live

section

variable (g : Geometry)

/-- Entry `i` of the block `b` of block numbers. -/
def pointer (disk : Mem) (b i : ℕ) : ℕ := readLE disk 4 (b * g.blockSize + 4 * i)

/-- The levels below a slot of an inode: twelve slots refer to data blocks, the others to
blocks of block numbers. -/
def slotHeight (k : ℕ) : ℕ := k - 11

/-- What slot `i` of a node refers to. -/
def refs (v : View) (_ : ℕ) : Node → ℕ → Option Node
  | .inode ino, k => if k < 15 ∧ v.slots ino k ≠ 0 then some (.block (slotHeight k) (v.slots ino k)) else none
  | .block 0 _, _ => none
  | .block (h + 1) b, i =>
    if i < g.ptrs ∧ pointer g v.disk b i ≠ 0 then some (.block h (pointer g v.disk b i)) else none

/-- The node at a path below an inode. -/
def reach (v : View) (ino : ℕ) (p : List ℕ) : Option Node := walk (refs g v) 0 (.inode ino) p

/-- The path of block `idx` of a file. -/
def pathOf (idx : ℕ) : List ℕ :=
  if idx < 12 then [idx]
  else if idx < 12 + g.ptrs then [12, idx - 12]
  else if idx < 12 + g.ptrs + g.ptrs * g.ptrs then
    [13, (idx - 12 - g.ptrs) / g.ptrs, (idx - 12 - g.ptrs) % g.ptrs]
  else
    let i := idx - 12 - g.ptrs - g.ptrs * g.ptrs
    [14, i / (g.ptrs * g.ptrs), i / g.ptrs % g.ptrs, i % g.ptrs]

/-- Byte `x` of a file, zero where no block is mapped. -/
def fileByte (v : View) (ino x : ℕ) : UInt8 :=
  match reach g v ino (pathOf g (x / g.blockSize)) with
  | some (.block _ b) => v.disk (b * g.blockSize + x % g.blockSize)
  | _ => 0

/-- A group with at least one block. -/
def RealGroup (v : View) (i : ℕ) : Prop := i * g.blocksPerGroup + g.firstDataBlock < v.blocksCount

instance (v : View) (i : ℕ) : Decidable (RealGroup g v i) := Nat.decLt _ _

/-- The block that bit `j` of the bitmap of group `i` stands for. -/
def blockNumber (i j : ℕ) : ℕ := i * g.blocksPerGroup + g.firstDataBlock + j

def blockBit (disk : Mem) (i j : ℕ) : Bool :=
  testBit (slice disk (bgBlockBitmap (bgdAt g disk i) * g.blockSize) g.blockSize) j

def inodeBit (disk : Mem) (i j : ℕ) : Bool :=
  testBit (slice disk (bgInodeBitmap (bgdAt g disk i) * g.blockSize) g.blockSize) j

/-- What a block is for. -/
inductive Role where
  | super
  | descriptors
  | blockBitmap (i : ℕ)
  | inodeBitmap (i : ℕ)
  | inodeTable (i : ℕ)
  | file (ino : ℕ) (path : List ℕ)

def HasRole (v : View) (b : ℕ) : Role → Prop
  | .super => b = 1024 / g.blockSize
  | .descriptors => ∃ i, i * g.blocksPerGroup < v.blocksCount ∧ b = g.bgdBlock + i / g.bgdsPerBlock
  | .blockBitmap i => RealGroup g v i ∧ b = bgBlockBitmap (bgdAt g v.disk i)
  | .inodeBitmap i => RealGroup g v i ∧ b = bgInodeBitmap (bgdAt g v.disk i)
  | .inodeTable i => RealGroup g v i ∧ ∃ j < g.inodesPerGroup,
      b = bgInodeTable (bgdAt g v.disk i) + j / g.inodesPerBlock
  | .file ino path => v.live ino ∧ ∃ h, reach g v ino path = some (.block h b)

/-- A consistent volume: the geometry is sound, every block has at most one role, and the
blocks marked free exist and have none. `alloc_block` rounds the number of groups up
without regard to the first data block; a descriptor past the last group counts no free
blocks. -/
structure Consistent (v : View) : Prop where
  inodesFit : g.InodesFit
  blocksPerGroup_pos : 0 < g.blocksPerGroup
  blocksPerGroup_le : g.blocksPerGroup ≤ 8 * g.blockSize
  inodesPerGroup_pos : 0 < g.inodesPerGroup
  firstDataBlock : g.firstDataBlock = 1024 / g.blockSize
  blocksCount_lt : v.blocksCount < 2 ^ 32
  tables : ∀ i b, HasRole g v b (.inodeTable i) → b < v.blocksCount
  live : ∀ ino, v.live ino → ino ≠ 0 ∧ RealGroup g v (inodeGroup g ino)
  unique : ∀ b r r', HasRole g v b r → HasRole g v b r' → r = r'
  free : ∀ i j, RealGroup g v i → j < g.blocksPerGroup → blockBit g v.disk i j = false →
    blockNumber g i j < v.blocksCount ∧ ∀ r, ¬HasRole g v (blockNumber g i j) r
  past : ∀ i, i * g.blocksPerGroup < v.blocksCount → ¬RealGroup g v i → bgFreeBlocksCount (bgdAt g v.disk i) = 0

/-- The blocks of the files exist. -/
def InVolume (v : View) : Prop :=
  ∀ n p h b, v.live n → reach g v n p = some (.block h b) → b < v.blocksCount

/-- The bytes of block `b` are the same on both disks. -/
def Same (disk disk' : Mem) (b : ℕ) : Prop :=
  ∀ x < g.blockSize, disk' (b * g.blockSize + x) = disk (b * g.blockSize + x)

end

section

variable {g : Geometry} {disk disk' disk'' : Mem} {b c a i k : ℕ}

lemma Same.refl (disk : Mem) (b : ℕ) : Same g disk disk b := fun _ _ => rfl

lemma Same.trans (h : Same g disk disk' b) (h' : Same g disk' disk'' b) : Same g disk disk'' b :=
  fun x hx => (h' x hx).trans (h x hx)

omit g in
lemma slots_apart (h : b ≠ c) (k : ℕ) : b * k + k ≤ c * k ∨ c * k + k ≤ b * k := by
  rw [← succ_mul, ← succ_mul]
  exact (Nat.lt_or_gt_of_ne h).imp (Nat.mul_le_mul_right k) (Nat.mul_le_mul_right k)

lemma same_blit (f : ℕ → UInt8) (ha : c * g.blockSize ≤ a)
    (hk : a + k ≤ c * g.blockSize + g.blockSize) (hne : b ≠ c) : Same g disk (blit disk k a f) b := by
  intro x hx
  apply blit_outside
  have hapart := slots_apart hne g.blockSize
  omega

lemma same_writeBlock (f : Mem) (hne : b ≠ c) : Same g disk (blit disk g.blockSize (c * g.blockSize) f) b :=
  same_blit f (le_refl _) (le_refl _) hne

lemma Same.slice (h : Same g disk disk' b) (hk : a + k ≤ g.blockSize) :
    slice disk' (b * g.blockSize + a) k = ByteMemory.slice disk (b * g.blockSize + a) k := by
  apply slice_congr
  intro i hi
  have := h (a + i) (by omega)
  rw [← add_assoc] at this
  exact this

lemma Same.block (h : Same g disk disk' b) :
    ByteMemory.slice disk' (b * g.blockSize) g.blockSize = ByteMemory.slice disk (b * g.blockSize) g.blockSize :=
  h.slice (a := 0) (by omega)

lemma Same.pointer (h : Same g disk disk' b) (hi : i < g.ptrs) : pointer g disk' b i = pointer g disk b i := by
  have := g.four_mul_ptrs
  apply readLE_congr
  intro x hx hx'
  obtain ⟨y, rfl⟩ := Nat.exists_eq_add_of_le (le_trans (Nat.le_add_right _ _) hx)
  exact h y (by omega)

lemma bgdAt_eq_of_same (h : Same g disk disk' (g.bgdBlock + i / g.bgdsPerBlock)) :
    bgdAt g disk' i = bgdAt g disk i := by
  rw [bgdAt, bgdAt, ← bgdAddr_eq]
  exact h.slice (bgd_slot_le g i)

lemma entry_eq_pointer (disk : Mem) (b : ℕ) (hi : i < g.ptrs) :
    entry (slice disk (b * g.blockSize) g.blockSize) i = pointer g disk b i := by
  have := g.four_mul_ptrs
  exact readLE_slice disk (by omega)

end

section

variable {g : Geometry} {v v' : View} {ino b h k : ℕ} {p q : List ℕ}

lemma refs_inode (l : ℕ) (hk : k < 15) (h0 : v.slots ino k ≠ 0) :
    refs g v l (.inode ino) k = some (.block (slotHeight k) (v.slots ino k)) := by
  simp only [refs, if_pos (And.intro hk h0)]

lemma refs_inode_zero (l : ℕ) (h0 : v.slots ino k = 0) : refs g v l (.inode ino) k = none := by
  simp only [refs, if_neg fun h : k < 15 ∧ v.slots ino k ≠ 0 => h.2 h0]

lemma refs_block (l : ℕ) (hk : k < g.ptrs) (h0 : pointer g v.disk b k ≠ 0) :
    refs g v l (.block (h + 1) b) k = some (.block h (pointer g v.disk b k)) := by
  simp only [refs, if_pos (And.intro hk h0)]

lemma refs_block_zero (l : ℕ) (h0 : pointer g v.disk b k = 0) : refs g v l (.block h b) k = none := by
  cases h with
  | zero => rfl
  | succ h => simp only [refs, if_neg fun hc : k < g.ptrs ∧ pointer g v.disk b k ≠ 0 => hc.2 h0]

lemma reach_concat_inode (n : ℕ) : reach g v ino (p ++ [k]) ≠ some (.inode n) := by
  rw [reach, walk_concat]
  intro hw
  obtain ⟨m, -, hm⟩ := Option.bind_eq_some_iff.mp hw
  match m with
  | .inode _ =>
    simp only [refs] at hm
    split at hm <;> cases hm
  | .block 0 _ => cases hm
  | .block (_ + 1) _ =>
    simp only [refs] at hm
    split at hm <;> cases hm

lemma refs_congr {n : Node} (l : ℕ) (hslots : ∀ m, n = .inode m → k < 15 → v'.slots m k = v.slots m k)
    (hsame : ∀ h b, n = .block (h + 1) b → Same g v.disk v'.disk b) : refs g v' l n k = refs g v l n k := by
  match n with
  | .inode m =>
    by_cases hk : k < 15
    · simp only [refs, hslots m rfl hk]
    · simp only [refs, if_neg fun hc : k < 15 ∧ _ => hk hc.1]
  | .block 0 _ => rfl
  | .block (h + 1) b =>
    by_cases hk : k < g.ptrs
    · simp only [refs, (hsame h b rfl).pointer hk]
    · simp only [refs, if_neg fun hc : k < g.ptrs ∧ _ => hk hc.1]

lemma reach_congr (hslots : ∀ k < 15, v'.slots ino k = v.slots ino k)
    (hsame : ∀ p h b, reach g v ino p = some (.block (h + 1) b) → Same g v.disk v'.disk b)
    (q : List ℕ) : reach g v' ino q = reach g v ino q := by
  refine walk_congr (d := q.length) (fun p n j _ hn => ?_) q (le_refl _)
  refine refs_congr _ (fun m hm hj => ?_) fun h b hb => hsame p h b (hb ▸ hn)
  -- the only inode on the way is the first node
  cases p using List.reverseRecOn with
  | nil =>
    cases hn
    obtain rfl := Node.inode.inj hm
    exact hslots j hj
  | append_singleton p i => exact absurd (hm ▸ hn) (reach_concat_inode m)

end

section

variable {g : Geometry} {v v' v'' : View} {n x : ℕ} {disk disk' : Mem}

/-- The two group descriptors put things in the same places. -/
structure SamePlaces (bgd bgd' : Mem) : Prop where
  blockBitmap : bgBlockBitmap bgd' = bgBlockBitmap bgd
  inodeBitmap : bgInodeBitmap bgd' = bgInodeBitmap bgd
  inodeTable : bgInodeTable bgd' = bgInodeTable bgd

lemma SamePlaces.of_eq {bgd bgd' : Mem} (h : bgd' = bgd) : SamePlaces bgd bgd' :=
  h ▸ ⟨rfl, rfl, rfl⟩

/-- The two views have the same roles: they differ in data, in bitmaps and in counts. -/
structure SameRoles (g : Geometry) (v v' : View) : Prop where
  live : v'.live = v.live
  count : v'.blocksCount = v.blocksCount
  slots : ∀ n, v.live n → ∀ k < 15, v'.slots n k = v.slots n k
  groups : ∀ i, RealGroup g v i → SamePlaces (bgdAt g v.disk i) (bgdAt g v'.disk i)
  tables : ∀ n p h b, v.live n → reach g v n p = some (.block (h + 1) b) → Same g v.disk v'.disk b

lemma sameRoles_of_slots {slots : ℕ → ℕ → ℕ} (h : ∀ n, v.live n → ∀ k < 15, slots n k = v.slots n k) :
    SameRoles g v { v with slots := slots } :=
  ⟨rfl, rfl, h, fun _ _ => SamePlaces.of_eq rfl, fun _ _ _ b _ _ => .refl _ b⟩

section

variable (h : SameRoles g v v')
include h

lemma SameRoles.realGroup (i : ℕ) : RealGroup g v' i ↔ RealGroup g v i := by
  rw [RealGroup, RealGroup, h.count]

lemma SameRoles.reach (hn : v.live n) (p : List ℕ) : reach g v' n p = reach g v n p :=
  reach_congr (h.slots n hn) (fun q k b hq => h.tables n q k b hn hq) p

lemma SameRoles.hasRole (b : ℕ) (r : Role) : HasRole g v' b r ↔ HasRole g v b r := by
  cases r with
  | super => exact Iff.rfl
  | descriptors => simp only [HasRole, h.count]
  | blockBitmap i =>
    simp only [HasRole, h.realGroup]
    exact and_congr_right fun hi => by rw [(h.groups i hi).blockBitmap]
  | inodeBitmap i =>
    simp only [HasRole, h.realGroup]
    exact and_congr_right fun hi => by rw [(h.groups i hi).inodeBitmap]
  | inodeTable i =>
    simp only [HasRole, h.realGroup]
    exact and_congr_right fun hi => by rw [(h.groups i hi).inodeTable]
  | file n p =>
    simp only [HasRole, h.live]
    exact and_congr_right fun hn => by rw [h.reach hn]

lemma SameRoles.inVolume (hv : InVolume g v) : InVolume g v' := by
  intro n p m b hn hb
  rw [h.live] at hn
  rw [h.reach hn] at hb
  rw [h.count]
  exact hv n p m b hn hb

lemma SameRoles.trans (h' : SameRoles g v' v'') : SameRoles g v v'' where
  live := h'.live.trans h.live
  count := h'.count.trans h.count
  slots n hn k hk := (h'.slots n (h.live ▸ hn) k hk).trans (h.slots n hn k hk)
  groups i hi := by
    have h1 := h.groups i hi
    have h2 := h'.groups i ((h.realGroup i).mpr hi)
    exact ⟨h2.blockBitmap.trans h1.blockBitmap, h2.inodeBitmap.trans h1.inodeBitmap,
      h2.inodeTable.trans h1.inodeTable⟩
  tables n p m b hn hb :=
    (h.tables n p m b hn hb).trans
      (h'.tables n p m b (h.live ▸ hn) ((h.reach hn p).trans hb))

end

/-- Other slots and other inodes in use keep a volume consistent if no role is new. -/
lemma Consistent.of_hasRole (h : Consistent g v) {slots : ℕ → ℕ → ℕ} {live : ℕ → Prop}
    (hlive : ∀ n, live n → n ≠ 0 ∧ RealGroup g v (inodeGroup g n))
    (hrole : ∀ b r, HasRole g { v with slots := slots, live := live } b r → HasRole g v b r) :
    Consistent g { v with slots := slots, live := live } where
  __ := h
  tables i b hb := h.tables i b (hrole b _ hb)
  live := hlive
  unique b r r' hb hb' := h.unique b r r' (hrole b r hb) (hrole b r' hb')
  free i j hi hj hbit :=
    ⟨(h.free i j hi hj hbit).1, fun r hr => (h.free i j hi hj hbit).2 r (hrole _ r hr)⟩

/-- A view with the same roles is consistent if the blocks that are marked free in it exist
and have no role. -/
lemma Consistent.of_sameRoles_free (h : Consistent g v) (hr : SameRoles g v v')
    (hfree : ∀ i j, RealGroup g v i → j < g.blocksPerGroup → blockBit g v'.disk i j = false →
      blockNumber g i j < v.blocksCount ∧ ∀ r, ¬HasRole g v (blockNumber g i j) r)
    (hpast : ∀ i, i * g.blocksPerGroup < v.blocksCount → ¬RealGroup g v i →
      bgFreeBlocksCount (bgdAt g v'.disk i) = 0) : Consistent g v' where
  __ := h
  blocksCount_lt := hr.count ▸ h.blocksCount_lt
  tables i b hb := by
    rw [hr.count]
    exact h.tables i b ((hr.hasRole b _).mp hb)
  live n hn := by
    rw [hr.realGroup]
    exact h.live n (hr.live ▸ hn)
  unique b r r' hb hb' := h.unique b r r' ((hr.hasRole b r).mp hb) ((hr.hasRole b r').mp hb')
  free i j hi hj hbit := by
    obtain ⟨hlt, hnone⟩ := hfree i j ((hr.realGroup i).mp hi) hj hbit
    exact ⟨hr.count ▸ hlt, fun r hrole => hnone r ((hr.hasRole _ r).mp hrole)⟩
  past i hi hreal := hpast i (hr.count ▸ hi) fun hi' => hreal ((hr.realGroup i).mpr hi')

lemma Consistent.of_sameRoles (h : Consistent g v) (hr : SameRoles g v v')
    (hbits : ∀ i j, RealGroup g v i → j < g.blocksPerGroup → blockBit g v'.disk i j = false →
      blockBit g v.disk i j = false) (hpast : ∀ i, i * g.blocksPerGroup < v.blocksCount → ¬RealGroup g v i →
      bgFreeBlocksCount (bgdAt g v'.disk i) = 0) : Consistent g v' :=
  h.of_sameRoles_free hr (fun i j hi hj hbit => h.free i j hi hj (hbits i j hi hj hbit)) hpast

lemma Consistent.of_disk (h : Consistent g v) (hr : SameRoles g v v') (hd : v'.disk = v.disk) : Consistent g v' :=
  h.of_sameRoles hr (fun _ _ _ _ hbit => hd ▸ hbit) (hd ▸ h.past)

lemma fileByte_of_reach {h b : ℕ} (hr : reach g v n (pathOf g (x / g.blockSize)) = some (.block h b)) :
    fileByte g v n x = v.disk (b * g.blockSize + x % g.blockSize) := by rw [fileByte, hr]

lemma fileByte_of_none (hr : reach g v n (pathOf g (x / g.blockSize)) = none) : fileByte g v n x = 0 := by
  rw [fileByte, hr]

lemma fileByte_congr (hr : reach g v' n (pathOf g (x / g.blockSize)) = reach g v n (pathOf g (x / g.blockSize)))
    (hs : ∀ h b, reach g v n (pathOf g (x / g.blockSize)) = some (.block h b) →
      Same g v.disk v'.disk b) : fileByte g v' n x = fileByte g v n x := by
  rw [fileByte, fileByte, hr]
  match hp : reach g v n (pathOf g (x / g.blockSize)) with
  | none => rfl
  | some (.inode _) => rfl
  | some (.block h b) => exact hs h b hp _ (mod_lt x g.blockSize_pos)

lemma inodeBit_congr {i j : ℕ} (hplace : bgInodeBitmap (bgdAt g disk' i) = bgInodeBitmap (bgdAt g disk i))
    (hs : Same g disk disk' (bgInodeBitmap (bgdAt g disk i))) : inodeBit g disk' i j = inodeBit g disk i j := by
  rw [inodeBit, inodeBit, hplace, hs.block]

lemma inodeAt_congr (hfit : g.InodesFit)
    (hgroup : bgInodeTable (bgdAt g disk' (inodeGroup g n)) = bgInodeTable (bgdAt g disk (inodeGroup g n)))
    (hs : Same g disk disk' (inodeBlock g (bgdAt g disk (inodeGroup g n)) n)) :
    inodeAt g disk' n = inodeAt g disk n := by
  have hb : inodeBlock g (bgdAt g disk' (inodeGroup g n)) n = inodeBlock g (bgdAt g disk (inodeGroup g n)) n := by
    rw [inodeBlock, inodeBlock, hgroup]
  rw [inodeAt, inodeAt, inodeAddr, inodeAddr, hb]
  exact hs.slice (hfit.slot_le n)

end

section

variable {g : Geometry} {v : View} {b c i j n : ℕ}

namespace Consistent

lemma role_ne (h : Consistent g v) {r r' : Role} (hb : HasRole g v b r) (hc : HasRole g v c r')
    (hne : r ≠ r') : b ≠ c := by
  rintro rfl
  exact hne (h.unique b r r' hb hc)

lemma super_role : HasRole g v (1024 / g.blockSize) .super := rfl

lemma inodeIndex_lt (h : Consistent g v) (n : ℕ) : inodeIndex g n < g.inodesPerGroup :=
  mod_lt _ h.inodesPerGroup_pos

lemma inodeBlock_role (h : Consistent g v) (hn : RealGroup g v (inodeGroup g n)) :
    HasRole g v (inodeBlock g (bgdAt g v.disk (inodeGroup g n)) n) (.inodeTable (inodeGroup g n)) := by
  have hrole : HasRole g v (bgInodeTable (bgdAt g v.disk (inodeGroup g n)) +
      inodeIndex g n / g.inodesPerBlock) (.inodeTable (inodeGroup g n)) :=
    ⟨hn, inodeIndex g n, h.inodeIndex_lt n, rfl⟩
  have hlt := h.tables _ _ hrole
  have hcount := h.blocksCount_lt
  rw [inodeBlock, u32, mod_eq_of_lt (by omega)]
  exact hrole

lemma descriptor_role (hi : i * g.blocksPerGroup < v.blocksCount) :
    HasRole g v (g.bgdBlock + i / g.bgdsPerBlock) .descriptors := ⟨i, hi, rfl⟩

lemma blockBitmap_role (hi : RealGroup g v i) :
    HasRole g v (bgBlockBitmap (bgdAt g v.disk i)) (.blockBitmap i) := ⟨hi, rfl⟩

lemma inodeBitmap_role (hi : RealGroup g v i) :
    HasRole g v (bgInodeBitmap (bgdAt g v.disk i)) (.inodeBitmap i) := ⟨hi, rfl⟩

lemma file_role {p : List ℕ} {m : ℕ} (hn : v.live n) (hb : reach g v n p = some (.block m b)) :
    HasRole g v b (.file n p) := ⟨hn, m, hb⟩

end Consistent

lemma RealGroup.described (h : RealGroup g v i) : i * g.blocksPerGroup < v.blocksCount :=
  lt_of_le_of_lt (Nat.le_add_right _ _) h

lemma RealGroup.of_number (h : blockNumber g i j < v.blocksCount) : RealGroup g v i :=
  lt_of_le_of_lt (Nat.le_add_right _ j) h

lemma blockNumber_inj (hj : j < g.blocksPerGroup) {i' j' : ℕ} (hj' : j' < g.blocksPerGroup)
    (h : blockNumber g i j = blockNumber g i' j') : i = i' ∧ j = j' := by
  unfold blockNumber at h
  have hsum : i * g.blocksPerGroup + j = i' * g.blocksPerGroup + j' := by omega
  have hi : i = i' := by
    have h1 : (i * g.blocksPerGroup + j) / g.blocksPerGroup =
        (i' * g.blocksPerGroup + j') / g.blocksPerGroup := by rw [hsum]
    rw [mul_comm i, mul_comm i', mul_add_div (by omega), mul_add_div (by omega),
      div_eq_of_lt hj, div_eq_of_lt hj'] at h1
    omega
  subst hi
  exact ⟨rfl, by omega⟩

end

section

variable {g : Geometry} {v : View} {c : ℕ}

/-- A write to a block that holds no descriptors, no block bitmap and no block numbers. -/
lemma Consistent.write (h : Consistent g v) (disk' : Mem) (hd : ∀ b, b ≠ c → Same g v.disk disk' b)
    (hdesc : ¬HasRole g v c .descriptors) (hbitmap : ∀ i, ¬HasRole g v c (.blockBitmap i))
    (htable : ∀ n p m, v.live n → reach g v n p ≠ some (.block (m + 1) c)) :
    SameRoles g v { v with disk := disk' } ∧ Consistent g { v with disk := disk' } ∧
      ∀ i j, RealGroup g v i → blockBit g disk' i j = blockBit g v.disk i j := by
  have hbgd : ∀ i, i * g.blocksPerGroup < v.blocksCount → bgdAt g disk' i = bgdAt g v.disk i := by
    intro i hi
    apply bgdAt_eq_of_same (hd _ ?_)
    rintro rfl
    exact hdesc (Consistent.descriptor_role hi)
  have hroles : SameRoles g v { v with disk := disk' } := by
    refine ⟨rfl, rfl, fun _ _ _ _ => rfl, fun i hi => SamePlaces.of_eq (hbgd i hi.described),
      fun n p m b hn hb => hd b ?_⟩
    rintro rfl
    exact htable n p m hn hb
  have hbits : ∀ i j, RealGroup g v i → blockBit g disk' i j = blockBit g v.disk i j := by
    intro i j hi
    have hne : bgBlockBitmap (bgdAt g v.disk i) ≠ c := by
      rintro rfl
      exact hbitmap i (Consistent.blockBitmap_role hi)
    rw [blockBit, blockBit, hbgd i hi.described, (hd _ hne).block]
  refine ⟨hroles, h.of_sameRoles hroles (fun i j hi _ hbit => ?_) (fun i hi hreal => ?_), hbits⟩
  · rw [← hbits i j hi]
    exact hbit
  have := h.past i hi hreal
  rw [← hbgd i hi] at this
  exact this

end

end AetherOS.Ext2
