import AetherOS.Ext2Books
import AetherOS.Ext2RoundTrip

/-!
# Runs of the allocators

Blocks and inodes are taken and given back in any order. The books stay right, what is
taken was free, and giving it back restores them, with one exception: `free_inode`
refuses inode 1, which `alloc_inode` takes if its bit is clear.
-/
namespace AetherOS.Ext2
open ByteMemory ByteBitmap FreeCounts Runs Finset

inductive BookCall where
  | allocBlock
  | freeBlock (blockNo : ℕ)
  | allocInode
  | freeInode (ino : ℕ)

/-- A volume with the blocks and inodes that the calls so far took and did not give back. -/
structure BookState where
  fs : Fs
  blocks : Finset ℕ
  inodes : Finset ℕ

/-- A call. Only what is taken is given back. -/
def bookStep (g : Geometry) (t : BookState) : BookCall → BookState → Prop
  | .allocBlock, t' =>
    let r := allocBlock g t.fs
    t' = { t with fs := r.2, blocks := if r.1 = 0 then t.blocks else insert r.1 t.blocks }
  | .freeBlock b, t' => b ∈ t.blocks ∧ t' = { t with fs := freeBlock g t.fs b, blocks := t.blocks.erase b }
  | .allocInode, t' =>
    let r := allocInode g t.fs
    t' = { t with fs := r.2, inodes := if r.1 = 0 then t.inodes else insert r.1 t.inodes }
  | .freeInode n, t' => n ∈ t.inodes ∧ t' = { t with fs := freeInode g t.fs n, inodes := t.inodes.erase n }

/-- The books are right, every request is granted, and nothing is taken yet. -/
structure BookStart (g : Geometry) (t : BookState) : Prop where
  noFault : NoFault t.fs
  booked : Booked g t.fs
  blocks : t.blocks = ∅
  inodes : t.inodes = ∅

section

variable {g : Geometry} {s s' : Fs} {t t' : BookState} {k k' : Kind} {i j m n b : ℕ}

/-- A block in use that holds no metadata. -/
structure TakenBlock (g : Geometry) (s : Fs) (i j : ℕ) : Prop where
  lt : j < g.blocksPerGroup
  real : blockNumber g i j < sBlocksCount s.sb
  set : blockBit g s.disk i j = true
  noRole : ∀ r, ¬HasRole g s.bare (blockNumber g i j) r

structure TakenInode (g : Geometry) (s : Fs) (n : ℕ) : Prop where
  ne_zero : n ≠ 0
  le : n ≤ sInodesCount s.sb
  set : inodeBit g s.disk (inodeGroup g n) (inodeIndex g n) = true

structure BookInv (g : Geometry) (t : BookState) : Prop where
  noFault : NoFault t.fs
  booked : Booked g t.fs
  blocks : ∀ b ∈ t.blocks, ∃ i j, b = blockNumber g i j ∧ TakenBlock g t.fs i j
  inodes : ∀ n ∈ t.inodes, TakenInode g t.fs n

lemma BookStart.inv (h : BookStart g t) : BookInv g t where
  __ := h
  blocks b hb := by
    rw [h.blocks] at hb
    exact absurd hb (notMem_empty b)
  inodes n hn := by
    rw [h.inodes] at hn
    exact absurd hn (notMem_empty n)

lemma TakenBlock.keep (h : TakenBlock g s i j) (hroles : SameRoles g s.bare s'.bare)
    (hset : blockBit g s'.disk i j = true) : TakenBlock g s' i j where
  lt := h.lt
  real := by
    have hcount : sBlocksCount s'.sb = sBlocksCount s.sb := hroles.count
    rw [hcount]
    exact h.real
  set := hset
  noRole r hr := h.noRole r ((hroles.hasRole _ r).mp hr)

lemma TakenInode.keep (h : TakenInode g s n) (hcount : sInodesCount s'.sb = sInodesCount s.sb)
    (hset : inodeBit g s'.disk (inodeGroup g n) (inodeIndex g n) = true) : TakenInode g s' n :=
  ⟨h.ne_zero, hcount ▸ h.le, hset⟩

lemma TakenBlock.place (h : TakenBlock g s i j) (hc : Consistent g s.bare) :
    (Kind.shape g s.sb .block).real i 0 ∧ j < (Kind.shape g s.sb .block).width :=
  ⟨(blockShape g _).real_zero i j h.real, lt_of_lt_of_le h.lt hc.blocksPerGroup_le⟩

lemma TakenInode.place (h : TakenInode g s n) (hc : Consistent g s.bare) (hm : InodeMaps g s) :
    (Kind.shape g s.sb .inode).real (inodeGroup g n) 0 ∧ inodeIndex g n < (Kind.shape g s.sb .inode).width := by
  obtain ⟨hreal, hindex, -⟩ := inode_real (s := s) hc.inodesPerGroup_pos h.ne_zero h.le
  exact ⟨(inodeShape g _).real_zero _ _ hreal, lt_of_lt_of_le hindex hm.size⟩

lemma Booking.set (h : Booking g k s s' i j) (hp : Placed g s k')
    (hm : (k'.shape g s.sb).real m 0) (hn : n < (k'.shape g s.sb).width)
    (hset : (k'.ledger g s).bits m n = true) : (k'.ledger g s').bits m n = true := by
  by_cases he : (k', m, n) = (k, i, j)
  · cases he
    exact h.taken.set
  · exact (h.bits hp hm hn he).trans hset

section

variable (hi : BookInv g t)
include hi

lemma BookInv.take (h : Booking g k t.fs s' i j) (hn : NoFault s')
    (hroles : SameRoles g t.fs.bare s'.bare) (hc : Consistent g s'.bare) :
    BookInv g { t with fs := s' } where
  noFault := hn
  booked := hi.booked.take h hc
  blocks b hb := by
    obtain ⟨m, q, rfl, htaken⟩ := hi.blocks b hb
    obtain ⟨hreal, hwidth⟩ := htaken.place hi.booked.layout
    exact ⟨m, q, rfl, htaken.keep hroles (h.set (hi.booked.placed _) hreal hwidth htaken.set)⟩
  inodes q hq := by
    have htaken := hi.inodes q hq
    obtain ⟨hreal, hwidth⟩ := htaken.place hi.booked.layout hi.booked.inodeMaps
    exact htaken.keep h.inodesCount (h.set (hi.booked.placed _) hreal hwidth htaken.set)

/-- The invariant for a volume after an object was given back that is not in the lists. -/
lemma BookInv.give (h : Booking g k s' t.fs i j) (hn : NoFault s')
    (hroles : SameRoles g t.fs.bare s'.bare) (hc : Consistent g s'.bare)
    (hblocks : k = .block → ∀ b ∈ t.blocks, b ≠ blockNumber g i j)
    (hinodes : k = .inode → ∀ n ∈ t.inodes, (inodeGroup g n, inodeIndex g n) ≠ (i, j)) :
    BookInv g { t with fs := s' } where
  noFault := hn
  booked := hi.booked.give h hc
  blocks b hb := by
    obtain ⟨m, q, rfl, htaken⟩ := hi.blocks b hb
    obtain ⟨hreal, hwidth⟩ := htaken.place hi.booked.layout
    rw [h.shape] at hreal hwidth
    have hbit := h.bits (h.placed (hi.booked.placed _)) hreal hwidth fun he => by
      cases he
      exact hblocks rfl _ hb rfl
    exact ⟨m, q, rfl, htaken.keep hroles (hbit.symm.trans htaken.set)⟩
  inodes q hq := by
    have htaken := hi.inodes q hq
    obtain ⟨hreal, hwidth⟩ := htaken.place hi.booked.layout hi.booked.inodeMaps
    rw [h.shape] at hreal hwidth
    have hbit := h.bits (h.placed (hi.booked.placed _)) hreal hwidth fun he => by
      obtain ⟨hk, he⟩ := Prod.mk.inj he
      exact hinodes hk.symm q hq he
    exact htaken.keep h.inodesCount.symm (hbit.symm.trans htaken.set)

lemma BookInv.sub {blocks inodes : Finset ℕ} (hb : blocks ⊆ t.blocks)
    (hn : inodes ⊆ t.inodes) : BookInv g ⟨t.fs, blocks, inodes⟩ where
  __ := hi
  blocks b hmem := hi.blocks b (hb hmem)
  inodes n hmem := hi.inodes n (hn hmem)

lemma allocBlock_inv : allocBlock g t.fs = (0, t.fs) ∨
    ∃ i j s', allocBlock g t.fs = (blockNumber g i j, s') ∧ blockNumber g i j ≠ 0 ∧
      Booking g .block t.fs s' i j ∧ TakenBlock g s' i j ∧ BookInv g { t with fs := s' } := by
  have hc := hi.booked.layout
  rcases allocBlock_booking hc hi.noFault hi.booked.blocks with hz | ⟨i, j, s', he, hbook⟩
  · exact .inl hz
  rcases allocBlock_spec hc hi.noFault with hz | ⟨c, s1, hs1, ha⟩
  · exact .inl hz
  obtain ⟨rfl, rfl⟩ := Prod.mk.inj (hs1.symm.trans he)
  have hlt : j < g.blocksPerGroup := hbook.taken.lt
  have hcount : sBlocksCount s1.sb = sBlocksCount t.fs.sb := ha.roles.count
  have hnumber : blockNumber g i j < sBlocksCount t.fs.sb := hbook.taken.real
  have htaken : TakenBlock g s1 i j := ⟨hlt, hcount ▸ hnumber, hbook.taken.set, ha.spare.noRole⟩
  exact .inr ⟨i, j, s1, he, ha.spare.ne_zero, hbook, htaken, hi.take hbook ha.noFault ha.roles ha.consistent⟩

end

lemma TakenBlock.give (h : TakenBlock g s i j) (hn : NoFault s) (hb : Booked g s) :
    Booking g .block (freeBlock g s (blockNumber g i j)) s i j ∧ NoFault (freeBlock g s (blockNumber g i j)) ∧
      SameRoles g s.bare (freeBlock g s (blockNumber g i j)).bare ∧
      Consistent g (freeBlock g s (blockNumber g i j)).bare := by
  have hbook := freeBlock_booking hb.layout hn hb.blocks h.lt h.real h.set
  rw [freeBlock_eq hn h.lt] at hbook ⊢
  obtain ⟨hroles, hc⟩ := unmarked_consistent hb.layout h.real h.noRole
  exact ⟨hbook, fun m => hn m, hroles, hc⟩

lemma allocInode_inv (hi : BookInv g t) : allocInode g t.fs = (0, t.fs) ∨
    ∃ n s', allocInode g t.fs = (n, s') ∧ n ≠ 0 ∧
      Booking g .inode t.fs s' (inodeGroup g n) (inodeIndex g n) ∧ TakenInode g s' n ∧
      BookInv g { t with fs := s' } := by
  have hc := hi.booked.layout
  rcases allocInode_cases hi.booked.inodeMaps hi.noFault with hz | ⟨n, h0, hle, hcount, hclear, he⟩
  · exact .inl hz
  have hbook := allocInode_booking hc hi.booked h0 hle hcount hclear
  have hreal : RealGroup g t.fs.bare (inodeGroup g n) :=
    (hi.booked.placed .inode).real _ ((inodeShape g _).real_zero _ _ hbook.taken.real)
  have htaken : TakenInode g (marked g .inode t.fs (inodeGroup g n) (inodeIndex g n)) n :=
    ⟨h0, hbook.inodesCount ▸ hle, hbook.taken.set⟩
  exact .inr ⟨n, _, he, h0, hbook, htaken,
    hi.take hbook (fun m => hi.noFault m) (mark_sameRoles hc hreal) (mark_inode_consistent hc hreal)⟩

lemma TakenInode.give (h : TakenInode g s n) (hn : NoFault s) (hb : Booked g s) (h1 : n ≠ 1) :
    Booking g .inode (freeInode g s n) s (inodeGroup g n) (inodeIndex g n) ∧
      NoFault (freeInode g s n) ∧ SameRoles g s.bare (freeInode g s n).bare ∧
      Consistent g (freeInode g s n).bare := by
  have h0 := h.ne_zero
  have hbook := freeInode_booking hb.layout hn hb (by omega) h.le h.set
  have hreal : RealGroup g s.bare (inodeGroup g n) :=
    (hb.placed .inode).real _ (h.place hb.layout hb.inodeMaps).1
  rw [freeInode_eq hn (by omega)] at hbook ⊢
  exact ⟨hbook, fun m => hn m, mark_sameRoles hb.layout hreal, mark_inode_consistent hb.layout hreal⟩

/-- What a call preserves. -/
theorem bookStep_inv {a : BookCall} (hi : BookInv g t) (hs : bookStep g t a t') : BookInv g t' := by
  cases a with
  | allocBlock =>
    obtain rfl := hs
    rcases allocBlock_inv hi with he | ⟨i, j, s', he, h0, -, htaken, hinv⟩
    · simp only [he, if_true]
      exact hi
    simp only [he, if_neg h0]
    refine { hinv with blocks := fun b hb => ?_ }
    rcases mem_insert.mp hb with rfl | hb
    · exact ⟨i, j, rfl, htaken⟩
    · exact hinv.blocks b hb
  | freeBlock b =>
    obtain ⟨hb, rfl⟩ := hs
    obtain ⟨i, j, rfl, htaken⟩ := hi.blocks b hb
    obtain ⟨hbook, hn, hroles, hc⟩ := htaken.give hi.noFault hi.booked
    refine BookInv.give (hi.sub (erase_subset _ _) (Finset.Subset.refl _)) hbook hn hroles hc
      (fun _ b hb => (mem_erase.mp hb).1) fun hk => by cases hk
  | allocInode =>
    obtain rfl := hs
    rcases allocInode_inv hi with he | ⟨n, s', he, h0, -, htaken, hinv⟩
    · simp only [he, if_true]
      exact hi
    simp only [he, if_neg h0]
    refine { hinv with inodes := fun m hm => ?_ }
    rcases mem_insert.mp hm with rfl | hm
    · exact htaken
    · exact hinv.inodes m hm
  | freeInode n =>
    obtain ⟨hn, rfl⟩ := hs
    have hsub := hi.sub (Finset.Subset.refl _) (erase_subset n t.inodes)
    by_cases h1 : n = 1
    · subst h1
      exact hsub
    obtain ⟨hbook, hnf, hroles, hc⟩ := (hi.inodes n hn).give hi.noFault hi.booked h1
    refine BookInv.give hsub hbook hnf hroles hc (fun hk => by cases hk) fun _ m hm he => ?_
    obtain ⟨hne, hm⟩ := mem_erase.mp hm
    obtain ⟨hgroup, hindex⟩ := Prod.mk.inj he
    exact hne (inode_ext (hi.inodes m hm).ne_zero (hi.inodes n hn).ne_zero hgroup hindex)

end

/-- In every state that calls of the allocators reach from a volume whose books are right:
the books are right; what `alloc_block` and `alloc_inode` return was free, and the counts
go down by one; giving back what was taken makes the counts go up by one; and giving back at
once what was just taken restores bitmaps, counts and totals, unless it is inode 1. -/
theorem books_of_reachable (g : Geometry) (t : BookState) (hr : Reachable (bookStep g) (BookStart g) t) :
    Booked g t.fs ∧ (∀ c s', allocBlock g t.fs = (c, s') → c ≠ 0 → ∃ i j, c = blockNumber g i j ∧
        Booking g .block t.fs s' i j ∧ SameBooks g t.fs (freeBlock g s' c)) ∧
      (∀ n s', allocInode g t.fs = (n, s') → n ≠ 0 → Booking g .inode t.fs s' (inodeGroup g n) (inodeIndex g n) ∧
          (n ≠ 1 → SameBooks g t.fs (freeInode g s' n))) ∧
      (∀ b ∈ t.blocks, ∃ i j, b = blockNumber g i j ∧ Booking g .block (freeBlock g t.fs b) t.fs i j) ∧
      ∀ n ∈ t.inodes, n ≠ 1 → Booking g .inode (freeInode g t.fs n) t.fs (inodeGroup g n) (inodeIndex g n) := by
  have hi : BookInv g t := hr.invariant (fun _ hs => hs.inv) fun _ _ _ hi hs => bookStep_inv hi hs
  refine ⟨hi.booked, fun c s' he h0 => ?_, fun n s' he h0 => ?_, fun b hb => ?_, fun n hn h1 => ?_⟩
  · rcases allocBlock_inv hi with hz | ⟨i, j, s1, hs1, -, hbook, htaken, hinv⟩
    · exact absurd (Prod.mk.inj (he.symm.trans hz)).1 h0
    obtain ⟨rfl, rfl⟩ := Prod.mk.inj (he.symm.trans hs1)
    exact ⟨i, j, rfl, hbook, hbook.restored (htaken.give hinv.noFault hinv.booked).1 hi.booked⟩
  · rcases allocInode_inv hi with hz | ⟨m, s1, hs1, -, hbook, htaken, hinv⟩
    · exact absurd (Prod.mk.inj (he.symm.trans hz)).1 h0
    obtain ⟨rfl, rfl⟩ := Prod.mk.inj (he.symm.trans hs1)
    exact ⟨hbook, fun h1 => hbook.restored (htaken.give hinv.noFault hinv.booked h1).1 hi.booked⟩
  · obtain ⟨i, j, rfl, htaken⟩ := hi.blocks b hb
    exact ⟨i, j, rfl, (htaken.give hi.noFault hi.booked).1⟩
  · exact ((hi.inodes n hn).give hi.noFault hi.booked h1).1

/-- A small volume with eight inodes, all of them free, and ten free blocks. -/
def bookVolume : Fs where
  disk a :=
    if a = 2048 then 3 else if a = 2052 then 4 else if a = 2056 then 5 else if a = 2060 then 10
    else if a = 2062 then 8 else if a = 3072 then 0x1f else if a = 3073 then 0x80
    else if 3074 ≤ a ∧ a < 4096 then 0xff else if 4097 ≤ a ∧ a < 5120 then 0xff else 0
  sb a := if a = 0 then 8 else if a = 4 then 16 else if a = 12 then 10 else if a = 16 then 8 else 0
  outcomes _ := true

lemma booked_bookVolume : Booked smallGeometry bookVolume := by
  have hblocks : sBlocksCount bookVolume.sb = 16 := by decide +kernel
  have hinodes : sInodesCount bookVolume.sb = 8 := by decide +kernel
  have hchecked : Checked smallGeometry bookVolume.bare [] := by decide +kernel
  have hgroup : ∀ i, i * 8 < sInodesCount bookVolume.sb → i = 0 := by
    intro i hi
    omega
  refine ⟨hchecked.consistent ?_, ⟨fun i hi => ?_, by decide, fun i j hi hj _ => ?_⟩, ?_, ?_⟩
  · funext n
    simp [Fs.bare, Fs.view]
  · obtain rfl := hgroup i hi
    decide +kernel
  · obtain rfl := hgroup i hi
    have hj : j < 8 := hj
    rw [hinodes]
    omega
  · exact ⟨by decide, by decide +kernel, by decide +kernel⟩
  · exact ⟨by decide, by decide +kernel, by decide +kernel⟩

lemma bookStart_bookVolume : BookStart smallGeometry ⟨bookVolume, ∅, ∅⟩ :=
  ⟨fun _ => rfl, booked_bookVolume, rfl, rfl⟩

/-- The first free block, block 6, and the first free inode are taken, and the block is freed. -/
theorem books_of_reachable_three_calls :
    ∃ t, Reachable (bookStep smallGeometry) (BookStart smallGeometry) t ∧ t.blocks = ∅ ∧ t.inodes = {1} ∧
      Booked smallGeometry t.fs := by
  have hrun : Reachable (bookStep smallGeometry) (BookStart smallGeometry) _ :=
    ⟨_, [.allocBlock, .allocInode, .freeBlock 6], bookStart_bookVolume,
      .cons rfl (.cons rfl (.cons ⟨by decide +kernel, rfl⟩ (.nil _)))⟩
  exact ⟨_, hrun, by decide +kernel, by decide +kernel, (books_of_reachable _ _ hrun).1⟩

/-- `alloc_inode` takes inode 1, and `free_inode` does not give it back. -/
theorem freeInode_keeps_inode_one :
    BookStart smallGeometry ⟨bookVolume, ∅, ∅⟩ ∧ (allocInode smallGeometry bookVolume).1 = 1 ∧
      inodeBit smallGeometry bookVolume.disk 0 0 = false ∧
      inodeBit smallGeometry (freeInode smallGeometry (allocInode smallGeometry bookVolume).2 1).disk 0 0 = true ∧
      sFreeInodesCount bookVolume.sb = 8 ∧
      sFreeInodesCount (freeInode smallGeometry (allocInode smallGeometry bookVolume).2 1).sb = 7 := by
  refine ⟨bookStart_bookVolume, ?_⟩
  decide +kernel

end AetherOS.Ext2
