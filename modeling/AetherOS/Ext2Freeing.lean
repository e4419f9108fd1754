import AetherOS.Ext2Directories

/-!
# Giving back the blocks of a file

`ext2_truncate` and `ext2_unlink` give back the direct blocks, the blocks that the indirect
block refers to, and the indirect block. Once its slots are cleared in the copy of the
inode, these blocks belong to nobody, and giving them back is not noticed by any file.
-/
namespace AetherOS.Ext2
open ByteMemory ByteBitmap PointerTree FreeCounts Function List

section

variable (g : Geometry)

/-- The blocks are given back one after the other. -/
def freeAll (s : Fs) (bs : List ℕ) : Fs := bs.foldl (freeBlock g) s

/-- The blocks in some slots of an inode. -/
def slotBlocks (inode : Mem) (ks : List ℕ) : List ℕ := (ks.map (iBlock inode)).filter (· ≠ 0)

/-- The blocks that a block of block numbers refers to. -/
def entryBlocks (buf : Mem) : List ℕ := ((List.range g.ptrs).map (entry buf)).filter (· ≠ 0)

/-- The blocks behind the indirect block, and the indirect block. -/
def indirectBlocks (disk inode : Mem) : List ℕ :=
  if iBlock inode 12 = 0 then []
  else entryBlocks g (slice disk (iBlock inode 12 * g.blockSize) g.blockSize) ++ [iBlock inode 12]

/-- What is given back. -/
def ownBlocks (disk inode : Mem) : List ℕ :=
  slotBlocks inode (List.range 12) ++ indirectBlocks g disk inode

end

section

variable {g : Geometry} {s : Fs} {slots : ℕ → ℕ → ℕ} {live : ℕ → Prop} {c : ℕ} {bs : List ℕ}

lemma Consistent.firstDataBlock_le {v : View} (h : Consistent g v) (hc : c ≠ 0) : g.firstDataBlock ≤ c := by
  have hle : 1024 / g.blockSize ≤ 1 := by rcases g.blockSize_cases with hs | hs | hs <;> rw [hs] <;> decide
  rw [h.firstDataBlock]
  omega

lemma unmarked_noFault (hn : NoFault s) (k : Kind) (i j : ℕ) : NoFault (unmarked g k s i j) := by
  intro m
  rw [unmarked, mark, record_outcomes]
  exact hn m

/-- A block that belongs to nobody. -/
structure Ownerless (g : Geometry) (v : View) (c : ℕ) : Prop where
  ne_zero : c ≠ 0
  lt : c < v.blocksCount
  noRole : ∀ r, ¬HasRole g v c r

/-- Giving back blocks changes the records of free blocks and nothing else. -/
structure Released (g : Geometry) (s s' : Fs) (slots : ℕ → ℕ → ℕ) (live : ℕ → Prop) : Prop where
  noFault : NoFault s'
  roles : SameRoles g (s.view slots live) (s'.view slots live)
  grown : Grown g (s.view slots live) (s'.view slots live)
  inodesCount : sInodesCount s'.sb = sInodesCount s.sb
  ownerless : ∀ c, (∀ r, ¬HasRole g (s.view slots live) c r) → Same g s.disk s'.disk c

section

variable (h : Consistent g (s.view slots live)) {s' : Fs}
include h

lemma Released.refl (hn : NoFault s) : Released g s s slots live where
  noFault := hn
  roles := sameRoles_of_slots fun _ _ _ _ => rfl
  grown := .refl h
  inodesCount := rfl
  ownerless c _ := .refl _ c

omit h in
lemma Released.trans {s'' : Fs} (h : Released g s s' slots live) (h' : Released g s' s'' slots live) :
    Released g s s'' slots live where
  noFault := h'.noFault
  roles := h.roles.trans h'.roles
  grown := h.grown.trans h'.grown
  inodesCount := h'.inodesCount.trans h.inodesCount
  ownerless c hc := (h.ownerless c hc).trans (h'.ownerless c fun r hr => hc r ((h.roles.hasRole c r).mp hr))

omit h in
lemma Ownerless.keep (h : Released g s s' slots live) (hc : Ownerless g (s.view slots live) c) :
    Ownerless g (s'.view slots live) c :=
  ⟨hc.ne_zero, h.roles.count ▸ hc.lt, fun r hr => hc.noRole r ((h.roles.hasRole c r).mp hr)⟩

lemma Consistent.number (h0 : c ≠ 0) (hlt : c < sBlocksCount s.sb) :
    ∃ i j, j < g.blocksPerGroup ∧ blockNumber g i j = c ∧ RealGroup g (s.view slots live) i := by
  obtain ⟨i, j, hj, rfl⟩ := exists_blockNumber h.blocksPerGroup_pos (h.firstDataBlock_le h0)
  exact ⟨i, j, hj, rfl, .of_number hlt⟩

lemma freeBlock_released (hn : NoFault s)
    (hc : Ownerless g (s.view slots live) c) : Released g s (freeBlock g s c) slots live := by
  obtain ⟨i, j, hj, rfl, hreal⟩ := h.number hc.ne_zero hc.lt
  rw [freeBlock_eq hn hj]
  refine ⟨unmarked_noFault hn .block i j, (unmarked_consistent h hc.lt hc.noRole).1,
    grown_unmarked h hc.lt hc.noRole, mark_inodesCount, fun b hb => ?_⟩
  -- what is written has a role
  refine record_same ?_ ?_ ?_
  · rintro rfl
    exact hb _ (bitmap_role .block hreal)
  · rintro rfl
    exact hb _ (Consistent.descriptor_role hreal.described)
  · rintro rfl
    exact hb _ Consistent.super_role

theorem freeAll_released (hn : NoFault s)
    (hbs : ∀ b ∈ bs, Ownerless g (s.view slots live) b) : Released g s (freeAll g s bs) slots live := by
  induction bs generalizing s with
  | nil => exact .refl h hn
  | cons b bs ih =>
    have hb := freeBlock_released h hn (hbs b mem_cons_self)
    exact hb.trans (ih hb.grown.consistent hb.noFault fun c hc =>
      Ownerless.keep hb (hbs c (mem_cons_of_mem b hc)))

end

end

section

variable {g : Geometry} {s : Fs} {inode : Mem}

lemma foldl_freeSlot (ks : List ℕ) (hks : ks.Nodup) (inode : Mem) (s : Fs) :
    ∃ inode', ks.foldl (freeSlot g) (inode, s) = (inode', freeAll g s (slotBlocks inode ks)) ∧
      (∀ a < 40, inode' a = inode a) ∧
      ∀ k, iBlock inode' k = if k ∈ ks then 0 else iBlock inode k := by
  induction ks generalizing inode s with
  | nil => exact ⟨inode, rfl, fun _ _ => rfl, fun k => (if_neg not_mem_nil).symm⟩
  | cons k ks ih =>
    obtain ⟨hk, hks⟩ := nodup_cons.mp hks
    by_cases h0 : iBlock inode k = 0
    · obtain ⟨inode', he, hheader, hslots⟩ := ih hks inode s
      refine ⟨inode', ?_, hheader, fun j => ?_⟩
      · rw [foldl_cons, freeSlot, if_neg (not_not.mpr h0), he, slotBlocks, slotBlocks, map_cons,
          filter_cons_of_neg (by simpa using h0)]
      rw [hslots j]
      by_cases hj : j = k
      · subst hj
        rw [if_neg hk, if_pos mem_cons_self, h0]
      · simp [hj]
    have hupdate := iBlock_setIBlock inode k (Nat.two_pow_pos 32)
    obtain ⟨inode', he, hheader, hslots⟩ := ih hks (setIBlock inode k 0) (freeBlock g s (iBlock inode k))
    have hrest : slotBlocks (setIBlock inode k 0) ks = slotBlocks inode ks := by
      rw [slotBlocks, slotBlocks, map_congr_left fun j hj => ?_]
      rw [hupdate, update_of_ne fun hjk : j = k => hk (hjk ▸ hj)]
    refine ⟨inode', ?_, fun a ha => ?_, fun j => ?_⟩
    · rw [foldl_cons, freeSlot, if_pos h0, he, hrest, slotBlocks, slotBlocks, map_cons,
        filter_cons_of_pos (by simpa using h0), freeAll, freeAll, foldl_cons]
    · rw [hheader a ha]
      exact writeLE_outside _ (by omega)
    rw [hslots j, hupdate]
    by_cases hj : j = k
    · subst hj
      rw [if_neg hk, update_self, if_pos mem_cons_self]
    · simp [hj]

lemma freeEntries_eq (s : Fs) (buf : Mem) : freeEntries g s buf = freeAll g s (entryBlocks g buf) := by
  simp [freeEntries, freeAll, entryBlocks, foldl_filter, foldl_map]

/-- The copy of the inode after its blocks are given back. -/
structure Emptied (inode inode' : Mem) : Prop where
  header : ∀ a < 40, inode' a = inode a
  slots : ∀ k, iBlock inode' k = if k < 13 then 0 else iBlock inode k

/-- `freeBlocks` gives back the blocks of the file, if the indirect block is not among the
blocks that change on the way. -/
lemma freeBlocks_eq (hn : NoFault (freeAll g s (slotBlocks inode (List.range 12)))) (hsame : iBlock inode 12 ≠ 0 →
      Same g s.disk (freeAll g s (slotBlocks inode (List.range 12))).disk (iBlock inode 12)) :
    ∃ inode', freeBlocks g s inode = (inode', freeAll g s (ownBlocks g s.disk inode)) ∧ Emptied inode inode' := by
  obtain ⟨inode1, he, hheader, hslots⟩ := foldl_freeSlot (g := g) (List.range 12) nodup_range inode s
  generalize hs1 : freeAll g s (slotBlocks inode (List.range 12)) = s1 at hn hsame he
  have h12 : iBlock inode1 12 = iBlock inode 12 := by rw [hslots 12, if_neg (by simp)]
  by_cases h0 : iBlock inode 12 = 0
  · refine ⟨inode1, ?_, hheader, fun k => ?_⟩
    · simp [freeBlocks, he, h12, h0, ownBlocks, indirectBlocks, hs1]
    rw [hslots k]
    by_cases hk : k = 12
    · subst hk
      rw [if_neg (by simp), if_pos (by omega), h0]
    simp only [mem_range]
    split_ifs with ha hb hb
    · rfl
    · omega
    · omega
    · rfl
  have hupdate := iBlock_setIBlock inode1 12 (Nat.two_pow_pos 32)
  refine ⟨setIBlock inode1 12 0, ?_, fun a ha => ?_, fun k => ?_⟩
  · simp only [freeBlocks, he, h12, ne_eq, h0, not_false_eq_true, if_true, request_eq hn,
      readBlock_eq g hn, (hsame h0).block, freeEntries_eq, freeSlot, ownBlocks, indirectBlocks, if_false]
    rw [← hs1, freeAll, freeAll, freeAll, foldl_append, foldl_append, foldl_cons, foldl_nil]
  · rw [← hheader a ha]
    exact writeLE_outside _ (by omega)
  rw [hupdate]
  by_cases hk : k = 12
  · subst hk
    rw [update_self, if_pos (by omega)]
  rw [update_of_ne hk, hslots k]
  simp only [mem_range]
  split_ifs with ha hb hb
  · rfl
  · omega
  · omega
  · rfl

end

section

variable {g : Geometry} {s : Fs} {slots : ℕ → ℕ → ℕ} {live : ℕ → Prop} {ino k b : ℕ} {inode inode' : Mem} {v : View}

lemma openView_slots (k : ℕ) : (s.openView slots live ino inode).slots ino k = iBlock inode k := by
  simp [Fs.openView, Fs.view]

lemma reach_cons (hk : k < 15) (h0 : v.slots ino k ≠ 0) (q : List ℕ) :
    reach g v ino (k :: q) = walk (refs g v) 1 (.block (slotHeight k) (v.slots ino k)) q := by
  simp [reach, walk, refs_inode 0 hk h0]

lemma reach_entry {i : ℕ} (h0 : v.slots ino 12 ≠ 0) (hi : i < g.ptrs)
    (hp : pointer g v.disk (v.slots ino 12) i ≠ 0) :
    reach g v ino [12, i] = some (.block 0 (pointer g v.disk (v.slots ino 12) i)) := by
  rw [reach_cons (by omega) h0]
  simp [slotHeight, walk, refs_block 1 hi hp]

lemma slot_of_reach {q : List ℕ} {h : ℕ} (hr : reach g v ino (k :: q) = some (.block h b)) :
    v.slots ino k ≠ 0 := by
  intro h0
  simp only [reach, walk, refs_inode_zero 0 h0, Option.bind_none] at hr
  cases hr

lemma mem_slotBlocks (s : Fs) (slots : ℕ → ℕ → ℕ) (live : ℕ → Prop) (ino : ℕ) :
    b ∈ slotBlocks inode (List.range 12) ↔
      ∃ k < 12, ∃ q h, reach g (s.openView slots live ino inode) ino (k :: q) = some (.block h b) := by
  have hslot : ∀ k, (s.openView slots live ino inode).slots ino k = iBlock inode k := openView_slots
  constructor
  · intro hb
    obtain ⟨hb, h0⟩ := mem_filter.mp hb
    obtain ⟨k, hk, rfl⟩ := mem_map.mp hb
    have hk := mem_range.mp hk
    refine ⟨k, hk, [], slotHeight k, ?_⟩
    rw [reach_cons (by omega) (by rw [hslot]; simpa using h0), hslot]
    rfl
  rintro ⟨k, hk, q, h, hr⟩
  have h0 := slot_of_reach hr
  have hheight : slotHeight k = 0 := by
    unfold slotHeight
    omega
  rw [reach_cons (by omega) h0, hslot, hheight] at hr
  rw [hslot] at h0
  cases q with
  | nil =>
    cases hr
    exact mem_filter.mpr
      ⟨mem_map.mpr ⟨k, mem_range.mpr hk, rfl⟩, by simpa using h0⟩
  | cons i q => cases hr

lemma mem_indirectBlocks (slots : ℕ → ℕ → ℕ) (live : ℕ → Prop) (ino : ℕ) : b ∈ indirectBlocks g s.disk inode ↔
    ∃ q h, reach g (s.openView slots live ino inode) ino (12 :: q) = some (.block h b) := by
  have hslot : (s.openView slots live ino inode).slots ino 12 = iBlock inode 12 := openView_slots 12
  constructor
  · intro hb
    by_cases h12 : iBlock inode 12 = 0
    · rw [indirectBlocks, if_pos h12] at hb
      cases hb
    rw [indirectBlocks, if_neg h12] at hb
    rcases mem_append.mp hb with hb | hb
    · obtain ⟨hb, h0⟩ := mem_filter.mp hb
      obtain ⟨i, hi, rfl⟩ := mem_map.mp hb
      have hi := mem_range.mp hi
      rw [entry_eq_pointer _ _ hi] at h0 ⊢
      have h0 : pointer g s.disk (iBlock inode 12) i ≠ 0 := by simpa using h0
      rw [← hslot] at h0 h12 ⊢
      exact ⟨[i], 0, reach_entry h12 hi h0⟩
    · obtain rfl := mem_singleton.mp hb
      refine ⟨[], 1, ?_⟩
      rw [reach_cons (by omega) (by rw [hslot]; exact h12), hslot]
      rfl
  · rintro ⟨q, h, hr⟩
    have h0 := slot_of_reach hr
    rw [reach_cons (by omega) h0, hslot] at hr
    rw [hslot] at h0
    rw [indirectBlocks, if_neg h0]
    cases q with
    | nil =>
      cases hr
      exact mem_append_right _ (mem_singleton_self _)
    | cons i q =>
      simp only [slotHeight, walk] at hr
      obtain ⟨t, ht, hq⟩ := Option.bind_eq_some_iff.mp hr
      obtain ⟨hi, hp, rfl⟩ := refs_block_inv ht
      cases q with
      | nil =>
        cases hq
        refine mem_append_left _ (mem_filter.mpr ⟨?_, by simpa using hp⟩)
        exact mem_map.mpr ⟨i, mem_range.mpr hi, entry_eq_pointer s.disk _ hi⟩
      | cons j q => cases hq

lemma ne_zero_of_mem_ownBlocks {disk : Mem} (hb : b ∈ ownBlocks g disk inode) : b ≠ 0 := by
  rcases mem_append.mp hb with hb | hb
  · simpa using (mem_filter.mp hb).2
  unfold indirectBlocks at hb
  split_ifs at hb with h0
  · cases hb
  rcases mem_append.mp hb with hb | hb
  · simpa using (mem_filter.mp hb).2
  · rw [mem_singleton.mp hb]
    exact h0

/-- The blocks that are given back are those at paths through the first thirteen slots. -/
lemma mem_ownBlocks : b ∈ ownBlocks g s.disk inode ↔
    ∃ k q h, k < 13 ∧ reach g (s.openView slots live ino inode) ino (k :: q) = some (.block h b) := by
  rw [ownBlocks, mem_append, mem_slotBlocks (g := g) s slots live ino, mem_indirectBlocks slots live ino]
  constructor
  · rintro (⟨k, hk, q, h, hr⟩ | ⟨q, h, hr⟩)
    · exact ⟨k, q, h, by omega, hr⟩
    · exact ⟨12, q, h, by omega, hr⟩
  rintro ⟨k, q, h, hk, hr⟩
  by_cases h12 : k = 12
  · exact .inr ⟨q, h, h12 ▸ hr⟩
  · exact .inl ⟨k, by omega, q, h, hr⟩

lemma Emptied.filled (he : Emptied inode inode') : Filled inode' inode where
  header a ha := (he.header a ha).symm
  slots k hk := by
    rw [he.slots k] at hk ⊢
    split_ifs at hk ⊢
    · exact absurd rfl hk
    · rfl

lemma sameRoles_open (hk : ∀ k < 15, iBlock inode k = iBlock (inodeAt g s.disk ino) k) :
    SameRoles g (s.mounted g live) (s.openView (diskSlots g s.disk) live ino inode) := by
  refine sameRoles_of_slots fun n _ k hk15 => ?_
  by_cases hne : n = ino
  · subst hne
    rw [update_self, hk k hk15]
    rfl
  · rw [update_of_ne hne]
    rfl

lemma ownerless_of_emptied (h : Consistent g (s.openView slots live ino inode)) (hlive : live ino)
    (hv : InVolume g (s.openView slots live ino inode)) (he : Emptied inode inode')
    (hb : b ∈ ownBlocks g s.disk inode) : Ownerless g (s.openView slots live ino inode') b := by
  obtain ⟨k, q, m, hk, hr⟩ := mem_ownBlocks.mp hb
  refine ⟨ne_zero_of_mem_ownBlocks hb, hv ino _ m b hlive hr, fun r hrole => ?_⟩
  obtain rfl := h.unique b r _ (hasRole_of_unfilled he.filled hrole) (Consistent.file_role hlive hr)
  obtain ⟨-, m', hm'⟩ := hrole
  have hempty := he.slots k
  rw [if_pos hk] at hempty
  exact slot_of_reach hm' ((openView_slots k).trans hempty)

end

section

variable {g : Geometry} {s : Fs} {live : ℕ → Prop} {ino : ℕ} {inode : Mem}

variable (h : Consistent g (s.mounted g live)) (hn : NoFault s) (hlive : live ino)
  (hv : InVolume g (s.mounted g live)) (hk : ∀ k < 15, iBlock inode k = iBlock (inodeAt g s.disk ino) k)
include h hn hlive hv hk

/-- What `freeBlocks` does to the volume and to the copy of the inode. -/
theorem freeBlocks_spec :
    ∃ inode', freeBlocks g s inode = (inode', freeAll g s (ownBlocks g s.disk inode)) ∧ Emptied inode inode' ∧
      (∀ b ∈ ownBlocks g s.disk inode, Ownerless g (s.openView (diskSlots g s.disk) live ino inode') b) ∧
      Consistent g (s.openView (diskSlots g s.disk) live ino inode') := by
  have hroles : SameRoles g (s.mounted g live) (s.openView (diskSlots g s.disk) live ino inode) :=
    sameRoles_open hk
  have hcons := h.of_disk hroles rfl
  -- the slots are cleared in some copy of the inode
  obtain ⟨empty, -, hheader, hslots⟩ :=
    foldl_freeSlot (g := g) (List.range 13) nodup_range inode s
  have hempty : Emptied inode empty := ⟨hheader, fun k => by simpa using hslots k⟩
  have hown : ∀ b ∈ ownBlocks g s.disk inode, Ownerless g (s.openView (diskSlots g s.disk) live ino empty) b :=
    fun b hb => ownerless_of_emptied hcons hlive (hroles.inVolume hv) hempty hb
  have hcons' := hcons.unfill hempty.filled
  have hdirect := freeAll_released hcons' hn fun b hb => hown b (mem_append_left _ hb)
  have hindirect : iBlock inode 12 ≠ 0 → iBlock inode 12 ∈ ownBlocks g s.disk inode := by
    intro h0
    refine mem_append_right _ ?_
    rw [indirectBlocks, if_neg h0]
    exact mem_append_right _ (mem_singleton_self _)
  obtain ⟨inode', he, hempty'⟩ := freeBlocks_eq hdirect.noFault fun h0 =>
    hdirect.ownerless _ (hown _ (hindirect h0)).noRole
  have hview : s.openView (diskSlots g s.disk) live ino inode' = s.openView (diskSlots g s.disk) live ino empty := by
    have hfun : iBlock inode' = iBlock empty := funext fun k => by rw [hempty'.slots, hempty.slots]
    rw [Fs.openView, Fs.openView, hfun]
  refine ⟨inode', he, hempty', ?_, ?_⟩
  · rw [hview]
    exact hown
  · rw [hview]
    exact hcons'

/-- The blocks of the file are given back and the inode is written. -/
theorem release_spec :
    ∃ inode' s', freeBlocks g s inode = (inode', freeAll g s (ownBlocks g s.disk inode)) ∧ Emptied inode inode' ∧
      writeInode g (freeAll g s (ownBlocks g s.disk inode)) ino (setIBlocks (setISize inode' 0) 0) = (true, s') ∧
      Touched g live {ino} s s' ∧
      inodeAt g s'.disk ino = slice (setIBlocks (setISize inode' 0) 0) 0 128 := by
  obtain ⟨inode', he, hempty, hown, hcons⟩ := freeBlocks_spec h hn hlive hv hk
  have hino := (h.live ino hlive).1
  have hfree := freeAll_released hcons hn hown
  generalize freeAll g s (ownBlocks g s.disk inode) = s1 at he hfree ⊢
  have hin := hfree.grown.inodes
  have hslots : ∀ k < 15, iBlock (setIBlocks (setISize inode' 0) 0) k = iBlock inode' k := by
    intro k _
    rw [iBlock, setIBlocks, readLE_outside _ (by omega), setISize,
      readLE_outside _ (by omega), iBlock]
  obtain ⟨hroles, hcons2, hbytes, hself, hinodes, hbits⟩ := commit_spec (s := s1) hfree.grown.consistent hlive
    (fun n hl _ k _ => congrArg (iBlock · k) (hin n (h.live n hl).2).symm) hslots
  refine ⟨inode', _, he, hempty, writeInode_eq h.inodesFit hfree.noFault hino _, ?_, hself⟩
  refine ⟨⟨hfree.noFault.setDisk _, hcons2, hfree.roles.count, hfree.inodesCount, fun n h0 hne hr => ?_,
    fun n hl hne x => ?_, fun hv => ?_⟩, fun i j hi => ?_⟩
  · exact (hinodes n h0 hne ((hfree.grown.realGroup _).mpr hr)).trans (hin n hr)
  · refine (hbytes n hl x).trans ((hfree.grown.bytes n hl x).trans ?_)
    -- another inode has the slots that it has on disk
    refine fileByte_congr ?_ fun _ b _ => .refl _ b
    apply reach_congr
    · intro k _
      simp only [Fs.mounted, Fs.view]
      rw [update_of_ne hne]
    · intro _ _ b _
      exact .refl _ b
  · refine hroles.inVolume (hfree.grown.inVolume (InVolume.unfill ?_ hempty.filled))
    exact (sameRoles_open hk).inVolume hv
  · exact (hbits i j ((hfree.grown.realGroup i).mpr hi)).trans (hfree.grown.inodeBits i j hi)

end

end AetherOS.Ext2
