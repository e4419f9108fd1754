import AetherOS.Ext2NameLaws

/-!
# The storage of a file

`ext2_truncate`, and `ext2_unlink` for the last link, give back the direct blocks and those
behind the indirect block: their bits are cleared, and they are counted as free. The blocks
behind the doubly indirect block, which `ext2_write` fills, are not looked at.
-/
namespace AetherOS.Ext2
open ByteMemory ByteBitmap PointerTree FreeCounts List Nat

section

variable (g : Geometry)

/-- The bit of a block in the bitmap of its group. -/
def blockMarked (disk : Mem) (b : ℕ) : Bool :=
  blockBit g disk ((b - g.firstDataBlock) / g.blocksPerGroup) ((b - g.firstDataBlock) % g.blocksPerGroup)

/-- The free blocks are counted right. -/
def BlocksBooked (s : Fs) : Prop := Balanced (blockShape g (sBlocksCount s.sb)) (blockLedger g s)

/-- The blocks that can be reached from an inode. -/
def fileBlocks (s : Fs) (n : ℕ) : Set ℕ :=
  {b | ∃ p t, reach g (s.mounted g (InUse g s)) n p = some (.block t b)}

/-- The storage of file `n` was given back. -/
structure Returned (n : ℕ) (s s' : Fs) : Prop where
  clear : ∀ b ∈ fileBlocks g s n, blockMarked g s'.disk b = false
  count : sFreeBlocksCount s'.sb = sFreeBlocksCount s.sb + (fileBlocks g s n).ncard
  empty : ∀ k < 15, iBlock (inodeAt g s'.disk n) k = 0

/-- Of the blocks that exist, those in `bs` were given back and no others. -/
structure GivenBack (bs : List ℕ) (s s' : Fs) : Prop where
  blocksCount : sBlocksCount s'.sb = sBlocksCount s.sb
  booked : BlocksBooked g s'
  total : sFreeBlocksCount s'.sb = sFreeBlocksCount s.sb + bs.length
  clear : ∀ b ∈ bs, blockMarked g s'.disk b = false
  others : ∀ b, b ≠ 0 → b < sBlocksCount s.sb → b ∉ bs → blockMarked g s'.disk b = blockMarked g s.disk b

end

section

variable {g : Geometry} {s s' s'' : Fs} {slots : ℕ → ℕ → ℕ} {live : ℕ → Prop} {b c i j : ℕ} {bs : List ℕ}

lemma blockMarked_number (hj : j < g.blocksPerGroup) (disk : Mem) :
    blockMarked g disk (blockNumber g i j) = blockBit g disk i j := by
  have hidx : blockNumber g i j - g.firstDataBlock = g.blocksPerGroup * i + j := by
    rw [blockNumber, mul_comm]
    omega
  rw [blockMarked, hidx, mul_add_div (by omega), div_eq_of_lt hj, add_zero, mul_add_mod,
    mod_eq_of_lt hj]

lemma Consistent.marked (h : Consistent g (s.view slots live)) (h0 : b ≠ 0) (hlt : b < sBlocksCount s.sb)
    {r : Role} (hr : HasRole g (s.view slots live) b r) : blockMarked g s.disk b = true := by
  obtain ⟨i, j, hj, rfl, hreal⟩ := h.number h0 hlt
  rw [blockMarked_number hj]
  by_contra hclear
  exact (h.free i j hreal hj (Bool.not_eq_true _ ▸ hclear)).2 r hr

lemma GivenBack.nil (hb : BlocksBooked g s) : GivenBack g [] s s :=
  ⟨rfl, hb, rfl, fun _ hc => absurd hc not_mem_nil, fun _ _ _ _ => rfl⟩

lemma GivenBack.cons (h : GivenBack g [b] s s') (h' : GivenBack g bs s' s'') (hb0 : b ≠ 0)
    (hlt : b < sBlocksCount s.sb) (hb : b ∉ bs) : GivenBack g (b :: bs) s s'' where
  blocksCount := h'.blocksCount.trans h.blocksCount
  booked := h'.booked
  total := by
    rw [h'.total, h.total]
    simp only [length_cons, length_nil]
    omega
  clear c hc := by
    rcases mem_cons.mp hc with rfl | hc
    · rw [h'.others c hb0 (h.blocksCount ▸ hlt) hb]
      exact h.clear c (mem_singleton_self c)
    · exact h'.clear c hc
  others c h0 hc hnot := by
    obtain ⟨hcb, hcbs⟩ := not_or.mp fun hm => hnot (mem_cons.mpr hm)
    rw [h'.others c h0 (h.blocksCount ▸ hc) hcbs, h.others c h0 hc fun hm => hcb (mem_singleton.mp hm)]

lemma GivenBack.agree (h : GivenBack g bs s s') (hc : Consistent g (s'.view slots live))
    (hcount : sBlocksCount s''.sb = sBlocksCount s'.sb) (hbs : ∀ b ∈ bs, b ≠ 0 ∧ b < sBlocksCount s.sb)
    (ha : Agree (blockShape g (sBlocksCount s'.sb)) (blockLedger g s') (blockLedger g s'')) :
    GivenBack g bs s s'' := by
  have hmarked : ∀ b, b ≠ 0 → b < sBlocksCount s.sb → blockMarked g s''.disk b = blockMarked g s'.disk b := by
    intro b h0 hlt
    obtain ⟨i, j, hj, rfl, hreal⟩ := hc.number h0 (h.blocksCount ▸ hlt)
    rw [blockMarked_number hj, blockMarked_number hj]
    exact ha.bits i j hreal (lt_of_lt_of_le hj hc.blocksPerGroup_le)
  refine ⟨hcount.trans h.blocksCount, ?_, ha.total.trans h.total, fun b hb => ?_, fun b h0 hlt hb => ?_⟩
  · rw [BlocksBooked, hcount]
    exact ha.balanced h.booked
  · rw [hmarked b (hbs b hb).1 (hbs b hb).2, h.clear b hb]
  · rw [hmarked b h0 hlt, h.others b h0 hlt hb]

lemma freeBlock_givenBack (h : Consistent g (s.view slots live)) (hn : NoFault s) (hb : BlocksBooked g s)
    (hc : Ownerless g (s.view slots live) c) (hset : blockMarked g s.disk c = true) :
    GivenBack g [c] s (freeBlock g s c) := by
  obtain ⟨i, j, hj, rfl, hreal⟩ := h.number hc.ne_zero hc.lt
  rw [blockMarked_number hj] at hset
  have hbook := freeBlock_booking h hn hb hj hc.lt hset
  have hle := h.blocksPerGroup_le
  refine ⟨hbook.blocksCount.symm, hbook.taken.balanced_iff.mp (hb.of_eq (hbook.shape .block).symm),
    hbook.taken.total.symm, fun b hb => ?_, fun b h0 hlt hb => ?_⟩
  · rw [mem_singleton.mp hb, blockMarked_number hj]
    exact hbook.taken.clear
  obtain ⟨m, k, hk, rfl, hm⟩ := h.number h0 hlt
  rw [blockMarked_number hk, blockMarked_number hk]
  refine (hbook.taken.others m k ?_ (lt_of_lt_of_le hk hle) fun he => hb ?_).symm
  · rw [← hbook.shape .block]
    exact hm
  · cases he
    exact mem_singleton_self _

/-- Marked blocks that belong to nobody are given back one after the other. -/
theorem freeAll_givenBack (h : Consistent g (s.view slots live)) (hn : NoFault s) (hb : BlocksBooked g s)
    (hnodup : bs.Nodup) (hown : ∀ b ∈ bs, Ownerless g (s.view slots live) b)
    (hset : ∀ b ∈ bs, blockMarked g s.disk b = true) : GivenBack g bs s (freeAll g s bs) := by
  induction bs generalizing s with
  | nil => exact GivenBack.nil hb
  | cons b bs ih =>
    obtain ⟨hnot, hnodup⟩ := nodup_cons.mp hnodup
    have hob := hown b mem_cons_self
    have hrel := freeBlock_released h hn hob
    have hgiven := freeBlock_givenBack h hn hb hob (hset b mem_cons_self)
    refine hgiven.cons (ih hrel.grown.consistent hrel.noFault hgiven.booked hnodup (fun c hc => ?_) fun c hc => ?_)
      hob.ne_zero hob.lt hnot
    · exact Ownerless.keep hrel (hown c (mem_cons_of_mem b hc))
    have hoc := hown c (mem_cons_of_mem b hc)
    rw [hgiven.others c hoc.ne_zero hoc.lt fun hm => hnot (mem_singleton.mp hm ▸ hc)]
    exact hset c (mem_cons_of_mem b hc)

end

section

variable {g : Geometry} {s s' : Fs} {n b : ℕ} {inode inode' : Mem}

lemma nodup_filter_map {l : List ℕ} {f : ℕ → ℕ} (hl : l.Nodup)
    (hinj : ∀ i ∈ l, ∀ j ∈ l, f i ≠ 0 → f i = f j → i = j) : ((l.map f).filter (· ≠ 0)).Nodup := by
  rw [filter_map]
  refine (hl.filter _).map_on fun i hi j hj he => ?_
  obtain ⟨hi, h0⟩ := mem_filter.mp hi
  exact hinj i hi j (mem_filter.mp hj).1 (by simpa using h0) he

lemma Consistent.path_unique {v : View} (h : Consistent g v) (hn : v.live n) {p q : List ℕ} {t t' : ℕ}
    (hp : reach g v n p = some (.block t b)) (hq : reach g v n q = some (.block t' b)) : p = q :=
  (Role.file.inj (h.unique b _ _ (Consistent.file_role hn hp) (Consistent.file_role hn hq))).2

lemma ownBlocks_nodup {slots : ℕ → ℕ → ℕ} {live : ℕ → Prop} (h : Consistent g (s.openView slots live n inode))
    (hn : live n) : (ownBlocks g s.disk inode).Nodup := by
  let v := s.openView slots live n inode
  have hslot : ∀ k, v.slots n k = iBlock inode k := openView_slots
  have hdirect : ∀ k < 12, iBlock inode k ≠ 0 → reach g v n [k] = some (.block (slotHeight k) (iBlock inode k)) := by
    intro k hk h0
    rw [reach_cons (by omega) (by rw [hslot]; exact h0), hslot]
    rfl
  refine nodup_append.mpr ⟨nodup_filter_map nodup_range fun i hi j hj h0 he => ?_, ?_, fun b hb c hc hbc => ?_⟩
  · have hpi := hdirect i (mem_range.mp hi) h0
    have hpj := hdirect j (mem_range.mp hj) (he ▸ h0)
    rw [← he] at hpj
    exact head_eq_of_cons_eq (h.path_unique hn hpi hpj)
  · rw [indirectBlocks]
    split_ifs with h12
    · exact nodup_nil
    have hentry : ∀ i < g.ptrs, pointer g s.disk (iBlock inode 12) i ≠ 0 →
        reach g v n [12, i] = some (.block 0 (pointer g s.disk (iBlock inode 12) i)) := by
      intro i hi h0
      rw [← hslot] at h12 h0 ⊢
      exact reach_entry h12 hi h0
    refine nodup_append.mpr ⟨nodup_filter_map nodup_range fun i hi j hj h0 he => ?_,
      nodup_singleton _, fun b hb c hc hbc => ?_⟩
    · have hi := mem_range.mp hi
      have hj := mem_range.mp hj
      rw [entry_eq_pointer _ _ hi] at h0 he
      rw [entry_eq_pointer _ _ hj] at he
      have hpi := hentry i hi h0
      have hpj := hentry j hj (he ▸ h0)
      rw [← he] at hpj
      exact head_eq_of_cons_eq (tail_eq_of_cons_eq (h.path_unique hn hpi hpj))
    obtain ⟨hb, h0⟩ := mem_filter.mp hb
    obtain ⟨i, hi, rfl⟩ := mem_map.mp hb
    have hi := mem_range.mp hi
    rw [entry_eq_pointer _ _ hi] at h0 hbc
    have hpi := hentry i hi (by simpa using h0)
    have hself : reach g v n [12] = some (.block 1 (iBlock inode 12)) := by
      rw [reach_cons (by omega) (by rw [hslot]; exact h12), hslot]
      rfl
    rw [hbc, mem_singleton.mp hc] at hpi
    cases h.path_unique hn hpi hself
  · subst hbc
    obtain ⟨k, hk, q, t, hq⟩ := (mem_slotBlocks s slots live n).mp hb
    obtain ⟨q', t', hq'⟩ := (mem_indirectBlocks slots live n).mp hc
    have := head_eq_of_cons_eq (h.path_unique hn hq hq')
    omega

/-- The blocks of the file are given back and the inode is written. -/
theorem Intact.release_givenBack (h : Intact g s) (hu : InUse g s n) (hb : BlocksBooked g s)
    (hk : ∀ k < 15, iBlock inode k = iBlock (inodeAt g s.disk n) k)
    (hw : writeInode g (freeAll g s (ownBlocks g s.disk inode)) n inode' = (true, s')) :
    GivenBack g (ownBlocks g s.disk inode) s s' := by
  obtain ⟨empty, -, -, hown, hcons⟩ := freeBlocks_spec h.consistent h.noFault hu h.inVolume hk
  have hroles : SameRoles g (s.mounted g (InUse g s)) (s.openView (diskSlots g s.disk) (InUse g s) n inode) :=
    sameRoles_open hk
  have hopen := h.consistent.of_disk hroles rfl
  have hrel := freeAll_released hcons h.noFault hown
  have hset : ∀ b ∈ ownBlocks g s.disk inode, blockMarked g s.disk b = true := by
    intro b hb
    obtain ⟨k, q, t, -, hr⟩ : ∃ k q t, k < 13 ∧
        reach g (s.openView (diskSlots g s.disk) (InUse g s) n inode) n (k :: q) = some (.block t b) :=
      mem_ownBlocks.mp hb
    exact hopen.marked (hown b hb).ne_zero (hown b hb).lt (Consistent.file_role hu hr)
  have hgiven := freeAll_givenBack hcons h.noFault hb (ownBlocks_nodup hopen hu) hown hset
  obtain ⟨hn0, hreal⟩ := hrel.grown.consistent.live n hu
  rw [writeInode_eq h.consistent.inodesFit hrel.noFault hn0] at hw
  obtain ⟨-, rfl⟩ := Prod.mk.inj hw
  obtain ⟨-, -, hother, -, -⟩ := hrel.grown.consistent.writeInode hn0 hreal inode'
  refine hgiven.agree hrel.grown.consistent rfl (fun b hb => ⟨(hown b hb).ne_zero, (hown b hb).lt⟩) ?_
  exact agree_disk (k := .block) placed_block (fun b hb => hother b _ hb (by simp)) fun m b hb =>
    hother b _ hb (by simp [Kind.role])

lemma ownBlocks_congr {disk : Mem} (hk : ∀ k < 15, iBlock inode k = iBlock inode' k) :
    ownBlocks g disk inode = ownBlocks g disk inode' := by
  have hmap : (List.range 12).map (iBlock inode) = (List.range 12).map (iBlock inode') :=
    map_congr_left fun k hk12 => hk k (by rw [mem_range] at hk12; omega)
  rw [ownBlocks, ownBlocks, slotBlocks, slotBlocks, indirectBlocks, indirectBlocks, hmap, hk 12 (by omega)]

lemma mem_ownBlocks_mounted (live : ℕ → Prop) : b ∈ ownBlocks g s.disk (inodeAt g s.disk n) ↔
    ∃ k q t, k < 13 ∧ reach g (s.mounted g live) n (k :: q) = some (.block t b) := by
  have hview : s.openView (diskSlots g s.disk) live n (inodeAt g s.disk n) = s.mounted g live := openView_inodeAt
  rw [← hview]
  exact mem_ownBlocks

lemma fileBlocks_eq (h13 : iBlock (inodeAt g s.disk n) 13 = 0) (h14 : iBlock (inodeAt g s.disk n) 14 = 0) :
    fileBlocks g s n = {b | b ∈ ownBlocks g s.disk (inodeAt g s.disk n)} := by
  ext b
  change _ ↔ b ∈ ownBlocks g s.disk (inodeAt g s.disk n)
  rw [mem_ownBlocks_mounted (InUse g s)]
  constructor
  · rintro ⟨p, t, hp⟩
    cases p with
    | nil => cases hp
    | cons k q =>
      have h0 : iBlock (inodeAt g s.disk n) k ≠ 0 := slot_of_reach hp
      have hk : k < 15 := (height_of_reach hp).1
      have hk13 : k ≠ 13 := fun he => h0 (he ▸ h13)
      have hk14 : k ≠ 14 := fun he => h0 (he ▸ h14)
      exact ⟨k, q, t, by omega, hp⟩
  · rintro ⟨k, q, t, -, hp⟩
    exact ⟨k :: q, t, hp⟩

/-- What was given back is all of the storage, unless there is a doubly indirect block. -/
theorem returned_iff (h : Intact g s) (hu : InUse g s n)
    (hgiven : GivenBack g (ownBlocks g s.disk (inodeAt g s.disk n)) s s')
    (hslots : ∀ k < 15, iBlock (inodeAt g s'.disk n) k = if k < 13 then 0 else iBlock (inodeAt g s.disk n) k) :
    Returned g n s s' ↔ iBlock (inodeAt g s.disk n) 13 = 0 ∧ iBlock (inodeAt g s.disk n) 14 = 0 := by
  constructor
  · intro hr
    have h13 := (hslots 13 (by omega)).symm.trans (hr.empty 13 (by omega))
    have h14 := (hslots 14 (by omega)).symm.trans (hr.empty 14 (by omega))
    exact ⟨h13, h14⟩
  rintro ⟨h13, h14⟩
  have hblocks := fileBlocks_eq h13 h14
  have hnodup : (ownBlocks g s.disk (inodeAt g s.disk n)).Nodup :=
    ownBlocks_nodup (openView_inodeAt ▸ h.consistent) hu
  refine ⟨fun b hb => ?_, ?_, fun k hk => ?_⟩
  · rw [hblocks] at hb
    exact hgiven.clear b hb
  · rw [hgiven.total, hblocks, ← coe_toFinset, Set.ncard_coe_finset, toFinset_card_of_nodup hnodup]
  rw [hslots k hk]
  split_ifs with h
  · rfl
  obtain rfl | rfl : k = 13 ∨ k = 14 := by omega
  · exact h13
  · exact h14

end

section

variable {g : Geometry} {s s' : Fs} {d n : ℕ} {ps : List Name} {c : Name}

lemma ext2Truncate_givenBack (h : Intact g s) (hu : InUse g s n) (hb : BlocksBooked g s)
    (he : ext2Truncate g s n = (true, s')) :
    GivenBack g (ownBlocks g s.disk (inodeAt g s.disk n)) s s' ∧
      ∀ k < 15, iBlock (inodeAt g s'.disk n) k = if k < 13 then 0 else iBlock (inodeAt g s.disk n) k := by
  obtain ⟨inode', s1, hfree, -, hw, -, hslots, -⟩ := h.release hu fun k _ => rfl
  have hcall : ext2Truncate g s n = (true, s1) := by
    by_cases h2 : n < 2
    · rw [ext2Truncate, if_pos h2] at he
      cases he
    · rw [ext2Truncate, if_neg h2]
      simp [h.readInode_eq hu.ne_zero, hfree, hw]
  obtain ⟨-, rfl⟩ := Prod.mk.inj (hcall.symm.trans he)
  exact ⟨h.release_givenBack hu hb (fun k _ => rfl) hw, hslots⟩

lemma dirRemoveEntry_agree (h : Intact g s) (hu : InUse g s d) {ok : Bool}
    (he : dirRemoveEntry g s d c = (ok, s')) : sBlocksCount s'.sb = sBlocksCount s.sb ∧
      Agree (blockShape g (sBlocksCount s.sb)) (blockLedger g s) (blockLedger g s') := by
  simp only [dirRemoveEntry, h.readInode_eq hu.ne_zero, request_eq h.noFault,
    if_true] at he
  have hloop := editLoop_cases (g := g) h.noFault (removeInBlock · g.blockSize (c.take (c.length % 256)) 0)
      (inodeAt g s.disk d) 12 0
  rw [← removeLoop_eq] at hloop
  rcases hloop with hz | ⟨k, blk, hk, h0, -, hrem⟩
  · obtain ⟨-, rfl⟩ := Prod.mk.inj (hz.symm.trans he)
    exact ⟨rfl, .refl _⟩
  obtain ⟨-, rfl⟩ := Prod.mk.inj (hrem.symm.trans he)
  have hrole := Consistent.file_role hu (reach_slot (by omega) h0)
  have hother : ∀ r, r ≠ .file d (pathOf g k) →
      ¬HasRole g (s.mounted g (InUse g s)) (iBlock (inodeAt g s.disk d) k) r :=
    fun r hr hc => hr (h.consistent.unique _ _ _ hc hrole)
  exact ⟨rfl, agree_write (k := .block) placed_block (fun b hb => same_writeBlock blk hb)
    (hother _ (by simp)) fun m => hother _ (by simp [Kind.role])⟩

lemma ext2Unlink_givenBack (h : Sound g s) (hb : BlocksBooked g s) (hps : ∀ x ∈ ps, Component x) (hc : Component c)
    (hd : resolve g s.disk ps = some d) (hdir : IsDir g s d) (hn : child g s.disk d c = some n) (hnd : n ≠ d)
    (hlinks : iLinksCount (inodeAt g s.disk n) ≤ 1) (he : ext2Unlink g s (pathString (ps ++ [c])) = (true, s')) :
    GivenBack g (ownBlocks g s.disk (inodeAt g s.disk n)) s s' := by
  have hu := (h.target hdir hn).inUse
  have hslots : ∀ k < 15, iBlock (oneLess (inodeAt g s.disk n)) k = iBlock (inodeAt g s.disk n) k :=
    fun k _ => iBlock_oneLess _ k
  obtain ⟨inode', s1, hfree, -, hw, ht, -, -⟩ := h.toIntact.release hu hslots
  have hdrop := dropLink_spec h.toIntact hu
  rw [ext2Unlink_eq h hps hc hd hdir hn] at he
  rw [dropLink_last hlinks hfree hw] at he hdrop
  have h1 := h.toIntact.touched ht
  have hgiven := h.toIntact.release_givenBack hu hb hslots hw
  rw [ownBlocks_congr hslots] at hgiven
  have hbs : ∀ b ∈ ownBlocks g s.disk (inodeAt g s.disk n), b ≠ 0 ∧ b < sBlocksCount s.sb := by
    intro b hb
    obtain ⟨k, q, t, -, hp⟩ := (mem_ownBlocks_mounted (InUse g s)).mp hb
    exact ⟨ne_zero_of_mem_ownBlocks hb, h.inVolume n _ t b hu hp⟩
  -- giving back the inode is another book
  have hfreed : GivenBack g (ownBlocks g s.disk (inodeAt g s.disk n)) s (freeInode g s1 n) := by
    by_cases h2 : 2 ≤ n
    · rw [freeInode_eq h1.noFault h2]
      have hle : n ≤ sInodesCount s1.sb := ht.inodesCount ▸ hu.le
      have hkind : Kind.block ≠ Kind.inode := by decide
      exact hgiven.agree h1.consistent mark_blocksCount hbs
        (mark_other h1.consistent (h1.real _ hu.ne_zero hle).1 placed_block hkind)
    · have hkeep : freeInode g s1 n = s1 := if_pos (by omega)
      rw [hkeep]
      exact hgiven
  obtain ⟨hcount, hagree⟩ := dirRemoveEntry_agree hdrop.intact ((hdrop.inUse d hnd.symm).mpr hdir.inUse) he
  exact hfreed.agree hdrop.intact.consistent hcount hbs hagree

end

lemma booked_fileVolume : BlocksBooked smallGeometry (fileVolume [104, 105]) :=
  ⟨by decide, by decide +kernel, by decide +kernel⟩

/-- The file after a byte was written behind the blocks of its indirect block. -/
def largeFile : Fs := (ext2Write smallGeometry (fileVolume [104, 105]) 3 (268 * 1024) [1]).2

lemma sound_largeFile : Sound smallGeometry largeFile ∧ InUse smallGeometry largeFile 3 := by
  obtain ⟨r, s', he, hc⟩ := ext2Write_fileChanged fileTree_text.toSound inUse_fileVolume
    (show isDir (inodeAt smallGeometry (fileVolume [104, 105]).disk 3) = false by decide +kernel) (268 * 1024) [1]
  rw [largeFile, he]
  exact ⟨hc.sound, hc.inUse ▸ inUse_fileVolume⟩

end AetherOS.Ext2
