import AetherOS.Ext2Writing

/-!
# The inode table

The inodes of all groups form one array. Writing an inode changes it and no other, and
makes the slots of a copy in memory those of the volume. A copy that is not written back
leaves the file as it was: the blocks that were put into its empty slots belong to nobody.
-/
namespace AetherOS.Ext2
open ByteMemory ByteBitmap PointerTree Function Nat

/-- The slots of the inodes on disk. -/
def diskSlots (g : Geometry) (disk : Mem) (n k : ℕ) : ℕ := iBlock (inodeAt g disk n) k

/-- The view of the volume as it is on disk. -/
def Fs.mounted (g : Geometry) (s : Fs) (live : ℕ → Prop) : View := s.view (diskSlots g s.disk) live

section

variable {g : Geometry} {v : View} {ino n : ℕ}

lemma inode_ext (hn : n ≠ 0) (hino : ino ≠ 0)
    (hgroup : inodeGroup g n = inodeGroup g ino) (hindex : inodeIndex g n = inodeIndex g ino) : n = ino := by
  have h1 := div_add_mod (n - 1) g.inodesPerGroup
  have h2 := div_add_mod (ino - 1) g.inodesPerGroup
  unfold inodeGroup at hgroup
  unfold inodeIndex at hindex
  rw [hgroup, hindex] at h1
  omega

lemma same_inode {b : ℕ} (hfit : g.InodesFit) (disk : Mem) (ino : ℕ) (inode : Mem)
    (hb : b ≠ inodeBlock g (bgdAt g disk (inodeGroup g ino)) ino) :
    Same g disk (blit disk 128 (inodeAddr g disk ino) inode) b := by
  have hslot := hfit.slot_le ino
  exact same_blit inode (by unfold inodeAddr; omega) (by unfold inodeAddr; omega) hb

/-- Inodes of the groups `P` share a block only where it is the same block of one table, and no
table has a block of the descriptors. -/
structure InodeTables (g : Geometry) (disk : Mem) (P : ℕ → Prop) : Prop where
  fit : g.InodesFit
  apart : ∀ m n, P (inodeGroup g m) → P (inodeGroup g n) →
    inodeBlock g (bgdAt g disk (inodeGroup g m)) m = inodeBlock g (bgdAt g disk (inodeGroup g n)) n →
    inodeGroup g m = inodeGroup g n ∧ inodeIndex g m / g.inodesPerBlock = inodeIndex g n / g.inodesPerBlock
  descriptors : ∀ n i, P (inodeGroup g n) → P i →
    inodeBlock g (bgdAt g disk (inodeGroup g n)) n ≠ g.bgdBlock + i / g.bgdsPerBlock

lemma Consistent.inodeTables (h : Consistent g v) : InodeTables g v.disk (RealGroup g v) where
  fit := h.inodesFit
  apart m n hm hn hblock := by
    have hrm := h.inodeBlock_role hm
    rw [hblock] at hrm
    have hgroup := Role.inodeTable.inj (h.unique _ _ _ hrm (h.inodeBlock_role hn))
    have hcount := h.blocksCount_lt
    have hbm := h.tables _ _ ⟨hm, inodeIndex g m, h.inodeIndex_lt m, rfl⟩
    have hbn := h.tables _ _ ⟨hn, inodeIndex g n, h.inodeIndex_lt n, rfl⟩
    rw [inodeBlock, inodeBlock, u32, u32, mod_eq_of_lt (by omega), mod_eq_of_lt (by omega), hgroup] at hblock
    exact ⟨hgroup, by omega⟩
  descriptors n i hn hi := h.role_ne (h.inodeBlock_role hn) (Consistent.descriptor_role hi.described) (by simp)

section

variable {disk : Mem} {P : ℕ → Prop} (h : InodeTables g disk P) (hn : n ≠ 0) (hino : ino ≠ 0)
  (hgn : P (inodeGroup g n)) (hgi : P (inodeGroup g ino))
include h hn hino hgn hgi

lemma InodeTables.disjoint (hne : n ≠ ino) (hblock : inodeBlock g (bgdAt g disk (inodeGroup g n)) n =
      inodeBlock g (bgdAt g disk (inodeGroup g ino)) ino) :
    inodeAddr g disk ino + 128 ≤ inodeAddr g disk n ∨ inodeAddr g disk n + 128 ≤ inodeAddr g disk ino := by
  have hmin := h.fit.min
  obtain ⟨hgroup, hquot⟩ := h.apart n ino hgn hgi hblock
  -- the same block of the same table, so another slot
  have hslot : inodeSlot g n ≠ inodeSlot g ino := by
    intro hslot
    apply hne
    apply inode_ext hn hino hgroup
    rw [← div_add_mod (inodeIndex g n) g.inodesPerBlock, ← div_add_mod (inodeIndex g ino) g.inodesPerBlock, hquot]
    unfold inodeSlot at hslot
    rw [hslot]
  have hapart := slots_apart hslot g.inodeSize
  rw [inodeAddr, inodeAddr, hblock]
  omega

/-- The table as an array. -/
lemma InodeTables.inodeAt_blit (inode : Mem) :
    inodeAt g (blit disk 128 (inodeAddr g disk ino) inode) n =
      if n = ino then slice inode 0 128 else inodeAt g disk n := by
  have hsame := fun b => same_inode (b := b) h.fit disk ino inode
  have hbgd := bgdAt_eq_of_same (hsame _ (h.descriptors ino _ hgi hgn).symm)
  have haddr : inodeAddr g (blit disk 128 (inodeAddr g disk ino) inode) n = inodeAddr g disk n := by
    unfold inodeAddr at hbgd ⊢
    rw [hbgd]
  rw [inodeAt, haddr]
  split
  next he => rw [he, slice_blit_self]
  next hne =>
    by_cases hblock : inodeBlock g (bgdAt g disk (inodeGroup g n)) n =
        inodeBlock g (bgdAt g disk (inodeGroup g ino)) ino
    · exact slice_blit_disjoint _ _ (h.disjoint hn hino hgn hgi hne hblock)
    · exact (hsame _ hblock).slice (h.fit.slot_le n)

end

/-- Writing an inode to its table. -/
theorem Consistent.writeInode (h : Consistent g v) (hino : ino ≠ 0)
    (hreal : RealGroup g v (inodeGroup g ino)) (inode : Mem) :
    let disk' := blit v.disk 128 (inodeAddr g v.disk ino) inode
    SameRoles g v { v with disk := disk' } ∧ Consistent g { v with disk := disk' } ∧
      (∀ b r, HasRole g v b r → r ≠ .inodeTable (inodeGroup g ino) → Same g v.disk disk' b) ∧
      inodeAt g disk' ino = slice inode 0 128 ∧
      ∀ n, n ≠ 0 → n ≠ ino → RealGroup g v (inodeGroup g n) → inodeAt g disk' n = inodeAt g v.disk n := by
  intro disk'
  have hrole := h.inodeBlock_role hreal
  have hsame := fun b => same_inode (b := b) h.inodesFit v.disk ino inode
  have hother : ∀ b r, HasRole g v b r → r ≠ .inodeTable (inodeGroup g ino) → Same g v.disk disk' b :=
    fun b r hb hr => hsame b (h.role_ne hb hrole hr)
  obtain ⟨hroles, hcons, -⟩ := h.write disk' hsame
    (fun hd => by cases h.unique _ _ _ hd hrole) (fun i hi => by cases h.unique _ _ _ hi hrole)
    fun n p m hn hp => by cases h.unique _ _ _ (Consistent.file_role hn hp) hrole
  refine ⟨hroles, hcons, hother, ?_, fun n hn hne hgn => ?_⟩
  · rw [h.inodeTables.inodeAt_blit hino hino hreal hreal, if_pos rfl]
  · rw [h.inodeTables.inodeAt_blit hn hino hgn hreal, if_neg hne]

end

section

variable {g : Geometry} {s : Fs} {slots : ℕ → ℕ → ℕ} {live : ℕ → Prop} {ino b n : ℕ} {inode inode' : Mem} {v : View}

lemma iBlock_slice {k : ℕ} (hk : k < 15) (inode : Mem) : iBlock (slice inode 0 128) k = iBlock inode k := by
  rw [iBlock, readLE_slice _ (by omega), zero_add]
  rfl

/-- The copy in memory becomes the inode on disk. -/
theorem commit_spec (h : Consistent g (s.openView slots live ino inode)) (hlive : live ino)
    (hslots : ∀ n, live n → n ≠ ino → ∀ k < 15, slots n k = diskSlots g s.disk n k)
    (hk : ∀ k < 15, iBlock inode' k = iBlock inode k) :
    let s' := { s with disk := blit s.disk 128 (inodeAddr g s.disk ino) inode' }
    SameRoles g (s.openView slots live ino inode) (s'.mounted g live) ∧ Consistent g (s'.mounted g live) ∧
      (∀ n, live n → ∀ x, fileByte g (s'.mounted g live) n x = fileByte g (s.openView slots live ino inode) n x) ∧
      inodeAt g s'.disk ino = slice inode' 0 128 ∧
      (∀ n, n ≠ 0 → n ≠ ino → RealGroup g (s.openView slots live ino inode) (inodeGroup g n) →
        inodeAt g s'.disk n = inodeAt g s.disk n) ∧
      ∀ i j, RealGroup g (s.openView slots live ino inode) i → inodeBit g s'.disk i j = inodeBit g s.disk i j := by
  intro s'
  obtain ⟨hino, hreal⟩ := h.live ino hlive
  obtain ⟨hroles, hcons, hother, hself, hinodes⟩ := h.writeInode hino hreal inode'
  have hself' : inodeAt g s'.disk ino = slice inode' 0 128 := hself
  -- the slots on disk are those of the view
  have hroles' : SameRoles g { s.openView slots live ino inode with disk := s'.disk } (s'.mounted g live) := by
    refine sameRoles_of_slots fun n hn k hk15 => ?_
    by_cases hne : n = ino
    · subst hne
      simp only [Fs.view, Fs.openView, diskSlots, update_self]
      rw [hself', iBlock_slice hk15, hk k hk15]
    obtain ⟨hn0, hgn⟩ := h.live n hn
    have hkeep : inodeAt g s'.disk n = inodeAt g s.disk n := hinodes n hn0 hne hgn
    simp only [Fs.view, Fs.openView, update_of_ne hne]
    rw [hslots n hn hne k hk15, diskSlots, diskSlots, hkeep]
  have hboth := hroles.trans hroles'
  refine ⟨hboth, ?_, fun n hn x => ?_, hself', hinodes, fun i j hi => ?_⟩
  · exact hcons.of_disk hroles' rfl
  · exact fileByte_congr (hboth.reach hn _) fun m b hb => hother b _ (Consistent.file_role hn hb) (by simp)
  · exact inodeBit_congr (hroles.groups i hi).inodeBitmap
      (hother _ _ (Consistent.inodeBitmap_role hi) (by simp))

lemma walk_block_congr {v' : View} (hd : v'.disk = v.disk) (q : List ℕ) (l h b : ℕ) :
    walk (refs g v') l (.block h b) q = walk (refs g v) l (.block h b) q := by
  induction q generalizing l h b with
  | nil => rfl
  | cons i q ih =>
    cases h with
    | zero => rfl
    | succ h =>
      simp only [walk, refs, hd]
      split
      · exact ih _ _ _
      · rfl

section

variable (hf : Filled inode inode')
include hf

lemma reach_unfilled (k : ℕ) (q : List ℕ) :
    reach g (s.openView slots live ino inode) ino (k :: q) = if iBlock inode k = 0 then none
      else reach g (s.openView slots live ino inode') ino (k :: q) := by
  have hslot : ∀ x, (s.openView slots live ino x).slots ino k = iBlock x k := by
    intro x
    simp [Fs.openView, Fs.view]
  by_cases h0 : iBlock inode k = 0
  · rw [if_pos h0]
    simp [reach, walk, refs_inode_zero 0 ((hslot inode).trans h0), Option.bind_none]
  rw [if_neg h0]
  simp only [reach, walk, refs, hslot, hf.slots k h0]
  split
  · simp only [Option.bind_some]
    apply walk_block_congr
    rfl
  · rfl

lemma reach_of_unfilled {p : List ℕ} {h : ℕ}
    (hr : reach g (s.openView slots live ino inode) n p = some (.block h b)) :
    reach g (s.openView slots live ino inode') n p = some (.block h b) := by
  by_cases hn : n = ino
  · subst hn
    cases p with
    | nil => cases hr
    | cons k q =>
      rw [reach_unfilled hf] at hr
      split at hr
      · cases hr
      · exact hr
  rw [← hr]
  apply reach_congr
  · intro k _
    simp [Fs.openView, Fs.view, update_of_ne hn]
  · intro _ _ c _
    exact .refl _ c

lemma hasRole_of_unfilled {r : Role}
    (hb : HasRole g (s.openView slots live ino inode) b r) : HasRole g (s.openView slots live ino inode') b r := by
  cases r with
  | super | descriptors | blockBitmap i | inodeBitmap i | inodeTable i => exact hb
  | file n p =>
    obtain ⟨hn, m, hm⟩ := hb
    exact ⟨hn, m, reach_of_unfilled hf hm⟩

end

/-- A copy of an inode is dropped: the blocks in its filled slots lose their role. -/
theorem Consistent.unfill (h : Consistent g (s.openView slots live ino inode')) (hf : Filled inode inode') :
    Consistent g (s.openView slots live ino inode) :=
  h.of_hasRole h.live fun _ _ => hasRole_of_unfilled hf

lemma InVolume.unfill (h : InVolume g (s.openView slots live ino inode')) (hf : Filled inode inode') :
    InVolume g (s.openView slots live ino inode) :=
  fun n p m b hn hb => h n p m b hn (reach_of_unfilled hf hb)

/-- A byte that the view with the filled slots has in common with an earlier one stays when
the copy is dropped. -/
lemma fileByte_unfill (hf : Filled inode inode') (hslots : ∀ k < 15, v.slots ino k = iBlock inode k)
    {x : ℕ} (hx : fileByte g (s.openView slots live ino inode') n x = fileByte g v n x) :
    fileByte g (s.openView slots live ino inode) n x = fileByte g v n x := by
  by_cases hni : n = ino
  · subst hni
    obtain ⟨k, q, hp⟩ : ∃ k q, pathOf g (x / g.blockSize) = k :: q := by
      unfold pathOf
      simp only
      split_ifs
      all_goals exact ⟨_, _, rfl⟩
    have hun : reach g (s.openView slots live n inode) n (k :: q) = _ := reach_unfilled hf k q
    by_cases h0 : iBlock inode k = 0
    · rw [if_pos h0, ← hp] at hun
      have hold : reach g v n (pathOf g (x / g.blockSize)) = none := by
        rw [hp]
        by_cases hk : k < 15
        · simp only [reach, walk, refs_inode_zero 0 ((hslots k hk).trans h0), Option.bind_none]
        · simp [reach, walk, refs, if_neg fun hc : k < 15 ∧ _ => hk hc.1, Option.bind_none]
      rw [fileByte_of_none hun, fileByte_of_none hold]
    · rw [if_neg h0, ← hp] at hun
      rw [← hx]
      exact fileByte_congr hun fun _ b _ => .refl _ b
  · rw [← hx]
    refine fileByte_congr ?_ fun _ b _ => .refl _ b
    apply reach_congr
    · intro k _
      simp [Fs.openView, Fs.view, update_of_ne hni]
    · intro _ _ c _
      exact .refl _ c

end

end AetherOS.Ext2
