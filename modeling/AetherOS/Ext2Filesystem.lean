import AetherOS.Ext2Paths
import AetherOS.Ext2DirMap

/-!
# Sound filesystems

The inodes in use are those whose bit is set. A sound filesystem is a consistent volume
for them whose directories are well formed and refer to files and directories in use. The
operations on inodes keep the volume intact; what they do to the directories is put
together from what they do to the entries.
-/
namespace AetherOS.Ext2
open ByteMemory ByteBitmap PointerTree

/-- The inode exists and is marked as used. -/
structure InUse (g : Geometry) (s : Fs) (n : ℕ) : Prop where
  ne_zero : n ≠ 0
  le : n ≤ sInodesCount s.sb
  bit : inodeBit g s.disk (inodeGroup g n) (inodeIndex g n) = true

/-- Byte `x` of a file. -/
def byteAt (g : Geometry) (s : Fs) (n x : ℕ) : UInt8 := fileByte g (s.mounted g fun _ => True) n x

/-- The inodes in `P` and their files are the same in both volumes. -/
structure Unchanged (g : Geometry) (P : ℕ → Prop) (s s' : Fs) : Prop where
  inodes : ∀ n, P n → inodeAt g s'.disk n = inodeAt g s.disk n
  bytes : ∀ n, P n → ∀ x, byteAt g s' n x = byteAt g s n x

/-- The file of inode `n` has the same blocks and the same bytes. -/
structure SameFile (g : Geometry) (n : ℕ) (s s' : Fs) : Prop where
  slots : ∀ k < 15, iBlock (inodeAt g s'.disk n) k = iBlock (inodeAt g s.disk n) k
  bytes : ∀ x, byteAt g s' n x = byteAt g s n x

/-- A consistent volume for the inodes in use, without device or memory failures. -/
structure Intact (g : Geometry) (s : Fs) : Prop where
  noFault : NoFault s
  maps : InodeMaps g s
  consistent : Consistent g (s.mounted g (InUse g s))
  inVolume : InVolume g (s.mounted g (InUse g s))

/-- A well-formed directory. -/
structure GoodDir (g : Geometry) (disk : Mem) (d : ℕ) : Prop where
  chains : DirChains g disk (inodeAt g disk d)
  noHoles : NoHoles (inodeAt g disk d)
  names : ((entriesOf g disk d).map Prod.fst).Nodup

/-- The directories in use. -/
structure IsDir (g : Geometry) (s : Fs) (d : ℕ) : Prop where
  inUse : InUse g s d
  dir : isDir (inodeAt g s.disk d) = true

/-- What an entry may refer to: a directory or a regular file in use. -/
structure Target (g : Geometry) (s : Fs) (n : ℕ) : Prop where
  inUse : InUse g s n
  kind : isDir (inodeAt g s.disk n) = true ∨ isReg (inodeAt g s.disk n) = true

/-- A sound filesystem. The first inode is reserved and never given back. -/
structure Sound (g : Geometry) (s : Fs) : Prop extends Intact g s where
  reserved : InUse g s 1
  root : IsDir g s 2
  dirs : ∀ d, IsDir g s d → GoodDir g s.disk d
  entries : ∀ d, IsDir g s d → ∀ e ∈ entriesOf g s.disk d, Target g s e.2

section

variable {g : Geometry} {P Q : ℕ → Prop} {live : ℕ → Prop} {D : Set ℕ} {s s' s'' : Fs} {n : ℕ} {name : Name}

lemma byteAt_eq (live : ℕ → Prop) (n x : ℕ) : byteAt g s n x = fileByte g (s.mounted g live) n x := rfl

lemma Intact.readInode_eq (h : Intact g s) (h0 : n ≠ 0) : readInode g s n = (some (inodeAt g s.disk n), s) :=
  Ext2.readInode_eq h.consistent.inodesFit h.noFault h0

lemma Unchanged.refl (P : ℕ → Prop) (s : Fs) : Unchanged g P s s := ⟨fun _ _ => rfl, fun _ _ _ => rfl⟩

lemma Unchanged.trans (h : Unchanged g P s s') (h' : Unchanged g P s' s'') : Unchanged g P s s'' where
  inodes n hn := (h'.inodes n hn).trans (h.inodes n hn)
  bytes n hn x := (h'.bytes n hn x).trans (h.bytes n hn x)

lemma Unchanged.mono (h : Unchanged g P s s') (hQ : ∀ n, Q n → P n) : Unchanged g Q s s' :=
  ⟨fun n hn => h.inodes n (hQ n hn), fun n hn => h.bytes n (hQ n hn)⟩

lemma Kept.unchanged (h : Kept g live D s s') (hc : Consistent g (s.mounted g live)) :
    Unchanged g (fun n => live n ∧ n ∉ D) s s' where
  inodes n hn := h.inodes n (hc.live n hn.1).1 hn.2 (hc.live n hn.1).2
  bytes n hn := h.bytes n hn.1 hn.2

lemma Unchanged.sameFile (h : Unchanged g P s s') (hn : P n) : SameFile g n s s' :=
  ⟨fun k _ => by rw [h.inodes n hn], h.bytes n hn⟩

section

variable (h : SameFile g n s s')
include h

lemma SameFile.trans (h' : SameFile g n s' s'') : SameFile g n s s'' :=
  ⟨fun k hk => (h'.slots k hk).trans (h.slots k hk), fun x => (h'.bytes x).trans (h.bytes x)⟩

lemma SameFile.same_slot {k : ℕ} (hk : k < 12)
    (h0 : iBlock (inodeAt g s.disk n) k ≠ 0) : Same g s.disk s'.disk (iBlock (inodeAt g s.disk n) k) := by
  have hbytes : ∀ x < g.blockSize, byteAt g s' n (k * g.blockSize + x) = byteAt g s n (k * g.blockSize + x) :=
    fun x _ => h.bytes _
  exact Ext2.same_slot (h.slots k (by omega)) hbytes hk h0

lemma SameFile.entriesOf : entriesOf g s'.disk n = Ext2.entriesOf g s.disk n :=
  dirEntries_congr fun k hk => slotEntries_congr (h.slots k (by omega)) (h.same_slot hk)

lemma SameFile.goodDir (hd : GoodDir g s.disk n) : GoodDir g s'.disk n where
  chains := dirChains_congr (fun k hk => h.slots k (by omega)) (fun _ hk => h.same_slot hk) hd.chains
  noHoles j hj k hk hjk h0 := by
    rw [h.slots j (by omega)] at h0
    rw [h.slots k (by omega)]
    exact hd.noHoles j hj k hk hjk h0
  names := by
    rw [h.entriesOf]
    exact hd.names

end

lemma searchSlots_congr {disk disk' inode inode' : Mem} (hi : ∀ k < 12, iBlock inode' k = iBlock inode k)
    (h : ∀ k < 12, iBlock inode k ≠ 0 → Same g disk disk' (iBlock inode k)) {m b : ℕ} (hb : b + m ≤ 12) :
    searchSlots g disk' inode' name m b = searchSlots g disk inode name m b := by
  induction m generalizing b with
  | zero => rfl
  | succ m ih =>
    rw [searchSlots, searchSlots, slotBlock, hi b (by omega)]
    by_cases h0 : iBlock inode b = 0
    · rw [if_pos h0, if_pos h0]
    · rw [if_neg h0, if_neg h0, (h b (by omega) h0).block, ih (by omega)]
      rfl

lemma SameFile.child (h : SameFile g n s s') : child g s'.disk n name = Ext2.child g s.disk n name :=
  searchSlots_congr (fun k hk => h.slots k (by omega)) (fun _ hk => h.same_slot hk) (by omega)

end

section

variable {g : Geometry} {disk inode : Mem} {d : ℕ} {name : Name}

lemma searchSlots_eq (hh : NoHoles inode) (hc : DirChains g disk inode) {m b : ℕ} (hb : b + m = 12) :
    searchSlots g disk inode name m b = ((List.range' b m).flatMap (slotEntries g disk inode)).lookup name := by
  induction m generalizing b with
  | zero => rfl
  | succ m ih =>
    rw [searchSlots, List.range'_succ, List.flatMap_cons, List.lookup_append, ← ih (by omega)]
    have hslot : _ = (slotEntries g disk inode b).lookup name := slot_find hc (show b < 12 by omega)
    by_cases h0 : iBlock inode b = 0
    · rw [if_pos h0] at hslot ⊢
      have hrest : searchSlots g disk inode name m (b + 1) = none := by
        cases m with
        | zero => rfl
        | succ m => rw [searchSlots, if_pos (hh b (by omega) (b + 1) (by omega) (by omega) h0)]
      rw [← hslot, hrest]
      rfl
    rw [if_neg h0] at hslot ⊢
    rw [← hslot]
    by_cases hf : dirFindInBlock (slotBlock g disk inode b) g.blockSize name 0 = 0
    · simp [hf, Option.none_or]
    · simp [hf, Option.some_or]

/-- `ext2_lookup` finds the entries of a directory. -/
theorem GoodDir.child (hd : GoodDir g disk d) : child g disk d name = (entriesOf g disk d).lookup name := by
  rw [Ext2.child, searchSlots_eq hd.noHoles hd.chains (by rfl), entriesOf, dirEntries, List.range_eq_range']

end

section

variable {g : Geometry} {s s' : Fs} {slots : ℕ → ℕ → ℕ} {live live' : ℕ → Prop} {D : Set ℕ} {n : ℕ}

lemma hasRole_live (hfile : ∀ n, live' n → live n ∨ ∀ p t b, reach g (s.view slots live) n p ≠ some (.block t b))
    {b : ℕ} {r : Role} (hb : HasRole g (s.view slots live') b r) : HasRole g (s.view slots live) b r := by
  cases r with
  | super | descriptors | blockBitmap i | inodeBitmap i | inodeTable i => exact hb
  | file n p =>
    obtain ⟨hn, t, ht⟩ := hb
    exact ⟨(hfile n hn).resolve_right fun hno => hno p t b ht, t, ht⟩

lemma Consistent.fewer (h : Consistent g (s.view slots live)) (hl : ∀ n, live' n → live n) :
    Consistent g (s.view slots live') :=
  h.of_hasRole (fun n hn => h.live n (hl n hn)) fun _ _ => hasRole_live fun n hn => .inl (hl n hn)

lemma reach_empty {v : View} (hslots : ∀ k < 15, v.slots n k = 0) (p : List ℕ) (t b : ℕ) :
    reach g v n p ≠ some (.block t b) := by
  intro hr
  cases p with
  | nil => cases hr
  | cons k q => exact slot_of_reach hr (hslots k (height_of_reach hr).1)

lemma Consistent.withEmpty (h : Consistent g (s.view slots live)) (h0 : n ≠ 0)
    (hreal : RealGroup g (s.view slots live) (inodeGroup g n)) (hslots : ∀ k < 15, slots n k = 0)
    (hl : ∀ m, live' m → live m ∨ m = n) : Consistent g (s.view slots live') := by
  refine h.of_hasRole (fun m hm => ?_) fun _ _ => hasRole_live fun m hm => ?_
  · rcases hl m hm with hm | rfl
    · exact h.live m hm
    · exact ⟨h0, hreal⟩
  rcases hl m hm with hm | rfl
  · exact .inl hm
  · exact .inr (reach_empty hslots)

end

section

variable {g : Geometry} {s s' : Fs} {live : ℕ → Prop} {D : Set ℕ} {buf : Mem} {i n m c t : ℕ}

section

variable (h : Consistent g (s.mounted g live))
include h

lemma mark_inode_kept (hn : NoFault s)
    (hi : RealGroup g (s.mounted g live) i) : Kept g live ∅ s (mark g .inode s i buf c t) := by
  let s' := mark g .inode s i buf c t
  have hw : Recorded g (s.view (diskSlots g s.disk) live) _ i (Kind.inode.role i)
      (writeLE (bgdAt g s.disk i) 2 Kind.inode.count c) := mark_recorded hi
  have hroles : SameRoles g (s.mounted g live) (s'.view (diskSlots g s.disk) live) := mark_sameRoles h hi
  have hcons : Consistent g (s'.view (diskSlots g s.disk) live) := mark_inode_consistent h hi
  have hsame : ∀ b r, HasRole g (s.mounted g live) b r → r ≠ .super → r ≠ .descriptors →
      r ≠ .inodeBitmap i → Same g s.disk s'.disk b :=
    fun b r hb hs hd hbm => hw.same h hb hbm hd hs
  have hin : ∀ n, RealGroup g (s.mounted g live) (inodeGroup g n) →
      inodeAt g s'.disk n = inodeAt g s.disk n := fun n hr =>
    inodeAt_congr h.inodesFit (hroles.groups _ hr).inodeTable
      (hsame _ _ (h.inodeBlock_role hr) (by simp) (by simp) (by simp))
  have hremount : SameRoles g _ (s'.mounted g live) := sameRoles_remount fun n hl => hin n (h.live n hl).2
  refine ⟨fun k => ?_, hcons.of_disk hremount rfl, mark_blocksCount,
    mark_inodesCount, fun n _ _ hr => hin n hr, fun n hl _ x => ?_, fun hv => ?_⟩
  · rw [mark, record_outcomes]
    exact hn k
  · refine fileByte_congr ((hroles.trans hremount).reach hl _) fun t b hb => ?_
    exact hsame b _ (Consistent.file_role hl hb) (by simp) (by simp) (by simp)
  · exact hremount.inVolume (hroles.inVolume hv)

lemma inodeBit_mark (hi : RealGroup g (s.mounted g live) i)
    (hm : RealGroup g (s.mounted g live) m) {j : ℕ} (hj : j < 8 * g.blockSize) :
    inodeBit g (mark g .inode s i buf c t).disk m j = if m = i then testBit buf j else inodeBit g s.disk m j := by
  change testBit (bitmapOf g .inode (mark g .inode s i buf c t) m) j = _
  split_ifs with hmi
  · rw [hmi, mark_bits_self h hi hj]
  · rw [mark_bits_of_ne h hi hm (.inr hmi)]
    rfl

lemma writeUnused_touched (hn : NoFault s) (h0 : n ≠ 0)
    (hreal : RealGroup g (s.mounted g live) (inodeGroup g n)) (hnot : ¬live n) (inode : Mem) :
    ∃ s', writeInode g s n inode = (true, s') ∧ Touched g live {n} s s' ∧
      inodeAt g s'.disk n = slice inode 0 128 := by
  obtain ⟨hroles, hcons, hother, hself, hinodes⟩ := h.writeInode h0 hreal inode
  have hne : ∀ m, live m → m ≠ n := by
    rintro m hm rfl
    exact hnot hm
  refine ⟨_, writeInode_eq h.inodesFit hn h0 inode, ?_, hself⟩
  generalize hd : blit s.disk 128 (inodeAddr g s.disk n) inode = disk'
  have hd' : blit (s.mounted g live).disk 128 (inodeAddr g (s.mounted g live).disk n) inode = disk' := hd
  simp only [hd'] at hroles hcons hother hinodes
  have hremount : SameRoles g { s.mounted g live with disk := disk' }
      (Fs.mounted g { s with disk := disk' } live) :=
    sameRoles_remount fun m hm => hinodes m (h.live m hm).1 (hne m hm) (h.live m hm).2
  refine ⟨⟨hn.setDisk _, hcons.of_disk hremount rfl, rfl, rfl,
    fun m hm0 hmn hr => hinodes m hm0 hmn hr, fun m hm _ x => ?_, fun hv => ?_⟩, fun k j hk => ?_⟩
  · exact fileByte_congr ((hroles.trans hremount).reach hm _) fun _ b hb =>
      hother b _ (Consistent.file_role hm hb) (by simp)
  · exact hremount.inVolume (hroles.inVolume hv)
  · exact inodeBit_congr (hroles.groups k hk).inodeBitmap
      (hother _ _ (Consistent.inodeBitmap_role hk) (by simp))

lemma rewrite_touched (hn : NoFault s) (hl : live n) {inode : Mem}
    (hk : ∀ k < 15, iBlock inode k = iBlock (inodeAt g s.disk n) k) :
    ∃ s', writeInode g s n inode = (true, s') ∧ Touched g live {n} s s' ∧ inodeAt g s'.disk n = slice inode 0 128 ∧
      ∀ x, byteAt g s' n x = byteAt g s n x := by
  obtain ⟨hroles, hcons, hbytes, hself, hinodes, hbits⟩ := commit_spec (s := s)
    (openView_inodeAt ▸ h) hl (fun _ _ _ _ _ => rfl) hk
  rw [openView_inodeAt] at hroles hbytes hinodes hbits
  refine ⟨_, writeInode_eq h.inodesFit hn (h.live n hl).1 inode, ⟨⟨hn.setDisk _, hcons, rfl, rfl, hinodes,
    fun m hm _ x => hbytes m hm x, hroles.inVolume⟩, hbits⟩, hself, hbytes n hl⟩

end

end

section

variable {g : Geometry} {s s1 s' : Fs} {live : ℕ → Prop} {D : Set ℕ} {n m c t : ℕ} {buf : Mem}

lemma InodeMaps.real (h : InodeMaps g s) (hpos : 0 < g.inodesPerGroup) (live : ℕ → Prop) (h0 : n ≠ 0)
    (hle : n ≤ sInodesCount s.sb) : RealGroup g (s.mounted g live) (inodeGroup g n) := by
  obtain ⟨hreal, -⟩ := inode_real hpos h0 hle
  exact h.groups _ ((inodeShape g (sInodesCount s.sb)).real_zero _ _ hreal)

lemma Intact.real (h : Intact g s) (live : ℕ → Prop) (h0 : n ≠ 0) (hle : n ≤ sInodesCount s.sb) :
    RealGroup g (s.mounted g live) (inodeGroup g n) ∧ inodeIndex g n < 8 * g.blockSize := by
  have hpos := h.consistent.inodesPerGroup_pos
  exact ⟨h.maps.real hpos live h0 hle, lt_of_lt_of_le (inode_real hpos h0 hle).2.1 h.maps.size⟩

lemma Touched.inUse (ht : Touched g live D s s') (hm : InodeMaps g s) : InUse g s' = InUse g s := by
  have hpos := ht.consistent.inodesPerGroup_pos
  funext n
  apply propext
  constructor
  · rintro ⟨h0, hle, hbit⟩
    rw [ht.inodesCount] at hle
    rw [ht.inodeBits _ _ (hm.real hpos _ h0 hle)] at hbit
    exact ⟨h0, hle, hbit⟩
  rintro ⟨h0, hle, hbit⟩
  refine ⟨h0, ?_, ?_⟩
  · rw [ht.inodesCount]
    exact hle
  · rw [ht.inodeBits _ _ (hm.real hpos _ h0 hle)]
    exact hbit

lemma InodeMaps.touched (h : InodeMaps g s) (ht : Touched g live D s s') : InodeMaps g s' where
  groups i hi := by
    rw [ht.inodesCount] at hi
    exact (ht.realGroup i).mpr (h.groups i hi)
  size := h.size
  padding i j hi hj hclear := by
    rw [ht.inodesCount] at hi ⊢
    rw [ht.inodeBits i j (h.groups i hi)] at hclear
    exact h.padding i j hi hj hclear

theorem Intact.touched (h : Intact g s) (ht : Touched g (InUse g s) D s s') : Intact g s' := by
  refine ⟨ht.noFault, h.maps.touched ht, ?_, ?_⟩
  · rw [ht.inUse h.maps]
    exact ht.consistent
  · rw [ht.inUse h.maps]
    exact ht.inVolume h.inVolume

section

variable (h : Intact g s) (h0 : n ≠ 0) (hle : n ≤ sInodesCount s.sb)
  (hbuf : ∀ j, j ≠ inodeIndex g n → testBit buf j = testBit (bitmapOf g .inode s (inodeGroup g n)) j)
include h h0 hle hbuf

lemma Intact.mark_inUse (hm : m ≠ n) :
    InUse g (mark g .inode s (inodeGroup g n) buf c t) m ↔ InUse g s m := by
  have hbit : m ≠ 0 → m ≤ sInodesCount s.sb →
      inodeBit g (mark g .inode s (inodeGroup g n) buf c t).disk (inodeGroup g m) (inodeIndex g m) =
        inodeBit g s.disk (inodeGroup g m) (inodeIndex g m) := by
    intro hm0 hmle
    rw [inodeBit_mark h.consistent (h.real _ h0 hle).1 (h.real _ hm0 hmle).1 (h.real (fun _ => True) hm0 hmle).2]
    split_ifs with hg
    · rw [hbuf _ fun hi => hm (inode_ext hm0 h0 hg hi), ← hg]
      rfl
    · rfl
  constructor
  · rintro ⟨hm0, hmle, hset⟩
    rw [mark_inodesCount] at hmle
    exact ⟨hm0, hmle, hbit hm0 hmle ▸ hset⟩
  rintro ⟨hm0, hmle, hset⟩
  refine ⟨hm0, ?_, (hbit hm0 hmle).trans hset⟩
  rw [mark_inodesCount]
  exact hmle

lemma Intact.mark_maps : InodeMaps g (mark g .inode s (inodeGroup g n) buf c t) := by
  refine ⟨fun i hi => ?_, h.maps.size, fun i j hi hj hclear => ?_⟩
  · rw [mark_inodesCount] at hi
    have hreal := h.maps.groups i hi
    rw [RealGroup] at hreal ⊢
    exact Nat.lt_of_lt_of_eq hreal mark_blocksCount.symm
  rw [mark_inodesCount] at hi ⊢
  have hreal : RealGroup g (s.mounted g (InUse g s)) i := h.maps.groups i hi
  rw [inodeBit_mark h.consistent (h.real _ h0 hle).1 hreal (lt_of_lt_of_le hj h.maps.size)] at hclear
  split_ifs at hclear with hg
  · subst hg
    by_cases hix : j = inodeIndex g n
    · subst hix
      exact (inode_real h.consistent.inodesPerGroup_pos h0 hle).1
    · rw [hbuf j hix] at hclear
      exact h.maps.padding _ j hi hj hclear
  · exact h.maps.padding i j hi hj hclear

end

/-- Inode `n` was taken and written. -/
structure Fresh (g : Geometry) (n : ℕ) (inode : Mem) (s s' : Fs) : Prop where
  ne_zero : n ≠ 0
  fresh : ¬InUse g s n
  intact : Intact g s'
  inUse : ∀ m, InUse g s' m ↔ InUse g s m ∨ m = n
  unchanged : Unchanged g (InUse g s) s s'
  inode : inodeAt g s'.disk n = slice inode 0 128

/-- A new inode without blocks is taken and written, or there is none. -/
theorem Intact.newInode (h : Intact g s) {inode : Mem} (hslots : ∀ k < 15, iBlock inode k = 0) :
    allocInode g s = (0, s) ∨ ∃ n s1 s2, allocInode g s = (n, s1) ∧ writeInode g s1 n inode = (true, s2) ∧
      Fresh g n inode s s2 := by
  rcases allocInode_cases h.maps h.noFault with hz | ⟨n', h0, hle, -, hclear, he⟩
  · exact .inl hz
  have hnot : ¬InUse g s n' := fun hu => by
    rw [hu.bit] at hclear
    cases hclear
  obtain ⟨hreal, hindex⟩ := h.real (InUse g s) h0 hle
  have hbuf : ∀ j, j ≠ inodeIndex g n' →
      testBit (setBit (bitmapOf g .inode s (inodeGroup g n')) (inodeIndex g n')) j =
        testBit (bitmapOf g .inode s (inodeGroup g n')) j := fun j hj => by
    rw [testBit_setBit, decide_eq_false hj, Bool.or_false]
  let s1 := marked g .inode s (inodeGroup g n') (inodeIndex g n')
  have hkept : Kept g (InUse g s) ∅ s s1 := mark_inode_kept h.consistent h.noFault hreal
  obtain ⟨s2, hw, ht, hself⟩ := writeUnused_touched hkept.consistent hkept.noFault h0
    ((hkept.realGroup _).mpr hreal) hnot inode
  have hmaps : InodeMaps g s1 := h.mark_maps h0 hle hbuf
  have huse : ∀ m, InUse g s2 m ↔ InUse g s m ∨ m = n' := by
    intro m
    rw [ht.inUse hmaps]
    by_cases hm : m = n'
    · subst hm
      refine iff_of_true ⟨h0, ?_, ?_⟩ (.inr rfl)
      · exact hle.trans_eq mark_inodesCount.symm
      refine (inodeBit_mark h.consistent hreal hreal hindex).trans ?_
      rw [if_pos rfl, testBit_setBit]
      simp
    · exact (h.mark_inUse h0 hle hbuf hm).trans (or_iff_left hm).symm
  have hempty : ∀ k < 15, diskSlots g s2.disk n' k = 0 := by
    intro k hk
    rw [diskSlots, hself, iBlock_slice hk, hslots k hk]
  refine .inr ⟨n', _, s2, he, hw, h0, hnot, ⟨ht.noFault, hmaps.touched ht, ?_, ?_⟩, huse, ?_, hself⟩
  · refine ht.consistent.withEmpty h0 ?_ hempty fun m hm => (huse m).mp hm
    exact (ht.realGroup _).mpr ((hkept.realGroup _).mpr hreal)
  · intro m p t b hm hb
    rcases (huse m).mp hm with hm | rfl
    · exact ht.inVolume (hkept.inVolume h.inVolume) m p t b hm hb
    · exact absurd hb (reach_empty hempty p t b)
  have h1 := (hkept.unchanged h.consistent).mono (Q := InUse g s) fun m hm => ⟨hm, Set.notMem_empty m⟩
  have h2 := (ht.toKept.unchanged hkept.consistent).mono (Q := InUse g s) fun m hm =>
    ⟨hm, fun he => hnot (he ▸ hm)⟩
  exact h1.trans h2

/-- An inode is given back. -/
theorem Intact.freeInode (h : Intact g s) (h2 : 2 ≤ n) (hle : n ≤ sInodesCount s.sb) :
    Intact g (freeInode g s n) ∧ (∀ m, InUse g (Ext2.freeInode g s n) m ↔ InUse g s m ∧ m ≠ n) ∧
      Unchanged g (InUse g s) s (Ext2.freeInode g s n) ∧
      sInodesCount (Ext2.freeInode g s n).sb = sInodesCount s.sb := by
  rw [freeInode_eq h.noFault h2]
  have h0 : n ≠ 0 := by omega
  obtain ⟨hreal, hindex⟩ := h.real (InUse g s) h0 hle
  have hbuf : ∀ j, j ≠ inodeIndex g n → testBit (clearBit (bitmapOf g .inode s (inodeGroup g n)) (inodeIndex g n)) j =
        testBit (bitmapOf g .inode s (inodeGroup g n)) j := fun j hj => by
    rw [testBit_clearBit, decide_eq_true hj, Bool.and_true]
  let s1 := unmarked g .inode s (inodeGroup g n) (inodeIndex g n)
  have hkept : Kept g (InUse g s) ∅ s s1 := mark_inode_kept h.consistent h.noFault hreal
  have huse : ∀ m, InUse g s1 m ↔ InUse g s m ∧ m ≠ n := by
    intro m
    by_cases hm : m = n
    · subst hm
      refine iff_of_false (fun hu => ?_) fun hu => hu.2 rfl
      have hbit := (inodeBit_mark h.consistent hreal hreal hindex).symm.trans hu.bit
      rw [if_pos rfl, testBit_clearBit] at hbit
      simp at hbit
    · exact (h.mark_inUse h0 hle hbuf hm).trans (and_iff_left hm).symm
  refine ⟨⟨hkept.noFault, h.mark_maps h0 hle hbuf, ?_, ?_⟩, huse, ?_, hkept.inodesCount⟩
  · exact hkept.consistent.fewer fun m hm => ((huse m).mp hm).1
  · intro m p t b hm hb
    exact hkept.inVolume h.inVolume m p t b ((huse m).mp hm).1 hb
  · exact (hkept.unchanged h.consistent).mono fun m hm => ⟨hm, Set.notMem_empty m⟩

end

end AetherOS.Ext2
