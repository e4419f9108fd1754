import AetherOS.Ext2Inodes

/-!
# Checking a volume

The roles of the blocks of a volume with finitely many inodes in use can be listed. A
volume is consistent if no block is listed twice, no listed block is marked free, and the
blocks marked free exist. This can be evaluated.
-/
namespace AetherOS.Ext2
open ByteMemory ByteBitmap PointerTree List

/-- A disk given by the bytes at some addresses; the others are zero. -/
def image (parts : List (ℕ × List UInt8)) : Mem := fun a =>
  match parts.find? fun p => p.1 ≤ a && a < p.1 + p.2.length with
  | some p => p.2.getD (a - p.1) 0
  | none => 0

section

variable (g : Geometry) (v : View)

/-- The blocks from block `b` down, which is at path `p` below an inode. -/
def treeRoles (ino : ℕ) : ℕ → ℕ → List ℕ → List (ℕ × Role)
  | 0, b, p => [(b, .file ino p)]
  | h + 1, b, p => (b, .file ino p) :: (List.range g.ptrs).flatMap fun i =>
      if pointer g v.disk b i = 0 then [] else treeRoles ino h (pointer g v.disk b i) (p ++ [i])

def fileRoles (ino : ℕ) : List (ℕ × Role) :=
  (List.range 15).flatMap fun k =>
    if v.slots ino k = 0 then [] else treeRoles g v ino (slotHeight k) (v.slots ino k) [k]

/-- The groups that have a descriptor. -/
def groupList : List ℕ := List.range ((v.blocksCount + g.blocksPerGroup - 1) / g.blocksPerGroup)

def descriptorBlocks : List ℕ := ((groupList g v).map fun i => g.bgdBlock + i / g.bgdsPerBlock).dedup

def tableBlocks (i : ℕ) : List ℕ :=
  ((List.range g.inodesPerGroup).map fun j => bgInodeTable (bgdAt g v.disk i) + j / g.inodesPerBlock).dedup

def groupRoles (i : ℕ) : List (ℕ × Role) :=
  (bgBlockBitmap (bgdAt g v.disk i), .blockBitmap i) :: (bgInodeBitmap (bgdAt g v.disk i), .inodeBitmap i) ::
    (tableBlocks g v i).map fun b => (b, .inodeTable i)

/-- All blocks with their roles, when the inodes `inos` are in use. -/
def allRoles (inos : List ℕ) : List (ℕ × Role) :=
  (1024 / g.blockSize, .super) :: (descriptorBlocks g v).map (fun b => (b, .descriptors)) ++
    ((groupList g v).filter fun i => decide (RealGroup g v i)).flatMap (groupRoles g v) ++
    inos.flatMap (fileRoles g v)

/-- What is evaluated. -/
@[mk_iff] structure Checked (inos : List ℕ) : Prop where
  geometry : 128 ≤ g.inodeSize ∧ g.inodeSize ≤ g.blockSize ∧ 0 < g.blocksPerGroup ∧
    g.blocksPerGroup ≤ 8 * g.blockSize ∧ 0 < g.inodesPerGroup ∧ g.firstDataBlock = 1024 / g.blockSize ∧
    v.blocksCount < 2 ^ 32
  inodes : ∀ n ∈ inos, n ≠ 0 ∧ RealGroup g v (inodeGroup g n)
  tables : ∀ i ∈ groupList g v, RealGroup g v i → ∀ b ∈ tableBlocks g v i, b < v.blocksCount
  unique : ((allRoles g v inos).map Prod.fst).Nodup
  free : ∀ i ∈ groupList g v, RealGroup g v i → ∀ j < g.blocksPerGroup, blockBit g v.disk i j = false →
    blockNumber g i j < v.blocksCount ∧ blockNumber g i j ∉ (allRoles g v inos).map Prod.fst
  past : ∀ i ∈ groupList g v, ¬RealGroup g v i → bgFreeBlocksCount (bgdAt g v.disk i) = 0

instance (inos : List ℕ) : Decidable (Checked g v inos) :=
  decidable_of_iff' _ (checked_iff g v inos)

end

section

variable {g : Geometry} {v : View} {inos p : List ℕ} {ino b h i : ℕ} {r : Role}

lemma mem_treeRoles {h' b' : ℕ} {q : List ℕ} {l : ℕ} (hw : walk (refs g v) l (.block h b) q = some (.block h' b')) :
    (b', .file ino (p ++ q)) ∈ treeRoles g v ino h b p := by
  induction q generalizing h b p l with
  | nil =>
    cases hw
    rw [append_nil]
    cases h' with
    | zero => exact mem_singleton.mpr rfl
    | succ h => exact mem_cons_self
  | cons i q ih =>
    obtain ⟨n, hn, hw⟩ := Option.bind_eq_some_iff.mp hw
    cases h with
    | zero => cases hn
    | succ h =>
      simp only [refs] at hn
      split at hn
      next hi =>
        cases hn
        refine mem_cons_of_mem _ (mem_flatMap.mpr ⟨i, mem_range.mpr hi.1, ?_⟩)
        rw [if_neg hi.2, append_cons p i q]
        exact ih hw
      · cases hn

lemma mem_fileRoles (hr : reach g v ino p = some (.block h b)) : (b, .file ino p) ∈ fileRoles g v ino := by
  cases p with
  | nil => cases hr
  | cons k q =>
    obtain ⟨n, hn, hw⟩ := Option.bind_eq_some_iff.mp hr
    simp only [refs] at hn
    split at hn
    next hk =>
      cases hn
      refine mem_flatMap.mpr ⟨k, mem_range.mpr hk.1, ?_⟩
      rw [if_neg hk.2]
      exact mem_treeRoles hw
    · cases hn

section

variable (hpos : 0 < g.blocksPerGroup)
include hpos

lemma mem_groupList (hi : i * g.blocksPerGroup < v.blocksCount) : i ∈ groupList g v := by
  apply mem_range.mpr
  apply (Nat.le_div_iff_mul_le hpos).mpr
  rw [Nat.succ_mul]
  omega

lemma mem_groupRoles (hi : RealGroup g v i) (hmem : (b, r) ∈ groupRoles g v i) : (b, r) ∈ allRoles g v inos := by
  refine mem_append_left _ (mem_append_right _ (mem_flatMap.mpr ⟨i, ?_, hmem⟩))
  exact mem_filter.mpr ⟨mem_groupList hpos hi.described, decide_eq_true hi⟩

lemma mem_allRoles (hlive : v.live = (· ∈ inos)) (hr : HasRole g v b r) : (b, r) ∈ allRoles g v inos := by
  cases r with
  | super =>
    obtain rfl : b = 1024 / g.blockSize := hr
    simp [allRoles]
  | descriptors =>
    obtain ⟨i, hi, rfl⟩ := hr
    refine mem_append_left _ (mem_append_left _ (mem_cons_of_mem _ ?_))
    refine mem_map.mpr ⟨_, mem_dedup.mpr (mem_map.mpr ⟨i, ?_, rfl⟩), rfl⟩
    exact mem_groupList hpos hi
  | blockBitmap i =>
    obtain ⟨hi, rfl⟩ := hr
    exact mem_groupRoles hpos hi mem_cons_self
  | inodeBitmap i =>
    obtain ⟨hi, rfl⟩ := hr
    exact mem_groupRoles hpos hi (mem_cons_of_mem _ mem_cons_self)
  | inodeTable i =>
    obtain ⟨hi, j, hj, rfl⟩ := hr
    refine mem_groupRoles hpos hi (mem_cons_of_mem _ (mem_cons_of_mem _ ?_))
    refine mem_map.mpr ⟨_, mem_dedup.mpr (mem_map.mpr ⟨j, ?_, rfl⟩), rfl⟩
    exact mem_range.mpr hj
  | file n p =>
    obtain ⟨hn, m, hm⟩ := hr
    rw [hlive] at hn
    exact mem_append_right _ (mem_flatMap.mpr ⟨n, hn, mem_fileRoles hm⟩)

end

/-- A volume that passes the check is consistent. -/
theorem Checked.consistent (hc : Checked g v inos) (hlive : v.live = (· ∈ inos)) : Consistent g v := by
  obtain ⟨hmin, hmax, hpos, hle, hipg, hfirst, hcount⟩ := hc.geometry
  have hmem : ∀ b r, HasRole g v b r → (b, r) ∈ allRoles g v inos :=
    fun b r hr => mem_allRoles hpos hlive hr
  refine ⟨⟨hmin, hmax⟩, hpos, hle, hipg, hfirst, hcount, fun i b hb => ?_, fun n hn => ?_,
    fun b r r' hr hr' => ?_, fun i j hi hj hbit => ?_, fun i hi hreal => ?_⟩
  · obtain ⟨hi, j, hj, rfl⟩ := hb
    refine hc.tables i (mem_groupList hpos hi.described) hi _ (mem_dedup.mpr ?_)
    exact mem_map.mpr ⟨j, mem_range.mpr hj, rfl⟩
  · rw [hlive] at hn
    exact hc.inodes n hn
  · have hinj := inj_on_of_nodup_map hc.unique (hmem b r hr) (hmem b r' hr') rfl
    exact (Prod.mk.inj hinj).2
  · obtain ⟨hlt, hnot⟩ := hc.free i (mem_groupList hpos hi.described) hi j hj hbit
    exact ⟨hlt, fun r hr => hnot (mem_map.mpr ⟨_, hmem _ r hr, rfl⟩)⟩
  · exact hc.past i (mem_groupList hpos hi) hreal

end

end AetherOS.Ext2
