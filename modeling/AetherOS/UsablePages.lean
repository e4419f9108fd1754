import Mathlib.Data.Set.Card
import AetherOS.PmmRuns

/-!
# Which pages `pmm_init` leaves free

Ranges the firmware calls usable are rounded inwards, reserved ranges outwards. Each
loop over a range is described bit by bit, and so the bitmap after the whole
initialisation is described by the descriptors of the map and the reserved ranges.
-/
namespace AetherOS.Mem
open Nat

/-! ## The checks before the initialisation -/

def bootinfoMagic : UInt64 := 0x4f53424f4f54494e
def bootinfoVersion : UInt32 := 1
def sizeofBootInfo : UInt32 := 160
def sizeofMemoryDescriptor : UInt64 := 40
def osDirectMapBase : UInt64 := 0xffff800000000000
def osEarlyDirectMapSize : UInt64 := 64 * 1024 * 1024 * 1024

/-- `os_boot_info` as far as `validate_boot_info` and `pmm_init` read it. -/
structure OsBootInfo extends BootInfo where
  magic : UInt64
  version : UInt32
  size : UInt32
  memoryMapAddress : UInt64
  directMapBase : UInt64
  directMapSize : UInt64

/-- The argument is `none` for a null pointer. -/
def validateBootInfo : Option OsBootInfo → Except String Unit
  | none => throw "missing boot info"
  | some b =>
    if b.magic ≠ bootinfoMagic then throw "invalid boot info magic"
    else if b.version ≠ bootinfoVersion ∨ b.size < sizeofBootInfo then
      throw "unsupported boot info version"
    else if b.memoryMapAddress = 0 ∨ b.memoryMapSize = 0 ∨ b.memoryDescriptorSize < sizeofMemoryDescriptor then
      throw "invalid UEFI memory map"
    else if b.directMapBase ≠ osDirectMapBase ∨ b.directMapSize < osEarlyDirectMapSize then
      throw "invalid direct map"
    else pure ()

lemma stride_pos_of_validate {b : OsBootInfo} (h : validateBootInfo (some b) = .ok ()) :
    0 < b.memoryDescriptorSize.toNat := by
  simp only [validateBootInfo] at h
  split_ifs at h with h1 h2 h3 h4
  have h40 : ¬b.memoryDescriptorSize < sizeofMemoryDescriptor := fun hlt => h3 (.inr (.inr hlt))
  rw [UInt64.lt_iff_toNat_lt] at h40
  have : sizeofMemoryDescriptor.toNat = 40 := rfl
  omega

/-! ## What the map says -/

def MemoryDescriptor.Reclaimed (d : MemoryDescriptor) : Prop :=
  d.type = efiConventionalMemory ∨ d.type = efiLoaderCode ∨ d.type = efiBootServicesCode ∨
    d.type = efiBootServicesData

/-- The page `k` lies in the range of the descriptor. -/
def MemoryDescriptor.Contains (d : MemoryDescriptor) (k : ℕ) : Prop :=
  d.physicalStart.toNat ≤ k * pageSize ∧ (k + 1) * pageSize ≤ d.physicalStart.toNat + d.numberOfPages.toNat * pageSize

/-- The range of the descriptor ends below 2^64. -/
def MemoryDescriptor.Fits (d : MemoryDescriptor) : Prop :=
  d.physicalStart.toNat + d.numberOfPages.toNat * pageSize < 2 ^ 64

/-- Record `i` of the memory map. -/
def BootInfo.record (b : BootInfo) (i : ℕ) : MemoryDescriptor :=
  b.memoryMap (UInt64.ofNat (i * b.memoryDescriptorSize.toNat))

/-- The descriptors of the memory map: its records that start before its end. -/
def BootInfo.descriptors (b : BootInfo) : Set MemoryDescriptor :=
  {d | ∃ i, i * b.memoryDescriptorSize.toNat < b.memoryMapSize.toNat ∧ d = b.record i}

/-- The number of records that start before the end of the map. -/
def BootInfo.recordCount (b : BootInfo) : ℕ :=
  (b.memoryMapSize.toNat + b.memoryDescriptorSize.toNat - 1) / b.memoryDescriptorSize.toNat

/-- The page `k` and the range from `start` to `stop` have a byte in common. -/
def Shares (k start stop : ℕ) : Prop :=
  ∃ a, k * pageSize ≤ a ∧ a < (k + 1) * pageSize ∧ start ≤ a ∧ a < stop

/-- A page that the kernel may use. -/
structure UsablePage (b : BootInfo) (k : ℕ) : Prop where
  below : (k + 1) * pageSize ≤ maxPhysBytes
  listed : ∃ d ∈ b.descriptors, d.Reclaimed ∧ d.Contains k
  low : ¬Shares k 0 0x100000
  kernel : ¬Shares k b.kernelPhysStart.toNat b.kernelPhysEnd.toNat
  root : ¬Shares k b.pageTableRoot.toNat (b.pageTableRoot.toNat + pageSize)

/-- Rounding a range outwards adds no page to it, unless it is empty with both ends
inside of one page. -/
def RoundsOut (start stop : ℕ) : Prop :=
  start < stop ∨ stop ≤ start / pageSize * pageSize ∨ maxPhysBytes ≤ start

/-! ## The loops, bit by bit -/

section

variable {p p' : Pmm} {b : BootInfo} {k : ℕ}

/-- The body of `mark_range_free` leaves the bit of its page clear in both branches. -/
lemma bitmapTest_freePage (p : Pmm) (page q : ℕ) :
    bitmapTest (if bitmapTest p page then { bitmapClear p page with free := (p.free + 1) % 2 ^ 64 } else p) q =
      false ↔ bitmapTest p q = false ∨ q = page := by
  split_ifs with hset
  · have hbit : bitmapTest { bitmapClear p page with free := (p.free + 1) % 2 ^ 64 } q =
        (bitmapTest p q && decide (q ≠ page)) := bitmapTest_clear p page q
    rw [hbit, Bool.and_eq_false_iff]
    simp
  refine ⟨.inl, ?_⟩
  rintro (h | rfl)
  · exact h
  · simpa using hset

lemma bitmapTest_usePage (p : Pmm) (page q : ℕ) :
    bitmapTest (if !bitmapTest p page then
      { bitmapSet p page with free := (p.free + 2 ^ 64 - 1) % 2 ^ 64 } else p) q =
      false ↔ bitmapTest p q = false ∧ q ≠ page := by
  split_ifs with hclear
  · rw [bitmapTest_setFree (bitmapSet p page) _ q, bitmapTest_bitmapSet]
    simp
  refine ⟨fun h => ⟨h, ?_⟩, And.left⟩
  rintro rfl
  simp [h] at hclear

lemma bitmapTest_freePages (n page q : ℕ) (p : Pmm) : bitmapTest (freePages n page p) q = false ↔
    bitmapTest p q = false ∨ (page ≤ q ∧ q < page + n) := by
  induction n generalizing page p with
  | zero => exact ⟨.inl, fun h => h.resolve_right (by omega)⟩
  | succ n ih =>
    rw [freePages, ih, bitmapTest_freePage, or_assoc]
    refine or_congr_right ?_
    omega

lemma bitmapTest_usePages (n page q : ℕ) (p : Pmm) : bitmapTest (usePages n page p) q = false ↔
    bitmapTest p q = false ∧ ¬(page ≤ q ∧ q < page + n) := by
  induction n generalizing page p with
  | zero => exact ⟨fun h => ⟨h, by omega⟩, And.left⟩
  | succ n ih =>
    rw [usePages, ih, bitmapTest_usePage, and_assoc]
    refine and_congr_right fun _ => ?_
    omega

lemma bitmapTest_markRangeFree (p : Pmm) (start stop : ℕ) (hk : k < maxPages) :
    bitmapTest (markRangeFree p start stop) k = false ↔
      bitmapTest p k = false ∨ (start ≤ k * pageSize ∧ (k + 1) * pageSize ≤ stop) := by
  unfold markRangeFree
  by_cases hstart : maxPhysBytes ≤ start
  · rw [if_pos hstart]
    simp only [maxPages, maxPhysBytes, pageSize] at hk hstart ⊢
    exact ⟨.inl, fun h => h.resolve_right fun hin => by omega⟩
  rw [if_neg hstart]
  rw [bitmapTest_freePages]
  refine or_congr_right ?_
  simp only [maxPages, maxPhysBytes, pageSize] at hk hstart ⊢
  split_ifs <;> omega

lemma bitmapTest_markRangeUsed (p : Pmm) (start stop : ℕ) (hk : k < maxPages) :
    bitmapTest (markRangeUsed p start stop) k = false ↔
      bitmapTest p k = false ∧ ¬(k * pageSize < stop ∧ start < (k + 1) * pageSize) := by
  unfold markRangeUsed
  by_cases hstart : maxPhysBytes ≤ start
  · rw [if_pos hstart]
    simp only [maxPages, maxPhysBytes, pageSize] at hk hstart ⊢
    exact ⟨fun h => ⟨h, by omega⟩, And.left⟩
  rw [if_neg hstart]
  rw [bitmapTest_usePages]
  refine and_congr_right fun _ => not_congr ?_
  simp only [maxPages, maxPhysBytes, pageSize] at hk hstart ⊢
  split_ifs <;> omega

lemma overlap_iff_shares {start stop : ℕ} (hk : k < maxPages) (hr : RoundsOut start stop) :
    (k * pageSize < stop ∧ start < (k + 1) * pageSize) ↔ Shares k start stop := by
  simp only [RoundsOut, maxPages, maxPhysBytes, pageSize] at hk hr
  constructor
  · intro h
    refine ⟨max start (k * pageSize), ?_⟩
    simp only [pageSize] at h ⊢
    omega
  · rintro ⟨a, h1, h2, h3, h4⟩
    exact ⟨by omega, by omega⟩

lemma bitmapTest_absorb (p : Pmm) {d : MemoryDescriptor} (hd : d.Fits) (hk : k < maxPages) :
    bitmapTest (absorb p d) k = false ↔ bitmapTest p k = false ∨ (d.Reclaimed ∧ d.Contains k) := by
  have hpages : (d.numberOfPages * 4096).toNat = d.numberOfPages.toNat * pageSize := by
    simp only [MemoryDescriptor.Fits, pageSize] at hd ⊢
    rw [UInt64.toNat_mul, mod_eq_of_lt]
    · rfl
    · show d.numberOfPages.toNat * 4096 < 2 ^ 64
      omega
  have hstop : (d.physicalStart + d.numberOfPages * 4096).toNat =
      d.physicalStart.toNat + d.numberOfPages.toNat * pageSize := by
    rw [UInt64.toNat_add, hpages, mod_eq_of_lt hd]
  by_cases hrec : d.Reclaimed
  · have habs : absorb p d = markRangeFree p d.physicalStart.toNat
        (d.physicalStart + d.numberOfPages * 4096).toNat := if_pos hrec
    rw [habs, bitmapTest_markRangeFree p _ _ hk, hstop]
    simp [hrec, MemoryDescriptor.Contains]
  have habs : absorb p d = p := if_neg hrec
  rw [habs]
  simp [hrec]

lemma overlap_root_iff (hk : k < maxPages) (root : UInt64) :
    (k * pageSize < (root + 4096).toNat ∧ root.toNat < (k + 1) * pageSize) ↔
      Shares k root.toNat (root.toNat + pageSize) := by
  by_cases hwrap : root.toNat + pageSize < 2 ^ 64
  · have hstop : (root + 4096).toNat = root.toNat + pageSize := by
      rw [UInt64.toNat_add]
      exact mod_eq_of_lt hwrap
    rw [hstop]
    exact overlap_iff_shares hk (.inl (by simp))
  simp only [maxPages, pageSize] at hk hwrap ⊢
  refine iff_of_false (fun h => by omega) ?_
  rintro ⟨a, h1, h2, h3, h4⟩
  simp only [pageSize] at h2
  omega

lemma bitmapTest_reserve (p : Pmm) (hk : k < maxPages)
    (hker : RoundsOut b.kernelPhysStart.toNat b.kernelPhysEnd.toNat) :
    bitmapTest (reserve b p) k = false ↔ bitmapTest p k = false ∧ ¬Shares k 0 0x100000 ∧
      ¬Shares k b.kernelPhysStart.toNat b.kernelPhysEnd.toNat ∧
      ¬Shares k b.pageTableRoot.toNat (b.pageTableRoot.toNat + pageSize) := by
  simp only [reserve]
  rw [bitmapTest_markRangeUsed _ _ _ hk, overlap_root_iff hk, bitmapTest_markRangeUsed _ _ _ hk,
    overlap_iff_shares hk hker, bitmapTest_markRangeUsed _ _ _ hk,
    overlap_iff_shares hk (.inl (by decide))]
  tauto

lemma lt_recordCount {i : ℕ} (hpos : 0 < b.memoryDescriptorSize.toNat) :
    i < b.recordCount ↔ i * b.memoryDescriptorSize.toNat < b.memoryMapSize.toNat := by
  rw [BootInfo.recordCount, ← succ_le_iff, Nat.le_div_iff_mul_le hpos, succ_mul]
  omega

section

variable (hpos : 0 < b.memoryDescriptorSize.toNat)
  (hoff : b.recordCount * b.memoryDescriptorSize.toNat < 2 ^ 64) (hfit : ∀ d ∈ b.descriptors, d.Fits)
include hpos hoff hfit

lemma readMap_spec (m : ℕ) : ∀ (i : ℕ) (p : Pmm), i + m = b.recordCount →
    ∃ p', readMap b (m + 1) (UInt64.ofNat (i * b.memoryDescriptorSize.toNat)) p = some p' ∧
      ∀ k < maxPages, bitmapTest p' k = false ↔ bitmapTest p k = false ∨
        ∃ j, i ≤ j ∧ j < b.recordCount ∧ (b.record j).Reclaimed ∧ (b.record j).Contains k := by
  induction m with
  | zero =>
    intro i p hi
    have hmul : i * b.memoryDescriptorSize.toNat < 2 ^ 64 := by
      rw [show i = b.recordCount by omega]
      exact hoff
    have hend : ¬UInt64.ofNat (i * b.memoryDescriptorSize.toNat) < b.memoryMapSize := by
      rw [UInt64.lt_iff_toNat_lt, UInt64.toNat_ofNat_of_lt' hmul, ← lt_recordCount hpos]
      omega
    refine ⟨p, by rw [readMap, if_neg hend], fun k _ => ⟨.inl, ?_⟩⟩
    rintro (h | ⟨j, h1, h2, -⟩)
    · exact h
    · omega
  | succ m ih =>
    intro i p hi
    have hlt : i < b.recordCount := by omega
    have hmul : (i + 1) * b.memoryDescriptorSize.toNat < 2 ^ 64 :=
      lt_of_le_of_lt (Nat.mul_le_mul_right _ hlt) hoff
    rw [succ_mul] at hmul
    have hin : UInt64.ofNat (i * b.memoryDescriptorSize.toNat) < b.memoryMapSize := by
      rw [UInt64.lt_iff_toNat_lt, UInt64.toNat_ofNat_of_lt' (show _ < 2 ^ 64 by omega), ← lt_recordCount hpos]
      exact hlt
    have hnext : UInt64.ofNat (i * b.memoryDescriptorSize.toNat) + b.memoryDescriptorSize =
        UInt64.ofNat ((i + 1) * b.memoryDescriptorSize.toNat) := by
      rw [succ_mul, UInt64.ofNat_add, UInt64.ofNat_toNat]
    obtain ⟨p', hread, hbits⟩ := ih (i + 1) (absorb p (b.record i)) (by omega)
    refine ⟨p', by rw [readMap, if_pos hin, hnext]; exact hread, fun k hk => ?_⟩
    have hrec : (b.record i).Fits := hfit _ ⟨i, (lt_recordCount hpos).mp hlt, rfl⟩
    rw [hbits k hk, bitmapTest_absorb p hrec hk, or_assoc]
    refine or_congr_right ?_
    constructor
    · rintro (h | ⟨j, h1, h2, h3⟩)
      · exact ⟨i, le_rfl, hlt, h⟩
      · exact ⟨j, by omega, h2, h3⟩
    rintro ⟨j, h1, h2, h3⟩
    rcases Nat.eq_or_lt_of_le h1 with rfl | h1
    · exact .inl h3
    · exact .inr ⟨j, h1, h2, h3⟩

lemma pmmInit_bits (hker : RoundsOut b.kernelPhysStart.toNat b.kernelPhysEnd.toNat) :
    ∃ p, readMap b (b.recordCount + 1) 0 fullPmm = some p ∧ ∀ k, k ∈ clearPages (reserve b p) ↔ UsablePage b k := by
  obtain ⟨p, hread, hbits⟩ := readMap_spec hpos hoff hfit b.recordCount 0 fullPmm (by omega)
  rw [Nat.zero_mul] at hread
  refine ⟨p, hread, fun k => ?_⟩
  have hbelow : k < maxPages ↔ (k + 1) * pageSize ≤ maxPhysBytes := by
    simp only [maxPages, maxPhysBytes, pageSize]
    omega
  rw [mem_clearPages]
  constructor
  · rintro ⟨hk, hclear⟩
    obtain ⟨hp, h1, h2, h3⟩ := (bitmapTest_reserve p hk hker).mp hclear
    rcases (hbits k hk).mp hp with hfull | ⟨j, -, hj, hrec, hin⟩
    · rw [bitmapTest_fullPmm] at hfull
      cases hfull
    · exact ⟨hbelow.mp hk, ⟨_, ⟨j, (lt_recordCount hpos).mp hj, rfl⟩, hrec, hin⟩, h1, h2, h3⟩
  · rintro ⟨hk, ⟨d, ⟨j, hj, rfl⟩, hrec, hin⟩, h1, h2, h3⟩
    have hk' := hbelow.mpr hk
    have hp := (hbits k hk').mpr (.inr ⟨j, Nat.zero_le j, (lt_recordCount hpos).mpr hj, hrec, hin⟩)
    exact ⟨hk', (bitmapTest_reserve p hk' hker).mpr ⟨hp, h1, h2, h3⟩⟩

end

end

/-- For every map that is read to its end, `pmm_init` leaves free exactly the usable
pages and counts them, or panics because there is none. -/
theorem pmmInit_usable {b : OsBootInfo} (hv : validateBootInfo (some b) = .ok ())
    (hoff : b.recordCount * b.memoryDescriptorSize.toNat < 2 ^ 64) (hfit : ∀ d ∈ b.descriptors, d.Fits)
    (hker : RoundsOut b.kernelPhysStart.toNat b.kernelPhysEnd.toNat) :
    ∃ fuel, (∃ p, pmmInit fuel b.toBootInfo = some (.ok p) ∧ (∀ k, k ∈ clearPages p ↔ UsablePage b.toBootInfo k) ∧
        p.free = Set.ncard {k | UsablePage b.toBootInfo k}) ∨
      (pmmInit fuel b.toBootInfo = some (.error "PMM found no free pages") ∧ ∀ k, ¬UsablePage b.toBootInfo k) := by
  obtain ⟨p, hread, hbits⟩ := pmmInit_bits (stride_pos_of_validate hv) hoff hfit hker
  have hcount : Counted (reserve b.toBootInfo p) := (counted_fullPmm.readMap hread).reserve _
  have hset : {k | UsablePage b.toBootInfo k} = ↑(clearPages (reserve b.toBootInfo p)) := by
    ext k
    exact (hbits k).symm
  refine ⟨b.recordCount + 1, ?_⟩
  rw [pmmInit, hread, Option.map_some]
  by_cases hzero : (reserve b.toBootInfo p).free = 0
  · refine .inr ⟨by simp only [hzero, if_true]; rfl, fun k hk => ?_⟩
    have hempty := Finset.card_eq_zero.mp (hcount.symm.trans hzero)
    have hmem := (hbits k).mpr hk
    rw [hempty] at hmem
    cases hmem
  · refine .inl ⟨_, by simp only [hzero, if_false]; rfl, hbits, ?_⟩
    rw [hset, Set.ncard_coe_finset]
    exact hcount

/-- The small machine with a header that passes the checks. -/
def smallBoot : OsBootInfo where
  toBootInfo := smallMachine
  magic := bootinfoMagic
  version := bootinfoVersion
  size := sizeofBootInfo
  memoryMapAddress := 0x1000
  directMapBase := osDirectMapBase
  directMapSize := osEarlyDirectMapSize

/-- Its two pages are the usable ones. -/
theorem pmmInit_usable_smallBoot : validateBootInfo (some smallBoot) = .ok () ∧
    ∃ fuel, (∃ p, pmmInit fuel smallMachine = some (.ok p) ∧ (∀ k, k ∈ clearPages p ↔ UsablePage smallMachine k) ∧
        p.free = Set.ncard {k | UsablePage smallMachine k}) ∨
      (pmmInit fuel smallMachine = some (.error "PMM found no free pages") ∧ ∀ k, ¬UsablePage smallMachine k) := by
  have hv : validateBootInfo (some smallBoot) = .ok () := rfl
  refine ⟨hv, pmmInit_usable hv (by decide) ?_ (.inl (by decide))⟩
  rintro d ⟨i, -, rfl⟩
  show MemoryDescriptor.Fits ⟨efiConventionalMemory, 0x200000, 2⟩
  unfold MemoryDescriptor.Fits
  decide

/-- A kernel range without a byte, both of whose ends lie inside of a usable page. -/
def emptyKernelBoot : OsBootInfo :=
  { smallBoot with kernelPhysStart := 0x200800, kernelPhysEnd := 0x200800 }

/-- A map whose second offset wraps to its first one. -/
def endlessBoot : OsBootInfo :=
  { smallBoot with memoryMapSize := 0x8000000000000001, memoryDescriptorSize := 0x8000000000000000 }

lemma readMap_endlessBoot (fuel : ℕ) (p : Pmm) : readMap endlessBoot.toBootInfo fuel 0 p = none ∧
    readMap endlessBoot.toBootInfo fuel 0x8000000000000000 p = none := by
  induction fuel generalizing p with
  | zero => exact ⟨rfl, rfl⟩
  | succ fuel ih =>
    rw [readMap, readMap, if_pos (by decide), if_pos (by decide)]
    exact ⟨(ih _).2, (ih _).1⟩

/-- The page around an empty kernel range is not free, and a map near the end of the
address space is read forever. -/
theorem pmmInit_emptyKernel : validateBootInfo (some emptyKernelBoot) = .ok () ∧
    UsablePage emptyKernelBoot.toBootInfo 0x200 ∧
    (∃ p, pmmInit 2 emptyKernelBoot.toBootInfo = some (.ok p) ∧ bitmapTest p 0x200 = true) ∧
    validateBootInfo (some endlessBoot) = .ok () ∧
    ∀ fuel, pmmInit fuel endlessBoot.toBootInfo = none := by
  have hread : readMap emptyKernelBoot.toBootInfo 2 0 fullPmm =
      some (absorb fullPmm ⟨efiConventionalMemory, 0x200000, 2⟩) := by
    rw [readMap, if_pos (by decide), readMap, if_neg (by decide)]
    rfl
  refine ⟨rfl, ⟨by decide, ?_, ?_, ?_, ?_⟩, ?_, rfl, fun fuel => ?_⟩
  · refine ⟨_, ⟨0, by decide, rfl⟩, .inl rfl, ?_⟩
    show MemoryDescriptor.Contains ⟨efiConventionalMemory, 0x200000, 2⟩ 0x200
    unfold MemoryDescriptor.Contains
    decide
  · rintro ⟨a, h1, -, -, h4⟩
    simp only [pageSize] at h1
    omega
  · rintro ⟨a, -, -, h3, h4⟩
    exact absurd (lt_of_le_of_lt h3 h4) (by decide)
  · rintro ⟨a, h1, -, -, h4⟩
    have hroot : emptyKernelBoot.toBootInfo.pageTableRoot.toNat = 0x102000 := rfl
    rw [hroot] at h4
    simp only [pageSize] at h1 h4
    omega
  · have hfree : (reserve emptyKernelBoot.toBootInfo
        (absorb fullPmm ⟨efiConventionalMemory, 0x200000, 2⟩)).free = 1 := by decide +kernel
    refine ⟨_, by rw [pmmInit, hread, Option.map_some]; simp only [hfree, one_ne_zero, if_false]; rfl, ?_⟩
    decide +kernel
  · rw [pmmInit, (readMap_endlessBoot fuel fullPmm).1, Option.map_none]

end AetherOS.Mem
