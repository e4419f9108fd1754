import Mathlib.Data.Finset.Card
import Mathlib.Data.Finset.Range
import Mathlib.Tactic.SplitIfs
import AetherOS.Pmm
import AetherOS.Runs

/-!
# The life of the page allocator

`pmm_init` starts with every page in use, frees the ranges that the memory map of the
firmware calls usable, and takes back low memory, the kernel and the root page table. The
counter of free pages is a variable of its own that every update of the bitmap has to keep
in step.
-/
namespace AetherOS.Mem
open Runs Nat Finset

/-! ## Initialisation -/

def bitmapSet (p : Pmm) (page : ℕ) : Pmm :=
  let word := p.bitmap (page / wordBits)
  { p with bitmap := Function.update p.bitmap (page / wordBits) (word ||| 1#64 <<< (page % wordBits)) }

/-- The loop of `mark_range_free` over the next `n` pages. -/
def freePages : ℕ → ℕ → Pmm → Pmm
  | 0, _, p => p
  | n + 1, page, p =>
    freePages n (page + 1)
      (if bitmapTest p page then { bitmapClear p page with free := (p.free + 1) % 2 ^ 64 } else p)

def markRangeFree (p : Pmm) (start stop : ℕ) : Pmm :=
  if maxPhysBytes ≤ start then p
  else
    let stop := if stop > maxPhysBytes then maxPhysBytes else stop
    let firstPage := (start + pageSize - 1) / pageSize
    let lastPage := stop / pageSize
    freePages (lastPage - firstPage) firstPage p

/-- The loop of `mark_range_used` over the next `n` pages. -/
def usePages : ℕ → ℕ → Pmm → Pmm
  | 0, _, p => p
  | n + 1, page, p =>
    usePages n (page + 1)
      (if !bitmapTest p page then { bitmapSet p page with free := (p.free + 2 ^ 64 - 1) % 2 ^ 64 } else p)

def markRangeUsed (p : Pmm) (start stop : ℕ) : Pmm :=
  if maxPhysBytes ≤ start then p
  else
    let stop := if stop > maxPhysBytes then maxPhysBytes else stop
    let firstPage := start / pageSize
    let lastPage := (stop + pageSize - 1) / pageSize
    usePages (lastPage - firstPage) firstPage p

structure MemoryDescriptor where
  type : UInt32
  physicalStart : UInt64
  numberOfPages : UInt64
  deriving DecidableEq, Repr

def efiLoaderCode : UInt32 := 1
def efiBootServicesCode : UInt32 := 3
def efiBootServicesData : UInt32 := 4
def efiConventionalMemory : UInt32 := 7

/-- What `pmm_init` reads of the boot information; `memoryMap` is the descriptor at an offset
into the memory map. -/
structure BootInfo where
  memoryMap : UInt64 → MemoryDescriptor
  memoryMapSize : UInt64
  memoryDescriptorSize : UInt64
  kernelPhysStart : UInt64
  kernelPhysEnd : UInt64
  pageTableRoot : UInt64

/-- The body of the loop over the memory map. -/
def absorb (p : Pmm) (desc : MemoryDescriptor) : Pmm :=
  if desc.type = efiConventionalMemory ∨ desc.type = efiLoaderCode ∨ desc.type = efiBootServicesCode ∨
      desc.type = efiBootServicesData then
    markRangeFree p desc.physicalStart.toNat (desc.physicalStart + desc.numberOfPages * 4096).toNat
  else p

/-- The loop over the memory map, `none` when the fuel does not suffice. -/
def readMap (b : BootInfo) : ℕ → UInt64 → Pmm → Option Pmm
  | 0, _, _ => none
  | fuel + 1, offset, p =>
    if offset < b.memoryMapSize then
      readMap b fuel (offset + b.memoryDescriptorSize) (absorb p (b.memoryMap offset))
    else some p

/-- Every page in use. -/
def fullPmm : Pmm := ⟨fun _ => BitVec.allOnes 64, 0⟩

/-- The ranges that are in use whatever the memory map says. -/
def reserve (b : BootInfo) (p : Pmm) : Pmm :=
  let p := markRangeUsed p 0 0x100000
  let p := markRangeUsed p b.kernelPhysStart.toNat b.kernelPhysEnd.toNat
  markRangeUsed p b.pageTableRoot.toNat (b.pageTableRoot + 4096).toNat

def pmmInit (fuel : ℕ) (b : BootInfo) : Option (Except String Pmm) :=
  (readMap b fuel 0 fullPmm).map fun p =>
    let p := reserve b p
    if p.free = 0 then throw "PMM found no free pages" else pure p

/-! ## The counter and the bitmap -/

/-- The pages whose bit is clear. -/
def clearPages (p : Pmm) : Finset ℕ := {k ∈ Finset.range maxPages | bitmapTest p k = false}

lemma mem_clearPages {p : Pmm} {k : ℕ} : k ∈ clearPages p ↔ k < maxPages ∧ bitmapTest p k = false := by
  rw [clearPages, mem_filter, mem_range]

lemma card_clearPages_le (p : Pmm) : (clearPages p).card ≤ maxPages := by
  have h := card_filter_le (Finset.range maxPages) fun k => bitmapTest p k = false
  rwa [card_range] at h

/-- The counter is the number of clear bits. -/
def Counted (p : Pmm) : Prop := p.free = (clearPages p).card

section

variable {p p' : Pmm} {k n fuel : ℕ} {b : BootInfo}

lemma card_clearPages_take (hk : k < maxPages) (hfree : bitmapTest p k = false)
    (hset : ∀ q, bitmapTest p' q = (bitmapTest p q || decide (q = k))) :
    (clearPages p').card + 1 = (clearPages p).card := by
  have herase : clearPages p' = (clearPages p).erase k := by
    ext q
    rw [mem_erase, mem_clearPages, mem_clearPages, hset q, Bool.or_eq_false_iff, decide_eq_false_iff_not]
    tauto
  rw [herase]
  exact card_erase_add_one (mem_clearPages.mpr ⟨hk, hfree⟩)

lemma bitmapTest_setFree (p : Pmm) (n q : ℕ) : bitmapTest { p with free := n } q = bitmapTest p q := rfl

lemma bitmapTest_bitmapSet (p : Pmm) (k q : ℕ) :
    bitmapTest (bitmapSet p k) q = (bitmapTest p q || decide (q = k)) := by
  have hk : k / wordBits * wordBits + k % wordBits = k := div_add_mod' k wordBits
  have hset : bitmapTest (bitmapSet p k) q =
      (bitmapTest p q || decide (q = k / wordBits * wordBits + k % wordBits)) :=
    bitmapTest_or p q (mod_lt k (by decide)) p.free
  rw [hset, hk]

lemma bitmapTest_fullPmm (q : ℕ) : bitmapTest fullPmm q = true := by
  rw [bitmapTest_eq, fullPmm, BitVec.getLsbD_allOnes]
  exact decide_eq_true (mod_lt q (by decide))

lemma counted_fullPmm : Counted fullPmm := by
  have hempty : clearPages fullPmm = ∅ := by
    ext q
    rw [mem_clearPages, bitmapTest_fullPmm]
    simp
  rw [Counted, hempty]
  rfl

section

variable (h : Counted p)
include h

lemma Counted.le : p.free ≤ maxPages := by
  rw [h]
  exact card_clearPages_le p

lemma Counted.take (p' : Pmm) (hk : k < maxPages) (hfree : bitmapTest p k = false)
    (hset : ∀ q, bitmapTest p' q = (bitmapTest p q || decide (q = k)))
    (hcount : p'.free = (p.free + 2 ^ 64 - 1) % 2 ^ 64) : Counted p' ∧ p'.free + 1 = p.free := by
  have hcard := card_clearPages_take hk hfree hset
  have hle := h.le
  have hp : p.free = (clearPages p).card := h
  simp only [maxPages] at hle
  have hdec : p'.free + 1 = p.free := by omega
  refine ⟨?_, hdec⟩
  unfold Counted
  omega

lemma Counted.give (p' : Pmm) (hk : k < maxPages) (hused : bitmapTest p k = true)
    (hclear : ∀ q, bitmapTest p' q = (bitmapTest p q && decide (q ≠ k)))
    (hcount : p'.free = (p.free + 1) % 2 ^ 64) : Counted p' ∧ p'.free = p.free + 1 := by
  have hfree : bitmapTest p' k = false := by simp [hclear]
  have hback : ∀ q, bitmapTest p q = (bitmapTest p' q || decide (q = k)) := by
    intro q
    rw [hclear]
    by_cases hq : q = k
    · subst hq
      simp [hused]
    · simp [hq]
  have hcard := card_clearPages_take hk hfree hback
  have hle := h.le
  have hp : p.free = (clearPages p).card := h
  simp only [maxPages] at hle
  have hinc : p'.free = p.free + 1 := by
    rw [hcount, mod_eq_of_lt]
    omega
  refine ⟨?_, hinc⟩
  unfold Counted
  omega

lemma Counted.freePages (hn : k + n ≤ maxPages) : Counted (freePages n k p) := by
  induction n generalizing k p with
  | zero => exact h
  | succ n ih =>
    rw [Mem.freePages]
    have hk : k < maxPages := by omega
    apply ih _ (by omega)
    split_ifs with hused
    · exact (h.give { bitmapClear p k with free := (p.free + 1) % 2 ^ 64 } hk hused
        (fun q => bitmapTest_clear p k q) rfl).1
    · exact h

lemma Counted.usePages (hn : k + n ≤ maxPages) : Counted (usePages n k p) := by
  induction n generalizing k p with
  | zero => exact h
  | succ n ih =>
    rw [Mem.usePages]
    have hk : k < maxPages := by omega
    apply ih _ (by omega)
    split_ifs with hfree
    · exact (h.take { bitmapSet p k with free := (p.free + 2 ^ 64 - 1) % 2 ^ 64 } hk (by simpa using hfree)
        (fun q => (bitmapTest_setFree (bitmapSet p k) _ q).trans (bitmapTest_bitmapSet p k q)) rfl).1
    · exact h

lemma Counted.markRangeFree (start stop : ℕ) : Counted (markRangeFree p start stop) := by
  unfold Mem.markRangeFree
  split_ifs with hstart hstop
  · exact h
  all_goals
    apply h.freePages
    simp only [maxPhysBytes, pageSize, maxPages] at hstart hstop ⊢
    omega

lemma Counted.markRangeUsed (start stop : ℕ) : Counted (markRangeUsed p start stop) := by
  unfold Mem.markRangeUsed
  split_ifs with hstart hstop
  · exact h
  all_goals
    apply h.usePages
    simp only [maxPhysBytes, pageSize, maxPages] at hstart hstop ⊢
    omega

lemma Counted.readMap {offset : UInt64} (hp : readMap b fuel offset p = some p') : Counted p' := by
  induction fuel generalizing offset p with
  | zero => cases hp
  | succ fuel ih =>
    rw [Mem.readMap] at hp
    split_ifs at hp with hlt
    · refine ih ?_ hp
      unfold absorb
      split_ifs
      · exact h.markRangeFree _ _
      · exact h
    · cases hp
      exact h

lemma Counted.reserve (b : BootInfo) : Counted (reserve b p) :=
  ((h.markRangeUsed _ _).markRangeUsed _ _).markRangeUsed _ _

end

/-- After its initialisation the allocator counts right. -/
theorem counted_of_pmmInit (h : pmmInit fuel b = some (.ok p)) : Counted p := by
  obtain ⟨p1, hp1, hp⟩ := Option.map_eq_some_iff.mp h
  have hread := counted_fullPmm.readMap hp1
  simp only at hp
  split_ifs at hp with hzero
  cases hp
  exact hread.reserve b

end

/-! ## Runs -/

/-- The allocator and the pages that were handed out and not given back. -/
structure PmmRun where
  pmm : Pmm
  live : List ℕ

inductive PmmAction where
  | alloc
  | free (physicalAddress : ℕ)

/-- A call that returns; one that panics has no state after it. -/
def PmmRun.perform (s : PmmRun) : PmmAction → Option PmmRun
  | .alloc =>
    let r := pmmAllocPage s.pmm
    some ⟨r.2, if r.1 = allocFailed then s.live else r.1 :: s.live⟩
  | .free a =>
    match pmmFreePage s.pmm a with
    | .error _ => none
    | .ok p => some ⟨p, s.live.filter (· ≠ a)⟩

def pmmStep (s : PmmRun) (a : PmmAction) (s' : PmmRun) : Prop := s.perform a = some s'

/-- The allocator as `pmm_init` leaves it. -/
def PmmStart (s : PmmRun) : Prop := (∃ fuel b, pmmInit fuel b = some (.ok s.pmm)) ∧ s.live = []

/-- What holds of the allocator and of the next call. -/
structure PmmCorrect (s : PmmRun) : Prop where
  counted : s.pmm.free = (clearPages s.pmm).card
  le : s.pmm.free ≤ maxPages
  alloc_fails : (pmmAllocPage s.pmm).1 = allocFailed ↔ clearPages s.pmm = ∅
  alloc_page : ∀ a p, pmmAllocPage s.pmm = (a, p) → a ≠ allocFailed → a % pageSize = 0 ∧ a < maxPhysBytes ∧
    bitmapTest s.pmm (a / pageSize) = false ∧ a ∉ s.live ∧ p.free + 1 = s.pmm.free
  free_panics : ∀ a, (∃ e, pmmFreePage s.pmm a = .error e) ↔
    a % pageSize ≠ 0 ∨ maxPhysBytes ≤ a ∨ bitmapTest s.pmm (a / pageSize) = false
  free_page : ∀ a p, pmmFreePage s.pmm a = .ok p → p.free = s.pmm.free + 1

/-- The counter is right and the pages handed out are in use. -/
structure PmmInv (s : PmmRun) : Prop where
  counted : Counted s.pmm
  live : ∀ a ∈ s.live, a % pageSize = 0 ∧ bitmapTest s.pmm (a / pageSize) = true

section

variable {s s' : PmmRun} {p p' : Pmm} {a : ℕ}

lemma mul_pageSize_ne_allocFailed {k : ℕ} (hk : k < maxPages) : k * pageSize ≠ allocFailed := by
  simp only [maxPages, pageSize, allocFailed] at hk ⊢
  omega

lemma pmmAllocPage_free (h : pmmAllocPage p = (a, p')) (hne : a ≠ allocFailed) :
    p'.free = (p.free + 2 ^ 64 - 1) % 2 ^ 64 := by
  unfold pmmAllocPage at h
  split at h
  · exact absurd (congrArg Prod.fst h).symm hne
  · obtain ⟨-, hp⟩ := Prod.mk.inj h
    rw [← hp]

lemma pmmFreePage_cases (p : Pmm) (a : ℕ) :
    (∃ e, pmmFreePage p a = .error e) ∧ (a % pageSize ≠ 0 ∨ maxPhysBytes ≤ a ∨ bitmapTest p (a / pageSize) = false) ∨
      pmmFreePage p a = .ok { bitmapClear p (a / pageSize) with free := (p.free + 1) % 2 ^ 64 } ∧
        a % pageSize = 0 ∧ a < maxPhysBytes ∧ bitmapTest p (a / pageSize) = true := by
  unfold pmmFreePage
  split_ifs with hguard
  · exact .inl ⟨⟨_, rfl⟩, hguard.imp_right Or.inl⟩
  obtain ⟨halign, hrange⟩ := not_or.mp hguard
  simp only
  split_ifs with hfree
  · exact .inl ⟨⟨_, rfl⟩, .inr (.inr (by simpa using hfree))⟩
  · exact .inr ⟨rfl, not_not.mp halign, Nat.lt_of_not_le hrange, by simpa using hfree⟩

lemma PmmInv.alloc (h : PmmInv s) : (pmmAllocPage s.pmm = (allocFailed, s.pmm) ∧ clearPages s.pmm = ∅) ∨
    ∃ k p, pmmAllocPage s.pmm = (k * pageSize, p) ∧ k < maxPages ∧ bitmapTest s.pmm k = false ∧
      (∀ q, bitmapTest p q = (bitmapTest s.pmm q || decide (q = k))) ∧ Counted p ∧ p.free + 1 = s.pmm.free := by
  rcases pmmAllocPage_spec s.pmm with ⟨hfail, hfull⟩ | ⟨k, p, hpage, hk, hclear, hset⟩
  · refine .inl ⟨hfail, ?_⟩
    ext k
    rw [mem_clearPages]
    constructor
    · rintro ⟨hk, hclear⟩
      exact absurd ((hfull k hk).symm.trans hclear) (by decide)
    · intro hk
      cases hk
  · have hcount := pmmAllocPage_free hpage (mul_pageSize_ne_allocFailed hk)
    obtain ⟨hp, hdec⟩ := h.counted.take p hk hclear hset hcount
    exact .inr ⟨k, p, hpage, hk, hclear, hset, hp, hdec⟩

lemma PmmInv.free (h : PmmInv s) (hp : pmmFreePage s.pmm a = .ok p) :
    Counted p ∧ p.free = s.pmm.free + 1 ∧ a % pageSize = 0 ∧
      ∀ q, bitmapTest p q = (bitmapTest s.pmm q && decide (q ≠ a / pageSize)) := by
  rcases pmmFreePage_cases s.pmm a with ⟨⟨e, he⟩, -⟩ | ⟨hok, halign, hrange, hused⟩
  · rw [he] at hp
    cases hp
  rw [hok] at hp
  obtain rfl := Except.ok.inj hp
  have hpage : a / pageSize < maxPages := by
    simp only [maxPages, maxPhysBytes, pageSize] at hrange ⊢
    omega
  obtain ⟨hcounted, hinc⟩ := h.counted.give
    { bitmapClear s.pmm (a / pageSize) with free := (s.pmm.free + 1) % 2 ^ 64 } hpage hused
    (fun q => bitmapTest_clear s.pmm _ q) rfl
  exact ⟨hcounted, hinc, halign, fun q => bitmapTest_clear s.pmm _ q⟩

theorem PmmInv.step {act : PmmAction} (h : PmmInv s) (hs : pmmStep s act s') : PmmInv s' := by
  cases act with
  | alloc =>
    cases hs
    rcases h.alloc with ⟨hfail, -⟩ | ⟨k, p, hpage, hk, hclear, hset, hp, -⟩
    · rw [hfail]
      exact h
    rw [hpage]
    simp only [if_neg (mul_pageSize_ne_allocFailed hk)]
    refine ⟨hp, fun a ha => ?_⟩
    rw [hset]
    rcases List.mem_cons.mp ha with rfl | ha
    · have hdiv : k * pageSize / pageSize = k := Nat.mul_div_cancel k (by decide)
      rw [hdiv, decide_eq_true rfl, Bool.or_true]
      exact ⟨mul_mod_left k pageSize, rfl⟩
    obtain ⟨halign, hused⟩ := h.live a ha
    rw [hused, Bool.true_or]
    exact ⟨halign, rfl⟩
  | free a =>
    simp only [pmmStep, PmmRun.perform] at hs
    split at hs
    · cases hs
    rename_i p hp
    cases hs
    obtain ⟨hcounted, -, halign, hclear⟩ := h.free hp
    refine ⟨hcounted, fun b hb => ?_⟩
    obtain ⟨hb, hne⟩ := List.mem_filter.mp hb
    obtain ⟨hbalign, hused⟩ := h.live b hb
    -- aligned addresses of one page are equal
    have hpage : b / pageSize ≠ a / pageSize := by
      simp only [pageSize, ne_eq, decide_not, Bool.not_eq_true', decide_eq_false_iff_not] at halign hbalign hne ⊢
      omega
    rw [hclear, hused, decide_eq_true hpage]
    exact ⟨hbalign, rfl⟩

theorem PmmInv.correct (h : PmmInv s) : PmmCorrect s where
  counted := h.counted
  le := h.counted.le
  alloc_fails := by
    rcases h.alloc with ⟨hfail, hnone⟩ | ⟨k, p, hpage, hk, hclear, -⟩
    · exact iff_of_true (congrArg Prod.fst hfail) hnone
    refine iff_of_false ?_ fun hnone => ?_
    · rw [hpage]
      exact mul_pageSize_ne_allocFailed hk
    have hmem := mem_clearPages.mpr ⟨hk, hclear⟩
    rw [hnone] at hmem
    cases hmem
  alloc_page a p hp hne := by
    rcases h.alloc with ⟨hfail, -⟩ | ⟨k, p', hpage, hk, hclear, -, -, hdec⟩
    · exact absurd (congrArg Prod.fst (hp.symm.trans hfail)) hne
    obtain ⟨rfl, rfl⟩ := Prod.mk.inj (hp.symm.trans hpage)
    have hdiv : k * pageSize / pageSize = k := Nat.mul_div_cancel k (by decide)
    refine ⟨mul_mod_left k pageSize, ?_, hdiv.symm ▸ hclear, fun hlive => ?_, hdec⟩
    · simp only [maxPages, maxPhysBytes, pageSize] at hk ⊢
      omega
    have hused := (h.live _ hlive).2
    rw [hdiv, hclear] at hused
    cases hused
  free_panics a := by
    rcases pmmFreePage_cases s.pmm a with ⟨he, hbad⟩ | ⟨hok, halign, hrange, hused⟩
    · exact iff_of_true he hbad
    refine iff_of_false ?_ ?_
    · rintro ⟨e, he⟩
      rw [hok] at he
      cases he
    rintro (hbad | hbad | hbad)
    · exact hbad halign
    · omega
    · rw [hused] at hbad
      cases hbad
  free_page a p hp := (h.free hp).2.1

end

/-- After `pmm_init` and any calls that do not panic, the allocator is correct. -/
theorem pmm_correct_of_reachable {s : PmmRun} (hr : Reachable pmmStep PmmStart s) : PmmCorrect s := by
  have hinv : PmmInv s := by
    refine Reachable.invariant (I := PmmInv) (fun s hs => ?_) (fun s a s' h hs => h.step hs) hr
    obtain ⟨⟨fuel, b, hinit⟩, hlive⟩ := hs
    refine ⟨counted_of_pmmInit hinit, fun a ha => ?_⟩
    rw [hlive] at ha
    cases ha
  exact hinv.correct

/-- A machine with two usable pages above the kernel. -/
def smallMachine : BootInfo where
  memoryMap _ := ⟨efiConventionalMemory, 0x200000, 2⟩
  memoryMapSize := 40
  memoryDescriptorSize := 40
  kernelPhysStart := 0x100000
  kernelPhysEnd := 0x101000
  pageTableRoot := 0x102000

/-- One of the two pages is handed out. -/
theorem pmm_correct_smallMachine : ∃ p, pmmInit 2 smallMachine = some (.ok p) ∧
    (pmmAllocPage p).1 = 0x200000 ∧ PmmCorrect ⟨(pmmAllocPage p).2, [0x200000]⟩ := by
  have hfree : (reserve smallMachine (absorb fullPmm (smallMachine.memoryMap 0))).free = 2 := by
    decide +kernel
  have hpage : (pmmAllocPage (reserve smallMachine (absorb fullPmm (smallMachine.memoryMap 0)))).1 = 0x200000 := by
    decide +kernel
  have hinit : pmmInit 2 smallMachine =
      some (.ok (reserve smallMachine (absorb fullPmm (smallMachine.memoryMap 0)))) := by
    have hread : readMap smallMachine 2 0 fullPmm = some (absorb fullPmm (smallMachine.memoryMap 0)) := by
      rw [readMap, if_pos (by decide), readMap, if_neg (by decide)]
    rw [pmmInit, hread, Option.map_some]
    simp only [hfree, if_neg (show ¬(2 : ℕ) = 0 by decide)]
    rfl
  generalize reserve smallMachine (absorb fullPmm (smallMachine.memoryMap 0)) = p at hinit hpage
  refine ⟨p, hinit, hpage, pmm_correct_of_reachable ?_⟩
  refine ⟨⟨p, []⟩, [.alloc], ⟨⟨2, smallMachine, hinit⟩, rfl⟩, .cons ?_ (.nil _)⟩
  have hne : (0x200000 : ℕ) ≠ allocFailed := by
    unfold allocFailed
    omega
  simp only [pmmStep, PmmRun.perform, hpage, if_neg hne]

end AetherOS.Mem
