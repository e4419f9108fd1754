import AetherOS.Pmm

/-!
# Page tables

The four-level x86-64 tables as the kernel edits them. Physical memory is a function
from addresses to 64-bit words, and a pointer into the direct map is known by the
physical address it stands for. Translation caches (`invlpg`, the switch of `cr3`) are
left out; a panic is an error with its message.
-/
namespace AetherOS.Mem
open Function Nat

abbrev pagePresent : ℕ := 0x001
abbrev pageWritable : ℕ := 0x002
abbrev pageLarge : ℕ := 0x080
abbrev pageMask : ℕ := 0x000ffffffffff000
abbrev indexMask : ℕ := 0x1ff
abbrev vmmUser : ℕ := 0x004

structure Vmm where
  words : ℕ → ℕ
  pmm : Pmm
  activePml4Phys : ℕ
  directMapSize : ℕ

def physToVirt (s : Vmm) (physicalAddress : ℕ) : Except String ℕ :=
  if s.directMapSize ≤ physicalAddress then throw "page table outside early direct map"
  else pure physicalAddress

/-- `table[index]` -/
abbrev Vmm.load (s : Vmm) (table index : ℕ) : ℕ := s.words (table + 8 * index)

/-- `table[index] = value` -/
def Vmm.store (s : Vmm) (table index value : ℕ) : Vmm :=
  { s with words := update s.words (table + 8 * index) value }

def pml4Index (virt : ℕ) : ℕ := (virt >>> 39) &&& indexMask
def pdptIndex (virt : ℕ) : ℕ := (virt >>> 30) &&& indexMask
def pdIndex (virt : ℕ) : ℕ := (virt >>> 21) &&& indexMask
def ptIndex (virt : ℕ) : ℕ := (virt >>> 12) &&& indexMask

/-- The physical address, or `none` where the source returns false. -/
def vmmVirtToPhys (s : Vmm) (virtualAddress : ℕ) : Except String (Option ℕ) := do
  let pml4 ← physToVirt s s.activePml4Phys
  let pml4e := s.load pml4 (pml4Index virtualAddress)
  if pml4e &&& pagePresent = 0 then return none
  let pdpt ← physToVirt s (pml4e &&& pageMask)
  let pdpte := s.load pdpt (pdptIndex virtualAddress)
  if pdpte &&& pagePresent = 0 then return none
  if pdpte &&& pageLarge ≠ 0 then
    return some ((pdpte &&& pageMask) + (virtualAddress &&& 0x3fffffff))
  let pd ← physToVirt s (pdpte &&& pageMask)
  let pde := s.load pd (pdIndex virtualAddress)
  if pde &&& pagePresent = 0 then return none
  if pde &&& pageLarge ≠ 0 then
    return some ((pde &&& pageMask) + (virtualAddress &&& 0x1fffff))
  let pt ← physToVirt s (pde &&& pageMask)
  let pte := s.load pt (ptIndex virtualAddress)
  if pte &&& pagePresent = 0 then return none
  return some ((pte &&& pageMask) + (virtualAddress &&& 0xfff))

/-- `for (i = 0; i < n; ++i) table[i] = 0` -/
def zeroEntries (s : Vmm) (table : ℕ) : ℕ → Vmm
  | 0 => s
  | n + 1 => (zeroEntries s table n).store table n 0

/-- Copy `n` entries from index `first` on. -/
def copyEntries (s : Vmm) (dst src first : ℕ) : ℕ → Vmm
  | 0 => s
  | n + 1 =>
    let s := copyEntries s dst src first n
    s.store dst (first + n) (s.load src (first + n))

/-- The child table, allocated if the entry is absent; `none` without a free page, or
when the entry is a large page. -/
def ensureTableIn (s : Vmm) (table index extraFlags : ℕ) : Except String (Option ℕ × Vmm) :=
  if s.load table index &&& pagePresent = 0 then
    let r := pmmAllocPage s.pmm
    if r.1 = allocFailed then return (none, s)
    else do
      let s := { s with pmm := r.2 }
      let child ← physToVirt s r.1
      let s := zeroEntries s child 512
      let s := s.store table index
        ((r.1 &&& pageMask) ||| pagePresent ||| pageWritable ||| extraFlags)
      let t ← physToVirt s (s.load table index &&& pageMask)
      return (some t, s)
  else if s.load table index &&& pageLarge ≠ 0 then return (none, s)
  else do
    let t ← physToVirt s (s.load table index &&& pageMask)
    return (some t, s)

def ensureTable (s : Vmm) (table index : ℕ) : Except String (Option ℕ × Vmm) :=
  ensureTableIn s table index 0

/-- The body that `vmm_map` and `vmm_space_map` share: descend from the root to the
last table, then write the entry. -/
def mapFrom (ensure : Vmm → ℕ → ℕ → Except String (Option ℕ × Vmm)) (s : Vmm)
    (root virt phys flags : ℕ) : Except String (Bool × Vmm) := do
  let pml4 ← physToVirt s root
  match ← ensure s pml4 (pml4Index virt) with
  | (none, s) => return (false, s)
  | (some pdpt, s) =>
    match ← ensure s pdpt (pdptIndex virt) with
    | (none, s) => return (false, s)
    | (some pd, s) =>
      match ← ensure s pd (pdIndex virt) with
      | (none, s) => return (false, s)
      | (some pt, s) =>
        return (true, s.store pt (ptIndex virt) ((phys &&& pageMask) ||| flags ||| pagePresent))

def vmmMap (s : Vmm) (virt phys flags : ℕ) : Except String (Bool × Vmm) :=
  mapFrom ensureTable s s.activePml4Phys virt phys flags

/-- The address of the last-level entry, `none` if a table on the way is absent or the
way ends at a large page. -/
def pteFor (s : Vmm) (virt : ℕ) : Except String (Option ℕ) := do
  let pml4 ← physToVirt s s.activePml4Phys
  let pml4e := s.load pml4 (pml4Index virt)
  if pml4e &&& pagePresent = 0 ∨ pml4e &&& pageLarge ≠ 0 then return none
  let pdpt ← physToVirt s (pml4e &&& pageMask)
  let pdpte := s.load pdpt (pdptIndex virt)
  if pdpte &&& pagePresent = 0 ∨ pdpte &&& pageLarge ≠ 0 then return none
  let pd ← physToVirt s (pdpte &&& pageMask)
  let pde := s.load pd (pdIndex virt)
  if pde &&& pagePresent = 0 ∨ pde &&& pageLarge ≠ 0 then return none
  let pt ← physToVirt s (pde &&& pageMask)
  return some (pt + 8 * ptIndex virt)

/-- `vmm_unmap` and `vmm_protect` rewrite a present last-level entry. -/
def editPte (s : Vmm) (virt : ℕ) (f : ℕ → ℕ) : Except String (Bool × Vmm) := do
  match ← pteFor s virt with
  | none => return (false, s)
  | some pte =>
    if s.words pte &&& pagePresent = 0 then return (false, s)
    else return (true, { s with words := update s.words pte (f (s.words pte)) })

def vmmUnmap (s : Vmm) (virt : ℕ) : Except String (Bool × Vmm) := editPte s virt fun _ => 0

def vmmProtect (s : Vmm) (virt flags : ℕ) : Except String (Bool × Vmm) :=
  editPte s virt fun pte => (pte &&& pageMask) ||| flags ||| pagePresent

/-! ## Address spaces -/

/-- 0 when there is no page. -/
def vmmSpaceCreate (s : Vmm) : Except String (ℕ × Vmm) :=
  let r := pmmAllocPage s.pmm
  if r.1 = allocFailed then return (0, s)
  else do
    let s := { s with pmm := r.2 }
    let newPml4 ← physToVirt s r.1
    let kernPml4 ← physToVirt s s.activePml4Phys
    let s := zeroEntries s newPml4 256
    let s := copyEntries s newPml4 kernPml4 256 256
    return (r.1, s)

/-- Mappings into the half that all spaces share are refused. -/
def vmmSpaceMap (s : Vmm) (pml4Phys virt phys flags : ℕ) : Except String (Bool × Vmm) :=
  if 256 ≤ pml4Index virt then return (false, s)
  else
    let userFlag := if flags &&& vmmUser ≠ 0 then vmmUser else 0
    mapFrom (fun s table index => ensureTableIn s table index userFlag) s pml4Phys virt phys flags

def freePage (s : Vmm) (physicalAddress : ℕ) : Except String Vmm := do
  let p ← pmmFreePage s.pmm physicalAddress
  return { s with pmm := p }

/-- The innermost loop of `vmm_space_destroy`: the pages mapped by a last-level table. -/
def destroyPt (s : Vmm) (pt : ℕ) : Except String Vmm :=
  (List.range 512).foldlM (fun s pti =>
    if s.load pt pti &&& pagePresent ≠ 0 then freePage s (s.load pt pti &&& pageMask) else pure s) s

/-- The two loops around it: a large page is freed, and a table after what is below it. -/
def destroyTable (inner : Vmm → ℕ → Except String Vmm) (s : Vmm) (table : ℕ) : Except String Vmm :=
  (List.range 512).foldlM (fun s i =>
    if s.load table i &&& pagePresent = 0 then pure s
    else if s.load table i &&& pageLarge ≠ 0 then freePage s (s.load table i &&& pageMask)
    else do
      let childPhys := s.load table i &&& pageMask
      let child ← physToVirt s childPhys
      let s ← inner s child
      freePage s childPhys) s

def destroyPd : Vmm → ℕ → Except String Vmm := destroyTable destroyPt

def destroyPdpt : Vmm → ℕ → Except String Vmm := destroyTable destroyPd

/-- The outermost loop, over the user half of the root. -/
def destroyUserHalf (s : Vmm) (pml4 : ℕ) : Except String Vmm :=
  (List.range 256).foldlM (fun s pml4i =>
    if s.load pml4 pml4i &&& pagePresent = 0 then pure s
    else do
      let pdptPhys := s.load pml4 pml4i &&& pageMask
      let pdpt ← physToVirt s pdptPhys
      let s ← destroyPdpt s pdpt
      freePage s pdptPhys) s

def vmmSpaceDestroy (s : Vmm) (pml4Phys : ℕ) : Except String Vmm :=
  if pml4Phys = 0 ∨ pml4Phys = s.activePml4Phys then return s
  else do
    let pml4 ← physToVirt s pml4Phys
    let s ← destroyUserHalf s pml4
    freePage s pml4Phys

/-! ## Words and indices -/

section

variable (s : Vmm) {a i j t u : ℕ}

lemma and_mask_shift (x n : ℕ) : x &&& (2 ^ n - 1) <<< 12 = x / 2 ^ 12 % 2 ^ n * 2 ^ 12 := by
  rw [← shiftRight_eq_div_pow, ← and_two_pow_sub_one_eq_mod, ← shiftLeft_eq]
  apply eq_of_testBit_eq
  intro i
  simp only [testBit_and, testBit_shiftLeft, testBit_shiftRight]
  by_cases hi : 12 ≤ i
  · simp [hi]
  · simp [hi]

lemma and_pageMask (x : ℕ) : x &&& pageMask = x / 2 ^ 12 % 2 ^ 40 * 2 ^ 12 := by
  have hmask : pageMask = (2 ^ 40 - 1) <<< 12 := by decide
  rw [hmask, and_mask_shift]

lemma and_indexMask (x k : ℕ) : (x >>> k) &&& indexMask = x / 2 ^ k % 512 := by
  have hmask : indexMask = 2 ^ 9 - 1 := by decide
  rw [hmask, and_two_pow_sub_one_eq_mod, shiftRight_eq_div_pow]

lemma entry_and_pageMask {x flags : ℕ} (hflags : flags &&& pageMask = 0) :
    ((x &&& pageMask) ||| flags ||| pagePresent) &&& pageMask = x &&& pageMask := by
  have hp : pagePresent &&& pageMask = 0 := by decide
  rw [and_or_distrib_right, and_or_distrib_right, hflags, hp, Nat.and_assoc, Nat.and_self,
    or_zero, or_zero]

lemma or_and_ne_zero {x y m : ℕ} (h : x &&& m ≠ 0 ∨ y &&& m ≠ 0) : (x ||| y) &&& m ≠ 0 := by
  rw [and_or_distrib_right]
  exact fun h0 => h.elim (· (or_eq_zero_iff.mp h0).1) (· (or_eq_zero_iff.mp h0).2)

lemma load_store_self (t i x : ℕ) : (s.store t i x).load t i = x := by simp [Vmm.load, Vmm.store]

lemma slot_ne (ht : t % 4096 = 0) (hu : u % 4096 = 0) (hi : i < 512) (hj : j < 512)
    (hne : t ≠ u ∨ i ≠ j) : t + 8 * i ≠ u + 8 * j := by omega

lemma load_store_of_ne (x : ℕ) (hne : u + 8 * j ≠ t + 8 * i) : (s.store t i x).load u j = s.load u j := by
  simp [Vmm.load, Vmm.store, hne]

@[simp] lemma store_pmm (t i x : ℕ) : (s.store t i x).pmm = s.pmm := rfl
@[simp] lemma store_activePml4Phys (t i x : ℕ) :
    (s.store t i x).activePml4Phys = s.activePml4Phys := rfl
@[simp] lemma store_directMapSize (t i x : ℕ) : (s.store t i x).directMapSize = s.directMapSize := rfl

lemma zeroEntries_frame (t n : ℕ) : (zeroEntries s t n).pmm = s.pmm ∧
    (zeroEntries s t n).activePml4Phys = s.activePml4Phys ∧
    (zeroEntries s t n).directMapSize = s.directMapSize := by
  induction n with
  | zero => exact ⟨rfl, rfl, rfl⟩
  | succ n ih => exact ih

lemma zeroEntries_load (t n : ℕ) (hi : i < n) : (zeroEntries s t n).load t i = 0 := by
  induction n with
  | zero => exact absurd hi (Nat.not_lt_zero i)
  | succ n ih =>
    simp only [zeroEntries]
    by_cases he : i = n
    · rw [he, load_store_self]
    · rw [load_store_of_ne _ _ (by omega), ih (by omega)]

lemma zeroEntries_outside (t n : ℕ) (ha : a < t ∨ t + 8 * n ≤ a) : (zeroEntries s t n).words a = s.words a := by
  induction n with
  | zero => rfl
  | succ n ih =>
    have hne : a ≠ t + 8 * n := by omega
    simp only [zeroEntries, Vmm.store, update_of_ne hne]
    exact ih (by omega)

lemma copyEntries_frame (dst src first n : ℕ) : (copyEntries s dst src first n).pmm = s.pmm ∧
    (copyEntries s dst src first n).activePml4Phys = s.activePml4Phys ∧
    (copyEntries s dst src first n).directMapSize = s.directMapSize := by
  induction n with
  | zero => exact ⟨rfl, rfl, rfl⟩
  | succ n ih => exact ih

lemma copyEntries_outside (dst src first n : ℕ) (ha : a < dst + 8 * first ∨ dst + 8 * (first + n) ≤ a) :
    (copyEntries s dst src first n).words a = s.words a := by
  induction n with
  | zero => rfl
  | succ n ih =>
    have hne : a ≠ dst + 8 * (first + n) := by omega
    simp only [copyEntries, Vmm.store, update_of_ne hne]
    exact ih (by omega)

lemma physToVirt_of_lt (h : a < s.directMapSize) : physToVirt s a = .ok a := by
  simp [physToVirt, Nat.not_le.mpr h, pure, Except.pure]

end

end AetherOS.Mem
