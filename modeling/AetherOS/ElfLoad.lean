import AetherOS.ByteMemory
import AetherOS.SpaceExtension

/-!
# Loading a program

`elf_load` reads the headers of an ELF image, makes an address space, places the pages of the
segments and of the stack in it, and fills them from the image. The pages are written through
the direct map, so they are part of the memory that also holds the page tables; a byte is a
part of the word around it.

The loader keeps a trace of its accesses to the image and to pages, and of what it maps. A
null image is refused like one that is too short.
-/
namespace AetherOS.Elf
open Mem ByteMemory PointerTree Function Nat

section

/-- The byte at an address of a memory of 64-bit words. -/
def byteAt (words : ℕ → ℕ) (a : ℕ) : ℕ := words (a / 8 * 8) / 256 ^ (a % 8) % 256

/-- Replace byte `k` of a word. -/
def putByte (w k b : ℕ) : ℕ := w % 256 ^ k + 256 ^ k * (b + 256 * (w / 256 ^ (k + 1)))

def setByte (words : ℕ → ℕ) (a : ℕ) (b : UInt8) : ℕ → ℕ :=
  update words (a / 8 * 8) (putByte (words (a / 8 * 8)) (a % 8) b.toNat)

/-- `memcpy` -/
def copyBytes (words : ℕ → ℕ) (dst : ℕ) : List UInt8 → ℕ → ℕ
  | [] => words
  | b :: bs => copyBytes (setByte words dst b) (dst + 1) bs

lemma putByte_byte (w j k : ℕ) {b : ℕ} (hb : b < 256) :
    putByte w k b / 256 ^ j % 256 = if j = k then b else w / 256 ^ j % 256 := by
  have hlow : w % 256 ^ k < 256 ^ k := mod_lt _ (by positivity)
  have hhigh : putByte w k b / 256 ^ k = b + 256 * (w / 256 ^ (k + 1)) := by
    rw [putByte, add_mul_div_left _ _ (by positivity), div_eq_of_lt hlow, zero_add]
  rcases Nat.lt_trichotomy j k with hj | rfl | hj
  · -- below the byte: the rest of the word is a multiple of 256 times the place
    obtain ⟨m, rfl⟩ := Nat.exists_eq_add_of_lt hj
    have hpow : 256 ^ (j + m + 1) = 256 ^ j * (256 * 256 ^ m) := by ring
    rw [if_neg (by omega), putByte, hpow, mul_assoc, add_mul_div_left _ _ (by positivity),
      mod_mul_right_div_self, mul_assoc, add_mul_mod_self_left, mod_mul_right_mod]
  · rw [if_pos rfl, hhigh, add_mul_mod_self_left, mod_eq_of_lt hb]
  obtain ⟨m, rfl⟩ := Nat.exists_eq_add_of_lt hj
  have hpow : 256 ^ (k + m + 1) = 256 ^ k * 256 * 256 ^ m := by ring
  rw [if_neg (by omega), hpow, ← Nat.div_div_eq_div_mul, ← Nat.div_div_eq_div_mul, hhigh,
    add_mul_div_left _ _ (by decide), div_eq_of_lt hb, zero_add, Nat.pow_succ,
    Nat.div_div_eq_div_mul w]

lemma byteAt_setByte (words : ℕ → ℕ) (a c : ℕ) (b : UInt8) :
    byteAt (setByte words a b) c = if c = a then b.toNat else byteAt words c := by
  unfold byteAt setByte
  by_cases hword : c / 8 * 8 = a / 8 * 8
  · rw [hword, update_self, putByte_byte _ _ _ (UInt8.toNat_lt b)]
    by_cases hca : c = a
    · rw [if_pos hca, if_pos (by rw [hca])]
    · rw [if_neg hca, if_neg (by omega)]
  · rw [update_of_ne hword, if_neg (fun h => hword (by rw [h]))]

lemma byteAt_copyBytes (bs : List UInt8) (words : ℕ → ℕ) (dst c : ℕ) :
    byteAt (copyBytes words dst bs) c =
      if dst ≤ c ∧ c < dst + bs.length then (bs.getD (c - dst) 0).toNat else byteAt words c := by
  induction bs generalizing words dst with
  | nil =>
    rw [if_neg (by simp only [List.length_nil]; omega)]
    rfl
  | cons b bs ih =>
    rw [copyBytes, ih, byteAt_setByte]
    simp only [List.length_cons]
    by_cases hc : c = dst
    · subst hc
      rw [if_neg (by omega), if_pos rfl, if_pos (by omega), Nat.sub_self, List.getD_cons_zero]
    by_cases hin : dst + 1 ≤ c ∧ c < dst + 1 + bs.length
    · rw [if_pos hin, if_pos (by omega), show c - dst = (c - (dst + 1)) + 1 by omega, List.getD_cons_succ]
    · rw [if_neg hin, if_neg hc, if_neg (by omega)]

lemma copyBytes_outside (bs : List UInt8) (words : ℕ → ℕ) {page off x : ℕ} (hpage : page % 8 = 0)
    (hoff : off + bs.length ≤ pageSize) (hx : ¬(page ≤ x ∧ x < page + pageSize)) :
    copyBytes words (page + off) bs x = words x := by
  induction bs generalizing words off with
  | nil => rfl
  | cons b bs ih =>
    simp only [List.length_cons] at hoff
    have hne : x ≠ (page + off) / 8 * 8 := by
      simp only [pageSize] at hx hoff
      omega
    rw [copyBytes, add_assoc, ih _ (by omega), setByte, update_of_ne hne]

lemma byteAt_zeroEntries (s : Vmm) {page : ℕ} (hpage : page % 8 = 0) {o : ℕ} (ho : o < pageSize) :
    byteAt (zeroEntries s page 512).words (page + o) = 0 := by
  have hslot : (page + o) / 8 * 8 = page + 8 * (o / 8) := by omega
  have hzero : (zeroEntries s page 512).words (page + 8 * (o / 8)) = 0 :=
    zeroEntries_load s page 512 (by simp only [pageSize] at ho; omega)
  rw [byteAt, hslot, hzero, Nat.zero_div]

end

section

structure Elf64Ehdr where
  eIdent : List UInt8
  eType : ℕ
  eMachine : ℕ
  eEntry : ℕ
  ePhoff : ℕ
  ePhentsize : ℕ
  ePhnum : ℕ

structure Elf64Phdr where
  pType : ℕ
  pFlags : ℕ
  pOffset : ℕ
  pVaddr : ℕ
  pFilesz : ℕ
  pMemsz : ℕ
  deriving DecidableEq

abbrev ehdrSize : ℕ := 64
abbrev phdrSize : ℕ := 56

/-- A record in memory, from its bytes. -/
def record (bs : List UInt8) : ByteMemory.Mem := fun i => bs.getD i 0

def readEhdr (bs : List UInt8) : Elf64Ehdr where
  eIdent := bs.take 16
  eType := readLE (record bs) 2 16
  eMachine := readLE (record bs) 2 18
  eEntry := readLE (record bs) 8 24
  ePhoff := readLE (record bs) 8 32
  ePhentsize := readLE (record bs) 2 54
  ePhnum := readLE (record bs) 2 56

def readPhdr (bs : List UInt8) : Elf64Phdr where
  pType := readLE (record bs) 4 0
  pFlags := readLE (record bs) 4 4
  pOffset := readLE (record bs) 8 8
  pVaddr := readLE (record bs) 8 16
  pFilesz := readLE (record bs) 8 32
  pMemsz := readLE (record bs) 8 40

def elfClass64 : UInt8 := 2
def etExec : ℕ := 2
def emX86 : ℕ := 62
def ptLoad : ℕ := 1
def pfW : ℕ := 2

abbrev userStackPages : ℕ := 4
abbrev userStackTop : ℕ := 0x800000000000
abbrev userStackBase : ℕ := userStackTop - userStackPages * pageSize

/-- The checks of the ELF header. -/
def checkEhdr (eh : Elf64Ehdr) : Except String Unit :=
  if eh.eIdent.take 4 ≠ [0x7f, 69, 76, 70] then throw "elf: bad magic\n"
  else if eh.eIdent[4]? ≠ some elfClass64 then throw "elf: not ELF64\n"
  else if eh.eType ≠ etExec then throw "elf: not ET_EXEC\n"
  else if eh.eMachine ≠ emX86 then throw "elf: not x86-64\n"
  else if eh.ePhoff = 0 ∨ eh.ePhnum = 0 then throw "elf: no program headers\n"
  else pure ()

def phdrOff (eh : Elf64Ehdr) (i : ℕ) : ℕ := (eh.ePhoff + i * eh.ePhentsize) % 2 ^ 64

/-- The header lies in the image. -/
def PhdrFits (size : ℕ) (eh : Elf64Ehdr) (i : ℕ) : Prop :=
  ¬(phdrOff eh i < eh.ePhoff ∨ size < phdrOff eh i ∨ size - phdrOff eh i < phdrSize)

instance (size : ℕ) (eh : Elf64Ehdr) (i : ℕ) : Decidable (PhdrFits size eh i) := instDecidableNot

def vend (ph : Elf64Phdr) : ℕ := (ph.pVaddr + ph.pMemsz) % 2 ^ 64
def vbase (ph : Elf64Phdr) : ℕ := ph.pVaddr &&& (2 ^ 64 - pageSize)
def npages (ph : Elf64Phdr) : ℕ := (vend ph - vbase ph + pageSize - 1) / pageSize
def segmentFlags (ph : Elf64Phdr) : ℕ := if ph.pFlags &&& pfW ≠ 0 then vmmUser ||| pageWritable else vmmUser

/-- The checks of a program header: false when the segment is passed over. -/
def checkPhdr (size : ℕ) (ph : Elf64Phdr) : Except String Bool :=
  if ph.pType ≠ ptLoad ∨ ph.pMemsz = 0 then pure false
  else if size < ph.pOffset ∨ size - ph.pOffset < ph.pFilesz then throw "elf: segment file data out of bounds\n"
  else if vend ph < ph.pVaddr ∨ userStackTop ≤ ph.pVaddr ∨ userStackTop < vend ph then
    throw "elf: segment vaddr out of user range\n"
  else pure true

end

/-- What the loader does to the image, to its pages and to its space. -/
inductive Access where
  | read (off len : ℕ)
  | create (cr3 : ℕ)
  | write (page off len : ℕ)
  | map (virt phys flags : ℕ)
  deriving DecidableEq

structure Loader where
  vmm : Vmm
  trace : List Access

structure ElfLoadResult where
  entry : ℕ
  userSp : ℕ
  cr3 : ℕ
  deriving DecidableEq

variable (image : List UInt8)

def Loader.read (off len : ℕ) (s : Loader) : List UInt8 × Loader :=
  ((image.drop off).take len, { s with trace := s.trace ++ [.read off len] })

/-- `memset` of a page that was just allocated. -/
def Loader.clear (page : ℕ) (pmm : Pmm) (s : Loader) : Loader :=
  ⟨zeroEntries { s.vmm with pmm := pmm } page 512, s.trace ++ [.write page 0 pageSize]⟩

def Loader.copy (page off : ℕ) (data : List UInt8) (s : Loader) : Loader :=
  ⟨{ s.vmm with words := copyBytes s.vmm.words (page + off) data }, s.trace ++ [.write page off data.length]⟩

/-- Allocate a page, clear it, copy `len` bytes of the image to it and map it. -/
def placePage (cr3 virt flags off src len : ℕ) (noPage noMap : String) (s : Loader) :
    Except String (Except String Unit × Loader) :=
  let r := pmmAllocPage s.vmm.pmm
  if r.1 = allocFailed then return (.error noPage, s)
  else do
    let s := s.clear r.1 r.2
    let s := if 0 < len then (s.read image src len).2.copy r.1 off (s.read image src len).1 else s
    match ← vmmSpaceMap s.vmm cr3 virt r.1 flags with
    | (false, vmm) => return (.error noMap, ⟨vmm, s.trace ++ [.map virt r.1 flags]⟩)
    | (true, vmm) => return (.ok (), ⟨vmm, s.trace ++ [.map virt r.1 flags]⟩)

/-- The loop over the pages of a segment, from page `p` on with `left` bytes to copy. -/
def loadPages (cr3 : ℕ) (ph : Elf64Phdr) : ℕ → ℕ → ℕ → ℕ → Loader → Except String (Except String Unit × Loader)
  | 0, _, _, _, s => return (.ok (), s)
  | n + 1, p, src, left, s =>
    let off := if p = 0 then ph.pVaddr - vbase ph else 0
    let len := if left > pageSize - off then pageSize - off else left
    do
      match ← placePage image cr3 (vbase ph + p * pageSize) (segmentFlags ph) off src len
          "elf: pmm_alloc_page failed\n" "elf: vmm_space_map failed\n" s with
      | (.error m, s) => return (.error m, s)
      | (.ok (), s) => loadPages cr3 ph n (p + 1) (src + len) (left - len) s

def loadSegment (eh : Elf64Ehdr) (cr3 i : ℕ) (s : Loader) : Except String (Except String Unit × Loader) :=
  if PhdrFits image.length eh i then
    let r := s.read image (phdrOff eh i) phdrSize
    let ph := readPhdr r.1
    match checkPhdr image.length ph with
    | .error m => return (.error m, r.2)
    | .ok false => return (.ok (), r.2)
    | .ok true => loadPages image cr3 ph (npages ph) 0 ph.pOffset ph.pFilesz r.2
  else return (.error "elf: phdr out of bounds\n", s)

/-- The loop over the next `n` program headers, from header `i` on. -/
def loadSegments (eh : Elf64Ehdr) (cr3 : ℕ) : ℕ → ℕ → Loader → Except String (Except String Unit × Loader)
  | 0, _, s => return (.ok (), s)
  | n + 1, i, s => do
    match ← loadSegment image eh cr3 i s with
    | (.error m, s) => return (.error m, s)
    | (.ok (), s) => loadSegments eh cr3 n (i + 1) s

def loadStack (cr3 : ℕ) : ℕ → ℕ → Loader → Except String (Except String Unit × Loader)
  | 0, _, s => return (.ok (), s)
  | n + 1, p, s => do
    match ← placePage image cr3 (userStackBase + p * pageSize) (vmmUser ||| pageWritable) 0 0 0
        "elf: stack pmm_alloc failed\n" "elf: stack vmm_space_map failed\n" s with
    | (.error m, s) => return (.error m, s)
    | (.ok (), s) => loadStack cr3 n (p + 1) s

/-- The segments and the stack in a new space. -/
def loadInto (eh : Elf64Ehdr) (cr3 : ℕ) (s : Loader) : Except String (Except String ElfLoadResult × Loader) := do
  match ← loadSegments image eh cr3 eh.ePhnum 0 s with
  | (.error m, s) => return (.error m, s)
  | (.ok (), s) =>
    match ← loadStack image cr3 userStackPages 0 s with
    | (.error m, s) => return (.error m, s)
    | (.ok (), s) => return (.ok ⟨eh.eEntry, userStackTop - 16, cr3⟩, s)

/-- A kernel panic is an error. Where `elf_load` returns false, the result is the message that
it writes to the serial port. -/
def elfLoad (vmm : Vmm) : Except String (Except String ElfLoadResult × Loader) :=
  if image.length < ehdrSize then return (.error "elf: image too small\n", ⟨vmm, []⟩)
  else
    let r := Loader.read image 0 ehdrSize ⟨vmm, []⟩
    let eh := readEhdr r.1
    match checkEhdr eh with
    | .error m => return (.error m, r.2)
    | .ok () => do
      let (cr3, vmm) ← vmmSpaceCreate r.2.vmm
      if cr3 = 0 then return (.error "elf: vmm_space_create failed\n", ⟨vmm, r.2.trace⟩)
      else loadInto image eh cr3 ⟨vmm, r.2.trace ++ [.create cr3]⟩

end AetherOS.Elf
