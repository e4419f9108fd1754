import AetherOS.AddressMap
import AetherOS.ByteMemory

/-!
# The UEFI loader

`efi_main` checks the kernel file, builds the page tables that the kernel starts with and
loads the segments into memory. Memory is a function from addresses to 64-bit words, as for
the kernel's own tables, and the loader runs with the firmware's identity map, so that a
pointer is a physical address. `die` does not return: such a call is `none`. The console and
the frame buffer are left out. `boot_info` is kept as a record beside the page that is
allocated for it.
-/
namespace AetherOS.Boot
open Mem ByteMemory

abbrev earlyDirectMapSize : ℕ := 64 * 1024 * 1024 * 1024
abbrev kernelVmaBase : ℕ := 0xffffffff80000000
abbrev directMapBase : ℕ := 0xffff800000000000
abbrev twoMib : ℕ := 2 * 1024 * 1024

inductive AllocateType where
  | maxAddress (limit : ℕ)
  | address (a : ℕ)

/-- `AllocatePages`, given the ranges that it returned before, each with its address and its
number of pages. A range that it returns starts at a page other than 0, lies below 64 GiB and
is not part of an earlier one. -/
structure Firmware where
  allocatePages : List (ℕ × ℕ) → AllocateType → ℕ → Option ℕ
  aligned : ∀ {l ty n a}, allocatePages l ty n = some a → a % pageSize = 0
  nonzero : ∀ {l ty n a}, allocatePages l ty n = some a → a ≠ 0
  below : ∀ {l ty n a}, allocatePages l ty n = some a → a + n * pageSize ≤ earlyDirectMapSize
  fresh : ∀ {l ty n a}, allocatePages l ty n = some a →
    ∀ r ∈ l, a + n * pageSize ≤ r.1 ∨ r.1 + r.2 * pageSize ≤ a
  requested : ∀ {l b n a}, allocatePages l (.address b) n = some a → a = b

structure Loader where
  words : ℕ → ℕ
  allocated : List (ℕ × ℕ)

/-- `table[index]` -/
def Loader.load (s : Loader) (table index : ℕ) : ℕ := s.words (table + 8 * index)

/-- `table[index] = value` -/
def Loader.store (s : Loader) (table index value : ℕ) : Loader :=
  { s with words := Function.update s.words (table + 8 * index) value }

/-- The alignments are powers of two. -/
def alignDown (value alignment : ℕ) : ℕ := value / alignment * alignment

def alignUp (value alignment : ℕ) : ℕ := (value + alignment - 1) % 2 ^ 64 / alignment * alignment

/-- `mem_set(dest, 0, 8 * n)` -/
def zeroWords (words : ℕ → ℕ) (dest : ℕ) : ℕ → ℕ → ℕ
  | 0 => words
  | n + 1 => Function.update (zeroWords words dest n) (dest + 8 * n) 0

/-- `mem_copy(dest, src, count)` on the words that the bytes fall into. -/
def memCopy (words : ℕ → ℕ) (dest : ℕ) (src : ℕ → UInt8) (count : ℕ) : ℕ → ℕ := fun a =>
  if a + 8 ≤ dest ∨ dest + count ≤ a then words a
  else readLE (fun k =>
    if dest ≤ k ∧ k < dest + count then src (k - dest) else UInt8.ofNat (words a / 256 ^ (k - a))) 8 a

section

variable (fw : Firmware)

def allocLowPages (s : Loader) (pages : ℕ) : Option (ℕ × Loader) :=
  (fw.allocatePages s.allocated (.maxAddress (earlyDirectMapSize - pageSize)) pages).map fun address =>
    (address, ⟨zeroWords s.words address (pages * 512), (address, pages) :: s.allocated⟩)

def allocPageTable (s : Loader) : Option (ℕ × Loader) := allocLowPages fw s 1

def pageTableNext (s : Loader) (table index : ℕ) : Option (ℕ × Loader) :=
  if s.load table index &&& pagePresent = 0 then
    (allocPageTable fw s).map fun (next, s) =>
      let s := s.store table index ((next &&& pageMask) ||| pagePresent ||| pageWritable)
      (s.load table index &&& pageMask, s)
  else some (s.load table index &&& pageMask, s)

def map4kPage (s : Loader) (pml4 virt phys flags : ℕ) : Option Loader := do
  let (pdpt, s) ← pageTableNext fw s pml4 (pml4Index virt)
  let (pd, s) ← pageTableNext fw s pdpt (pdptIndex virt)
  let (pt, s) ← pageTableNext fw s pd (pdIndex virt)
  return s.store pt (ptIndex virt) ((phys &&& pageMask) ||| flags ||| pagePresent)

def map2mPage (s : Loader) (pml4 virt phys flags : ℕ) : Option Loader := do
  let (pdpt, s) ← pageTableNext fw s pml4 (pml4Index virt)
  let (pd, s) ← pageTableNext fw s pdpt (pdptIndex virt)
  return s.store pd (pdIndex virt) ((phys &&& pageMask) ||| flags ||| pagePresent ||| pageLarge)

/-- The loop of `map_4k_range` and `map_2m_range`, over `n` pages of `size` bytes. -/
def mapPages (mapPage : Loader → ℕ → ℕ → Option Loader) (s : Loader) (virt phys size : ℕ) (n : ℕ) : Option Loader :=
  (List.range n).foldlM (fun s i => mapPage s ((virt + i * size) % 2 ^ 64) ((phys + i * size) % 2 ^ 64)) s

def map4kRange (s : Loader) (pml4 virt phys size flags : ℕ) : Option Loader :=
  mapPages (fun s v p => map4kPage fw s pml4 v p flags) s virt phys pageSize (alignUp size pageSize / pageSize)

def map2mRange (s : Loader) (pml4 virt phys size flags : ℕ) : Option Loader :=
  mapPages (fun s v p => map2mPage fw s pml4 v p flags) s virt phys twoMib (alignUp size twoMib / twoMib)

end

/-! ## The kernel file -/

/-- The file in memory. Bytes after its end are whatever stands there. -/
structure KernelFile where
  bytes : Mem
  size : ℕ

structure Phdr where
  pType : ℕ
  pFlags : ℕ
  pOffset : ℕ
  pVaddr : ℕ
  pPaddr : ℕ
  pFilesz : ℕ
  pMemsz : ℕ

namespace KernelFile

variable (f : KernelFile)

def eIdent (i : ℕ) : ℕ := readLE f.bytes 1 i
def eType : ℕ := readLE f.bytes 2 16
def eMachine : ℕ := readLE f.bytes 2 18
def eVersion : ℕ := readLE f.bytes 4 20
def eEntry : ℕ := readLE f.bytes 8 24
def ePhoff : ℕ := readLE f.bytes 8 32
def ePhentsize : ℕ := readLE f.bytes 2 54
def ePhnum : ℕ := readLE f.bytes 2 56

/-- `phdrs[i]` -/
def phdr (i : ℕ) : Phdr :=
  let a := f.ePhoff + 56 * i
  { pType := readLE f.bytes 4 a
    pFlags := readLE f.bytes 4 (a + 4)
    pOffset := readLE f.bytes 8 (a + 8)
    pVaddr := readLE f.bytes 8 (a + 16)
    pPaddr := readLE f.bytes 8 (a + 24)
    pFilesz := readLE f.bytes 8 (a + 32)
    pMemsz := readLE f.bytes 8 (a + 40) }

end KernelFile

abbrev ptLoad : ℕ := 1
abbrev pfW : ℕ := 2

/-- `validate_kernel_elf` returns. -/
def validateKernelElf (f : KernelFile) : Bool :=
  let phEnd := (f.ePhoff + f.ePhnum * 56) % 2 ^ 64
  64 ≤ f.size ∧
    f.eIdent 0 = 0x7f ∧ f.eIdent 1 = 'E'.toNat ∧ f.eIdent 2 = 'L'.toNat ∧ f.eIdent 3 = 'F'.toNat ∧
    f.eIdent 4 = 2 ∧ f.eIdent 5 = 1 ∧ f.eIdent 6 = 1 ∧
    f.eType = 2 ∧ f.eMachine = 62 ∧ f.eVersion = 1 ∧
    f.ePhentsize = 56 ∧ f.ePhnum ≠ 0 ∧
    f.ePhoff < f.size ∧ phEnd ≤ f.size ∧
    kernelVmaBase ≤ f.eEntry

/-- The bounds that `load_kernel_segments` collects. -/
structure KernelRange where
  physStart : ℕ
  physEnd : ℕ
  virtStart : ℕ
  virtEnd : ℕ

section

variable (fw : Firmware) (f : KernelFile) (pml4 : ℕ)

/-- `load_end - load_start`, in 64 bits. -/
def loadSize (ph : Phdr) : ℕ :=
  (alignUp ((ph.pPaddr + ph.pMemsz) % 2 ^ 64) pageSize + 2 ^ 64 - alignDown ph.pPaddr pageSize) % 2 ^ 64

/-- The memory of a segment is cleared, and the bytes of the file are copied into it. -/
def fillSegment (s : Loader) (ph : Phdr) : Loader where
  words := memCopy (zeroWords s.words (alignDown ph.pPaddr pageSize) (loadSize ph / 8)) ph.pPaddr
    (fun k => f.bytes (ph.pOffset + k)) ph.pFilesz
  allocated := (alignDown ph.pPaddr pageSize, loadSize ph / pageSize) :: s.allocated

/-- One round of the loop of `load_kernel_segments`. -/
def loadSegment (s : Loader) (range : KernelRange) (ph : Phdr) : Option (Loader × KernelRange) :=
  if ph.pType ≠ ptLoad then some (s, range)
  else if ph.pMemsz < ph.pFilesz ∨ f.size < (ph.pOffset + ph.pFilesz) % 2 ^ 64 then none
  else if ph.pVaddr < kernelVmaBase ∨ ph.pPaddr = 0 then none
  else
    let loadStart := alignDown ph.pPaddr pageSize
    let loadEnd := alignUp ((ph.pPaddr + ph.pMemsz) % 2 ^ 64) pageSize
    (fw.allocatePages s.allocated (.address loadStart) (loadSize ph / pageSize)).bind fun _ =>
      let mapFlags := if ph.pFlags &&& pfW ≠ 0 then pagePresent ||| pageWritable else pagePresent
      (map4kRange fw (fillSegment f s ph) pml4 ph.pVaddr ph.pPaddr ph.pMemsz mapFlags).map fun s =>
        (s,
          { physStart := min loadStart range.physStart
            physEnd := max loadEnd range.physEnd
            virtStart := min ph.pVaddr range.virtStart
            virtEnd := max ((ph.pVaddr + ph.pMemsz) % 2 ^ 64) range.virtEnd })

def loadKernelSegments (s : Loader) : Option (Loader × KernelRange) :=
  ((List.range f.ePhnum).foldlM (fun (s, range) i => loadSegment fw f pml4 s range (f.phdr i))
    (s, ⟨2 ^ 64 - 1, 0, 2 ^ 64 - 1, 0⟩)).bind fun (s, range) =>
      if range.physStart = 2 ^ 64 - 1 then none
      else some (s, { range with virtEnd := alignUp range.virtEnd pageSize })

end

/-! ## The memory map and the hand-over -/

/-- What a round of the loop of `get_final_memory_map_and_exit` meets: the buffer is too small,
`GetMemoryMap` fails, or it writes the map, and `ExitBootServices` succeeds or not. -/
inductive MapReply where
  | tooSmall (descriptorSize : ℕ)
  | failed
  | written (map : ℕ → ℕ) (exited : Bool)

/-- The firmware writes into the buffer only. -/
def fillBuffer (s : Loader) (buffer pages : ℕ) (map : ℕ → ℕ) : Loader :=
  { s with words := fun a => if buffer ≤ a ∧ a < buffer + pages * pageSize then map a else s.words a }

/-- `none` when the replies end before the loop does. -/
def memoryMapLoop (fw : Firmware) (s : Loader) (buffer pages mapSize : ℕ) : List MapReply → Option (ℕ × Loader)
  | [] => none
  | .tooSmall descriptorSize :: replies =>
    let mapSize := (mapSize + descriptorSize * 32) % 2 ^ 64
    let pages := alignUp mapSize pageSize / pageSize
    (allocLowPages fw s pages).bind fun (buffer, s) => memoryMapLoop fw s buffer pages mapSize replies
  | .failed :: _ => none
  | .written map true :: _ => some (buffer, fillBuffer s buffer pages map)
  | .written map false :: replies => memoryMapLoop fw (fillBuffer s buffer pages map) buffer pages mapSize replies

/-- The first call has told the size of the map and of its descriptors. -/
def getFinalMemoryMap (fw : Firmware) (s : Loader) (mapSize descriptorSize : ℕ) (replies : List MapReply) :
    Option (ℕ × Loader) :=
  if descriptorSize = 0 then none
  else
    let mapSize := (mapSize + descriptorSize * 32) % 2 ^ 64
    let pages := alignUp mapSize pageSize / pageSize
    (allocLowPages fw s pages).bind fun (buffer, s) => memoryMapLoop fw s buffer pages mapSize replies

structure BootInfo where
  directMapSize : ℕ
  kernel : KernelRange
  pageTableRoot : ℕ
  memoryMap : ℕ

/-- The tables before the kernel is loaded: the identity map and the direct map. -/
def earlyTables (fw : Firmware) (s : Loader) : Option (ℕ × Loader) := do
  let (pml4, s) ← allocPageTable fw s
  let s ← map2mRange fw s pml4 0 0 earlyDirectMapSize pageWritable
  let s ← map2mRange fw s pml4 directMapBase 0 earlyDirectMapSize pageWritable
  return (pml4, s)

/-- `efi_main` up to the jump to the kernel, with `cr3` set to the root of the tables. -/
def efiMain (fw : Firmware) (f : KernelFile) (mapSize descriptorSize : ℕ) (replies : List MapReply) (s : Loader) :
    Option (BootInfo × Loader) :=
  if validateKernelElf f then do
    let (_, s) ← allocLowPages fw s 1
    let (pml4, s) ← earlyTables fw s
    let (s, kernel) ← loadKernelSegments fw f pml4 s
    let (memoryMap, s) ← getFinalMemoryMap fw s mapSize descriptorSize replies
    return (⟨earlyDirectMapSize, kernel, pml4, memoryMap⟩, s)
  else none

/-- `vmm_init` in the memory that the loader leaves. -/
def vmmInit (s : Loader) (pmm : Pmm) (info : BootInfo) (cr3 : ℕ) : Except String Vmm :=
  if cr3 &&& pageMask ≠ info.pageTableRoot then throw "bootloader page-table handoff mismatch"
  else pure ⟨s.words, pmm, cr3 &&& pageMask, info.directMapSize⟩

end AetherOS.Boot
