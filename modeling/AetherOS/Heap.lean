import AetherOS.ByteMemory

/-!
# The kernel heap

A first-fit allocator over one growing virtual range. Every block starts with a
packed header in the same memory that holds the callers' data, so the model keeps
a single byte memory and reads and writes the header fields through it. Pointers
are addresses, zero is the null pointer, and 64-bit arithmetic wraps explicitly.

Pages are supplied from outside: each call of `expand` is given what the physical
page allocator and the page mapper answered, together with whatever bytes the new
page happens to hold.
-/
namespace AetherOS.Heap
open ByteMemory

def osPageSize : ℕ := 4096
/-- First virtual page of the heap, above the direct map. -/
def heapVirtBase : ℕ := 0xffff900000000000
def heapMagic : ℕ := 0xc0de4ea1
def blockFree : ℕ := 0
def blockUsed : ℕ := 1
def sizeofBlock : ℕ := 40
/-- Smallest remainder that is worth a block of its own. -/
def minSplit : ℕ := sizeofBlock + 16
def uint64Max : ℕ := 2 ^ 64 - 1

/-- Unsigned 64-bit wraparound. -/
def wrap64 (n : ℕ) : ℕ := n % 2 ^ 64

lemma wrap64_of_lt {n : ℕ} (h : n < 2 ^ 64) : wrap64 n = n := Nat.mod_eq_of_lt h

/-- The fields of `struct block`, in declaration order. -/
inductive Field where
  | magic
  | flags
  | size
  | prev
  | nextFree
  | prevFree
  deriving DecidableEq, Repr

def Field.off : Field → ℕ
  | .magic => 0
  | .flags => 4
  | .size => 8
  | .prev => 16
  | .nextFree => 24
  | .prevFree => 32

def Field.width : Field → ℕ
  | .magic => 4
  | .flags => 4
  | _ => 8

/-- The allocator's three static variables and the memory they point into. -/
structure State where
  mem : Mem
  freeList : ℕ
  heapLast : ℕ
  heapEnd : ℕ

namespace State

/-- The value of a field of the header at `b`. -/
@[irreducible] def get (h : State) (b : ℕ) (f : Field) : ℕ := readLE h.mem f.width (b + f.off)

/-- Assign a field of the header at `b`. -/
def put (h : State) (b : ℕ) (f : Field) (v : ℕ) : State :=
  { h with mem := writeLE h.mem f.width (b + f.off) v }

def setFreeList (h : State) (b : ℕ) : State := { h with freeList := b }
def setHeapLast (h : State) (b : ℕ) : State := { h with heapLast := b }

end State

def freeListAdd (h : State) (b : ℕ) : State :=
  let h := h.put b .nextFree h.freeList
  let h := h.put b .prevFree 0
  let h := if h.freeList ≠ 0 then h.put h.freeList .prevFree b else h
  h.setFreeList b

def freeListRemove (h : State) (b : ℕ) : State :=
  let h :=
    if h.get b .prevFree ≠ 0 then h.put (h.get b .prevFree) .nextFree (h.get b .nextFree)
    else h.setFreeList (h.get b .nextFree)
  let h :=
    if h.get b .nextFree ≠ 0 then h.put (h.get b .nextFree) .prevFree (h.get b .prevFree)
    else h
  let h := h.put b .nextFree 0
  h.put b .prevFree 0

/-- The next block in address order, or null when `b` is the last one. -/
def blockNextMem (h : State) (b : ℕ) : ℕ :=
  let n := wrap64 (b + h.get b .size)
  if n ≥ h.heapEnd then 0 else n

/-- What the page allocator and the mapper answered to one call of `expand`. A
mapped page comes with the bytes it already holds. -/
inductive ExpandOutcome where
  | noPage
  | mapFailed
  | mapped (fill : ℕ → UInt8)

/-- The six assignments that make `b` the header of an unlinked free block. -/
def writeFreeHeader (h : State) (b size prev : ℕ) : State :=
  let h := h.put b .magic heapMagic
  let h := h.put b .flags blockFree
  let h := h.put b .size size
  let h := h.put b .prev prev
  let h := h.put b .nextFree 0
  h.put b .prevFree 0

/-- The bytes of the new page become part of the heap. -/
def growEnd (h : State) (fill : ℕ → UInt8) : State :=
  { h with
    mem := blit h.mem osPageSize h.heapEnd fill
    heapEnd := wrap64 (h.heapEnd + osPageSize) }

def expand (h : State) : ExpandOutcome → Bool × State
  | .noPage => (false, h)
  | .mapFailed => (false, h)
  | .mapped fill =>
    let b := h.heapEnd
    let h := growEnd h fill
    if h.heapLast ≠ 0 ∧ h.get h.heapLast .flags = blockFree then
      -- the trailing free block grows into the new page
      let h := freeListRemove h h.heapLast
      let h := h.put h.heapLast .size (wrap64 (h.get h.heapLast .size + osPageSize))
      (true, freeListAdd h h.heapLast)
    else
      let h := writeFreeHeader h b osPageSize h.heapLast
      let h := h.setHeapLast b
      (true, freeListAdd h b)

/-- Ways a call does not return: the kernel panics, or a loop never ends. -/
inductive Fault where
  | panic (msg : String)
  | diverges
  deriving DecidableEq, Repr

def heapInit (m : Mem) (o : ExpandOutcome) : Except Fault State :=
  match expand ⟨m, 0, 0, heapVirtBase⟩ o with
  | (true, h) => .ok h
  | (false, _) => .error (.panic "heap: initial page allocation failed")

/-- The first-fit walk. A walk that outlasts its fuel never ends: the fuel handed
out below exceeds the length of any list threaded through distinct blocks. -/
def firstFit (h : State) (total : ℕ) : ℕ → ℕ → Except Fault ℕ
  | 0, _ => .error .diverges
  | fuel + 1, b =>
    if b ≠ 0 ∧ h.get b .size < total then firstFit h total fuel (h.get b .nextFree)
    else .ok b

/-- More steps than a free list inside the heap can have nodes. -/
def walkFuel (h : State) : ℕ := h.heapEnd + 1

/-- Call `expand` up to `n` times and stop at the first failure. An exhausted
supply stands for an exhausted page allocator. -/
def expandPages : ℕ → State → List ExpandOutcome → Bool × State
  | 0, h, _ => (true, h)
  | _ + 1, h, [] => (false, h)
  | n + 1, h, o :: os =>
    match expand h o with
    | (true, h') => expandPages n h' os
    | (false, h') => (false, h')

/-- Write the header of the unused end of `b`, from `total` bytes on, and hook it
between `b` and the block after it. -/
def splitTail (h : State) (b total : ℕ) : State :=
  let tail := wrap64 (b + total)
  let h := writeFreeHeader h tail (h.get b .size - total) b
  let after := blockNextMem h tail
  let h := if after ≠ 0 then h.put after .prev tail else h
  let h := if h.heapLast = b then h.setHeapLast tail else h
  h.put b .size total

/-- Hand out the free block `b`, split when the rest is large enough. -/
def takeBlock (h : State) (b total : ℕ) : ℕ × State :=
  let h :=
    if h.get b .size ≥ wrap64 (total + minSplit) then
      freeListAdd (freeListRemove (splitTail h b total) b) (wrap64 (b + total))
    else freeListRemove h b
  let h := h.put b .flags blockUsed
  (wrap64 (b + sizeofBlock), h)

/-- Serve a request of `total` bytes, header included: first fit, and once more
after growing the heap by enough pages. -/
def allocTotal (h : State) (total : ℕ) (supply : List ExpandOutcome) :
    Except Fault (ℕ × State) :=
  match firstFit h total (walkFuel h) h.freeList with
  | .error e => .error e
  | .ok b =>
    if b ≠ 0 then .ok (takeBlock h b total)
    else
      match expandPages (wrap64 (total + osPageSize - 1) / osPageSize) h supply with
      | (false, h) => .ok (0, h)
      | (true, h) =>
        match firstFit h total (walkFuel h) h.freeList with
        | .error e => .error e
        | .ok b => if b ≠ 0 then .ok (takeBlock h b total) else .ok (0, h)

/-- The request is rounded up to a multiple of 16. -/
def kmallocLocked (h : State) (size : ℕ) (supply : List ExpandOutcome) :
    Except Fault (ℕ × State) :=
  if size > uint64Max - sizeofBlock - 16 then .ok (0, h)
  else allocTotal h (wrap64 (wrap64 (size + 15) / 16 * 16 + sizeofBlock)) supply

def kmalloc (h : State) (size : ℕ) (supply : List ExpandOutcome) : Except Fault (ℕ × State) :=
  if size = 0 then .ok (0, h) else kmallocLocked h size supply

/-- Grow `lo` over its right neighbour `hi`, whose header disappears. Both
directions of coalescing end with these assignments. -/
def absorb (h : State) (lo hi : ℕ) : State :=
  let h := h.put lo .size (wrap64 (h.get lo .size + h.get hi .size))
  let h := if h.heapLast = hi then h.setHeapLast lo else h
  let after := blockNextMem h lo
  if after ≠ 0 then h.put after .prev lo else h

def coalesceNext (h : State) (b : ℕ) : State :=
  let n := blockNextMem h b
  if n ≠ 0 ∧ h.get n .magic = heapMagic ∧ h.get n .flags = blockFree then
    absorb (freeListRemove h n) b n
  else h

/-- Also returns the block that now holds the freed memory. -/
def coalescePrev (h : State) (b : ℕ) : ℕ × State :=
  let p := h.get b .prev
  if p ≠ 0 ∧ h.get p .magic = heapMagic ∧ h.get p .flags = blockFree then
    (p, absorb (freeListRemove h p) p b)
  else (b, h)

def kfreeLocked (h : State) (ptr : ℕ) : Except Fault State :=
  let b := wrap64 (ptr + 2 ^ 64 - sizeofBlock)
  if h.get b .magic ≠ heapMagic ∨ h.get b .flags ≠ blockUsed then
    .error (.panic "heap: invalid free")
  else
    let h := h.put b .flags blockFree
    let h := coalesceNext h b
    let r := coalescePrev h b
    .ok (freeListAdd r.2 r.1)

def kfree (h : State) (ptr : ℕ) : Except Fault State :=
  if ptr = 0 then .ok h else kfreeLocked h ptr

end AetherOS.Heap
