import AetherOS.ProcessTable
import Mathlib.Data.Nat.Digits.Lemmas

/-!
# The listing of the processes

`process_ps` writes a line for each running process into a buffer of the caller. The guard before
a line leaves room for the numbers; the name is cut off, and the newline behind it may take the
last byte, which the terminator then overwrites.
-/
namespace AetherOS.Proc
open List

/-- The fields of a process record that the listing reads; the name is an array of 32 bytes. -/
structure PsRecord where
  exited : Bool
  uid : UInt32
  name : List UInt8
  name_lt : name.length < 32

/-- The stores into `buf`, the latest first, and `off`. -/
structure PsBuf where
  stores : List (ℕ × UInt8)
  off : ℕ

namespace PsBuf

def put (b : PsBuf) (c : UInt8) : PsBuf := ⟨(b.off, c) :: b.stores, b.off + 1⟩

def puts (b : PsBuf) (cs : List UInt8) : PsBuf := cs.foldl put b

/-- A loop over a string that stops one byte before the end of the buffer. -/
def putsWithin (bufsz : ℕ) (b : PsBuf) : List UInt8 → PsBuf
  | [] => b
  | c :: cs => if b.off + 1 < bufsz then putsWithin bufsz (b.put c) cs else b

end PsBuf

/-- The digits of `val`, least significant first, as `tmp` has them before it is reversed. -/
def psDigits (val : UInt32) : List UInt8 :=
  if val = 0 then [48] else (Nat.digits 10 val.toNat).map fun d => 48 + UInt8.ofNat d

/-- The bytes that `ps_fmt_uint` stores from `out` on; it returns their number. -/
def psFmtUint (val : UInt32) (width : ℕ) : List UInt8 :=
  replicate (width - (psDigits val).length) 32 ++ (psDigits val).reverse

/-- `"  PID   UID  NAME\n"` -/
def psHeader : List UInt8 := [32, 32, 80, 73, 68, 32, 32, 32, 85, 73, 68, 32, 32, 78, 65, 77, 69, 10]

def psLine (bufsz : ℕ) (b : PsBuf) (pid : UInt32) (r : PsRecord) : PsBuf :=
  let b := b.puts (psFmtUint pid 5 ++ [32] ++ psFmtUint r.uid 5 ++ [32, 32])
  (b.putsWithin bufsz (if r.name = [] then [63] else r.name)).put 10

/-- The loop over the slots; it ends when the guard finds too little room. -/
def psLines (bufsz : ℕ) (t : ProcTable) (r : ℕ → PsRecord) : List (Fin maxProcs) → PsBuf → PsBuf
  | [], b => b
  | i :: is, b =>
    if t.slots i = 0 ∨ (r (t.slots i)).exited = true then psLines bufsz t r is b
    else if b.off + 48 ≥ bufsz then b
    else psLines bufsz t r is (psLine bufsz b (t.pid (t.slots i)) (r (t.slots i)))

/-- The stores and the returned length. The offset stays below 4096 (`psLines_off_le`), so the
sums of 32 bits in the guards do not wrap. -/
def processPs (bufsz : ℕ) (t : ProcTable) (r : ℕ → PsRecord) : List (ℕ × UInt8) × ℕ :=
  if bufsz = 0 then ([], 0)
  else
    let b := psLines bufsz t r (finRange maxProcs) (PsBuf.putsWithin bufsz ⟨[], 0⟩ psHeader)
    if b.off < bufsz then ((b.off, 0) :: b.stores, b.off + 1)
    else ((bufsz - 1, 0) :: b.stores, bufsz)

/-- Every store is inside the buffer, and everything below `off` is stored. -/
structure PsBuf.Filled (bufsz : ℕ) (b : PsBuf) : Prop where
  inside : ∀ x ∈ b.stores, x.1 < bufsz
  stored : ∀ i < b.off, ∃ c, (i, c) ∈ b.stores
  off_le : b.off ≤ bufsz

namespace PsBuf.Filled

variable {bufsz : ℕ} {b : PsBuf} {cs : List UInt8}

lemma put (h : b.Filled bufsz) (hoff : b.off < bufsz) (c : UInt8) : (b.put c).Filled bufsz where
  inside := forall_mem_cons.mpr ⟨hoff, h.inside⟩
  stored i hi := by
    rcases Nat.lt_succ_iff_lt_or_eq.mp hi with hi | rfl
    · obtain ⟨d, hd⟩ := h.stored i hi
      exact ⟨d, mem_cons_of_mem _ hd⟩
    · exact ⟨c, mem_cons_self⟩
  off_le := hoff

lemma puts (h : b.Filled bufsz) (hroom : b.off + cs.length ≤ bufsz) :
    (b.puts cs).Filled bufsz ∧ (b.puts cs).off = b.off + cs.length := by
  induction cs generalizing b with
  | nil => exact ⟨h, rfl⟩
  | cons c cs ih =>
    rw [length_cons] at hroom ⊢
    obtain ⟨hf, hoff⟩ := ih (h.put (by omega) c) (by simp only [PsBuf.put]; omega)
    refine ⟨hf, hoff.trans ?_⟩
    simp only [PsBuf.put]
    omega

lemma putsWithin (h : b.Filled bufsz) (hoff : b.off < bufsz) (cs : List UInt8) :
    (b.putsWithin bufsz cs).Filled bufsz ∧ (b.putsWithin bufsz cs).off < bufsz ∧
      (b.putsWithin bufsz cs).off ≤ b.off + cs.length := by
  induction cs generalizing b with
  | nil => exact ⟨h, hoff, le_rfl⟩
  | cons c cs ih =>
    rw [PsBuf.putsWithin, length_cons]
    split
    next hlt =>
      obtain ⟨hf, hin, hle⟩ := ih (h.put hoff c) hlt
      refine ⟨hf, hin, hle.trans ?_⟩
      simp only [PsBuf.put]
      omega
    · exact ⟨h, hoff, by omega⟩

end PsBuf.Filled

/-- A number takes at most ten bytes. -/
lemma psFmtUint_length (val : UInt32) : (psFmtUint val 5).length ≤ 10 := by
  have hdigits : (psDigits val).length ≤ 10 := by
    unfold psDigits
    split
    · decide
    rw [length_map, Nat.digits_length_le_iff (by decide)]
    exact val.toNat_lt.trans (by decide)
  rw [psFmtUint, length_append, length_replicate, length_reverse]
  omega

section

variable {bufsz : ℕ} {b : PsBuf}

lemma PsBuf.Filled.line (h : b.Filled bufsz) (hguard : b.off + 48 < bufsz) (pid : UInt32) (r : PsRecord) :
    (psLine bufsz b pid r).Filled bufsz ∧ (psLine bufsz b pid r).off ≤ b.off + 55 := by
  have hnumbers : (psFmtUint pid 5 ++ [32] ++ psFmtUint r.uid 5 ++ [32, 32]).length ≤ 23 := by
    have hpid := psFmtUint_length pid
    have huid := psFmtUint_length r.uid
    simp only [length_append, length_cons, length_nil]
    omega
  obtain ⟨h1, hoff1⟩ := h.puts (show b.off + _ ≤ bufsz from (Nat.add_le_add_left hnumbers _).trans (by omega))
  have hname : (if r.name = [] then [63] else r.name).length < 32 := by
    split
    · decide
    · exact r.name_lt
  obtain ⟨h2, hin, hoff2⟩ := h1.putsWithin (by omega) (if r.name = [] then [63] else r.name)
  exact ⟨h2.put hin 10, by simp only [psLine, PsBuf.put]; omega⟩

/-- A line is at most 55 bytes, whatever the guard reserves. -/
lemma psLines_off_le (t : ProcTable) (r : ℕ → PsRecord) (is : List (Fin maxProcs)) (h : b.Filled bufsz) :
    (psLines bufsz t r is b).Filled bufsz ∧ (psLines bufsz t r is b).off ≤ b.off + 55 * is.length := by
  induction is generalizing b with
  | nil => exact ⟨h, le_rfl⟩
  | cons i is ih =>
    rw [psLines, length_cons]
    split
    · exact ⟨(ih h).1, (ih h).2.trans (by omega)⟩
    split
    · exact ⟨h, by omega⟩
    obtain ⟨hline, hoff⟩ := h.line (by omega) (t.pid (t.slots i)) (r (t.slots i))
    exact ⟨(ih hline).1, (ih hline).2.trans (by omega)⟩

end

/-- For every process table and every buffer: all stores are inside the buffer, the last one is
the terminator at the end of the returned length, and every byte below that length is stored. -/
theorem processPs_bounded (t : ProcTable) (r : ℕ → PsRecord) (bufsz : ℕ) (hsz : 0 < bufsz) :
    (∀ x ∈ (processPs bufsz t r).1, x.1 < bufsz) ∧
      1 ≤ (processPs bufsz t r).2 ∧ (processPs bufsz t r).2 ≤ bufsz ∧
      (processPs bufsz t r).1.head? = some ((processPs bufsz t r).2 - 1, 0) ∧
      ∀ i < (processPs bufsz t r).2, ∃ c, (i, c) ∈ (processPs bufsz t r).1 := by
  have hempty : PsBuf.Filled bufsz ⟨[], 0⟩ := ⟨nofun, nofun, Nat.zero_le _⟩
  obtain ⟨hhead, -⟩ := hempty.putsWithin hsz psHeader
  obtain ⟨h, -⟩ := psLines_off_le t r (finRange maxProcs) hhead
  rw [processPs, if_neg hsz.ne']
  generalize psLines bufsz t r (finRange maxProcs) (PsBuf.putsWithin bufsz ⟨[], 0⟩ psHeader) = b at h
  dsimp only
  split
  next hlt => exact ⟨(h.put hlt 0).inside, by omega, hlt, rfl, (h.put hlt 0).stored⟩
  next hge =>
    have hoff := h.off_le
    refine ⟨forall_mem_cons.mpr ⟨Nat.sub_lt hsz Nat.one_pos, h.inside⟩, hsz, le_rfl, rfl, fun i hi => ?_⟩
    obtain ⟨c, hc⟩ := h.stored i (by omega)
    exact ⟨c, mem_cons_of_mem _ hc⟩

/-- The numbers of the one row have ten digits, and the last byte cuts off its name. -/
theorem processPs_bounded_cut :
    let listing := processPs 67 ⟨fun i => if i = 3 then 8 else 0, fun _ => 4000000000, 2⟩
      fun _ => ⟨false, 4000000000, replicate 31 97, by decide⟩
    listing.2 = 67 ∧ (∀ x ∈ listing.1, x.1 < 67) ∧ ∀ i < 67, ∃ c, (i, c) ∈ listing.1 := by
  intro listing
  have hlen : listing.2 = 67 := by decide +kernel
  obtain ⟨hin, -, -, -, hstored⟩ := processPs_bounded _ _ 67 (by decide)
  exact ⟨hlen, hin, hlen ▸ hstored⟩

end AetherOS.Proc
