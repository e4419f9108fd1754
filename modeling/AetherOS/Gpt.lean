import AetherOS.Scan
import AetherOS.TcpSegment
import Mathlib.Algebra.Order.Group.Nat

/-!
# The partition table

`gpt_read` looks for the partitions in the entries of a table whose place and sizes are fields
of the header on the disk. One sector is in the buffer at a time; it is read when the scan
arrives at its first entry. The divisions and the accesses to the buffer and to the result are
recorded in the order in which they are made.
-/
namespace AetherOS.Gpt
open Tcp Buffers List

def gptSignature : ℕ := 0x5452415020494645
def sizeofGptHeader : ℕ := 92
def sizeofGptEntry : ℕ := 128

abbrev Sector := ℕ → UInt8

/-- A field of `n` bytes, the least significant one first. -/
def fieldAt (buf : Sector) (p n : ℕ) : ℕ := beNat (readBytes buf p n).reverse

def entryLba (hdr : Sector) : ℕ := fieldAt hdr 72 8
def entryCount (hdr : Sector) : ℕ := fieldAt hdr 80 4
def entrySize (hdr : Sector) : ℕ := fieldAt hdr 84 4

structure GptPartition where
  firstLba : ℕ
  lastLba : ℕ
  deriving DecidableEq, Repr

/-- A division, an access to the sector buffer, and one to the result. -/
inductive GptEvent where
  | divide (d : ℕ)
  | index (start length : ℕ)
  | store (k : ℕ)
  deriving DecidableEq, Repr

structure GptRun where
  parts : List GptPartition
  events : List GptEvent
  deriving DecidableEq, Repr

def GptRun.log (r : GptRun) (l : List GptEvent) : GptRun := { r with events := r.events ++ l }

/-- The partition of an entry at `e`, unless its type is all zero. -/
def partitionAt (buf : Sector) (e : ℕ) : Option GptPartition :=
  if readBytes buf e 16 = replicate 16 0 then none else some ⟨fieldAt buf (e + 32) 8, fieldAt buf (e + 40) 8⟩

/-- The loop at entry `i`, with `n` entries left. -/
def gptLoop (dev : ℕ → Option Sector) (max lba size per : ℕ) : ℕ → ℕ → Sector → GptRun → GptRun
  | 0, _, _, r => r
  | n + 1, i, buf, r =>
    if r.parts.length < max then
      match if i % per = 0 then dev ((lba + i / per) % 2 ^ 64) else some buf with
      | none => r.log [.divide per]
      | some buf =>
        let e := i % per * size
        match partitionAt buf e with
        | none => gptLoop dev max lba size per n (i + 1) buf (r.log [.divide per, .index e 16])
        | some p =>
          gptLoop dev max lba size per n (i + 1) buf
            ({ r with parts := r.parts ++ [p] }.log
              [.divide per, .index e 16, .store r.parts.length, .index (e + 32) 8, .index (e + 40) 8])
    else r

/-- The header has the signature and sizes that are not refused. -/
def Accepted (hdr : Sector) : Prop :=
  fieldAt hdr 0 8 = gptSignature ∧ sizeofGptEntry ≤ entrySize hdr ∧ entrySize hdr ≤ 512 ∧
    512 % entrySize hdr = 0 ∧ entryCount hdr ≤ 4096

instance (hdr : Sector) : Decidable (Accepted hdr) := inferInstanceAs (Decidable (_ ∧ _))

/-- `page` tells whether there is a page for the buffer; `dev` is what `blkdev_read` reads. -/
def gptRead (page : Bool) (dev : ℕ → Option Sector) (max : ℕ) : GptRun :=
  if page = false then ⟨[], []⟩
  else
    match dev 1 with
    | none => ⟨[], []⟩
    | some hdr =>
      if fieldAt hdr 0 8 = gptSignature ∧ sizeofGptEntry ≤ entrySize hdr ∧ entrySize hdr ≤ 512 then
        let r : GptRun := ⟨[], [.index 0 sizeofGptHeader, .divide (entrySize hdr)]⟩
        if Accepted hdr then
          gptLoop dev max (entryLba hdr) (entrySize hdr) (512 / entrySize hdr) (entryCount hdr) 0 hdr
            (r.log [.divide (entrySize hdr)])
        else r
      else ⟨[], [.index 0 sizeofGptHeader]⟩

/-! ## Safety -/

def GptEvent.Safe (max : ℕ) : GptEvent → Prop
  | .divide d => d ≠ 0
  | .index start length => start + length ≤ 512
  | .store k => k < max

def GptRun.Safe (max : ℕ) (r : GptRun) : Prop := r.parts.length ≤ max ∧ ∀ ev ∈ r.events, ev.Safe max

lemma GptRun.Safe.log {max : ℕ} {r : GptRun} (h : r.Safe max) {l : List GptEvent} (hl : ∀ ev ∈ l, ev.Safe max) :
    (r.log l).Safe max := by
  refine ⟨h.1, fun ev hev => ?_⟩
  rcases mem_append.mp hev with hev | hev
  · exact h.2 ev hev
  · exact hl ev hev

section

variable {dev : ℕ → Option Sector} {max lba size per : ℕ} {buf : Sector} {r : GptRun}

lemma slot_le (hper : per * size = 512) (hsize : sizeofGptEntry ≤ size) (i : ℕ) :
    per ≠ 0 ∧ i % per * size + 128 ≤ 512 := by
  have h0 : per ≠ 0 := by
    rintro rfl
    rw [Nat.zero_mul] at hper
    cases hper
  have hslot : (i % per + 1) * size ≤ per * size := Nat.mul_le_mul_right _ (Nat.mod_lt i (by omega))
  rw [Nat.add_mul, hper, Nat.one_mul] at hslot
  rw [sizeofGptEntry] at hsize
  exact ⟨h0, by omega⟩

lemma gptLoop_safe (hper : per * size = 512) (hsize : sizeofGptEntry ≤ size) (n i : ℕ) (h : r.Safe max) :
    (gptLoop dev max lba size per n i buf r).Safe max := by
  induction n generalizing i buf r with
  | zero => exact h
  | succ n ih =>
    obtain ⟨h0, hslot⟩ := slot_le hper hsize i
    rw [gptLoop]
    split
    next hlt =>
      split
      · exact h.log (by simpa [GptEvent.Safe] using h0)
      simp only
      split
      · refine ih _ (h.log ?_)
        simp only [forall_mem_cons, GptEvent.Safe]
        exact ⟨h0, by omega, nofun⟩
      rename_i p _
      have hparts : ({ r with parts := r.parts ++ [p] } : GptRun).Safe max :=
        ⟨by rw [length_append, length_singleton]; omega, h.2⟩
      refine ih _ (hparts.log ?_)
      simp only [forall_mem_cons, GptEvent.Safe]
      exact ⟨h0, by omega, hlt, by omega, by omega, nofun⟩
    · exact h

/-- The partition of the entry `i` of the table. -/
def tablePartition (disk : ℕ → Sector) (lba size per i : ℕ) : Option GptPartition :=
  partitionAt (disk ((lba + i / per) % 2 ^ 64)) (i % per * size)

lemma gptLoop_parts {disk : ℕ → Sector} (n i : ℕ)
    (hread : ∀ j, i ≤ j → j < i + n → dev ((lba + j / per) % 2 ^ 64) = some (disk ((lba + j / per) % 2 ^ 64)))
    (hbuf : i % per ≠ 0 → buf = disk ((lba + i / per) % 2 ^ 64)) (hle : r.parts.length ≤ max) :
    (gptLoop dev max lba size per n i buf r).parts =
      (r.parts ++ (range' i n).filterMap (tablePartition disk lba size per)).take max := by
  induction n generalizing i buf r with
  | zero =>
    rw [range'_zero, filterMap_nil, append_nil, take_of_length_le hle]
    rfl
  | succ n ih =>
    rw [gptLoop, range'_succ]
    split
    next hlt =>
      have hsector : (if i % per = 0 then dev ((lba + i / per) % 2 ^ 64) else some buf) =
          some (disk ((lba + i / per) % 2 ^ 64)) := by
        split
        · exact hread i le_rfl (by omega)
        next hne => exact congrArg some (hbuf hne)
      have hnext : (i + 1) % per ≠ 0 → disk ((lba + i / per) % 2 ^ 64) = disk ((lba + (i + 1) / per) % 2 ^ 64) := by
        intro hne
        rw [Nat.succ_div_of_not_dvd fun hd => hne (Nat.mod_eq_zero_of_dvd hd)]
      have hrest := fun j (hj : i + 1 ≤ j) (hjn : j < i + 1 + n) => hread j (by omega) (by omega)
      rw [hsector]
      simp only
      split
      next hnone =>
        rw [filterMap_cons_none (f := tablePartition disk lba size per) hnone]
        exact ih (r := r.log _) (i + 1) hrest hnext hle
      rename_i p hsome
      have hparts : (r.parts ++ [p]).length ≤ max := by
        rw [length_append, length_singleton]
        omega
      rw [filterMap_cons_some (f := tablePartition disk lba size per) hsome, append_cons r.parts p (filterMap ..)]
      exact ih (r := GptRun.log ⟨r.parts ++ [p], r.events⟩ _) (i + 1) hrest hnext hparts
    next hge => rw [take_append_of_le_length (by omega), take_of_length_le hle]

end

/-- For every device and every limit: `gpt_read`, which always returns, divides by no zero and
stays within the sector and the result. An accepted header without read errors: the result is
what the first entries with a type describe, in the order of the table. -/
theorem gptRead_spec (page : Bool) (dev : ℕ → Option Sector) (max : ℕ) :
    (gptRead page dev max).Safe max ∧
    ∀ hdr disk, page = true → dev 1 = some hdr → Accepted hdr →
      (∀ i < entryCount hdr, dev ((entryLba hdr + i / (512 / entrySize hdr)) % 2 ^ 64) =
        some (disk ((entryLba hdr + i / (512 / entrySize hdr)) % 2 ^ 64))) →
      (gptRead page dev max).parts = ((range (entryCount hdr)).filterMap
        (tablePartition disk (entryLba hdr) (entrySize hdr) (512 / entrySize hdr))).take max := by
  have hstart : (⟨[], []⟩ : GptRun).Safe max := ⟨Nat.zero_le _, nofun⟩
  have hheader : GptEvent.Safe max (.index 0 sizeofGptHeader) := show 0 + 92 ≤ 512 by decide
  refine ⟨?_, fun hdr disk hpage hdev hacc hread => ?_⟩
  · unfold gptRead
    split
    · exact hstart
    split
    · exact hstart
    rename_i hdr _
    split
    next hsig =>
      have h0 : GptEvent.Safe max (.divide (entrySize hdr)) := by
        have hsize := hsig.2.1
        rw [sizeofGptEntry] at hsize
        rw [GptEvent.Safe]
        omega
      have hr := hstart.log (l := [_, _]) (by simpa using ⟨hheader, h0⟩)
      split
      next hacc =>
        refine gptLoop_safe ?_ hsig.2.1 _ _ (hr.log (by simpa using h0))
        exact Nat.div_mul_cancel (Nat.dvd_of_mod_eq_zero hacc.2.2.2.1)
      · exact hr
    · exact hstart.log (l := [_]) (by simpa using hheader)
  · have hsig : fieldAt hdr 0 8 = gptSignature ∧ sizeofGptEntry ≤ entrySize hdr ∧ entrySize hdr ≤ 512 :=
      ⟨hacc.1, hacc.2.1, hacc.2.2.1⟩
    rw [gptRead, if_neg (by simp [hpage]), hdev]
    simp only
    rw [if_pos hsig, if_pos hacc, gptLoop_parts _ 0 (fun j _ hj => hread j (by omega)) (by simp) (Nat.zero_le _)]
    simp [GptRun.log, range_eq_range']

/-- A table of five entries in the sectors 2 and 3, where the second one describes a partition. -/
def sampleDisk (lba : ℕ) : Sector := fun i =>
  if lba = 1 then
    if i < 8 then [69, 70, 73, 32, 80, 65, 82, 84].getD i 0
    else if i = 72 then 2 else if i = 80 then 5 else if i = 84 then 128 else 0
  else if lba = 2 then if i = 128 then 1 else if i = 160 then 34 else if i = 168 then 100 else 0
  else 0

theorem gptRead_spec_sample : (gptRead true (fun lba => some (sampleDisk lba)) 4).parts = [⟨34, 100⟩] :=
  (gptRead_spec true (fun lba => some (sampleDisk lba)) 4).2 (sampleDisk 1) sampleDisk rfl rfl (by decide)
    fun _ _ => rfl

end AetherOS.Gpt
