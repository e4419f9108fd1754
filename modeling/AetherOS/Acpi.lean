import AetherOS.NetStack

/-!
# Walks over ACPI tables

The length of a table is a field of the table itself, and a checksum over that many bytes is
all that is verified. The entries of the RSDT and the XSDT are counted by an unsigned
subtraction, and the records of the MADT are read as structures of a fixed size, whatever
length they declare.
-/
namespace AetherOS.Acpi
open Tcp Buffers Buffers.Scan

def sizeofSdtHeader : ℕ := 36
def sizeofMadt : ℕ := 44
def acpiMaxCpus : ℕ := 64

/-- `madt_info` with `madt_valid`; the list holds the first `cpu_count` identifiers. -/
structure MadtInfo where
  localApicBase : UInt32
  ioapicBase : UInt32
  ioapicId : UInt8
  ioapicGsiBase : UInt32
  ioapicFound : Bool
  cpuLapicIds : List UInt8
  valid : Bool
  deriving DecidableEq, Repr

def verifyChecksum (length : ℕ) : Scan MadtInfo Bool := do
  let bytes ← slice 0 length
  pure (bytes.foldl (· + ·) 0 == 0)

/-- A record, cast to the structure of its type. -/
def takeRecord (type : UInt8) (p : ℕ) : Scan MadtInfo Unit := do
  let m ← get
  if type = 0 then do
    let flags ← slice (p + 4) 4
    if memWord flags 0 &&& 3 ≠ 0 ∧ m.cpuLapicIds.length < acpiMaxCpus then do
      let id ← byte (p + 3)
      modify fun m => { m with cpuLapicIds := m.cpuLapicIds ++ [id] }
    else pure ()
  else if type = 1 ∧ m.ioapicFound = false then do
    let address ← slice (p + 4) 4
    let id ← byte (p + 2)
    let gsi ← slice (p + 8) 4
    modify fun m => { m with
      ioapicBase := memWord address 0
      ioapicId := id
      ioapicGsiBase := memWord gsi 0
      ioapicFound := true }
  else pure ()

def recordLoop (length p : ℕ) : Scan MadtInfo Unit :=
  if p + 2 ≤ length then do
    let type ← byte p
    let n ← byte (p + 1)
    if n.toNat < 2 ∨ length < p + n.toNat then pure ()
    else do
      takeRecord type p
      recordLoop length (p + n.toNat)
  else pure ()
termination_by length - p

def parseMadt : Scan MadtInfo Unit := do
  let field ← slice 4 4
  let ok ← verifyChecksum (memWord field 0).toNat
  if ok = false then pure ()
  else do
    let base ← slice 36 4
    modify fun m => { m with localApicBase := memWord base 0, ioapicFound := false, cpuLapicIds := [] }
    recordLoop (memWord field 0).toNat sizeofMadt
    modify fun m => { m with valid := true }

/-- What is done with the table at the address `a` of the physical memory; a `FACP` table
changes nothing that is modelled here. -/
def visitTable (phys : ℕ → UInt8) (a : ℕ) (m : MadtInfo) : MadtInfo :=
  if readBytes phys a 4 = [65, 80, 73, 67] then parseMadt.after (fun i => phys (a + i)) m else m

def scanSdtEntries (phys : ℕ → UInt8) (size : ℕ) : ℕ → ℕ → Scan MadtInfo Unit
  | 0, _ => pure ()
  | n + 1, p => do
    let entry ← slice p size
    modify (visitTable phys (beNat entry.reverse))
    scanSdtEntries phys size n (p + size)

/-- `parse_xsdt` and `parse_rsdt`; a wrong checksum stops the kernel. -/
def parseSdt (size : ℕ) (phys : ℕ → UInt8) : Scan MadtInfo Unit := do
  let field ← slice 4 4
  let ok ← verifyChecksum (memWord field 0).toNat
  if ok = false then pure ()
  else scanSdtEntries phys size (((memWord field 0).toNat + 2 ^ 32 - sizeofSdtHeader) % 2 ^ 32 / size) sizeofSdtHeader

def parseXsdt : (ℕ → UInt8) → Scan MadtInfo Unit := parseSdt 8

def parseRsdt : (ℕ → UInt8) → Scan MadtInfo Unit := parseSdt 4

/-- The length that a table declares. -/
def tableLength (mem : ℕ → UInt8) : ℕ := (memWord (readBytes mem 4 4) 0).toNat

/-- The records that the walk over the MADT takes from `p` on, with their types. -/
def records (mem : ℕ → UInt8) (length p : ℕ) : List (ℕ × UInt8) :=
  if p + 2 ≤ length ∧ 2 ≤ (mem (p + 1)).toNat ∧ p + (mem (p + 1)).toNat ≤ length then
    (p, mem p) :: records mem length (p + (mem (p + 1)).toNat)
  else []
termination_by length - p

/-- The structures of the processors, and of the first I/O APIC, end within the table. -/
def RecordsFit (mem : ℕ → UInt8) (length : ℕ) : Prop :=
  (∀ r ∈ records mem length sizeofMadt, r.2 = 0 → r.1 + 8 ≤ length) ∧
    ∀ r ∈ (records mem length sizeofMadt).find? (·.2 = 1), r.1 + 12 ≤ length

section

variable {mem : ℕ → UInt8} {m : MadtInfo} {k p : ℕ}

lemma takeRecord_insideAt (type : UInt8) : InsideAt mem k m (takeRecord type p) ↔
    (type = 0 → p + 8 ≤ k) ∧ (m.ioapicFound = false → type = 1 → p + 12 ≤ k) := by
  rw [takeRecord, insideAt_get_bind]
  by_cases h0 : type = 0
  · simp only [h0, if_true, insideAt_slice_bind, forall_const, show (0 : UInt8) ≠ 1 by decide,
      false_imp_iff, implies_true, and_true]
    refine ⟨fun h => by omega, fun hp => ⟨by omega, ?_⟩⟩
    split_ifs
    · exact (insideAt_byte_bind _ _).mpr ⟨by omega, insideAt_modify _⟩
    · exact insideAt_pure ()
  rw [if_neg h0]
  split_ifs with h1
  · simp [h1.1, h1.2]
    omega
  · simp only [insideAt_pure, true_iff]
    exact ⟨fun h => absurd h h0, fun hfound htype => absurd ⟨htype, hfound⟩ h1⟩

lemma takeRecord_found (type : UInt8) : ((takeRecord type p).after mem m).ioapicFound = false ↔
    m.ioapicFound = false ∧ type ≠ 1 := by
  rw [takeRecord, after_get_bind]
  split_ifs with h0 h1
  · rw [after_slice_bind, h0]
    split_ifs
    · exact (and_iff_left (by decide)).symm
    · exact (and_iff_left (by decide)).symm
  · exact iff_of_false Bool.noConfusion fun h => h.2 h1.1
  · exact ⟨fun h => ⟨h, fun ht => h1 ⟨ht, h⟩⟩, And.left⟩

lemma recordLoop_insideAt : InsideAt mem k m (recordLoop k p) ↔
    (∀ r ∈ records mem k p, r.2 = 0 → r.1 + 8 ≤ k) ∧
      (m.ioapicFound = false → ∀ r ∈ (records mem k p).find? (·.2 = 1), r.1 + 12 ≤ k) := by
  induction hn : k - p using Nat.strong_induction_on generalizing p m with
  | _ n ih =>
    rw [recordLoop, records]
    by_cases hp : p + 2 ≤ k
    case neg => simp [hp]
    rw [if_pos hp, insideAt_byte_bind, insideAt_byte_bind, and_iff_right (by omega),
      and_iff_right (by omega)]
    by_cases hlen : (mem (p + 1)).toNat < 2 ∨ k < p + (mem (p + 1)).toNat
    · rw [if_pos hlen, if_neg (by omega)]
      simp
    rw [if_neg hlen, if_pos (by omega), insideAt_bind, takeRecord_insideAt, ih _ (by omega) rfl,
      takeRecord_found, List.forall_mem_cons, List.find?_cons]
    by_cases h1 : mem p = 1
    · simp [h1]
      tauto
    · simp [h1]
      tauto

lemma scanSdtEntries_inside (phys : ℕ → UInt8) {size n : ℕ} (h : p + n * size ≤ k) :
    Inside k (scanSdtEntries phys size n p) := by
  induction n generalizing p with
  | zero => exact .pure ()
  | succ n ih =>
    rw [Nat.succ_mul] at h
    refine .bind (.slice (by omega)) fun entry => ?_
    exact .bind (.modify _) fun _ => ih (by omega)

/-- The bytes of the table add up to 0. -/
def ChecksumOk (mem : ℕ → UInt8) : Prop := (readBytes mem 0 (tableLength mem)).foldl (· + ·) 0 = 0

/-- Behind a right checksum, what follows the test of it is done. -/
lemma checksum_insideAt (hok : ChecksumOk mem) (x : Scan MadtInfo Unit) :
    InsideAt mem k m (verifyChecksum (tableLength mem) >>= fun ok => if ok = false then pure () else x) ↔
      tableLength mem ≤ k ∧ InsideAt mem k m x := by
  unfold ChecksumOk at hok
  rw [verifyChecksum, insideAt_bind, insideAt_slice_bind, zero_add, and_iff_left (insideAt_pure _)]
  change _ ∧ InsideAt mem k m (if ((readBytes mem 0 (tableLength mem)).foldl (· + ·) 0 == 0) = false
    then pure () else x) ↔ _
  rw [hok, if_neg (by decide)]

lemma parseSdt_insideAt (phys : ℕ → UInt8) {size : ℕ} (hsize : 0 < size ∧ size ≤ 8) (hok : ChecksumOk mem) :
    InsideAt mem (tableLength mem) m (parseSdt size phys) ↔ sizeofSdtHeader ≤ tableLength mem := by
  have hs : sizeofSdtHeader = 36 := rfl
  have hlt : tableLength mem < 2 ^ 32 := UInt32.toNat_lt _
  rw [parseSdt, insideAt_slice_bind]
  change 4 + 4 ≤ tableLength mem ∧ InsideAt mem _ m (verifyChecksum (tableLength mem) >>= _) ↔ _
  rw [checksum_insideAt hok, and_iff_right (Nat.le_refl _)]
  change 4 + 4 ≤ tableLength mem ∧ InsideAt mem _ m (scanSdtEntries phys size
    ((tableLength mem + 2 ^ 32 - sizeofSdtHeader) % 2 ^ 32 / size) sizeofSdtHeader) ↔ _
  constructor
  · rintro ⟨-, hfirst⟩
    by_contra hshort
    -- the unsigned subtraction gives a large number of entries
    have hcount : 0 < (tableLength mem + 2 ^ 32 - sizeofSdtHeader) % 2 ^ 32 / size :=
      Nat.div_pos (by omega) hsize.1
    obtain ⟨n, hn⟩ := Nat.exists_eq_succ_of_ne_zero hcount.ne'
    rw [hn, scanSdtEntries, insideAt_slice_bind] at hfirst
    omega
  · intro hlong
    refine ⟨by omega, scanSdtEntries_inside phys ?_ mem m⟩
    have hcount : (tableLength mem + 2 ^ 32 - sizeofSdtHeader) % 2 ^ 32 =
        tableLength mem - sizeofSdtHeader := by omega
    have hle := Nat.div_mul_le_self (tableLength mem - sizeofSdtHeader) size
    rw [hcount]
    omega

lemma parseMadt_insideAt (hok : ChecksumOk mem) : InsideAt mem (tableLength mem) m parseMadt ↔
    40 ≤ tableLength mem ∧ RecordsFit mem (tableLength mem) := by
  rw [parseMadt, insideAt_slice_bind]
  change 4 + 4 ≤ tableLength mem ∧ InsideAt mem _ m (verifyChecksum (tableLength mem) >>= _) ↔ _
  rw [checksum_insideAt hok, insideAt_slice_bind, insideAt_modify_bind, insideAt_bind,
    and_iff_left (insideAt_modify _)]
  change _ ∧ _ ∧ _ ∧ InsideAt mem _ _ (recordLoop (tableLength mem) sizeofMadt) ↔ _
  simp only [recordLoop_insideAt, true_imp_iff, RecordsFit]
  exact ⟨fun h => h.2.2, fun h => ⟨by omega, Nat.le_refl _, h⟩⟩

end

/-- The walks stay inside of a table with a right checksum exactly if it has a header, and a MADT
complete records of processors and of the I/O APIC. -/
theorem walks_inside_iff (mem phys : ℕ → UInt8) (hok : ChecksumOk mem) :
    (InsideOf mem (tableLength mem) (parseRsdt phys) ↔ sizeofSdtHeader ≤ tableLength mem) ∧
    (InsideOf mem (tableLength mem) (parseXsdt phys) ↔ sizeofSdtHeader ≤ tableLength mem) ∧
    (InsideOf mem (tableLength mem) parseMadt ↔
      40 ≤ tableLength mem ∧ RecordsFit mem (tableLength mem)) := by
  have hstate : ∀ {c : Prop} {x : Scan MadtInfo Unit},
      (∀ m, InsideAt mem (tableLength mem) m x ↔ c) → (InsideOf mem (tableLength mem) x ↔ c) :=
    fun h => ⟨fun hx => (h ⟨0, 0, 0, 0, false, [], false⟩).mp (hx _), fun hc m => (h m).mpr hc⟩
  exact ⟨hstate fun _ => parseSdt_insideAt phys (by decide) hok,
    hstate fun _ => parseSdt_insideAt phys (by decide) hok, hstate fun _ => parseMadt_insideAt hok⟩

/-- A MADT with a processor, an I/O APIC, a second one of two bytes, and a record that is cut. -/
def fourRecords : ℕ → UInt8 := fun i =>
  [(4, 68), (9, 156), (45, 8), (52, 1), (53, 12), (64, 1), (65, 2), (67, 8)].lookup i |>.getD 0

theorem walks_inside_fourRecords : InsideOf fourRecords 68 parseMadt := by
  have hlen : tableLength fourRecords = 68 := by decide +kernel
  refine (walks_inside_iff fourRecords (fun _ => 0) ?_).2.2.mpr ⟨by decide +kernel, ?_⟩
  · rw [ChecksumOk]
    decide +kernel
  have hrecords : records fourRecords 68 sizeofMadt = [(44, 0), (52, 1), (64, 1)] := by
    rw [records, records, records, records]
    decide +kernel
  rw [hlen, RecordsFit, hrecords]
  decide

/-- The checksums are right. In a MADT of 46 bytes, the last record has only its two bytes, and
the flags behind the table are read; the entries of an RSDT of no bytes are counted as many. -/
theorem walks_leave_tables :
    ⟨48, 4⟩ ∈ parseMadt.touched (fun i => if i = 4 then 46 else if i = 9 then 208 else if i = 45 then 2 else 0)
      ⟨0, 0, 0, 0, false, [], false⟩ ∧
    ⟨36, 4⟩ ∈ (parseRsdt fun _ => 0).touched (fun _ => 0) ⟨0, 0, 0, 0, false, [], false⟩ := by
  refine ⟨by decide +kernel, List.mem_append_right _ (List.mem_append_right _ ?_)⟩
  obtain ⟨n, hn⟩ : ∃ n, (tableLength (fun _ => 0) + 2 ^ 32 - sizeofSdtHeader) % 2 ^ 32 / 4 = n + 1 :=
    ⟨1073741814, by decide +kernel⟩
  change _ ∈ (scanSdtEntries _ 4 ((tableLength (fun _ => 0) + 2 ^ 32 - sizeofSdtHeader) % 2 ^ 32 / 4)
    sizeofSdtHeader).touched _ _
  rw [hn]
  exact .head _

end AetherOS.Acpi
