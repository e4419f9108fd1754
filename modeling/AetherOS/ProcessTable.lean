import AetherOS.Runs
import Mathlib.Data.Fintype.Pigeonhole
import Mathlib.Data.UInt

/-!
# The table of processes

`process_create_from_result` gives a new process a pid that no process in the table has, and
enters it in the first free slot; `process_reap` clears the slot. Exited processes stay in the
table until they are reaped. A process that is created when no slot is free gets a pid, but no
slot: `process_find` never finds it.
-/
namespace AetherOS.Proc
open Runs Function List Finset

abbrev maxProcs : ℕ := 64

/-- The slots hold addresses of process records, 0 for none; `pid` is the field of the records. -/
structure ProcTable where
  slots : Fin maxProcs → ℕ
  pid : ℕ → UInt32
  nextPid : UInt32

section

def findLocked (t : ProcTable) (pid : UInt32) : ℕ :=
  match (List.finRange maxProcs).find? fun i => t.slots i ≠ 0 ∧ t.pid (t.slots i) = pid with
  | some i => t.slots i
  | none => 0

def processFind := findLocked

/-- The counter after `pid`, which skips 0 when it wraps. -/
def bumpPid (pid : UInt32) : UInt32 := if pid + 1 = 0 then 1 else pid + 1

/-- The rounds of `alloc_pid_locked` that are left. -/
def allocPidFrom : ℕ → ProcTable → UInt32 × ProcTable
  | 0, t => (t.nextPid, { t with nextPid := t.nextPid + 1 })
  | n + 1, t =>
    let cand := t.nextPid
    let t := { t with nextPid := bumpPid cand }
    if cand ≠ 0 ∧ findLocked t cand = 0 then (cand, t) else allocPidFrom n t

def allocPidLocked := allocPidFrom (2 * maxProcs + 2)

/-- The first slot that holds `p`. -/
def slotHolding (t : ProcTable) (p : ℕ) : Option (Fin maxProcs) := (List.finRange maxProcs).find? fun i => t.slots i = p

def setSlot (t : ProcTable) (i : Option (Fin maxProcs)) (p : ℕ) : ProcTable :=
  match i with
  | some i => { t with slots := update t.slots i p }
  | none => t

/-- The part of `process_create_from_result` under the lock, for the record `p`. -/
def publish (t : ProcTable) (p : ℕ) : ProcTable :=
  let r := allocPidLocked t
  let t := { r.2 with pid := update r.2.pid p r.1 }
  setSlot t (slotHolding t 0) p

/-- The part of `process_reap` under the lock. -/
def unpublish (t : ProcTable) (p : ℕ) : ProcTable := setSlot t (slotHolding t p) 0

end

/-- The table, and the processes that were created and not reaped. -/
structure ProcRun where
  table : ProcTable
  live : List ℕ

/-- An exit changes nothing in the table. -/
inductive ProcAction where
  | create (p : ℕ)
  | exit (p : ℕ)
  | reap (p : ℕ)

/-- A new record is not one that is in use. -/
def procStep (s : ProcRun) : ProcAction → ProcRun → Prop
  | .create p, s' => p ≠ 0 ∧ p ∉ s.live ∧ s' = ⟨publish s.table p, p :: s.live⟩
  | .exit p, s' => p ∈ s.live ∧ s' = s
  | .reap p, s' => p ∈ s.live ∧ s' = ⟨unpublish s.table p, s.live.erase p⟩

structure ProcStart (s : ProcRun) : Prop where
  slots : ∀ i, s.table.slots i = 0
  nextPid : s.table.nextPid = 1
  live : s.live = []

/-- Every process is found by its pid. -/
def Addressable (s : ProcRun) : Prop := ∀ p ∈ s.live, processFind s.table (s.table.pid p) = p

/-- A process is created only when a slot is free. -/
def HasRoom (s : ProcRun) : ProcAction → Prop
  | .create _ => ∃ i, s.table.slots i = 0
  | _ => True

/-! ## Pids -/

section

variable {t : ProcTable} {q : UInt32} {p : ℕ}

lemma findLocked_eq_zero : findLocked t q = 0 ↔ ∀ i, t.slots i ≠ 0 → t.pid (t.slots i) ≠ q := by
  rw [findLocked]
  cases h : (List.finRange maxProcs).find? fun i => t.slots i ≠ 0 ∧ t.pid (t.slots i) = q with
  | none =>
    refine ⟨fun _ i h0 hq => ?_, fun _ => rfl⟩
    have hi := find?_eq_none.mp h i (mem_finRange i)
    exact hi (decide_eq_true ⟨h0, hq⟩)
  | some i =>
    have hi := find?_some h
    simp only [decide_eq_true_eq] at hi
    exact ⟨fun h0 => absurd h0 hi.1, fun hall => absurd hi.2 (hall i hi.1)⟩

lemma findLocked_eq {i : Fin maxProcs} (h0 : t.slots i ≠ 0)
    (hinj : ∀ j, t.slots j ≠ 0 → t.pid (t.slots j) = t.pid (t.slots i) → t.slots j = t.slots i) :
    findLocked t (t.pid (t.slots i)) = t.slots i := by
  rw [findLocked]
  cases h : (List.finRange maxProcs).find? fun j => t.slots j ≠ 0 ∧ t.pid (t.slots j) = t.pid (t.slots i) with
  | none => exact absurd (decide_eq_true ⟨h0, rfl⟩) (find?_eq_none.mp h i (mem_finRange i))
  | some j =>
    have hj := find?_some h
    simp only [decide_eq_true_eq] at hj
    exact hinj j hj.1 hj.2

/-- The counter after `k` rounds. -/
def pidAfter (q : UInt32) (k : ℕ) : UInt32 := bumpPid^[k] q

lemma toNat_bumpPid (h0 : q ≠ 0) : (bumpPid q).toNat = q.toNat % (2 ^ 32 - 1) + 1 := by
  have hpos : q.toNat ≠ 0 := fun h => h0 (UInt32.toNat_inj.mp h)
  have hlt := q.toNat_lt
  have hadd : (q + 1).toNat = (q.toNat + 1) % 2 ^ 32 := UInt32.toNat_add q 1
  rw [bumpPid]
  split
  next hw =>
    have hz : (q + 1).toNat = 0 := by rw [hw]; rfl
    have h1 : (1 : UInt32).toNat = 1 := rfl
    omega
  next hw =>
    have hz : (q + 1).toNat ≠ 0 := fun h => hw (UInt32.toNat_inj.mp h)
    omega

lemma bumpPid_ne_zero (q : UInt32) : bumpPid q ≠ 0 := by
  rw [bumpPid]
  split
  · decide
  · assumption

lemma pidAfter_ne_zero (h0 : q ≠ 0) (k : ℕ) : pidAfter q k ≠ 0 := by
  cases k with
  | zero => exact h0
  | succ k =>
    rw [pidAfter, Function.iterate_succ_apply']
    exact bumpPid_ne_zero _

lemma toNat_pidAfter (h0 : q ≠ 0) (k : ℕ) : (pidAfter q k).toNat = (q.toNat - 1 + k) % (2 ^ 32 - 1) + 1 := by
  induction k with
  | zero =>
    have hpos : q.toNat ≠ 0 := fun h => h0 (UInt32.toNat_inj.mp h)
    have hlt := q.toNat_lt
    rw [pidAfter, Function.iterate_zero_apply]
    omega
  | succ k ih =>
    rw [pidAfter, Function.iterate_succ_apply', ← pidAfter, toNat_bumpPid (pidAfter_ne_zero h0 k), ih]
    omega

lemma pidAfter_inj (h0 : q ≠ 0) {j k : ℕ} (hj : j < 2 ^ 32 - 1) (hk : k < 2 ^ 32 - 1)
    (h : pidAfter q j = pidAfter q k) : j = k := by
  have hnat := congrArg UInt32.toNat h
  rw [toNat_pidAfter h0, toNat_pidAfter h0] at hnat
  omega

lemma allocPidFrom_frame (n : ℕ) (t : ProcTable) :
    (allocPidFrom n t).2.slots = t.slots ∧ (allocPidFrom n t).2.pid = t.pid := by
  induction n generalizing t with
  | zero => exact ⟨rfl, rfl⟩
  | succ n ih =>
    rw [allocPidFrom]
    split
    · exact ⟨rfl, rfl⟩
    · exact ih _

/-- Round `k` finds its candidate free and returns it. -/
def FreeAt (t : ProcTable) (n k : ℕ) : Prop :=
  findLocked t (pidAfter t.nextPid k) = 0 ∧
    allocPidFrom n t = (pidAfter t.nextPid k, { t with nextPid := pidAfter t.nextPid (k + 1) })

/-- One of the rounds returns a pid that is not in the table, or every candidate was in it. -/
lemma allocPidFrom_cases (n : ℕ) (h0 : t.nextPid ≠ 0) :
    (∃ k < n, FreeAt t n k) ∨ ∀ k < n, findLocked t (pidAfter t.nextPid k) ≠ 0 := by
  induction n generalizing t with
  | zero => exact .inr fun k hk => absurd hk (Nat.not_lt_zero k)
  | succ n ih =>
    by_cases hfree : findLocked t t.nextPid = 0
    · exact .inl ⟨0, by omega, hfree, if_pos ⟨h0, hfree⟩⟩
    have hnext : allocPidFrom (n + 1) t = allocPidFrom n { t with nextPid := bumpPid t.nextPid } :=
      if_neg fun hz => hfree hz.2
    rcases ih (t := { t with nextPid := bumpPid t.nextPid }) (bumpPid_ne_zero _) with ⟨k, hk, hz, he⟩ | hall
    · exact .inl ⟨k + 1, by omega, hz, hnext.trans he⟩
    refine .inr fun k hk => ?_
    cases k with
    | zero => exact hfree
    | succ k => exact hall k (by omega)

/-- There are fewer slots than rounds, so a pid is found. -/
lemma allocPidLocked_round (h0 : t.nextPid ≠ 0) : ∃ k < 2 * maxProcs + 2, FreeAt t (2 * maxProcs + 2) k := by
  refine (allocPidFrom_cases (2 * maxProcs + 2) h0).resolve_right fun hall => ?_
  have hslot : ∀ k : Fin (2 * maxProcs + 2), ∃ i, t.pid (t.slots i) = pidAfter t.nextPid k := by
    intro k
    have hk := hall k.val k.isLt
    rw [Ne, findLocked_eq_zero] at hk
    push Not at hk
    obtain ⟨i, -, hi⟩ := hk
    exact ⟨i, hi⟩
  choose slot hpidOf using hslot
  have hprocs : maxProcs = 64 := rfl
  obtain ⟨j, k, hne, hjk⟩ := Fintype.exists_ne_map_eq_of_card_lt slot (by
    rw [Fintype.card_fin, Fintype.card_fin]
    omega)
  refine hne (Fin.ext (pidAfter_inj h0 ?_ ?_ ?_))
  · have := j.isLt
    omega
  · have := k.isLt
    omega
  · rw [← hpidOf j, ← hpidOf k, hjk]

lemma allocPidLocked_spec (h0 : t.nextPid ≠ 0) :
    (allocPidLocked t).2.nextPid ≠ 0 ∧ ∀ i, t.slots i ≠ 0 → t.pid (t.slots i) ≠ (allocPidLocked t).1 := by
  obtain ⟨k, -, hfree, he⟩ := allocPidLocked_round h0
  rw [allocPidLocked, he]
  exact ⟨pidAfter_ne_zero h0 _, findLocked_eq_zero.mp hfree⟩

/-- `alloc_pid_locked` returns from its loop, with a pid that is in use nowhere. -/
theorem allocPidLocked_free (h0 : t.nextPid ≠ 0) : (∃ k < 2 * maxProcs + 2, FreeAt t (2 * maxProcs + 2) k) ∧
    (allocPidLocked t).1 ≠ 0 ∧ (∀ i, t.slots i ≠ 0 → t.pid (t.slots i) ≠ (allocPidLocked t).1) ∧
    (allocPidLocked t).2.nextPid ≠ 0 := by
  obtain ⟨hnext, hfresh⟩ := allocPidLocked_spec h0
  have hround := allocPidLocked_round h0
  refine ⟨hround, ?_, hfresh, hnext⟩
  obtain ⟨k, -, -, he⟩ := hround
  rw [allocPidLocked, he]
  exact pidAfter_ne_zero h0 k

/-- The counter wraps, and its last value is in use. -/
theorem allocPidLocked_free_wrapped :
    ∃ k < 2 * maxProcs + 2, FreeAt ⟨fun _ => 1, fun _ => 0xffffffff, 0xffffffff⟩ (2 * maxProcs + 2) k :=
  (allocPidLocked_free (by decide)).1

end

/-! ## Slots -/

section

variable {t : ProcTable} {p : ℕ}

lemma slotHolding_eq_none : slotHolding t p = none ↔ ∀ i, t.slots i ≠ p := by
  rw [slotHolding, find?_eq_none]
  simp

lemma slotHolding_eq_some {i : Fin maxProcs} (h : slotHolding t p = some i) : t.slots i = p := by
  have hi := find?_some h
  simpa using hi

lemma publish_eq (t : ProcTable) (p : ℕ) : publish t p = setSlot { t with
    pid := update t.pid p (allocPidLocked t).1, nextPid := (allocPidLocked t).2.nextPid }
      (slotHolding t 0) p := by
  obtain ⟨hslots, hpid⟩ := allocPidFrom_frame (2 * maxProcs + 2) t
  have htable : { (allocPidLocked t).2 with pid := update (allocPidLocked t).2.pid p (allocPidLocked t).1 } =
      { t with pid := update t.pid p (allocPidLocked t).1, nextPid := (allocPidLocked t).2.nextPid } := by
    rw [ProcTable.mk.injEq]
    exact ⟨hslots, congrArg (update · p _) hpid, rfl⟩
  rw [publish]
  simp only [htable]
  rfl

lemma publish_slots (t : ProcTable) (p : ℕ) :
    (∃ i, t.slots i = 0 ∧ (publish t p).slots = update t.slots i p) ∨
      ((∀ i, t.slots i ≠ 0) ∧ (publish t p).slots = t.slots) := by
  rw [publish_eq]
  cases hi : slotHolding t 0 with
  | none => exact .inr ⟨slotHolding_eq_none.mp hi, rfl⟩
  | some i => exact .inl ⟨i, slotHolding_eq_some hi, rfl⟩

lemma publish_spec (h0 : t.nextPid ≠ 0) (hroom : ∃ i, t.slots i = 0) : ∃ i q, t.slots i = 0 ∧
    (publish t p).slots = update t.slots i p ∧ (publish t p).pid = update t.pid p q ∧
    (publish t p).nextPid ≠ 0 ∧ ∀ j, t.slots j ≠ 0 → t.pid (t.slots j) ≠ q := by
  obtain ⟨hnext, hfresh⟩ := allocPidLocked_spec h0
  rw [publish_eq]
  cases hi : slotHolding t 0 with
  | none =>
    obtain ⟨i, h0⟩ := hroom
    exact absurd h0 (slotHolding_eq_none.mp hi i)
  | some i => exact ⟨i, (allocPidLocked t).1, slotHolding_eq_some hi, rfl, rfl, hnext, hfresh⟩

/-- No record is in two slots, as long as the record written into a slot is in no other. -/
lemma once_update {slots : Fin maxProcs → ℕ} {p : ℕ} (k : Fin maxProcs)
    (h : ∀ i j, slots i ≠ 0 → slots i = slots j → i = j) (hp : ∀ i, slots i ≠ 0 → slots i ≠ p) (i j) :
    update slots k p i ≠ 0 → update slots k p i = update slots k p j → i = j := by
  refine update_cases i (fun h0 => ?_) fun _ hi => ?_
  · exact update_cases j (fun _ => rfl) fun _ hj => absurd hj.symm (hp j (hj ▸ h0))
  · exact update_cases j (fun hj => absurd hj (hp i hi)) fun _ => h i j hi

end

/-! ## Runs -/

/-- The table holds the processes that are live, each once, under pids that differ. -/
structure TableInv (s : ProcRun) : Prop where
  nextPid : s.table.nextPid ≠ 0
  nodup : s.live.Nodup
  ne_zero : ∀ p ∈ s.live, p ≠ 0
  slot : ∀ p ∈ s.live, ∃ i, s.table.slots i = p
  live : ∀ i, s.table.slots i ≠ 0 → s.table.slots i ∈ s.live
  once : ∀ i j, s.table.slots i ≠ 0 → s.table.slots i = s.table.slots j → i = j
  pids : ∀ p ∈ s.live, ∀ q ∈ s.live, s.table.pid p = s.table.pid q → p = q

namespace TableInv

variable {s s' : ProcRun}

lemma init (h : ProcStart s) : TableInv s := by
  refine ⟨by rw [h.nextPid]; decide, by rw [h.live]; exact nodup_nil, ?_, ?_, ?_, ?_, ?_⟩
  · simp [h.live]
  · simp [h.live]
  · intro i hi
    exact absurd (h.slots i) hi
  · intro i j hi
    exact absurd (h.slots i) hi
  · simp [h.live]

lemma create {p : ℕ} (h : TableInv s) (h0 : p ≠ 0) (hp : p ∉ s.live) (hroom : ∃ i, s.table.slots i = 0) :
    TableInv ⟨publish s.table p, p :: s.live⟩ := by
  obtain ⟨i, q, hfree, hslots, hpid, hnext, hfresh⟩ := publish_spec (p := p) h.nextPid hroom
  have hpidOf : ∀ r ∈ s.live, (publish s.table p).pid r = s.table.pid r ∧ s.table.pid r ≠ q := by
    intro r hr
    have hne : r ≠ p := fun he => hp (he ▸ hr)
    obtain ⟨j, hj⟩ := h.slot r hr
    refine ⟨by rw [hpid, update_of_ne hne], ?_⟩
    have hq := hfresh j (by rw [hj]; exact h.ne_zero r hr)
    rwa [hj] at hq
  have hnew : (publish s.table p).pid p = q := by rw [hpid, update_self]
  refine ⟨hnext, nodup_cons.mpr ⟨hp, h.nodup⟩, ?_, ?_, ?_, ?_, ?_⟩
  · exact forall_mem_cons.mpr ⟨h0, h.ne_zero⟩
  · refine forall_mem_cons.mpr ⟨⟨i, by rw [hslots, update_self]⟩, fun r hr => ?_⟩
    obtain ⟨j, hj⟩ := h.slot r hr
    have hji : j ≠ i := by
      rintro rfl
      exact h.ne_zero r hr (hj.symm.trans hfree)
    exact ⟨j, by rw [hslots, update_of_ne hji, hj]⟩
  · intro j hj
    rw [hslots] at hj ⊢
    revert hj
    exact update_cases j (fun _ => mem_cons_self) fun _ hj => mem_cons_of_mem _ (h.live j hj)
  · rw [hslots]
    exact once_update i h.once fun j hj he => hp (he ▸ h.live j hj)
  · refine forall_mem_cons.mpr ⟨forall_mem_cons.mpr ⟨fun _ => rfl, fun r hr he => ?_⟩,
      fun r hr => forall_mem_cons.mpr ⟨fun he => ?_, fun r' hr' he => ?_⟩⟩
    · rw [hnew, (hpidOf r hr).1] at he
      exact absurd he.symm (hpidOf r hr).2
    · rw [hnew, (hpidOf r hr).1] at he
      exact absurd he (hpidOf r hr).2
    · rw [(hpidOf r hr).1, (hpidOf r' hr').1] at he
      exact h.pids r hr r' hr' he

lemma reap {p : ℕ} (h : TableInv s) (hp : p ∈ s.live) : TableInv ⟨unpublish s.table p, s.live.erase p⟩ := by
  have hkept : ∀ r ∈ s.live.erase p, r ∈ s.live := fun r hr => mem_of_mem_erase hr
  have hne : ∀ r ∈ s.live.erase p, r ≠ p := by
    rintro r hr rfl
    exact h.nodup.not_mem_erase hr
  cases hi : slotHolding s.table p with
  | none =>
    obtain ⟨i, hslot⟩ := h.slot p hp
    exact absurd hslot (slotHolding_eq_none.mp hi i)
  | some i =>
    have hslot := slotHolding_eq_some hi
    have htable : unpublish s.table p = { s.table with slots := update s.table.slots i 0 } := by
      rw [unpublish, hi, setSlot]
    rw [htable]
    refine ⟨h.nextPid, h.nodup.erase p, fun r hr => h.ne_zero r (hkept r hr), fun r hr => ?_, fun j => ?_,
      once_update i h.once fun _ => id, fun r hr r' hr' => h.pids r (hkept r hr) r' (hkept r' hr')⟩
    · obtain ⟨j, hj⟩ := h.slot r (hkept r hr)
      have hji : j ≠ i := by
        rintro rfl
        exact hne r hr (hj.symm.trans hslot)
      exact ⟨j, by simp only [update_of_ne hji, hj]⟩
    · dsimp only
      refine update_cases j (absurd rfl) fun hji hj => ?_
      refine (mem_erase_of_ne fun he => hji ?_).mpr (h.live j hj)
      exact h.once j i hj (he.trans hslot.symm)

theorem step {a : ProcAction} (h : TableInv s) (hs : procStep s a s') (hroom : HasRoom s a) : TableInv s' := by
  cases a with
  | create p =>
    obtain ⟨h0, hp, rfl⟩ := hs
    exact h.create h0 hp hroom
  | exit p =>
    obtain ⟨-, rfl⟩ := hs
    exact h
  | reap p =>
    obtain ⟨hp, rfl⟩ := hs
    exact h.reap hp

theorem addressable (h : TableInv s) : Addressable s := by
  intro p hp
  obtain ⟨i, rfl⟩ := h.slot p hp
  have h0 := h.ne_zero _ hp
  exact findLocked_eq h0 fun j hj hpid => h.pids _ (h.live j hj) _ hp hpid

end TableInv

/-- No processes yet. -/
def noProcs : ProcRun := ⟨⟨fun _ => 0, fun _ => 0, 1⟩, []⟩

lemma noProcs_start : ProcStart noProcs := ⟨fun _ => rfl, rfl, rfl⟩

/-- In every run in which processes are created only when a slot is free, every process is
found by its pid. -/
theorem addressable_of_room {s : ProcRun} (hr : Reachable (fun s a s' => procStep s a s' ∧ HasRoom s a) ProcStart s) :
    Addressable s :=
  (hr.invariant (fun _ h => TableInv.init h) fun _ _ _ h hs => h.step hs.1 hs.2).addressable

/-- Two processes, the first of which exits and is reaped. -/
theorem addressable_two_procs : ∃ s, Run procStep noProcs [.create 1, .create 2, .exit 1, .reap 1] s ∧
    s.live = [2] ∧ Addressable s := by
  let s1 : ProcRun := ⟨publish noProcs.table 1, [1]⟩
  let s2 : ProcRun := ⟨publish s1.table 2, [2, 1]⟩
  let s3 : ProcRun := ⟨unpublish s2.table 1, [2]⟩
  have h1 : procStep noProcs (.create 1) s1 := ⟨by decide, by decide, rfl⟩
  have h2 : procStep s1 (.create 2) s2 := ⟨by decide, by decide, rfl⟩
  have h3 : procStep s2 (.exit 1) s2 := ⟨by decide, rfl⟩
  have h4 : procStep s2 (.reap 1) s3 := ⟨by decide, rfl⟩
  have hroom : HasRoom s1 (.create 2) := ⟨1, by decide +kernel⟩
  exact ⟨s3, .cons h1 (.cons h2 (.cons h3 (.cons h4 (.nil s3)))), rfl, addressable_of_room ⟨noProcs, _, noProcs_start,
    .cons ⟨h1, 0, rfl⟩ (.cons ⟨h2, hroom⟩ (.cons ⟨h3, trivial⟩ (.cons ⟨h4, trivial⟩ (.nil s3))))⟩⟩

/-- The slots that are taken. -/
def takenSlots (t : ProcTable) : Finset (Fin maxProcs) := Finset.univ.filter fun i => t.slots i ≠ 0

lemma fill_table (k : ℕ) (hk : k ≤ maxProcs) :
    ∃ s, Run procStep noProcs ((List.range k).map fun i => .create (i + 1)) s ∧
      TableInv s ∧ (∀ p ∈ s.live, p ≤ k) ∧ (takenSlots s.table).card = k := by
  induction k with
  | zero => exact ⟨noProcs, .nil _, TableInv.init noProcs_start, by simp [noProcs], by simp [takenSlots, noProcs]⟩
  | succ k ih =>
    obtain ⟨s, hrun, hinv, hle, hcard⟩ := ih (by omega)
    have hroom : ∃ i, s.table.slots i = 0 := by
      by_contra hfull
      push Not at hfull
      have hall : takenSlots s.table = Finset.univ := filter_true_of_mem fun i _ => hfull i
      rw [hall, Finset.card_univ, Fintype.card_fin] at hcard
      omega
    have hnew : k + 1 ∉ s.live := fun hmem => absurd (hle _ hmem) (by omega)
    obtain ⟨i, q, hfree, hslots, -⟩ := publish_spec (p := k + 1) hinv.nextPid hroom
    have htaken : takenSlots (publish s.table (k + 1)) = insert i (takenSlots s.table) := by
      ext j
      simp only [takenSlots, Finset.mem_filter, mem_univ, true_and, mem_insert, hslots]
      by_cases hji : j = i
      · simp [hji]
      · simp [hji]
    refine ⟨⟨publish s.table (k + 1), (k + 1) :: s.live⟩, ?_, hinv.create (by omega) hnew hroom, ?_, ?_⟩
    · rw [range_succ, map_append]
      exact hrun.append (.cons ⟨by omega, hnew, rfl⟩ (.nil _))
    · exact forall_mem_cons.mpr ⟨le_refl _, fun p hp => (hle p hp).trans (Nat.le_succ k)⟩
    · rw [htaken, card_insert_of_notMem (by simp [takenSlots, hfree]), hcard]

/-- After 64 processes, none of which was reaped, the next one is not found. -/
theorem process_without_slot : ∃ s, Run procStep noProcs ((List.range 65).map fun i => .create (i + 1)) s ∧
    65 ∈ s.live ∧ processFind s.table (s.table.pid 65) ≠ 65 := by
  obtain ⟨s, hrun, hinv, hle, hcard⟩ := fill_table maxProcs (le_refl _)
  have hfull : ∀ i, s.table.slots i ≠ 0 := by
    intro i
    have hall : takenSlots s.table = Finset.univ := (card_eq_iff_eq_univ _).mp (by simp [hcard])
    have hi := mem_univ i
    rw [← hall] at hi
    exact (Finset.mem_filter.mp hi).2
  have hnew : 65 ∉ s.live := fun hmem => absurd (hle _ hmem) (by decide)
  refine ⟨⟨publish s.table 65, 65 :: s.live⟩, ?_, mem_cons_self, fun hfind => ?_⟩
  · rw [range_succ, map_append]
    exact hrun.append (.cons ⟨by decide, hnew, rfl⟩ (.nil _))
  -- what is found is in a slot, where 65 is not
  have hslots : (publish s.table 65).slots = s.table.slots := by
    rcases publish_slots s.table 65 with ⟨i, h0, -⟩ | ⟨-, hsame⟩
    · exact absurd h0 (hfull i)
    · exact hsame
  simp only [processFind, findLocked, hslots] at hfind
  split at hfind
  next i _ => exact hnew (hfind ▸ hinv.live i (hfull i))
  · cases hfind

end AetherOS.Proc
