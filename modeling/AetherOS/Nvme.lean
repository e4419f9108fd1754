import AetherOS.PhaseRing
import AetherOS.Runs
import Mathlib.Tactic

/-!
# Reading and writing sectors through NVMe queues

The driver puts a command into the submission ring and polls the completion ring; the
controller fetches commands in order and completes those it has fetched in any order, after
any delay. A call that polls in vain gives up, but its command stays with the controller. The
next completion that the driver finds need not be the one of its own command, and it does not
compare the identifiers.
-/
namespace AetherOS.Nvme
open PhaseRing Runs Function List

abbrev ioqSize : ℕ := 64
abbrev maxPolls : ℕ := 2000000

/-- A submission queue entry; the fields that are always 0 are left out. -/
structure Sqe where
  cdw0 : UInt32
  nsid : UInt32
  prp1 : UInt64
  cdw10 : UInt32
  cdw11 : UInt32
  cdw12 : UInt32
  deriving DecidableEq, Repr

/-- A completion queue entry, as far as the driver reads it. -/
structure Cqe where
  cid : UInt16
  status : UInt16
  deriving DecidableEq, Repr

/-- The identifier in the upper half of the first word. -/
def Sqe.cid (e : Sqe) : UInt16 := (e.cdw0 >>> 16).toUInt16

def Cqe.phase (e : Cqe) : Bool := e.status &&& 1 = 1

def Cqe.ok (e : Cqe) : Bool := (e.status >>> 1) &&& 0x7ff = 0

def ioRead : UInt8 := 0x02
def ioWrite : UInt8 := 0x01

/-- The command that `io_cmd` builds. -/
def ioSqe (opc : UInt8) (slba : UInt64) (nlb : UInt16) (bufPhys : UInt64) (cid : UInt16) : Sqe where
  cdw0 := opc.toUInt32 ||| cid.toUInt32 <<< 16
  nsid := 1
  prp1 := bufPhys
  cdw10 := (slba &&& 0xffffffff).toUInt32
  cdw11 := (slba >>> 32).toUInt32
  cdw12 := nlb.toUInt32 - 1

lemma ioSqe_cid (opc : UInt8) (slba : UInt64) (nlb : UInt16) (bufPhys : UInt64) (cid : UInt16) :
    (ioSqe opc slba nlb bufPhys cid).cid = cid := by
  apply UInt16.toNat_inj.mp
  have hopc : opc.toNat < 2 ^ 16 := lt_trans opc.toNat_lt (by decide)
  have hcid : cid.toNat < 2 ^ 16 := cid.toNat_lt
  have hshift : cid.toNat <<< 16 % 4294967296 = cid.toNat <<< 16 := by
    rw [Nat.shiftLeft_eq]
    omega
  have hor : opc.toNat ||| cid.toNat <<< 16 = cid.toNat * 2 ^ 16 + opc.toNat := by
    rw [Nat.or_comm, ← Nat.shiftLeft_add_eq_or_of_lt hopc, Nat.shiftLeft_eq]
  simp only [ioSqe, Sqe.cid, UInt32.toNat_toUInt16, UInt32.toNat_shiftRight, UInt32.toNat_or,
    UInt8.toNat_toUInt32, UInt32.toNat_shiftLeft, UInt16.toNat_toUInt32, UInt32.reduceToNat, Nat.reduceMod,
    Nat.reducePow, hshift, hor, Nat.shiftRight_eq_div_pow]
  omega

/-- A call of `io_cmd` that polls, with the identifier of its command. -/
structure Call where
  cid : UInt16
  polls : ℕ
  deriving DecidableEq, Repr

/-- A call that has returned: its command, the completion it consumed, and its result. -/
structure Finished where
  cid : UInt16
  consumed : Option Cqe
  ok : Bool
  deriving DecidableEq, Repr

/-- The rings in memory, the driver's variables, the doorbells, the controller's own state,
and a record of the entries posted, of how many the driver consumed and of the calls that
returned. -/
structure Queues where
  iosq : ℕ → Sqe
  iocq : ℕ → Cqe
  ready : Bool
  iosqTail : ℕ
  iocqHead : Cursor
  nextCid : UInt16
  call : Option Call
  sqTailDoorbell : ℕ
  cqHeadDoorbell : ℕ
  sqHead : ℕ
  fetched : List Sqe
  cqTail : Cursor
  posted : List Cqe
  consumed : ℕ
  finished : List Finished

inductive NvmeAction where
  | read (lba : UInt64) (count : UInt16) (bufPhys : UInt64)
  | write (lba : UInt64) (count : UInt16) (bufPhys : UInt64)
  | poll
  | timeout
  | fetch
  | complete (i : ℕ) (status : UInt16)

namespace Queues

/-- `io_cmd` up to its loop. -/
def submit (s : Queues) (opc : UInt8) (slba : UInt64) (nlb : UInt16) (bufPhys : UInt64) : Queues :=
  let cid := s.nextCid
  let tail := (s.iosqTail + 1) % ioqSize
  { s with
    iosq := update s.iosq s.iosqTail (ioSqe opc slba nlb bufPhys cid)
    iosqTail := tail
    sqTailDoorbell := tail
    nextCid := cid + 1
    call := some ⟨cid, 0⟩ }

/-- `nvme_read_sectors` and `nvme_write_sectors`; a request that is refused changes nothing. -/
def request (s : Queues) (opc : UInt8) (lba : UInt64) (count : UInt16) (bufPhys : UInt64) : Queues :=
  if !s.ready || count = 0 || count > 8 then s else s.submit opc lba count bufPhys

/-- One round of the loop of `io_cmd` for the call `c`. -/
def poll (s : Queues) (c : Call) : Queues :=
  let e := s.iocq s.iocqHead.slot
  if e.phase ≠ s.iocqHead.phase then { s with call := some ⟨c.cid, c.polls + 1⟩ }
  else
    let head := s.iocqHead.next ioqSize
    { s with
      iocqHead := head
      cqHeadDoorbell := head.slot
      call := none
      consumed := s.consumed + 1
      finished := s.finished ++ [⟨c.cid, some e, e.ok⟩] }

/-- The controller takes the next command. -/
def fetch (s : Queues) : Queues :=
  { s with fetched := s.fetched ++ [s.iosq s.sqHead], sqHead := (s.sqHead + 1) % ioqSize }

/-- The controller posts the completion of the `i`-th command it has fetched. -/
def complete (s : Queues) (i : ℕ) (x : Sqe) (status : UInt16) : Queues :=
  { s with
    iocq := update s.iocq s.cqTail.slot ⟨x.cid, status⟩
    cqTail := s.cqTail.next ioqSize
    fetched := s.fetched.eraseIdx i
    posted := s.posted ++ [⟨x.cid, status⟩] }

end Queues

/-- The steps of the driver and of the controller. There is one call at a time; the controller
posts entries in order with the phase of its lap, and not into a full ring. -/
def nvmeStep (s : Queues) : NvmeAction → Queues → Prop
  | .read lba count bufPhys, s' => s.call = none ∧ s' = s.request ioRead lba count bufPhys
  | .write lba count bufPhys, s' => s.call = none ∧ s' = s.request ioWrite lba count bufPhys
  | .poll, s' => ∃ c, s.call = some c ∧ c.polls < maxPolls ∧ s' = s.poll c
  | .timeout, s' => ∃ c, s.call = some c ∧ c.polls = maxPolls ∧
      s' = { s with call := none, finished := s.finished ++ [⟨c.cid, none, false⟩] }
  | .fetch, s' => s.sqHead ≠ s.sqTailDoorbell ∧ s' = s.fetch
  | .complete i status, s' => ∃ x, s.fetched[i]? = some x ∧
      (s.cqTail.slot + 1) % ioqSize ≠ s.cqHeadDoorbell ∧ Cqe.phase ⟨x.cid, status⟩ = s.cqTail.phase ∧
      s' = s.complete i x status

/-- The queues as `nvme_init` leaves them. -/
structure NvmeStart (s : Queues) : Prop where
  iocq : ∀ k, k < ioqSize → (s.iocq k).phase = false
  ready : s.ready = true
  iosqTail : s.iosqTail = 0
  iocqHead : s.iocqHead = ⟨0, true⟩
  call : s.call = none
  sqTailDoorbell : s.sqTailDoorbell = 0
  cqHeadDoorbell : s.cqHeadDoorbell = 0
  sqHead : s.sqHead = 0
  fetched : s.fetched = []
  cqTail : s.cqTail = ⟨0, true⟩
  posted : s.posted = []
  consumed : s.consumed = 0
  finished : s.finished = []

/-! ## What every step keeps -/

namespace Queues

/-- The number of commands in the submission ring, as the controller sees it. -/
def queued (s : Queues) : ℕ := (s.sqTailDoorbell + ioqSize - s.sqHead) % ioqSize

/-- The completions that the driver has not consumed, the oldest first. -/
def unconsumed (s : Queues) : List Cqe := s.posted.drop s.consumed

/-- The controller has fetched the command or will do so. -/
def Outstanding (s : Queues) (x : Sqe) : Prop :=
  x ∈ s.fetched ∨ ∃ i < s.queued, s.iosq ((s.sqHead + i) % ioqSize) = x

end Queues

/-- Both cursors of the completion ring follow the entries posted and consumed, and every
command that is under way or has been completed belongs to a call. -/
structure QueueInv (s : Queues) : Prop where
  ring : Posted ioqSize Cqe.phase s.iocq s.posted
  cqTail : s.cqTail = cursorAt ioqSize s.posted.length
  iocqHead : s.iocqHead = cursorAt ioqSize s.consumed
  cqHead : s.cqHeadDoorbell = s.iocqHead.slot
  behind : s.consumed ≤ s.posted.length
  fits : s.posted.length < s.consumed + ioqSize
  sqTail : s.sqTailDoorbell = s.iosqTail
  sqTail_lt : s.iosqTail < ioqSize
  sqHead_lt : s.sqHead < ioqSize
  ready : s.ready = true
  calls : s.queued + s.fetched.length + s.posted.length ≤ s.finished.length + s.call.toList.length
  answers : s.consumed = (s.finished.filter fun r => r.consumed.isSome).length

namespace QueueInv

variable {s : Queues} {c : Call}

lemma init (h : NvmeStart s) : QueueInv s := by
  constructor
  · rw [h.posted]
    exact Posted.init h.iocq
  · rw [h.cqTail, h.posted]
    rfl
  · rw [h.iocqHead, h.consumed]
    rfl
  · rw [h.cqHeadDoorbell, h.iocqHead]
  · rw [h.consumed]
    exact Nat.zero_le _
  · rw [h.posted, h.consumed]
    decide
  · rw [h.sqTailDoorbell, h.iosqTail]
  · rw [h.iosqTail]
    decide
  · rw [h.sqHead]
    decide
  · exact h.ready
  · rw [Queues.queued, h.sqTailDoorbell, h.sqHead, h.fetched, h.posted]
    exact Nat.zero_le _
  · rw [h.consumed, h.finished]
    rfl

section

variable (h : QueueInv s)
include h

lemma submit (hidle : s.call = none) (opc : UInt8) (slba : UInt64) (nlb : UInt16)
    (bufPhys : UInt64) : QueueInv (s.submit opc slba nlb bufPhys) := by
  refine { h with sqTail := rfl, sqTail_lt := Nat.mod_lt _ (by decide), calls := ?_ }
  have hcalls := h.calls
  have htail := h.sqTail
  have htail_lt := h.sqTail_lt
  have hhead_lt := h.sqHead_lt
  simp only [Queues.submit, Queues.queued, hidle, Option.toList, length_nil, length_singleton, ioqSize]
    at hcalls htail_lt hhead_lt ⊢
  omega

lemma request (hidle : s.call = none) (opc : UInt8) (lba : UInt64) (count : UInt16)
    (bufPhys : UInt64) : QueueInv (s.request opc lba count bufPhys) := by
  rw [Queues.request]
  split
  · exact h
  · exact h.submit hidle opc lba count bufPhys

lemma poll_empty (hall : s.consumed = s.posted.length) : s.poll c = { s with call := some ⟨c.cid, c.polls + 1⟩ } := by
  have hend := h.ring.at_end (by decide)
  rw [← hall, ← h.iocqHead] at hend
  rw [Queues.poll, if_pos hend]

lemma poll_behind {e : Cqe} {l : List Cqe} (he : s.unconsumed = e :: l) :
    s.poll c = { s with
      iocqHead := s.iocqHead.next ioqSize
      cqHeadDoorbell := (s.iocqHead.next ioqSize).slot
      call := none
      consumed := s.consumed + 1
      finished := s.finished ++ [⟨c.cid, some e, e.ok⟩] } := by
  have hlt : s.consumed < s.posted.length := by
    have hlen := congrArg List.length he
    rw [Queues.unconsumed, length_drop, length_cons] at hlen
    omega
  have hfits := h.fits
  obtain ⟨hring, hphase⟩ := h.ring.at_behind hlt (by omega)
  rw [← h.iocqHead] at hring hphase
  have hfirst : s.posted[s.consumed] = e := by
    rw [Queues.unconsumed, drop_eq_getElem_cons hlt] at he
    exact (List.cons.inj he).1
  rw [Queues.poll, if_neg (not_not.mpr hphase), hring, hfirst]

lemma length_unconsumed : s.unconsumed = [] ↔ s.consumed = s.posted.length := by
  have hbehind := h.behind
  rw [Queues.unconsumed, drop_eq_nil_iff]
  omega

lemma poll (hcall : s.call = some c) : QueueInv (s.poll c) := by
  have hcalls := h.calls
  rw [hcall] at hcalls
  cases he : s.unconsumed with
  | nil =>
    rw [h.poll_empty (h.length_unconsumed.mp he)]
    exact { h with calls := hcalls }
  | cons e l =>
    rw [h.poll_behind he]
    have hlt : s.consumed < s.posted.length := by
      have hbehind := h.behind
      have hne : s.consumed ≠ s.posted.length := by
        rw [Ne, ← h.length_unconsumed, he]
        exact cons_ne_nil e l
      omega
    have hfits := h.fits
    have hanswers := h.answers
    refine { h with iocqHead := ?_, cqHead := rfl, behind := hlt, fits := ?_, calls := ?_, answers := ?_ }
    · rw [h.iocqHead]
      exact next_cursorAt _
    · show s.posted.length < s.consumed + 1 + ioqSize
      omega
    · simpa [Queues.queued] using hcalls
    · simp [filter_append, hanswers]

lemma timeout (hcall : s.call = some c) :
    QueueInv { s with call := none, finished := s.finished ++ [⟨c.cid, none, false⟩] } := by
  have hcalls := h.calls
  have hanswers := h.answers
  rw [hcall] at hcalls
  refine { h with calls := ?_, answers := ?_ }
  · simpa [Queues.queued] using hcalls
  · simp [filter_append, hanswers]

lemma fetch (hne : s.sqHead ≠ s.sqTailDoorbell) : QueueInv s.fetch := by
  have hcalls := h.calls
  have htail := h.sqTail
  have htail_lt := h.sqTail_lt
  have hhead_lt := h.sqHead_lt
  refine { h with sqHead_lt := Nat.mod_lt _ (by decide), calls := ?_ }
  simp only [Queues.fetch, Queues.queued, length_append, length_singleton, ioqSize]
    at hcalls htail_lt hhead_lt ⊢
  omega

lemma complete {i : ℕ} {x : Sqe} {status : UInt16} (hx : s.fetched[i]? = some x)
    (hroom : (s.cqTail.slot + 1) % ioqSize ≠ s.cqHeadDoorbell)
    (hphase : Cqe.phase ⟨x.cid, status⟩ = s.cqTail.phase) : QueueInv (s.complete i x status) := by
  have hcalls := h.calls
  have hfits := h.fits
  have hbehind := h.behind
  obtain ⟨hi, -⟩ := List.getElem?_eq_some_iff.mp hx
  have hlen := length_eraseIdx_of_lt hi
  rw [h.cqTail] at hroom hphase
  rw [h.cqHead, h.iocqHead] at hroom
  simp only [cursorAt, ioqSize] at hroom hfits
  refine { h with ring := ?_, cqTail := ?_, behind := ?_, fits := ?_, calls := ?_ }
  · simp only [Queues.complete, h.cqTail]
    exact h.ring.post hphase
  · simp only [Queues.complete, length_append, length_singleton, h.cqTail]
    exact next_cursorAt _
  · simp only [Queues.complete, length_append, length_singleton]
    omega
  · simp only [Queues.complete, length_append, length_singleton, ioqSize]
    omega
  · simp only [Queues.complete, Queues.queued, length_append, length_singleton, hlen] at hcalls ⊢
    omega

end

end QueueInv

variable {s s' : Queues} {a : NvmeAction}

lemma nvmeStep_inv (h : QueueInv s) (hs : nvmeStep s a s') : QueueInv s' := by
  cases a with
  | read lba count bufPhys | write lba count bufPhys =>
    obtain ⟨hidle, rfl⟩ := hs
    exact h.request hidle ..
  | poll =>
    obtain ⟨c, hcall, -, rfl⟩ := hs
    exact h.poll hcall
  | timeout =>
    obtain ⟨c, hcall, -, rfl⟩ := hs
    exact h.timeout hcall
  | fetch =>
    obtain ⟨hne, rfl⟩ := hs
    exact h.fetch hne
  | complete i status =>
    obtain ⟨x, hx, hroom, hphase, rfl⟩ := hs
    exact h.complete hx hroom hphase

lemma queueInv_of_reachable (hr : Reachable nvmeStep NvmeStart s) : QueueInv s :=
  hr.invariant (fun _ hs => QueueInv.init hs) fun _ _ _ h hs => nvmeStep_inv h hs

/-! ## Which completion a call consumes -/

/-- The call succeeded with the completion of its own command. -/
def Matched (r : Finished) : Prop := ∃ e, r.consumed = some e ∧ e.cid = r.cid ∧ e.ok = true

/-- Whatever the controller does, the next call that returns true is matched. -/
def NextMatched (s : Queues) : Prop :=
  ∀ as s' r, Run nvmeStep s as s' → s'.finished = s.finished ++ [r] → r.ok = true → Matched r

/-- The oldest completion not consumed carries the identifier, unless it reports an error; if
there is none, all commands under way carry it. -/
def OldestIs (s : Queues) (cid : UInt16) : Prop :=
  match s.unconsumed with
  | e :: _ => e.ok = true → e.cid = cid
  | [] => ∀ x, s.Outstanding x → x.cid = cid

/-- Before a call consumes an entry. -/
structure Waiting (s₀ s : Queues) : Prop where
  finished : s.finished = s₀.finished
  call : s.call = none ∧ s.nextCid = s₀.nextCid ∨ ∃ polls, s.call = some ⟨s₀.nextCid, polls⟩
  oldest : OldestIs s s₀.nextCid

lemma OldestIs.add {cid : UInt16} (h : OldestIs s cid) (hsame : s'.unconsumed = s.unconsumed)
    (hout : ∀ x, s'.Outstanding x → s.Outstanding x ∨ x.cid = cid) : OldestIs s' cid := by
  rw [OldestIs] at h ⊢
  rw [hsame]
  cases he : s.unconsumed with
  | cons e l =>
    rw [he] at h
    exact h
  | nil =>
    rw [he] at h
    intro x hx
    exact (hout x hx).elim (h x) id

namespace Waiting

variable {s₀ s : Queues}

section

variable (h : QueueInv s) {x : Sqe}
include h

lemma outstanding_submit (opc : UInt8) (slba : UInt64) (nlb : UInt16)
    (bufPhys : UInt64) (hx : (s.submit opc slba nlb bufPhys).Outstanding x) :
    s.Outstanding x ∨ x = ioSqe opc slba nlb bufPhys s.nextCid := by
  have htail := h.sqTail
  have htail_lt := h.sqTail_lt
  have hhead_lt := h.sqHead_lt
  rcases hx with hx | ⟨i, hi, hx⟩
  · exact .inl (.inl hx)
  simp only [Queues.submit, Queues.queued] at hi hx
  by_cases hslot : (s.sqHead + i) % ioqSize = s.iosqTail
  · rw [hslot, update_self] at hx
    exact .inr hx.symm
  rw [update_of_ne hslot] at hx
  refine .inl (.inr ⟨i, ?_, hx⟩)
  simp only [Queues.queued, ioqSize] at hi hslot htail_lt hhead_lt ⊢
  omega

lemma submit (hw : Waiting s₀ s) (hidle : s.call = none) (opc : UInt8) (slba : UInt64)
    (nlb : UInt16) (bufPhys : UInt64) : Waiting s₀ (s.submit opc slba nlb bufPhys) := by
  have hcid : s.nextCid = s₀.nextCid := by
    rcases hw.call with ⟨-, hcid⟩ | ⟨polls, hcall⟩
    · exact hcid
    · rw [hidle] at hcall
      cases hcall
  refine ⟨hw.finished, .inr ⟨0, by rw [← hcid]; rfl⟩, hw.oldest.add rfl fun x hx => ?_⟩
  rcases outstanding_submit h opc slba nlb bufPhys hx with hx | rfl
  · exact .inl hx
  · exact .inr (by rw [ioSqe_cid, hcid])

lemma request (hw : Waiting s₀ s) (hidle : s.call = none) (opc : UInt8) (lba : UInt64)
    (count : UInt16) (bufPhys : UInt64) : Waiting s₀ (s.request opc lba count bufPhys) := by
  rw [Queues.request]
  split
  · exact hw
  · exact hw.submit h hidle opc lba count bufPhys

lemma outstanding_fetch (hne : s.sqHead ≠ s.sqTailDoorbell)
    (hx : s.fetch.Outstanding x) : s.Outstanding x := by
  have htail := h.sqTail
  have htail_lt := h.sqTail_lt
  have hhead_lt := h.sqHead_lt
  rcases hx with hx | ⟨i, hi, hx⟩
  · rcases mem_append.mp hx with hx | hx
    · exact .inl hx
    obtain rfl := mem_singleton.mp hx
    refine .inr ⟨0, ?_, by rw [add_zero, Nat.mod_eq_of_lt hhead_lt]⟩
    simp only [Queues.queued, ioqSize] at htail_lt hhead_lt ⊢
    omega
  · simp only [Queues.fetch, Queues.queued, Nat.mod_add_mod] at hi hx
    refine .inr ⟨i + 1, ?_, by rw [← hx, add_assoc, add_comm 1 i]⟩
    simp only [Queues.queued, ioqSize] at hi htail_lt hhead_lt ⊢
    omega

lemma fetch (hw : Waiting s₀ s) (hne : s.sqHead ≠ s.sqTailDoorbell) : Waiting s₀ s.fetch :=
  ⟨hw.finished, hw.call, hw.oldest.add rfl fun _ hx => .inl (outstanding_fetch h hne hx)⟩

lemma unconsumed_complete (i : ℕ) (x : Sqe) (status : UInt16) :
    (s.complete i x status).unconsumed = s.unconsumed ++ [⟨x.cid, status⟩] := by
  have hbehind := h.behind
  rw [Queues.unconsumed, Queues.unconsumed, ← drop_append_of_le_length hbehind]
  rfl

lemma complete {i : ℕ} (hw : Waiting s₀ s) (hx : s.fetched[i]? = some x)
    (status : UInt16) : Waiting s₀ (s.complete i x status) := by
  refine ⟨hw.finished, hw.call, ?_⟩
  have holdest := hw.oldest
  rw [OldestIs] at holdest ⊢
  rw [unconsumed_complete h]
  cases he : s.unconsumed with
  | cons e l =>
    rw [he] at holdest
    exact holdest
  | nil =>
    rw [he] at holdest
    exact fun _ => holdest x (.inl (mem_of_getElem? hx))

end

end Waiting

/-- Until the next call returns the system waits for it; then that call was matched. -/
def NextGood (s₀ s : Queues) : Prop :=
  Waiting s₀ s ∨ ∃ r l, s.finished = s₀.finished ++ r :: l ∧ (r.ok = true → Matched r)

lemma request_finished (s : Queues) (opc : UInt8) (lba : UInt64) (count : UInt16) (bufPhys : UInt64) :
    (s.request opc lba count bufPhys).finished = s.finished := by
  rw [Queues.request]
  split <;> rfl

lemma nvmeStep_finished (hs : nvmeStep s a s') :
    ∃ m, s'.finished = s.finished ++ m := by
  cases a with
  | read lba count bufPhys | write lba count bufPhys =>
    obtain ⟨-, rfl⟩ := hs
    exact ⟨[], by rw [request_finished, append_nil]⟩
  | poll =>
    obtain ⟨c, -, -, rfl⟩ := hs
    rw [Queues.poll]
    split
    · exact ⟨[], (append_nil _).symm⟩
    · exact ⟨_, rfl⟩
  | timeout =>
    obtain ⟨c, -, -, rfl⟩ := hs
    exact ⟨_, rfl⟩
  | fetch =>
    obtain ⟨-, rfl⟩ := hs
    exact ⟨[], (append_nil _).symm⟩
  | complete i status =>
    obtain ⟨x, -, -, -, rfl⟩ := hs
    exact ⟨[], (append_nil _).symm⟩

section

variable {s₀ s : Queues} (h : QueueInv s) {i : ℕ}
include h

lemma Waiting.poll {c : Call} (hw : Waiting s₀ s) (hcall : s.call = some c) : NextGood s₀ (s.poll c) := by
  have hcid : c.cid = s₀.nextCid := by
    rcases hw.call with ⟨hidle, -⟩ | ⟨polls, hc⟩
    · rw [hcall] at hidle
      cases hidle
    · rw [hcall] at hc
      rw [Option.some.inj hc]
  cases he : s.unconsumed with
  | nil =>
    rw [h.poll_empty (h.length_unconsumed.mp he)]
    exact .inl ⟨hw.finished, .inr ⟨c.polls + 1, by rw [← hcid]⟩, hw.oldest⟩
  | cons e l =>
    rw [h.poll_behind he]
    have holdest := hw.oldest
    rw [OldestIs, he] at holdest
    refine .inr ⟨⟨c.cid, some e, e.ok⟩, [], by rw [← hw.finished], fun hok => ⟨e, rfl, ?_, hok⟩⟩
    exact (holdest hok).trans hcid.symm

lemma nextGood_step (hg : NextGood s₀ s) (hs : nvmeStep s a s') : NextGood s₀ s' := by
  rcases hg with hw | ⟨r, l, hfin, hr⟩
  · cases a with
    | read lba count bufPhys | write lba count bufPhys =>
      obtain ⟨hidle, rfl⟩ := hs
      exact .inl (hw.request h hidle ..)
    | poll =>
      obtain ⟨c, hcall, -, rfl⟩ := hs
      exact hw.poll h hcall
    | timeout =>
      obtain ⟨c, -, -, rfl⟩ := hs
      exact .inr ⟨⟨c.cid, none, false⟩, [], by rw [← hw.finished], fun hok => Bool.noConfusion hok⟩
    | fetch =>
      obtain ⟨hne, rfl⟩ := hs
      exact .inl (hw.fetch h hne)
    | complete i status =>
      obtain ⟨x, hx, -, -, rfl⟩ := hs
      exact .inl (hw.complete h hx status)
  · obtain ⟨m, hm⟩ := nvmeStep_finished hs
    exact .inr ⟨r, l ++ m, by rw [hm, hfin, append_assoc, cons_append], hr⟩

lemma nextMatched_of_oldest (hidle : s.call = none) (hold : OldestIs s s.nextCid) : NextMatched s := by
  intro as s' r hrun hfin hok
  have hwait : Waiting s s := ⟨rfl, .inl ⟨hidle, rfl⟩, hold⟩
  have hgood : QueueInv s' ∧ NextGood s s' := by
    refine hrun.invariant (I := fun u => QueueInv u ∧ NextGood s u) ?_ ⟨h, .inl hwait⟩
    intro u a v hu hs
    exact ⟨nvmeStep_inv hu.1 hs, nextGood_step hu.1 hu.2 hs⟩
  rcases hgood.2 with hw | ⟨r', l, hr', hmatched⟩
  · have hlen := congrArg List.length (hw.finished.symm.trans hfin)
    simp at hlen
  · obtain ⟨rfl, -⟩ := List.cons.inj (append_cancel_left (hfin.symm.trans hr'))
    exact hmatched hok

lemma consumes_oldest (hidle : s.call = none) {e : Cqe} {l : List Cqe} (he : s.unconsumed = e :: l) :
    ∃ as s', Run nvmeStep s as s' ∧ s'.finished = s.finished ++ [⟨s.nextCid, some e, e.ok⟩] := by
  have hrequest : s.request ioRead 0 1 0 = s.submit ioRead 0 1 0 := by
    rw [Queues.request, h.ready]
    rfl
  have hsubmit := h.submit hidle ioRead 0 1 0
  have hpoll := hsubmit.poll_behind (c := ⟨s.nextCid, 0⟩) he
  have hpolls : (0 : ℕ) < maxPolls := by decide
  refine ⟨[.read 0 1 0, .poll], _,
    .cons ⟨hidle, hrequest.symm⟩ (.cons ⟨⟨s.nextCid, 0⟩, rfl, hpolls, rfl⟩ (.nil _)), ?_⟩
  rw [hpoll]
  rfl

lemma sqHead_ne_of_queued (hi : i < s.queued) : s.sqHead ≠ s.sqTailDoorbell := by
  have hhead_lt := h.sqHead_lt
  intro heq
  simp only [Queues.queued, ioqSize, ← heq] at hi hhead_lt
  omega

lemma fetches_queued (hi : i < s.queued) :
    ∃ as s', Run nvmeStep s as s' ∧ QueueInv s' ∧ s.iosq ((s.sqHead + i) % ioqSize) ∈ s'.fetched ∧
      s'.call = s.call ∧ s'.nextCid = s.nextCid ∧ s'.finished = s.finished ∧ s'.unconsumed = s.unconsumed := by
  induction i generalizing s with
  | zero =>
    have hne := sqHead_ne_of_queued h hi
    refine ⟨[.fetch], s.fetch, .cons ⟨hne, rfl⟩ (.nil _), h.fetch hne, ?_, rfl, rfl, rfl, rfl⟩
    rw [add_zero, Nat.mod_eq_of_lt h.sqHead_lt]
    exact mem_append_right _ mem_cons_self
  | succ i ih =>
    have hne := sqHead_ne_of_queued h hi
    have hi' : i < s.fetch.queued := by
      have htail := h.sqTail
      have htail_lt := h.sqTail_lt
      have hhead_lt := h.sqHead_lt
      simp only [Queues.fetch, Queues.queued, ioqSize] at hi htail_lt hhead_lt ⊢
      omega
    obtain ⟨as, s', hrun, hinv, hmem, hcall, hcid, hfin, hun⟩ := ih (h.fetch hne) hi'
    refine ⟨.fetch :: as, s', .cons ⟨hne, rfl⟩ hrun, hinv, ?_, hcall, hcid, hfin, hun⟩
    have hslot : (s.fetch.sqHead + i) % ioqSize = (s.sqHead + (i + 1)) % ioqSize := by
      simp only [Queues.fetch, Nat.mod_add_mod]
      congr 1
      omega
    rw [hslot] at hmem
    exact hmem

/-- With room in the ring, the controller can report success for a command it has fetched. -/
lemma completes_fetched (hnone : s.unconsumed = []) {x : Sqe}
    (hx : x ∈ s.fetched) : ∃ e s', Run nvmeStep s [.complete (s.fetched.idxOf x) e.status] s' ∧ QueueInv s' ∧
      s'.unconsumed = [e] ∧ e.cid = x.cid ∧ e.ok = true ∧ s'.call = s.call ∧ s'.nextCid = s.nextCid ∧
      s'.finished = s.finished := by
  have hall := h.length_unconsumed.mp hnone
  have hget : s.fetched[s.fetched.idxOf x]? = some x := getElem?_idxOf hx
  have hroom : (s.cqTail.slot + 1) % ioqSize ≠ s.cqHeadDoorbell := by
    rw [h.cqTail, h.cqHead, h.iocqHead, hall]
    simp only [cursorAt, ioqSize]
    omega
  -- the status is 0 apart from the phase
  obtain ⟨status, hphase, hok⟩ : ∃ status : UInt16, Cqe.phase ⟨x.cid, status⟩ = s.cqTail.phase ∧
      Cqe.ok ⟨x.cid, status⟩ = true := by
    have hone : ∀ e : Cqe, e.status = 1 → e.phase = true ∧ e.ok = true := by
      intro e he
      rw [Cqe.phase, Cqe.ok, he]
      decide
    have hzero : ∀ e : Cqe, e.status = 0 → e.phase = false ∧ e.ok = true := by
      intro e he
      rw [Cqe.phase, Cqe.ok, he]
      decide
    cases s.cqTail.phase with
    | true => exact ⟨1, hone _ rfl⟩
    | false => exact ⟨0, hzero _ rfl⟩
  refine ⟨⟨x.cid, status⟩, s.complete (s.fetched.idxOf x) x status, .cons ⟨x, hget, hroom, hphase, rfl⟩ (.nil _),
    h.complete hget hroom hphase, ?_, rfl, hok, rfl, rfl, rfl⟩
  rw [Waiting.unconsumed_complete h, hnone]
  rfl

lemma oldest_of_nextMatched (hidle : s.call = none) (hnext : NextMatched s) : OldestIs s s.nextCid := by
  -- a completion that waits in a state reached from here before the call is consumed by it
  have hwaiting : ∀ {as : List NvmeAction} {u : Queues} {e : Cqe} {l : List Cqe}, Run nvmeStep s as u → QueueInv u →
      u.call = none → u.nextCid = s.nextCid → u.finished = s.finished → u.unconsumed = e :: l →
      e.ok = true → e.cid = s.nextCid := by
    intro as u e l hrun hu hcall hcid hfin he hok
    obtain ⟨bs, s', hrun', hfin'⟩ := consumes_oldest hu hcall he
    rw [hfin] at hfin'
    obtain ⟨e', he', hmatch, -⟩ := hnext _ s' _ (hrun.append hrun') hfin' hok
    cases he'
    exact hmatch.trans hcid
  rw [OldestIs]
  cases he : s.unconsumed with
  | cons e l => exact hwaiting (.nil s) h hidle rfl rfl he
  | nil =>
    intro x hx
    obtain ⟨as, u, hrun, hu, hmem, hcall, hcid, hfin, hun⟩ : ∃ as u, Run nvmeStep s as u ∧ QueueInv u ∧
        x ∈ u.fetched ∧ u.call = s.call ∧ u.nextCid = s.nextCid ∧ u.finished = s.finished ∧
        u.unconsumed = s.unconsumed := by
      rcases hx with hx | ⟨i, hi, rfl⟩
      · exact ⟨[], s, .nil s, h, hx, rfl, rfl, rfl, rfl⟩
      · exact fetches_queued h hi
    obtain ⟨e, v, hrun', hv, hev, hex, hok, hcall', hcid', hfin'⟩ := completes_fetched hu (hun.trans he) hmem
    rw [← hex]
    exact hwaiting (hrun.append hrun') hv (hcall'.trans (hcall.trans hidle)) (hcid'.trans hcid)
      (hfin'.trans hfin) hev hok

end

/-- Between two calls of any run, with any timeouts: whatever the controller does, the next
call returns true only with the completion of its own command, if and only if the oldest
completion or the commands under way are not those of another call. -/
theorem next_matched_iff {s : Queues} (hr : Reachable nvmeStep NvmeStart s) (hidle : s.call = none) :
    NextMatched s ↔ OldestIs s s.nextCid :=
  ⟨oldest_of_nextMatched (queueInv_of_reachable hr) hidle,
    nextMatched_of_oldest (queueInv_of_reachable hr) hidle⟩

/-- The queues after `nvme_init`. -/
def freshQueues : Queues where
  iosq _ := ⟨0, 0, 0, 0, 0, 0⟩
  iocq _ := ⟨0, 0⟩
  ready := true
  iosqTail := 0
  iocqHead := ⟨0, true⟩
  nextCid := 0
  call := none
  sqTailDoorbell := 0
  cqHeadDoorbell := 0
  sqHead := 0
  fetched := []
  cqTail := ⟨0, true⟩
  posted := []
  consumed := 0
  finished := []

lemma freshQueues_start : NvmeStart freshQueues := by
  have hphase : Cqe.phase ⟨0, 0⟩ = false := by decide
  exact ⟨fun _ _ => hphase, rfl, rfl, rfl, rfl, rfl, rfl, rfl, rfl, rfl, rfl, rfl, rfl⟩

/-- A first call was made, and the controller has completed its command. -/
def completed : Queues := (freshQueues.submit ioRead 0 1 0).fetch.complete 0 (ioSqe ioRead 0 1 0 0) 1

/-- The first call has returned. -/
def afterCall : Queues := completed.poll ⟨0, 0⟩

lemma reachable_afterCall : Reachable nvmeStep NvmeStart afterCall :=
  ⟨freshQueues, [.read 0 1 0, .fetch, .complete 0 1, .poll], freshQueues_start, .cons ⟨rfl, rfl⟩
    (.cons ⟨by decide, rfl⟩ (.cons ⟨ioSqe ioRead 0 1 0 0, by decide, by decide, by decide, rfl⟩
      (.cons ⟨⟨0, 0⟩, rfl, by decide, rfl⟩ (.nil _))))⟩

/-- The second call is matched. -/
theorem next_matched_afterCall : afterCall.finished = [⟨0, some ⟨0, 1⟩, true⟩] ∧ NextMatched afterCall := by
  refine ⟨by decide, (next_matched_iff reachable_afterCall (by decide)).mpr ?_⟩
  rintro x (hx | ⟨i, hi, -⟩)
  · exact absurd hx (by decide +revert)
  · exact absurd hi (by decide +revert)

/-- As long as no call has timed out, nothing is left behind for the next one, which is matched. -/
theorem nextMatched_of_no_timeout {s : Queues} (hr : Reachable nvmeStep NvmeStart s) (hidle : s.call = none)
    (hno : ∀ r ∈ s.finished, r.consumed.isSome = true) : NextMatched s := by
  have h := queueInv_of_reachable hr
  refine nextMatched_of_oldest h hidle ?_
  have hanswers := h.answers
  have hcalls := h.calls
  have hbehind := h.behind
  rw [filter_eq_self.mpr hno] at hanswers
  rw [hidle, Option.toList, length_nil] at hcalls
  have hnone : s.unconsumed = [] := h.length_unconsumed.mpr (by omega)
  rw [OldestIs, hnone]
  rintro x (hx | ⟨i, hi, -⟩)
  · have hlen := length_pos_of_mem hx
    omega
  · omega

theorem nextMatched_of_no_timeout_afterCall : afterCall.consumed = 1 ∧ NextMatched afterCall :=
  ⟨by decide, nextMatched_of_no_timeout reachable_afterCall (by decide) (by decide)⟩

lemma polls_run {cid : UInt16} (hphase : (s.iocq s.iocqHead.slot).phase ≠ s.iocqHead.phase)
    (n : ℕ) : ∀ k, k + n ≤ maxPolls → Run nvmeStep { s with call := some ⟨cid, k⟩ } (List.replicate n .poll)
      { s with call := some ⟨cid, k + n⟩ } := by
  induction n with
  | zero => exact fun k _ => .nil _
  | succ n ih =>
    intro k hk
    have hstep : nvmeStep { s with call := some ⟨cid, k⟩ } .poll { s with call := some ⟨cid, k + 1⟩ } := by
      refine ⟨⟨cid, k⟩, rfl, ?_, ?_⟩
      · show k < maxPolls
        omega
      · rw [Queues.poll, if_pos hphase]
    have hrest := ih (k + 1) (by omega)
    rw [add_assoc, add_comm 1 n] at hrest
    exact .cons hstep hrest

/-- The first call gave up; the controller has its command. -/
def givenUp : Queues :=
  { freshQueues.submit ioRead 0 1 0 with call := none, finished := [⟨0, none, false⟩] }

/-- The command is completed after all, and a second call is made. -/
def afterLate : Queues := (givenUp.fetch.complete 0 (ioSqe ioRead 0 1 0 0) 1).submit ioRead 8 1 4096

/-- The second call takes the late completion for its own and returns true. -/
theorem late_completion_taken : ∃ as s, NvmeStart freshQueues ∧ Run nvmeStep freshQueues as s ∧
    s.finished = [⟨0, none, false⟩, ⟨1, some ⟨0, 1⟩, true⟩] := by
  have hsubmit : nvmeStep freshQueues (.read 0 1 0) (freshQueues.submit ioRead 0 1 0) := ⟨rfl, rfl⟩
  have hphase : ((freshQueues.submit ioRead 0 1 0).iocq (freshQueues.submit ioRead 0 1 0).iocqHead.slot).phase ≠
      (freshQueues.submit ioRead 0 1 0).iocqHead.phase := by decide
  have hpolls : Run nvmeStep (freshQueues.submit ioRead 0 1 0) (List.replicate maxPolls .poll)
      { freshQueues.submit ioRead 0 1 0 with call := some ⟨0, 0 + maxPolls⟩ } :=
    polls_run hphase maxPolls 0 (le_of_eq (zero_add _))
  have htimeout : nvmeStep { freshQueues.submit ioRead 0 1 0 with call := some ⟨0, 0 + maxPolls⟩ } .timeout givenUp :=
    ⟨⟨0, 0 + maxPolls⟩, rfl, zero_add _, rfl⟩
  have hfetch : nvmeStep givenUp .fetch givenUp.fetch := ⟨by decide, rfl⟩
  have hcomplete : nvmeStep givenUp.fetch (.complete 0 1) (givenUp.fetch.complete 0 (ioSqe ioRead 0 1 0 0) 1) :=
    ⟨ioSqe ioRead 0 1 0 0, by decide, by decide, by decide, rfl⟩
  have hagain : nvmeStep (givenUp.fetch.complete 0 (ioSqe ioRead 0 1 0 0) 1) (.read 8 1 4096) afterLate := ⟨rfl, rfl⟩
  have hpoll : nvmeStep afterLate .poll (afterLate.poll ⟨1, 0⟩) := ⟨⟨1, 0⟩, rfl, by decide, rfl⟩
  refine ⟨_, afterLate.poll ⟨1, 0⟩, freshQueues_start, .cons hsubmit (hpolls.append (.cons htimeout
    (.cons hfetch (.cons hcomplete (.cons hagain (.cons hpoll (.nil _))))))), ?_⟩
  decide

end AetherOS.Nvme
