import AetherOS.CountedRing
import AetherOS.Process

/-!
# Pipes

The pipe table and the calls on it. A pipe lives from the `pipe_alloc` that returned it until
both ends are closed or it is freed. While it lives, the bytes read from it and the bytes
waiting in its ring are the bytes that were accepted, in this order.
-/
namespace AetherOS.Proc
open RingBuffer Runs Function List

abbrev pipeBuf : ℕ := 4096

/-- A slot of the pipe table: the flags and the ring. -/
structure PipeSlot extends Pipe where
  ring : CountedRing UInt8 pipeBuf

abbrev PipeTable := Fin maxPipes → PipeSlot

/-- The slot that an index names. -/
def slotOf (idx : ℤ) : Option (Fin maxPipes) :=
  if h : 0 ≤ idx ∧ idx < maxPipes then some ⟨idx.toNat, by omega⟩ else none

@[simp] lemma slotOf_val (i : Fin maxPipes) : slotOf (i.val : ℤ) = some i := by
  have hi := i.isLt
  rw [slotOf, dif_pos (by omega)]
  rfl

/-- A pipe as `pipe_alloc` leaves it. -/
def freshPipe : PipeSlot where
  inUse := true
  writeClosed := false
  readClosed := false
  ring := ⟨fun _ => 0, 0, 0, by decide, by decide⟩

/-- The first free slot, or `none` for the result -1. -/
def pipeAlloc (t : PipeTable) : Option (Fin maxPipes) × PipeTable :=
  match (List.finRange maxPipes).find? fun i => !(t i).inUse with
  | none => (none, t)
  | some i => (some i, update t i freshPipe)

def pipeFree (t : PipeTable) (idx : ℤ) : PipeTable :=
  match slotOf idx with
  | none => t
  | some i => update t i { t i with inUse := false }

/-- Store byte after byte until the ring is full, and count them. -/
def pushAll (r : CountedRing UInt8 pipeBuf) : List UInt8 → ℕ × CountedRing UInt8 pipeBuf
  | [] => (0, r)
  | x :: xs =>
    if r.count < pipeBuf then
      let rest := pushAll (r.push x) xs
      (rest.1 + 1, rest.2)
    else (0, r)

def pipeWrite (t : PipeTable) (idx : ℤ) (data : List UInt8) : ℤ × PipeTable :=
  match slotOf idx with
  | none => (-1, t)
  | some i =>
    let p := t i
    if ¬p.inUse ∨ p.readClosed then (-1, t)
    else
      let w := pushAll p.ring data
      (w.1, update t i { p with ring := w.2 })

/-- The result and the bytes: 0 is the end of the file, -2 asks to try again. -/
def pipeRead (t : PipeTable) (idx : ℤ) (len : ℕ) : ℤ × List UInt8 × PipeTable :=
  match slotOf idx with
  | none => (-1, [], t)
  | some i =>
    let p := t i
    if ¬p.inUse then (-1, [], t)
    else if p.ring.count = 0 then (if p.writeClosed then 0 else -2, [], t)
    else
      let r := p.ring.pop len
      (r.1.length, r.1, update t i { p with ring := r.2 })

/-- Closing an end changes the flags only. -/
def pipeCloseEnd (read : Bool) (t : PipeTable) (idx : ℤ) : PipeTable :=
  fun i => { t i with toPipe := pipeClose read (fun j => (t j).toPipe) idx i }

/-! ## The ring -/

/-- As many bytes are stored as there is room for. -/
theorem pushAll_spec (r : CountedRing UInt8 pipeBuf) (data : List UInt8) :
    (pushAll r data).1 = min data.length (pipeBuf - r.count) ∧
      (pushAll r data).2.contents = r.contents ++ data.take (pushAll r data).1 := by
  induction data generalizing r with
  | nil => simp [pushAll]
  | cons x xs ih =>
    by_cases h : r.count < pipeBuf
    · have hc := CountedRing.push_contents h x
      have hlen := congrArg List.length hc
      simp only [CountedRing.length_contents, length_append, length_cons, length_nil] at hlen
      obtain ⟨ih1, ih2⟩ := ih (r.push x)
      simp only [pushAll, if_pos h]
      refine ⟨?_, ?_⟩
      · rw [ih1, hlen, length_cons]
        omega
      · rw [ih2, hc, take_succ_cons, append_assoc, singleton_append]
    · simp only [pushAll, if_neg h, take_zero, append_nil, and_true]
      omega

/-! ## The life of a pipe -/

inductive PipeCall where
  | alloc
  | free (idx : ℤ)
  | write (idx : ℤ) (data : List UInt8)
  | read (idx : ℤ) (len : ℕ)
  | closeWrite (idx : ℤ)
  | closeRead (idx : ℤ)

/-- The table, and what has happened to one pipe: the bytes that writes to it accepted, the
bytes that reads from it returned, and whether its write end was closed. -/
structure PipeHistory where
  table : PipeTable
  accepted : List UInt8
  returned : List UInt8
  writeEndClosed : Bool

def PipeHistory.handle (i : Fin maxPipes) (h : PipeHistory) : PipeCall → PipeHistory
  | .alloc => { h with table := (pipeAlloc h.table).2 }
  | .free idx => { h with table := pipeFree h.table idx }
  | .write idx data =>
    let r := pipeWrite h.table idx data
    { h with
      table := r.2
      accepted := if slotOf idx = some i then h.accepted ++ data.take r.1.toNat else h.accepted }
  | .read idx len =>
    let r := pipeRead h.table idx len
    { h with
      table := r.2.2
      returned := if slotOf idx = some i then h.returned ++ r.2.1 else h.returned }
  | .closeWrite idx =>
    { h with
      table := pipeCloseEnd false h.table idx
      writeEndClosed := h.writeEndClosed || decide (slotOf idx = some i) }
  | .closeRead idx => { h with table := pipeCloseEnd true h.table idx }

/-- A call that does not release pipe `i`. -/
def pipeStep (i : Fin maxPipes) (h : PipeHistory) (c : PipeCall) (h' : PipeHistory) : Prop :=
  h' = h.handle i c ∧ (h'.table i).inUse = true

/-- `pipe_alloc` has just returned pipe `i`. -/
structure PipeStart (i : Fin maxPipes) (h : PipeHistory) : Prop where
  table : ∃ t, pipeAlloc t = (some i, h.table)
  accepted : h.accepted = []
  returned : h.returned = []
  writeEndClosed : h.writeEndClosed = false

/-- The accepted bytes are those that were returned and then those in the ring. -/
structure PipeInv (i : Fin maxPipes) (h : PipeHistory) : Prop where
  inUse : (h.table i).inUse = true
  bytes : h.accepted = h.returned ++ (h.table i).ring.contents
  closed : (h.table i).writeClosed = true → h.writeEndClosed = true

section

variable {i : Fin maxPipes} {h : PipeHistory}

lemma pipeAlloc_of_ne {t : PipeTable} (hi : (t i).inUse = true) : (pipeAlloc t).2 i = t i := by
  unfold pipeAlloc
  split
  · rfl
  rename_i j hj
  have hfree := find?_some hj
  have hne : i ≠ j := by
    rintro rfl
    simp [hi] at hfree
  exact update_of_ne hne _ _

lemma pipeWrite_slot (t : PipeTable) (idx : ℤ) (data : List UInt8) (i : Fin maxPipes) :
    ∃ ring, (pipeWrite t idx data).2 i = { t i with ring := ring } ∧ ring.contents =
      (t i).ring.contents ++ if slotOf idx = some i then data.take (pipeWrite t idx data).1.toNat else [] := by
  unfold pipeWrite
  cases hj : slotOf idx with
  | none => exact ⟨(t i).ring, rfl, by simp⟩
  | some j =>
    by_cases hrefuse : ¬(t j).inUse = true ∨ (t j).readClosed = true
    · simp only [if_pos hrefuse]
      exact ⟨(t i).ring, rfl, by simp⟩
    simp only [if_neg hrefuse]
    by_cases hji : i = j
    · subst hji
      refine ⟨(pushAll (t i).ring data).2, update_self _ _ _, ?_⟩
      rw [if_pos rfl, Int.toNat_natCast]
      exact (pushAll_spec (t i).ring data).2
    · refine ⟨(t i).ring, update_of_ne hji _ _, ?_⟩
      rw [if_neg (by simpa using Ne.symm hji), append_nil]

lemma pipeRead_slot (t : PipeTable) (idx : ℤ) (len : ℕ) (i : Fin maxPipes) :
    ∃ ring, (pipeRead t idx len).2.2 i = { t i with ring := ring } ∧
      (if slotOf idx = some i then (pipeRead t idx len).2.1 else []) ++ ring.contents =
        (t i).ring.contents := by
  unfold pipeRead
  cases hj : slotOf idx with
  | none => exact ⟨(t i).ring, rfl, by simp⟩
  | some j =>
    by_cases huse : (t j).inUse = true
    · simp only [huse, not_true, if_false]
      by_cases hcount : (t j).ring.count = 0
      · simp only [if_pos hcount]
        exact ⟨(t i).ring, rfl, by simp⟩
      simp only [if_neg hcount]
      by_cases hji : i = j
      · subst hji
        refine ⟨((t i).ring.pop len).2, update_self _ _ _, ?_⟩
        rw [if_pos rfl]
        exact (t i).ring.pop_append len
      · refine ⟨(t i).ring, update_of_ne hji _ _, ?_⟩
        rw [if_neg (by simpa using Ne.symm hji), nil_append]
    · simp only [if_pos huse]
      exact ⟨(t i).ring, rfl, by simp⟩

lemma PipeStart.inv (hs : PipeStart i h) : PipeInv i h := by
  obtain ⟨⟨t, ht⟩, ha, hr, -⟩ := hs
  have hfresh : h.table i = freshPipe := by
    unfold pipeAlloc at ht
    split at ht
    · cases ht
    obtain ⟨hi, htable⟩ := Prod.mk.inj ht
    cases hi
    rw [← htable, update_self]
  refine ⟨?_, ?_, ?_⟩
  · rw [hfresh]
    rfl
  · rw [ha, hr, hfresh]
    rfl
  rw [hfresh]
  intro hc
  cases hc

/-- The call leaves the flags of the pipe as they are. -/
lemma PipeInv.moved {h' : PipeHistory} (hi : PipeInv i h) {ring : CountedRing UInt8 pipeBuf}
    (hslot : h'.table i = { h.table i with ring := ring }) (hbytes : h'.accepted = h'.returned ++ ring.contents)
    (hclosed : h'.writeEndClosed = h.writeEndClosed) : PipeInv i h' := by
  constructor
  · rw [hslot]
    exact hi.inUse
  · rw [hslot]
    exact hbytes
  · rw [hslot, hclosed]
    exact hi.closed

lemma PipeInv.write (hi : PipeInv i h) (idx : ℤ) (data : List UInt8) :
    PipeInv i (h.handle i (.write idx data)) := by
  obtain ⟨ring, hslot, hring⟩ := pipeWrite_slot h.table idx data i
  refine hi.moved hslot ?_ rfl
  simp only [PipeHistory.handle, hring, hi.bytes]
  split
  · rw [append_assoc]
  · rw [append_nil]

lemma PipeInv.read (hi : PipeInv i h) (idx : ℤ) (len : ℕ) : PipeInv i (h.handle i (.read idx len)) := by
  obtain ⟨ring, hslot, hring⟩ := pipeRead_slot h.table idx len i
  refine hi.moved hslot ?_ rfl
  simp only [PipeHistory.handle, hi.bytes]
  rw [← hring]
  split
  · rw [append_assoc]
  · rw [nil_append]

lemma pipeCloseEnd_writeClosed (t : PipeTable) (idx : ℤ) (i : Fin maxPipes)
    (hc : (pipeCloseEnd true t idx i).writeClosed = true) : (t i).writeClosed = true := by
  simp only [pipeCloseEnd, pipeClose] at hc
  split at hc
  · simp only [if_true] at hc
    split at hc <;> exact hc
  · exact hc

lemma pipeCloseEnd_slotOf {t : PipeTable} {idx : ℤ} {read : Bool} (hne : slotOf idx ≠ some i) :
    pipeCloseEnd read t idx i = t i := by
  have hidx : ¬((i.val : ℤ) = idx) := by
    rintro rfl
    exact hne (slotOf_val i)
  simp [pipeCloseEnd, pipeClose, hidx]

lemma PipeInv.step {c : PipeCall} {h' : PipeHistory} (hi : PipeInv i h) (hs : pipeStep i h c h') :
    PipeInv i h' := by
  obtain ⟨rfl, hlive⟩ := hs
  cases c with
  | alloc => exact hi.moved (pipeAlloc_of_ne hi.inUse) hi.bytes rfl
  | free idx =>
    have hring : (pipeFree h.table idx i).ring = (h.table i).ring ∧
        (pipeFree h.table idx i).writeClosed = (h.table i).writeClosed := by
      unfold pipeFree
      cases slotOf idx with
      | none => exact ⟨rfl, rfl⟩
      | some j =>
        dsimp only
        exact update_cases i ⟨rfl, rfl⟩ fun _ => ⟨rfl, rfl⟩
    refine ⟨hlive, ?_, ?_⟩
    · simp only [PipeHistory.handle, hring.1]
      exact hi.bytes
    · simp only [PipeHistory.handle, hring.2]
      exact hi.closed
  | write idx data => exact hi.write idx data
  | read idx len => exact hi.read idx len
  | closeWrite idx =>
    refine ⟨hlive, hi.bytes, fun hc => ?_⟩
    simp only [PipeHistory.handle, Bool.or_eq_true, decide_eq_true_eq]
    by_cases hidx : slotOf idx = some i
    · exact .inr hidx
    · simp only [PipeHistory.handle, pipeCloseEnd_slotOf hidx] at hc
      exact .inl (hi.closed hc)
  | closeRead idx => exact ⟨hlive, hi.bytes, fun hc => hi.closed (pipeCloseEnd_writeClosed h.table idx i hc)⟩

end

/-- A pipe is a bounded queue: in every state of its life, whatever calls were made on it and
on the other pipes, the bytes returned are a prefix of the bytes accepted, the rest is in the
ring in order and at most 4096 bytes long, and a read of at least one byte that would report
the end of the file finds the write end closed and every accepted byte returned. -/
theorem pipe_is_queue (i : Fin maxPipes) (h : PipeHistory) (hr : Reachable (pipeStep i) (PipeStart i) h) :
    h.returned <+: h.accepted ∧
      h.accepted = h.returned ++ (h.table i).ring.contents ∧ (h.table i).ring.contents.length ≤ 4096 ∧
      ∀ len, 0 < len → (pipeRead h.table i len).1 = 0 →
        h.writeEndClosed = true ∧ h.accepted = h.returned := by
  have hi : PipeInv i h := hr.invariant (fun _ hs => hs.inv) fun _ _ _ hi hs => hi.step hs
  refine ⟨⟨_, hi.bytes.symm⟩, hi.bytes, ?_, fun len hlen hread => ?_⟩
  · rw [CountedRing.length_contents]
    exact (h.table i).ring.count_le
  simp only [pipeRead, slotOf_val, hi.inUse, not_true, if_false] at hread
  by_cases hcount : (h.table i).ring.count = 0
  · rw [if_pos hcount] at hread
    have hempty : (h.table i).ring.contents = [] :=
      length_eq_zero_iff.mp ((h.table i).ring.length_contents.trans hcount)
    refine ⟨hi.closed ?_, ?_⟩
    · by_contra hopen
      simp only [hopen, if_false] at hread
      omega
    · rw [hi.bytes, hempty, append_nil]
  · rw [if_neg hcount] at hread
    simp only [CountedRing.length_pop] at hread
    omega

/-- No pipe is in use. -/
def noPipes : PipeTable := fun _ => { freshPipe with inUse := false }

/-- Three bytes written, two of them read, and the write end closed. -/
theorem pipe_is_queue_three_bytes :
    ∃ h, h.accepted = [1, 2, 3] ∧ h.returned = [1, 2] ∧ h.writeEndClosed = true ∧
      Reachable (pipeStep 0) (PipeStart 0) h ∧ h.returned <+: h.accepted ∧
      (h.table 0).ring.contents.length ≤ 4096 := by
  let start : PipeHistory := ⟨(pipeAlloc noPipes).2, [], [], false⟩
  let written := start.handle 0 (.write 0 [1, 2, 3])
  let read := written.handle 0 (.read 0 2)
  have hstart : PipeStart 0 start := ⟨⟨noPipes, rfl⟩, rfl, rfl, rfl⟩
  have hr : Reachable (pipeStep 0) (PipeStart 0) (read.handle 0 (.closeWrite 0)) :=
    ⟨start, [.write 0 [1, 2, 3], .read 0 2, .closeWrite 0], hstart,
      .cons ⟨rfl, by decide +kernel⟩ (.cons ⟨rfl, by decide +kernel⟩ (.cons ⟨rfl, by decide +kernel⟩ (.nil _)))⟩
  obtain ⟨hreturned, -, hlen, -⟩ := pipe_is_queue 0 _ hr
  exact ⟨_, by decide +kernel, by decide +kernel, by decide +kernel, hr, hreturned, hlen⟩

end AetherOS.Proc
