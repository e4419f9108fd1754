import AetherOS.TcpDelivery

/-!
# The byte stream a connection sends

`tcp_send` cuts its data into segments and stops at the first one that `ipv4_send` refuses.
The sequence number moves on before the answer is known, so the bytes of a refused segment
keep their place in the sequence space although nobody sends them again.
-/
namespace AetherOS.Tcp
open List

def tcpFlagPsh : UInt8 := 0x08

/-- The largest number of data bytes in a segment. -/
def tcpMss : ℕ := 1460

/-- The loop of `tcp_send`; every round takes at least one byte. -/
def sendLoop : ℕ → Stack → Fin maxConns → List UInt8 → Bool × Stack
  | 0, s, _, _ => (true, s)
  | fuel + 1, s, i, data =>
    if data.length = 0 then (true, s)
    else
      let r := tcpSendSeg s i (tcpFlagAck ||| tcpFlagPsh) (data.take tcpMss)
      if !r.1 then (false, r.2) else sendLoop fuel r.2 i (data.drop tcpMss)

def tcpSend (s : Stack) (i : Fin maxConns) (data : List UInt8) : Bool × Stack :=
  if (s.conns i).state ≠ .established then (false, s) else sendLoop data.length s i data

/-- One call of `tcp_send` after the other, each whatever the ones before returned. -/
def sendCalls (s : Stack) (i : Fin maxConns) : List (List UInt8) → Stack
  | [] => s
  | data :: calls => sendCalls (tcpSend s i data).2 i calls

/-! ## Segments as ranges of sequence numbers -/

/-- The first sequence number, the number of data bytes, and whether the segment was sent. -/
def Handed.range (h : Handed) : UInt32 × ℕ × Bool :=
  ((TcpHdr.ofPacket h.payload).seq, h.payload.length - sizeofTcpHdr, h.sent)

/-- The ranges of the segments that were sent. -/
def sentRanges (log : List Handed) : List (UInt32 × ℕ) :=
  ((log.map Handed.range).filter fun r => r.2.2).map fun r => (r.1, r.2.1)

/-- Every range starts where the one before it ends, the first one at `start`. -/
def Consecutive (start : UInt32) : List (UInt32 × ℕ) → Prop
  | [] => True
  | (seq, n) :: rest => seq = start ∧ Consecutive (start + UInt32.ofNat n) rest

/-- The numbers of bytes of the segments into which `n` bytes are cut. -/
def segmentLengths : ℕ → ℕ → List ℕ
  | 0, _ => []
  | fuel + 1, n => if n = 0 then [] else min tcpMss n :: segmentLengths fuel (n - tcpMss)

/-- The segments one call hands over, from the `k`-th answer on: it stops at a refusal. -/
def attempt (answer : ℕ → Bool) (k : ℕ) : List ℕ → List (ℕ × Bool)
  | [] => []
  | n :: rest => if answer k then (n, true) :: attempt answer (k + 1) rest else [(n, false)]

/-- The segments that calls with data of the given lengths hand over, and the answers. -/
def attempts (answer : ℕ → Bool) (k : ℕ) : List ℕ → List (ℕ × Bool)
  | [] => []
  | n :: calls =>
    let first := attempt answer k (segmentLengths n n)
    first ++ attempts answer (k + first.length) calls

/-- Whenever a segment is accepted, the segments refused since the last accepted one carry
a multiple of `2 ^ 32` bytes: none at all, in a stream of less than 4 GiB. `refused` counts
these bytes. -/
def NothingSkipped (refused : ℕ) : List (ℕ × Bool) → Prop
  | [] => True
  | (_, true) :: rest => refused % 2 ^ 32 = 0 ∧ NothingSkipped 0 rest
  | (n, false) :: rest => NothingSkipped (refused + n) rest

/-- Attempts with the sequence numbers that `tcp_send_seg` gives them. -/
def numbered (seq : UInt32) : List (ℕ × Bool) → List (UInt32 × ℕ × Bool)
  | [] => []
  | (n, ok) :: rest => (seq, n, ok) :: numbered (seq + UInt32.ofNat n) rest

lemma numbered_append (seq : UInt32) (as bs : List (ℕ × Bool)) :
    numbered seq (as ++ bs) = numbered seq as ++ numbered (seq + UInt32.ofNat (as.map Prod.fst).sum) bs := by
  induction as generalizing seq with
  | nil => simp [numbered]
  | cons a as ih =>
    simp [numbered, ih, sum_cons, UInt32.ofNat_add, UInt32.add_assoc]

lemma ofNat_eq_zero_iff (n : ℕ) : UInt32.ofNat n = 0 ↔ n % 2 ^ 32 = 0 := by
  rw [← UInt32.toNat_inj, UInt32.toNat_ofNat']
  rfl

lemma consecutive_iff (start : UInt32) (refused : ℕ) (as : List (ℕ × Bool)) :
    Consecutive start (((numbered (start + UInt32.ofNat refused) as).filter fun r => r.2.2).map
      fun r => (r.1, r.2.1)) ↔ NothingSkipped refused as := by
  induction as generalizing start refused with
  | nil => exact Iff.rfl
  | cons a as ih =>
    obtain ⟨n, ok⟩ := a
    cases ok with
    | true =>
      have hstart : start + UInt32.ofNat refused = start ↔ refused % 2 ^ 32 = 0 := by
        rw [← ofNat_eq_zero_iff]
        constructor
        · intro h
          exact (UInt32.add_right_inj start).mp (h.trans (UInt32.add_zero start).symm)
        · intro h
          rw [h, UInt32.add_zero]
      simp only [numbered, filter_cons_of_pos, map_cons, Consecutive, NothingSkipped, hstart]
      refine and_congr_right fun h0 => ?_
      have hnext := ih (start + UInt32.ofNat n) 0
      rw [hstart.mpr h0]
      simpa using hnext
    | false =>
      have hnext := ih start (refused + n)
      rw [UInt32.ofNat_add, ← UInt32.add_assoc] at hnext
      simpa [numbered, NothingSkipped] using hnext

/-! ## What the calls hand over -/

section

variable {s : Stack} {i : Fin maxConns} {data : List UInt8}

lemma tcpSendSeg_data (h : data.length ≤ tcpMss) :
    tcpSendSeg s i (tcpFlagAck ||| tcpFlagPsh) data = (s.ipv4Send s.log.length,
      { s.setConn i { s.conns i with sndSeq := (s.conns i).sndSeq + UInt32.ofNat data.length } with
        log := s.log ++ [⟨(s.conns i).dstIp,
          segmentBytes s.ourIp (s.conns i) (tcpFlagAck ||| tcpFlagPsh) data, s.ipv4Send s.log.length⟩] }) := by
  have hfit : ¬data.length + sizeofTcpHdr > 1460 + sizeofTcpHdr := by
    unfold tcpMss at h
    omega
  have hflags : ¬(tcpFlagAck ||| tcpFlagPsh) &&& (tcpFlagSyn ||| tcpFlagFin) ≠ 0 := by decide
  rw [tcpSendSeg, if_neg hfit]
  simp [if_neg hflags]

lemma range_segment (ip ourIp : UInt32) (c : Conn) (flags : UInt8) (data : List UInt8) (ok : Bool) :
    Handed.range ⟨ip, segmentBytes ourIp c flags data, ok⟩ = (c.sndSeq, data.length, ok) := by
  simp [Handed.range, segmentBytes, segmentHdr]

/-- The stack after handing over the segments `as`: their ranges follow each other from the
sequence number on, and the connection goes on after the last of them. -/
structure HandsOver (i : Fin maxConns) (as : List (ℕ × Bool)) (s s' : Stack) : Prop where
  log : ∃ new, s'.log = s.log ++ new ∧ new.map Handed.range = numbered (s.conns i).sndSeq as
  sndSeq : (s'.conns i).sndSeq = (s.conns i).sndSeq + UInt32.ofNat (as.map Prod.fst).sum
  state : (s'.conns i).state = (s.conns i).state
  ipv4Send : s'.ipv4Send = s.ipv4Send

lemma HandsOver.refl (s : Stack) (i : Fin maxConns) : HandsOver i [] s s :=
  ⟨⟨[], by simp [numbered]⟩, by simp, rfl, rfl⟩

lemma HandsOver.trans {as bs : List (ℕ × Bool)} {s' s'' : Stack} (h : HandsOver i as s s')
    (h' : HandsOver i bs s' s'') : HandsOver i (as ++ bs) s s'' := by
  obtain ⟨new, hlog, hnew⟩ := h.log
  obtain ⟨new', hlog', hnew'⟩ := h'.log
  refine ⟨⟨new ++ new', ?_, ?_⟩, ?_, h'.state.trans h.state, h'.ipv4Send.trans h.ipv4Send⟩
  · rw [hlog', hlog, append_assoc]
  · rw [map_append, hnew, hnew', numbered_append, h.sndSeq]
  · rw [h'.sndSeq, h.sndSeq, map_append, sum_append, UInt32.ofNat_add, UInt32.add_assoc]

lemma HandsOver.length {as : List (ℕ × Bool)} {s' : Stack} (h : HandsOver i as s s') :
    s'.log.length = s.log.length + as.length := by
  have hnumbered : ∀ (as : List (ℕ × Bool)) (q : UInt32), (numbered q as).length = as.length := by
    intro as
    induction as with
    | nil => exact fun _ => rfl
    | cons a as ih =>
      intro q
      simp [numbered, ih]
  obtain ⟨new, hlog, hnew⟩ := h.log
  have hlen := congrArg List.length hnew
  rw [length_map, hnumbered] at hlen
  rw [hlog, length_append, hlen]

lemma handsOver_segment (h : data.length ≤ tcpMss) :
    HandsOver i [(data.length, s.ipv4Send s.log.length)] s
      (tcpSendSeg s i (tcpFlagAck ||| tcpFlagPsh) data).2 := by
  rw [tcpSendSeg_data h]
  refine ⟨⟨_, rfl, ?_⟩, ?_, ?_, rfl⟩
  · simp only [map_cons, map_nil, range_segment, numbered]
  · simp [Stack.setConn]
  · simp [Stack.setConn]

lemma sendLoop_handsOver (fuel : ℕ) (s : Stack) (data : List UInt8) :
    HandsOver i (attempt s.ipv4Send s.log.length (segmentLengths fuel data.length)) s
      (sendLoop fuel s i data).2 := by
  induction fuel generalizing s data with
  | zero => exact .refl s i
  | succ fuel ih =>
    rw [sendLoop, segmentLengths]
    by_cases h0 : data.length = 0
    · rw [if_pos h0, if_pos h0]
      exact .refl s i
    rw [if_neg h0, if_neg h0]
    have hle : (data.take tcpMss).length ≤ tcpMss := by
      rw [length_take]
      exact Nat.min_le_left _ _
    have hseg : HandsOver i _ s _ := handsOver_segment hle
    have hok : (tcpSendSeg s i (tcpFlagAck ||| tcpFlagPsh) (data.take tcpMss)).1 =
        s.ipv4Send s.log.length := congrArg Prod.fst (tcpSendSeg_data hle)
    rw [length_take] at hseg
    rw [attempt]
    cases hans : s.ipv4Send s.log.length with
    | false =>
      rw [hans] at hok hseg
      simp only [hok, Bool.not_false, if_true]
      exact hseg
    | true =>
      rw [hans] at hok hseg
      simp only [hok, Bool.not_true, Bool.false_eq_true, if_false, if_true]
      have hrest := ih (tcpSendSeg s i (tcpFlagAck ||| tcpFlagPsh) (data.take tcpMss)).2
        (data.drop tcpMss)
      rw [hseg.ipv4Send, hseg.length, length_drop] at hrest
      exact hseg.trans hrest

lemma sendCalls_handsOver (he : (s.conns i).state = .established) (calls : List (List UInt8)) :
    HandsOver i (attempts s.ipv4Send s.log.length (calls.map List.length)) s (sendCalls s i calls) := by
  induction calls generalizing s with
  | nil => exact .refl s i
  | cons data calls ih =>
    have hfirst : HandsOver i (attempt s.ipv4Send s.log.length (segmentLengths data.length data.length)) s
        (tcpSend s i data).2 := by
      rw [tcpSend, if_neg (not_not.mpr he)]
      exact sendLoop_handsOver data.length s data
    have hrest := ih (hfirst.state.trans he)
    rw [hfirst.ipv4Send, hfirst.length] at hrest
    exact hfirst.trans hrest

lemma sendCalls_closed (he : (s.conns i).state ≠ .established) (calls : List (List UInt8)) :
    sendCalls s i calls = s := by
  induction calls with
  | nil => rfl
  | cons data calls ih =>
    rw [sendCalls, tcpSend, if_pos he]
    exact ih

end

/-- The segments handed over during the calls. -/
def handedDuring (s : Stack) (i : Fin maxConns) (calls : List (List UInt8)) : List Handed :=
  (sendCalls s i calls).log.drop s.log.length

lemma sentRanges_handedDuring {s : Stack} {i : Fin maxConns} (he : (s.conns i).state = .established)
    (calls : List (List UInt8)) : sentRanges (handedDuring s i calls) =
      ((numbered (s.conns i).sndSeq (attempts s.ipv4Send s.log.length (calls.map List.length))).filter
        fun r => r.2.2).map fun r => (r.1, r.2.1) := by
  obtain ⟨new, hlog, hnew⟩ := (sendCalls_handsOver he calls).log
  rw [handedDuring, hlog, drop_left, sentRanges, hnew]

/-- The segments that a sequence of calls sends carry consecutive ranges from the next
sequence number on exactly if, on an established connection, nothing was refused before a
segment that was accepted. -/
theorem sent_consecutive_iff (s : Stack) (i : Fin maxConns) (calls : List (List UInt8)) :
    Consecutive (s.conns i).sndSeq (sentRanges (handedDuring s i calls)) ↔ ((s.conns i).state = .established →
        NothingSkipped 0 (attempts s.ipv4Send s.log.length (calls.map List.length))) := by
  by_cases he : (s.conns i).state = .established
  · have hgap := consecutive_iff (s.conns i).sndSeq 0
      (attempts s.ipv4Send s.log.length (calls.map List.length))
    have hzero : (s.conns i).sndSeq + UInt32.ofNat 0 = (s.conns i).sndSeq := UInt32.add_zero _
    rw [hzero] at hgap
    rw [sentRanges_handedDuring he, hgap]
    exact ⟨fun h _ => h, fun h => h he⟩
  · refine iff_of_true ?_ fun h => absurd h he
    rw [handedDuring, sendCalls_closed he, drop_length]
    trivial

/-- The second segment meets a neighbour that is not resolved. -/
def missStack : Stack := { openSession.stack with ipv4Send := fun k => k != 1 }

/-- Three bytes in three calls: the second one is refused, and the third one is sent with the
number after it. -/
theorem refused_byte_skipped :
    sentRanges (handedDuring missStack 0 [[1], [2], [3]]) =
        [((missStack.conns 0).sndSeq, 1), ((missStack.conns 0).sndSeq + 2, 1)] ∧
      ¬Consecutive (missStack.conns 0).sndSeq (sentRanges (handedDuring missStack 0 [[1], [2], [3]])) := by
  have hsent : sentRanges (handedDuring missStack 0 [[1], [2], [3]]) =
      [((missStack.conns 0).sndSeq, 1), ((missStack.conns 0).sndSeq + 2, 1)] := by
    rw [sentRanges_handedDuring (by decide)]
    decide
  refine ⟨hsent, ?_⟩
  rw [hsent]
  rintro ⟨-, hnext, -⟩
  exact absurd hnext (by decide)

end AetherOS.Tcp
