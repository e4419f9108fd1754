import AetherOS.TcpStream

/-!
# Delivery of the stream and of its end

The receive side acknowledges a segment as a whole even when the ring has room for
a part of it only, and it closes the connection as soon as a `FIN` arrives. Both
results below name the sessions in which this does no harm; the concrete sessions
show what happens in the others.
-/
namespace AetherOS.Tcp
open RingBuffer Runs List

/-! ## A concrete session -/

/-- A connection that was just established with a peer whose initial sequence number
is 0. -/
def openConn : Conn where
  inUse := true
  state := .established
  dstIp := 0x0100000a
  dstPort := 80
  srcPort := 49152
  sndSeq := 0x12345679
  sndUna := 0x12345679
  rcvNxt := 1
  rcvWin := 4095
  rxbuf := ⟨fun _ => 0, 0, 0, tcpRxbuf_pos, tcpRxbuf_pos⟩

/-- The only connection of a stack whose segments are all sent. -/
def openSession : Session where
  stack :=
    { conns := fun j => if j = 0 then openConn else { openConn with inUse := false, state := .closed }
      ourIp := 0x0200000a
      ipv4Send := fun _ => true
      log := [] }
  returned := []

lemma openSession_start : SessionStart 0 0 openSession :=
  ⟨by decide, rfl, rfl, by decide, rfl, rfl⟩

/-- The header of a segment of that peer. -/
def peerHdr (k : ℕ) (flags : UInt8) : TcpHdr where
  srcPort := 80
  dstPort := 49152
  seq := 1 + UInt32.ofNat k
  ack := 0x12345679
  dataOff := 0x50
  flags := flags
  window := 65535
  checksum := 0
  urgent := 0

def peerSegment (k : ℕ) (flags : UInt8) (data : List UInt8) : List UInt8 :=
  (peerHdr k flags).bytes ++ data

@[simp] lemma ofPacket_peerSegment (k : ℕ) (flags : UInt8) (data : List UInt8) :
    TcpHdr.ofPacket (peerSegment k flags data) = peerHdr k flags := by simp [peerSegment]

@[simp] lemma dataOffset_peerSegment (k : ℕ) (flags : UInt8) (data : List UInt8) :
    dataOffset (peerSegment k flags data) = (peerHdr k flags).bytes.length := by
  simp [dataOffset, peerHdr, sizeofTcpHdr]

@[simp] lemma payload_peerSegment (k : ℕ) (flags : UInt8) (data : List UInt8) :
    payload (peerSegment k flags data) = data := by
  rw [payload, dataOffset_peerSegment, peerSegment]
  exact drop_left

lemma fromPeer_peerSegment {S data : List UInt8} {k : ℕ} {flags : UInt8} {c : Conn}
    (hkey : c.key = openConn.key) (h : data.length < 65000 ∧ k ≤ S.length ∧ data <+: S.drop k ∧
      flags &&& tcpFlagRst = 0 ∧ (flags &&& tcpFlagFin ≠ 0 → k + data.length = S.length)) :
    ∀ pkt n, Event.segment (peerSegment k flags data) k = .segment pkt n → FromPeer S 0 c pkt n := by
  rintro _ _ ⟨⟩
  obtain ⟨hshort, hk, hslice, hrst, hfin⟩ := h
  simp only [Conn.key, Prod.mk.injEq] at hkey
  obtain ⟨-, -, hdp, hsp⟩ := hkey
  have hlen : (peerSegment k flags data).length = sizeofTcpHdr + data.length := by simp [peerSegment]
  refine ⟨?_, ?_, ?_, ?_, ?_, hk, ?_, ?_, ?_⟩
  · simp only [hlen, sizeofTcpHdr]
    omega
  · simp [hlen]
  · simp [peerHdr, hdp, openConn]
  · simp [peerHdr, hsp, openConn]
  · simp [peerHdr]
  · simpa using hslice
  · simpa [peerHdr] using hrst
  · simpa [peerHdr] using hfin

/-! ## Stream integrity -/

/-- The bytes read are a prefix of the stream, and the bytes acknowledged are the
first ones of those read or buffered. -/
def StreamIntact (S : List UInt8) (isn : UInt32) (i : Fin maxConns) (s : Session) : Prop :=
  s.returned <+: S ∧ ackedBytes (isn + 1) (acks s.stack.log) ≤ S.length ∧
    S.take (ackedBytes (isn + 1) (acks s.stack.log)) <+: s.received i

/-- A step of a session in which the peer does not close the stream. -/
def dataStep (S : List UInt8) (isn : UInt32) (i : Fin maxConns) (s : Session) (ev : Event)
    (s' : Session) : Prop :=
  sessionStep S isn i s ev s' ∧ ∀ pkt k, ev = .segment pkt k → ¬hasFin pkt

/-- As long as the reader keeps up with the peer the stream is delivered intact. -/
theorem stream_intact_of_keepsUp (S : List UInt8) (isn : UInt32) (i : Fin maxConns) {s : Session}
    (hr : Reachable (fun s ev s' => dataStep S isn i s ev s' ∧ KeepsUp i s ev)
      (SessionStart isn i) s) : StreamIntact S isn i s := by
  have hi : StreamInv S isn i s := by
    refine hr.invariant (fun _ hs => hs.inv) ?_
    rintro s ev s' hi ⟨⟨hstep, hf⟩, hk⟩
    exact hi.step hstep hk hf
  obtain ⟨m, -, hle, hm⟩ := hi.acked
  have hlen := hi.data.length_le
  refine ⟨(prefix_append _ _).trans hi.data, by omega, ?_⟩
  exact prefix_of_prefix_length_le ( take_prefix _ _) hi.data
    (by rw [length_take]; omega)

/-- Two bytes sent, acknowledged and read. -/
theorem stream_intact_two_bytes : ∃ s : Session, s.returned = [5, 6] ∧
    Reachable (fun s ev s' => dataStep [5, 6] 0 0 s ev s' ∧ KeepsUp 0 s ev) (SessionStart 0 0) s ∧
    StreamIntact [5, 6] 0 0 s := by
  have hreach : Reachable (fun s ev s' => dataStep [5, 6] 0 0 s ev s' ∧ KeepsUp 0 s ev)
      (SessionStart 0 0)
      ((openSession.handle 0 (.segment (peerSegment 0 tcpFlagAck [5, 6]) 0)).handle 0
        (.tcpRecv 10)) := by
    refine ⟨openSession, [.segment (peerSegment 0 tcpFlagAck [5, 6]) 0, .tcpRecv 10],
      openSession_start, .cons ⟨⟨⟨fromPeer_peerSegment rfl (by decide), rfl⟩, ?_⟩, ?_⟩
        (.cons ⟨⟨⟨?_, rfl⟩, ?_⟩, trivial⟩ (.nil _))⟩
    · rintro pkt k ⟨⟩
      simp only [hasFin, ofPacket_peerSegment]
      decide
    · intro _ _
      rw [payload_peerSegment]
      decide
    · rintro pkt k ⟨⟩
    · rintro pkt k ⟨⟩
  exact ⟨_, by decide +kernel, hreach, stream_intact_of_keepsUp [5, 6] 0 0 hreach⟩

/-! ### A reader that falls behind -/

/-- One byte more than the ring holds, and one after it. -/
def lateStream : List UInt8 := List.replicate 4096 0 ++ [1]

/-- The peer sends 4096 bytes before the first read, and the last byte after it. -/
def lateEvents : List Event :=
  [.segment (peerSegment 0 tcpFlagAck (List.replicate 1460 0)) 0,
    .segment (peerSegment 1460 tcpFlagAck (List.replicate 1460 0)) 1460,
    .segment (peerSegment 2920 tcpFlagAck (List.replicate 1176 0)) 2920, .tcpRecv 4096,
    .segment (peerSegment 4096 tcpFlagAck [1]) 4096, .tcpRecv 4096]

/-- The session after `k` bytes were acknowledged of which `b` wait in the ring. -/
structure Waiting (k b : ℕ) (s : Session) : Prop where
  routed : findConn s.stack (s.stack.conns 0).dstIp (s.stack.conns 0).dstPort
    (s.stack.conns 0).srcPort = some 0
  established : (s.stack.conns 0).state = .established
  key : (s.stack.conns 0).key = openConn.key
  rcvNxt : (s.stack.conns 0).rcvNxt = 1 + UInt32.ofNat k
  buffered : s.buffered 0 = List.replicate b 0

lemma Waiting.segment {k b : ℕ} {s : Session} (hw : Waiting k b s) {d : List UInt8}
    (hshort : d.length < 65000) (hpos : 0 < d.length) (hk : k ≤ lateStream.length)
    (hslice : d <+: lateStream.drop k) :
    ∃ s', dataStep lateStream 0 0 s (.segment (peerSegment k tcpFlagAck d) k) s' ∧
      SameSession 0 s.stack s'.stack ∧ s'.returned = s.returned ∧
      s'.buffered 0 = List.replicate b 0 ++ d.take (4095 - b) ∧
      (s'.stack.conns 0).rcvNxt = 1 + UInt32.ofNat (k + d.length) := by
  have hrst : tcpFlagAck &&& tcpFlagRst = 0 := by decide
  have hp := fromPeer_peerSegment hw.key ⟨hshort, hk, hslice, hrst, fun hf => absurd rfl hf⟩
  have hf : ¬hasFin (peerSegment k tcpFlagAck d) := by
    simp only [hasFin, ofPacket_peerSegment, peerHdr]
    decide
  have ha : Accepts (s.stack.conns 0) (peerSegment k tcpFlagAck d) := by
    rw [Accepts, payload_peerSegment, ofPacket_peerSegment, hw.rcvNxt]
    exact ⟨hpos, rfl⟩
  obtain ⟨s', hs', hsame, hret, hbuf, hnxt⟩ := handle_accepted hw.routed hw.established (hp _ _ rfl) hf ha
  refine ⟨s', ⟨⟨hp, hs'.symm⟩, ?_⟩, hsame, hret, ?_, ?_⟩
  · rintro pkt n ⟨⟩
    exact hf
  · rw [hbuf, hw.buffered, payload_peerSegment, length_replicate]
    rfl
  · rw [hnxt, hw.rcvNxt, payload_peerSegment, UInt32.ofNat_add, UInt32.add_assoc]

lemma Waiting.of_same {k b k' b' : ℕ} {s s' : Session} (hw : Waiting k b s) (hsame : SameSession 0 s.stack s'.stack)
    (hnxt : (s'.stack.conns 0).rcvNxt = 1 + UInt32.ofNat k')
    (hbuf : s'.buffered 0 = List.replicate b' 0) : Waiting k' b' s' :=
  ⟨(routed_of_sameKeys hsame.keys hw.routed).2, hsame.state.trans hw.established,
    (hsame.keys 0).trans hw.key, hnxt, hbuf⟩

lemma Waiting.zeros {k b K B n : ℕ} {s : Session} (hw : Waiting k b s) (hn : 0 < n)
    (hk : k + n ≤ 4096) (hK : K = k + n) (hB : B = b + min (4095 - b) n) :
    ∃ s', dataStep lateStream 0 0 s
        (.segment (peerSegment k tcpFlagAck (List.replicate n 0)) k) s' ∧
      s'.returned = s.returned ∧ Waiting K B s' := by
  subst hK hB
  have hslice : List.replicate n (0 : UInt8) <+: lateStream.drop k := by
    rw [lateStream, drop_append_of_le_length (by rw [length_replicate]; omega), drop_replicate]
    obtain ⟨d, hd⟩ := Nat.exists_eq_add_of_le (show n ≤ 4096 - k by omega)
    rw [hd, replicate_add, append_assoc]
    exact prefix_append _ _
  obtain ⟨s', hstep, hsame, hret, hbuf, hnxt⟩ := hw.segment (d := List.replicate n 0)
    (by rw [length_replicate]; omega) (by rw [length_replicate]; exact hn)
    (by rw [lateStream, length_append, length_replicate]; omega) hslice
  refine ⟨s', hstep, hret, hw.of_same hsame ?_ ?_⟩
  · rw [hnxt, length_replicate]
  · rw [hbuf, take_replicate, replicate_append_replicate]

/-- The byte that did not fit is acknowledged and missing from what the reader gets. -/
theorem lateEvents_break_stream : SessionStart 0 0 openSession ∧
    ∃ s, Run (dataStep lateStream 0 0) openSession lateEvents s ∧
      s.returned = List.replicate 4095 0 ++ [1] ∧ ¬StreamIntact lateStream 0 0 s := by
  refine ⟨openSession_start, ?_⟩
  have hw0 : Waiting 0 0 openSession :=
    ⟨openSession_start.routed, rfl, rfl, rfl, openSession_start.empty⟩
  obtain ⟨s1, hs1, hret1, hw1⟩ := hw0.zeros (K := 1460) (B := 1460) (n := 1460)
    (by omega) (by omega) rfl rfl
  obtain ⟨s2, hs2, hret2, hw2⟩ := hw1.zeros (K := 2920) (B := 2920) (n := 1460)
    (by omega) (by omega) rfl rfl
  -- the third segment overflows the ring by one byte
  obtain ⟨s3, hs3, hret3, hw3⟩ := hw2.zeros (K := 4096) (B := 4095) (n := 1176)
    (by omega) (by omega) rfl rfl
  obtain ⟨s4, hs4, hsame4, hret4, hbuf4, hnxt4, -⟩ := handle_tcpRecv hw3.established 4096
  have hw4 : Waiting 4096 0 s4 := by
    refine hw3.of_same hsame4 (hnxt4.trans hw3.rcvNxt) ?_
    rw [hbuf4, hw3.buffered, drop_replicate]
  -- the next byte of the stream is in sequence all the same
  obtain ⟨s5, hs5, hsame5, hret5, hbuf5, hnxt5⟩ := hw4.segment (d := [1]) (by simp) (by simp)
    (by rw [lateStream, length_append, length_replicate]; omega)
    (by rw [lateStream, drop_append, drop_replicate, length_replicate]; simp)
  obtain ⟨s6, hs6, -, hret6, -⟩ :=
    handle_tcpRecv (hsame5.state.trans hw4.established) 4096
  have hfinal : s6.returned = List.replicate 4095 0 ++ [1] := by
    rw [hret6, hret5, hret4, hret3, hret2, hret1, hw3.buffered, hbuf5, take_replicate]
    rfl
  have hread : ∀ t t' : Session, Session.handle 0 t (.tcpRecv 4096) = t' →
      dataStep lateStream 0 0 t (.tcpRecv 4096) t' :=
    fun t t' ht => ⟨⟨by rintro pkt k ⟨⟩, ht.symm⟩, by rintro pkt k ⟨⟩⟩
  refine ⟨s6, .cons hs1 (.cons hs2 (.cons hs3 (.cons (hread _ _ hs4)
    (.cons hs5 (.cons (hread _ _ hs6) (.nil _)))))), hfinal, ?_⟩
  rintro ⟨hpre, -⟩
  rw [hfinal] at hpre
  revert hpre
  decide +kernel

/-! ## The end of the stream -/

/-- A reader told about the end of the stream has read all of it. -/
def EofComplete (S : List UInt8) (i : Fin maxConns) (s : Session) : Prop :=
  ∀ len, (sockRecv s.stack (some i) len).1 = -1 → s.returned = S

/-- A `FIN` that takes effect finds the ring empty and is next in sequence, the
stream ending less than `2 ^ 32` bytes ahead. -/
def FinInOrder (S : List UInt8) (i : Fin maxConns) (s : Session) : Event → Prop
  | .segment pkt _ => hasFin pkt → (s.stack.conns i).state = .established → s.buffered i = [] ∧
      (TcpHdr.ofPacket pkt).seq + UInt32.ofNat (payload pkt).length = (s.stack.conns i).rcvNxt ∧
      S.length < s.returned.length + 2 ^ 32
  | _ => True

/-- A session whose connection was closed after everything had been read. -/
structure ClosedInv (S : List UInt8) (i : Fin maxConns) (s : Session) : Prop where
  routed : findConn s.stack (s.stack.conns i).dstIp (s.stack.conns i).dstPort
    (s.stack.conns i).srcPort = some i
  closed : (s.stack.conns i).state = .closed
  returned : s.returned = S

section

variable {S pkt : List UInt8} {isn : UInt32} {i : Fin maxConns} {s s' : Session} {ev : Event} {k : ℕ}

section

variable (hi : StreamInv S isn i s) (hp : FromPeer S isn (s.stack.conns i) pkt k) (hf : hasFin pkt)
  (ho : FinInOrder S i s (.segment pkt k))
include hi hp hf ho

lemma StreamInv.returned_of_fin : s.returned = S := by
  obtain ⟨hempty, hseq, hnear⟩ := ho hf hi.established
  have hrec : s.received i = s.returned := by simp [Session.received, hempty]
  have hnxt := hi.rcvNxt
  have hdata := hi.data
  rw [hrec] at hnxt hdata
  have hpos : UInt32.ofNat S.length = UInt32.ofNat s.returned.length := by
    rw [← hp.fin hf, UInt32.ofNat_add]
    rw [hp.seq, hnxt, UInt32.add_assoc] at hseq
    exact (UInt32.add_right_inj _).mp hseq
  have hmod := congrArg UInt32.toNat hpos
  rw [UInt32.toNat_ofNat', UInt32.toNat_ofNat'] at hmod
  have hle := hdata.length_le
  exact hdata.eq_of_length (by omega)

lemma StreamInv.fin : ClosedInv S i (s.handle i (.segment pkt k)) := by
  obtain ⟨hkeys, hstate⟩ := tcpInput_fin hp hi.routed hi.established hf
  exact ⟨(routed_of_sameKeys hkeys hi.routed).2, hstate, hi.returned_of_fin hp hf ho⟩

end

lemma ClosedInv.handle_eq (hc : ClosedInv S i s)
    (hp : ∀ pkt k, ev = .segment pkt k → FromPeer S isn (s.stack.conns i) pkt k) : s.handle i ev = s := by
  have hrecv : ∀ n, Tcp.tcpRecv s.stack i n = ([], s.stack) := by
    intro n
    simp [Tcp.tcpRecv, hc.closed]
  cases ev with
  | segment pkt k =>
    simp only [Session.handle]
    rw [tcpInput_routed (hp pkt k rfl) hc.routed, hc.closed]
  | tcpRecv max => simp [Session.handle, hrecv]
  | sockRecv len => simp [Session.handle, sockRecv, hrecv, tcpIsEstablished, hc.closed]

lemma end_step (hi : StreamInv S isn i s ∨ ClosedInv S i s) (hs : sessionStep S isn i s ev s')
    (hk : KeepsUp i s ev) (ho : FinInOrder S i s ev) : StreamInv S isn i s' ∨ ClosedInv S i s' := by
  rcases hi with hi | hc
  · by_cases hfin : ∃ pkt k, ev = .segment pkt k ∧ hasFin pkt
    · obtain ⟨pkt, k, rfl, hf⟩ := hfin
      obtain ⟨hp, rfl⟩ := hs
      exact .inr (hi.fin (hp pkt k rfl) hf ho)
    · exact .inl (hi.step hs hk fun pkt k he hf => hfin ⟨pkt, k, he, hf⟩)
  · obtain ⟨hp, rfl⟩ := hs
    rw [hc.handle_eq hp]
    exact .inr hc

end

/-- When data keeps up and the `FIN` comes in order, to an empty ring, the end of the
stream is reported to a reader who has all of it. -/
theorem eof_complete_of_finInOrder (S : List UInt8) (isn : UInt32) (i : Fin maxConns) {s : Session}
    (hr : Reachable (fun s ev s' => sessionStep S isn i s ev s' ∧ KeepsUp i s ev ∧
      FinInOrder S i s ev) (SessionStart isn i) s) : EofComplete S i s := by
  have hi : StreamInv S isn i s ∨ ClosedInv S i s := by
    refine hr.invariant (fun _ hs => Or.inl hs.inv) ?_
    rintro s ev s' hi ⟨hstep, hk, ho⟩
    exact end_step hi hstep hk ho
  intro len heof
  rcases hi with hi | hc
  · exact absurd heof (sockRecv_established hi.established).2
  · exact hc.returned

/-- A byte is read, the stream is closed, and the end is reported. -/
theorem eof_complete_one_byte : ∃ s : Session, s.returned = [7] ∧
    (sockRecv s.stack (some 0) 10).1 = -1 ∧ EofComplete [7] 0 s := by
  have hreach : Reachable (fun s ev s' => sessionStep [7] 0 0 s ev s' ∧ KeepsUp 0 s ev ∧
      FinInOrder [7] 0 s ev) (SessionStart 0 0)
      (((openSession.handle 0 (.segment (peerSegment 0 tcpFlagAck [7]) 0)).handle 0
        (.sockRecv 10)).handle 0 (.segment (peerSegment 1 (tcpFlagFin ||| tcpFlagAck) []) 1)) := by
    refine ⟨openSession, [.segment (peerSegment 0 tcpFlagAck [7]) 0, .sockRecv 10,
      .segment (peerSegment 1 (tcpFlagFin ||| tcpFlagAck) []) 1], openSession_start,
      .cons ⟨⟨fromPeer_peerSegment rfl (by decide), rfl⟩, ?_, ?_⟩ (.cons ⟨⟨?_, rfl⟩, trivial, trivial⟩
        (.cons ⟨⟨fromPeer_peerSegment (by decide +kernel) (by decide), rfl⟩, ?_, ?_⟩ (.nil _)))⟩
    · intro _ _
      rw [payload_peerSegment]
      decide
    · intro hf
      simp only [hasFin, ofPacket_peerSegment] at hf
      exact absurd rfl hf
    · rintro pkt k ⟨⟩
    · intro _ ha
      rw [Accepts, payload_peerSegment] at ha
      exact absurd ha.1 (by decide)
    intro _ _
    rw [ofPacket_peerSegment, payload_peerSegment]
    decide +kernel
  exact ⟨_, by decide +kernel, by decide +kernel, eof_complete_of_finInOrder [7] 0 0 hreach⟩

/-- The end is reported to a reader who has read nothing: in one session the `FIN`
comes with the only byte of the stream, in the other one ahead of it. -/
theorem early_fin_loses_data : SessionStart 0 0 openSession ∧ (∃ s, Run (sessionStep [7] 0 0) openSession
      [.segment (peerSegment 0 (tcpFlagFin ||| tcpFlagAck) [7]) 0] s ∧
      s.buffered 0 = [7] ∧ ¬EofComplete [7] 0 s) ∧
    ∃ s, Run (sessionStep [7] 0 0) openSession
      [.segment (peerSegment 1 (tcpFlagFin ||| tcpFlagAck) []) 1,
        .segment (peerSegment 0 tcpFlagAck [7]) 0] s ∧ ¬EofComplete [7] 0 s := by
  refine ⟨openSession_start, ⟨_, .cons ⟨fromPeer_peerSegment rfl (by decide), rfl⟩ (.nil _), by decide +kernel, ?_⟩,
    _, .cons ⟨fromPeer_peerSegment rfl (by decide), rfl⟩
      (.cons ⟨fromPeer_peerSegment (by decide +kernel) (by decide), rfl⟩ (.nil _)), ?_⟩
  · intro heof
    exact absurd (heof 10 (by decide +kernel)) (by decide +kernel)
  · intro heof
    exact absurd (heof 10 (by decide +kernel)) (by decide +kernel)

end AetherOS.Tcp
