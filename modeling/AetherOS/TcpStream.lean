import AetherOS.Tcp

/-!
# The byte stream a connection delivers

A session is one established connection, the segments of its peer in any order and
with any repetition, and the reads of its owner. The peer sends slices of one byte
stream at their sequence numbers. Two facts about every run are of interest: the
bytes read and buffered against the stream and the acknowledgements sent, and the
moment at which the socket layer reports the end of the stream.
-/
namespace AetherOS.Tcp
open RingBuffer Runs List

/-! ## What the operations leave alone -/

/-- The part of a connection that routes segments to it. -/
def Conn.key (c : Conn) : Bool × UInt32 × UInt16 × UInt16 :=
  (c.inUse, c.dstIp, c.dstPort, c.srcPort)

def SameKeys (s s' : Stack) : Prop := ∀ j, (s'.conns j).key = (s.conns j).key

lemma SameKeys.refl (s : Stack) : SameKeys s s := fun _ => rfl

lemma SameKeys.trans {s s' s'' : Stack} (h1 : SameKeys s s') (h2 : SameKeys s' s'') :
    SameKeys s s'' := fun j => (h2 j).trans (h1 j)

lemma SameKeys.findConn {s s' : Stack} (h : SameKeys s s') (ip : UInt32) (sport dport : UInt16) :
    findConn s' ip sport dport = findConn s ip sport dport := by
  unfold Tcp.findConn
  congr 1
  ext j
  have hj := h j
  simp only [Conn.key, Prod.mk.injEq] at hj
  obtain ⟨h1, h2, h3, h4⟩ := hj
  rw [h1, h2, h3, h4]

section

variable (s : Stack) (i : Fin maxConns) (c : Conn) (flags : UInt8) {s' : Stack}

@[simp] lemma setConn_self : (s.setConn i c).conns i = c := by simp [Stack.setConn]

@[simp] lemma setConn_log : (s.setConn i c).log = s.log := rfl

variable {s i c} in
lemma SameKeys.setConn (h : SameKeys s s') (hc : c.key = (s'.conns i).key) : SameKeys s (s'.setConn i c) := by
  intro j
  by_cases hj : j = i
  · subst hj
    rw [setConn_self, hc]
    exact h j
  · simp [Stack.setConn, hj, h j]

lemma tcpSendSeg_nil : (tcpSendSeg s i flags []).2 =
    { s.setConn i { s.conns i with sndSeq := if flags &&& (tcpFlagSyn ||| tcpFlagFin) ≠ 0 then
        (s.conns i).sndSeq + 1 else (s.conns i).sndSeq } with
      log := s.log ++ [⟨(s.conns i).dstIp, segmentBytes s.ourIp (s.conns i) flags [],
        s.ipv4Send s.log.length⟩] } := by simp [tcpSendSeg, sizeofTcpHdr]

variable {s i flags} in
lemma SameKeys.tcpSendSeg {data : List UInt8} (h : SameKeys s s') : SameKeys s (tcpSendSeg s' i flags data).2 := by
  unfold Tcp.tcpSendSeg
  split
  · exact h
  · exact h.setConn rfl

variable {s i} in
lemma SameKeys.acceptData (h : SameKeys s s') (hdr : TcpHdr) (data : List UInt8) :
    SameKeys s (acceptData s' i hdr data) := by
  unfold Tcp.acceptData
  simp only
  split
  · apply SameKeys.tcpSendSeg
    exact h.setConn rfl
  · exact h

variable {s i} in
lemma SameKeys.acceptFin (h : SameKeys s s') (hdr : TcpHdr) : SameKeys s (acceptFin s' i hdr) := by
  unfold Tcp.acceptFin
  split
  · refine SameKeys.setConn ?_ rfl
    apply SameKeys.tcpSendSeg
    apply SameKeys.tcpSendSeg
    exact h.setConn rfl
  · exact h

@[simp] lemma tcpSendSeg_rxbuf :
    ((tcpSendSeg s i flags []).2.conns i).rxbuf = (s.conns i).rxbuf := by simp [tcpSendSeg_nil, Stack.setConn]

@[simp] lemma tcpSendSeg_rcvNxt :
    ((tcpSendSeg s i flags []).2.conns i).rcvNxt = (s.conns i).rcvNxt := by
  simp [tcpSendSeg_nil, Stack.setConn]

@[simp] lemma tcpSendSeg_state :
    ((tcpSendSeg s i flags []).2.conns i).state = (s.conns i).state := by simp [tcpSendSeg_nil, Stack.setConn]

lemma tcpSendSeg_log : (tcpSendSeg s i flags []).2.log = s.log ++
    [⟨(s.conns i).dstIp, segmentBytes s.ourIp (s.conns i) flags [], s.ipv4Send s.log.length⟩] := by
  rw [tcpSendSeg_nil]

end

/-! ## Acknowledgements -/

/-- The acknowledgement number a recorded segment carries to the peer. -/
def Handed.ackNumber (h : Handed) : Option UInt32 :=
  let hdr := TcpHdr.ofPacket h.payload
  if h.sent ∧ hdr.flags &&& tcpFlagAck ≠ 0 then some hdr.ack else none

def acks (log : List Handed) : List UInt32 := log.filterMap Handed.ackNumber

/-- The number of bytes from sequence number `base` on that a series of
acknowledgement numbers covers, each one read relative to the one before. -/
def ackedBytes (base : UInt32) : List UInt32 → ℕ
  | [] => 0
  | a :: as => (a - base).toNat + ackedBytes a as

lemma ackedBytes_concat (base a : UInt32) (as : List UInt32) :
    ackedBytes base (as ++ [a]) = ackedBytes base as + (a - as.getLastD base).toNat := by
  induction as generalizing base with
  | nil => simp [ackedBytes]
  | cons b as ih =>
    rw [cons_append, ackedBytes, ih b, ackedBytes, getLastD_cons]
    omega

lemma acks_concat (log : List Handed) (ourIp ip : UInt32) (c : Conn) (ok : Bool) :
    acks (log ++ [⟨ip, segmentBytes ourIp c tcpFlagAck [], ok⟩]) = acks log ++ if ok then [c.rcvNxt] else [] := by
  have hflag : (segmentHdr c tcpFlagAck).flags &&& tcpFlagAck ≠ 0 := by
    simp only [segmentHdr]
    decide
  cases ok with
  | false => simp [acks, Handed.ackNumber]
  | true =>
    have hack : (segmentHdr c tcpFlagAck).ack = c.rcvNxt := by
      simp only [segmentHdr]
      exact if_pos (by decide)
    simp only [acks, filterMap_append, filterMap_cons, filterMap_nil,
      Handed.ackNumber, segmentBytes, TcpHdr.ofPacket_bytes, hflag, hack, ne_eq,
      not_false_eq_true, and_self, if_true]

/-! ## Sessions -/

/-- The stack and all bytes its owner has read from the connection. -/
structure Session where
  stack : Stack
  returned : List UInt8

/-- A segment of the peer, which starts `k` bytes into the stream, or a read. -/
inductive Event where
  | segment (pkt : List UInt8) (k : ℕ)
  | tcpRecv (max : ℕ)
  | sockRecv (len : ℕ)

def payload (pkt : List UInt8) : List UInt8 := pkt.drop (dataOffset pkt)

/-- The peer of `c` sends slices of `S` at their true sequence numbers, no reset, and
`FIN` only at the end of `S`. -/
structure FromPeer (S : List UInt8) (isn : UInt32) (c : Conn) (pkt : List UInt8) (k : ℕ) :
    Prop where
  short : pkt.length < 65536
  header : sizeofTcpHdr ≤ dataOffset pkt ∧ dataOffset pkt ≤ pkt.length
  srcPort : (TcpHdr.ofPacket pkt).srcPort = c.dstPort
  dstPort : (TcpHdr.ofPacket pkt).dstPort = c.srcPort
  seq : (TcpHdr.ofPacket pkt).seq = isn + 1 + UInt32.ofNat k
  start_le : k ≤ S.length
  slice : payload pkt <+: S.drop k
  noReset : (TcpHdr.ofPacket pkt).flags &&& tcpFlagRst = 0
  fin : (TcpHdr.ofPacket pkt).flags &&& tcpFlagFin ≠ 0 → k + (payload pkt).length = S.length

def hasFin (pkt : List UInt8) : Prop := (TcpHdr.ofPacket pkt).flags &&& tcpFlagFin ≠ 0

namespace Session

def handle (i : Fin maxConns) (s : Session) : Event → Session
  | .segment pkt _ => { s with stack := tcpInput s.stack (s.stack.conns i).dstIp pkt }
  | .tcpRecv max =>
    let r := tcpRecv s.stack i max
    ⟨r.2, s.returned ++ r.1⟩
  | .sockRecv len =>
    let r := sockRecv s.stack (some i) len
    ⟨r.2.2, s.returned ++ r.2.1⟩

/-- The bytes waiting in the receive ring. -/
def buffered (i : Fin maxConns) (s : Session) : List UInt8 := (s.stack.conns i).rxbuf.contents

/-- All bytes received so far, read or not. -/
def received (i : Fin maxConns) (s : Session) : List UInt8 := s.returned ++ s.buffered i

end Session

/-- A step of a session with the peer's stream `S` on connection `i`. -/
def sessionStep (S : List UInt8) (isn : UInt32) (i : Fin maxConns) (s : Session) (ev : Event)
    (s' : Session) : Prop :=
  (∀ pkt k, ev = .segment pkt k → FromPeer S isn (s.stack.conns i) pkt k) ∧ s' = s.handle i ev

/-- The connection has just been established and is the one its peer's segments
are routed to. -/
structure SessionStart (isn : UInt32) (i : Fin maxConns) (s : Session) : Prop where
  routed : findConn s.stack (s.stack.conns i).dstIp (s.stack.conns i).dstPort
    (s.stack.conns i).srcPort = some i
  established : (s.stack.conns i).state = .established
  rcvNxt : (s.stack.conns i).rcvNxt = isn + 1
  empty : s.buffered i = []
  log : s.stack.log = []
  returned : s.returned = []

/-! ## One segment -/

/-- The segment is the next one in sequence and carries data. -/
def Accepts (c : Conn) (pkt : List UInt8) : Prop :=
  (payload pkt).length > 0 ∧ (TcpHdr.ofPacket pkt).seq = c.rcvNxt

section

variable {S : List UInt8} {isn : UInt32} {i : Fin maxConns} {s : Stack} {pkt : List UInt8} {k : ℕ}

lemma exists_sndUna (s : Stack) (i : Fin maxConns) (hdr : TcpHdr) :
    ∃ una, (if hdr.flags &&& tcpFlagAck ≠ 0 then
      s.setConn i { s.conns i with sndUna := hdr.ack } else s) = s.setConn i { s.conns i with sndUna := una } := by
  by_cases hf : hdr.flags &&& tcpFlagAck ≠ 0
  · exact ⟨hdr.ack, if_pos hf⟩
  refine ⟨(s.conns i).sndUna, ?_⟩
  rw [if_neg hf]
  simp [Stack.setConn]

/-- What `s'` has that `s` had, apart from the data received. -/
structure SameSession (i : Fin maxConns) (s s' : Stack) : Prop where
  keys : SameKeys s s'
  state : (s'.conns i).state = (s.conns i).state

lemma acceptData_ignored (ha : ¬Accepts (s.conns i) pkt) :
    acceptData s i (TcpHdr.ofPacket pkt) (payload pkt) = s := if_neg ha

lemma acceptData_accepted (ha : Accepts (s.conns i) pkt) :
    ∃ s', acceptData s i (TcpHdr.ofPacket pkt) (payload pkt) = s' ∧ SameSession i s s' ∧
      (s'.conns i).rxbuf = rxbufPush (s.conns i).rxbuf (payload pkt) ∧
      (s'.conns i).rcvNxt = (s.conns i).rcvNxt + UInt32.ofNat (payload pkt).length ∧
      acks s'.log = acks s.log ++ if s.ipv4Send s.log.length then [(s'.conns i).rcvNxt] else [] := by
  refine ⟨_, if_pos ha, ⟨?_, ?_⟩, ?_, ?_, ?_⟩
  · apply SameKeys.tcpSendSeg
    exact (SameKeys.refl s).setConn rfl
  · simp
  · simp
  · simp
  · rw [tcpSendSeg_log, acks_concat, tcpSendSeg_rcvNxt]
    rfl

variable (hp : FromPeer S isn (s.conns i) pkt k)
  (hr : findConn s (s.conns i).dstIp (s.conns i).dstPort (s.conns i).srcPort = some i)
include hp hr

lemma tcpInput_routed :
    tcpInput s (s.conns i).dstIp pkt = match (s.conns i).state with
      | .synSent => inputSynSent s i (TcpHdr.ofPacket pkt)
      | .established => inputEstablished s i (TcpHdr.ofPacket pkt) (payload pkt)
      | .finWait1 => inputFinWait1 s i (TcpHdr.ofPacket pkt)
      | .finWait2 => inputFinWait2 s i (TcpHdr.ofPacket pkt)
      | _ => s := by
  obtain ⟨hlo, hhi⟩ := hp.header
  rw [tcpInput, if_neg (by omega)]
  dsimp only
  rw [if_neg (by omega), hp.srcPort, hp.dstPort, hr]
  rfl

lemma tcpInput_data (he : (s.conns i).state = .established) (hf : ¬hasFin pkt) :
    ∃ s', tcpInput s (s.conns i).dstIp pkt = s' ∧ SameSession i s s' ∧
      ((¬Accepts (s.conns i) pkt ∧ (s'.conns i).rxbuf = (s.conns i).rxbuf ∧
          (s'.conns i).rcvNxt = (s.conns i).rcvNxt ∧ acks s'.log = acks s.log) ∨
        (Accepts (s.conns i) pkt ∧ (s'.conns i).rxbuf = rxbufPush (s.conns i).rxbuf (payload pkt) ∧
          (s'.conns i).rcvNxt = (s.conns i).rcvNxt + UInt32.ofNat (payload pkt).length ∧
          acks s'.log = acks s.log ++ if s.ipv4Send s.log.length then [(s'.conns i).rcvNxt] else [])) := by
  obtain ⟨una, huna⟩ := exists_sndUna s i (TcpHdr.ofPacket pkt)
  have hfin : ∀ t, acceptFin t i (TcpHdr.ofPacket pkt) = t := fun t => if_neg hf
  have heq : tcpInput s (s.conns i).dstIp pkt =
      acceptData (s.setConn i { s.conns i with sndUna := una }) i (TcpHdr.ofPacket pkt)
        (payload pkt) := by
    rw [tcpInput_routed hp hr, he]
    simp [inputEstablished, hp.noReset, hfin, ← huna]
  have hkeys : SameKeys s (s.setConn i { s.conns i with sndUna := una }) :=
    (SameKeys.refl s).setConn rfl
  by_cases ha : Accepts (s.conns i) pkt
  · obtain ⟨s', hs', hsame, hbuf, hnxt, hacks⟩ :=
      acceptData_accepted (s := s.setConn i { s.conns i with sndUna := una }) (i := i)
        (by simpa [Accepts] using ha)
    rw [setConn_self] at hbuf hnxt
    refine ⟨s', heq.trans hs', ⟨hkeys.trans hsame.keys, ?_⟩, .inr ⟨ha, hbuf, hnxt, hacks⟩⟩
    rw [hsame.state, setConn_self]
  · refine ⟨_, heq.trans (acceptData_ignored (by simpa [Accepts] using ha)), ⟨hkeys, ?_⟩, .inl ⟨ha, ?_⟩⟩
    · rw [setConn_self]
    · simp

lemma tcpInput_fin (he : (s.conns i).state = .established) (hf : hasFin pkt) :
    SameKeys s (tcpInput s (s.conns i).dstIp pkt) ∧ ((tcpInput s (s.conns i).dstIp pkt).conns i).state = .closed := by
  obtain ⟨una, huna⟩ := exists_sndUna s i (TcpHdr.ofPacket pkt)
  have hfin : ∀ t, ((acceptFin t i (TcpHdr.ofPacket pkt)).conns i).state = .closed := by
    intro t
    have hf' : (TcpHdr.ofPacket pkt).flags &&& tcpFlagFin ≠ 0 := hf
    rw [acceptFin, if_pos hf']
    simp
  rw [tcpInput_routed hp hr, he]
  simp only [inputEstablished, hp.noReset, ne_eq, not_true_eq_false, if_false]
  simp only [ne_eq] at huna
  rw [huna]
  refine ⟨SameKeys.acceptFin (SameKeys.acceptData ?_ _ _) _, hfin _⟩
  exact (SameKeys.refl s).setConn rfl

end

lemma routed_of_sameKeys {i : Fin maxConns} {s s' : Stack} (hk : SameKeys s s')
    (hr : findConn s (s.conns i).dstIp (s.conns i).dstPort (s.conns i).srcPort = some i) :
    (s'.conns i).dstIp = (s.conns i).dstIp ∧
      findConn s' (s'.conns i).dstIp (s'.conns i).dstPort (s'.conns i).srcPort = some i := by
  have hi := hk i
  simp only [Conn.key, Prod.mk.injEq] at hi
  obtain ⟨-, hip, hdp, hsp⟩ := hi
  rw [hip, hdp, hsp, hk.findConn]
  exact ⟨rfl, hr⟩

section

variable {S : List UInt8} {isn : UInt32} {i : Fin maxConns} {s : Session}

lemma handle_accepted {pkt : List UInt8} {k : ℕ}
    (hr : findConn s.stack (s.stack.conns i).dstIp (s.stack.conns i).dstPort
      (s.stack.conns i).srcPort = some i) (he : (s.stack.conns i).state = .established)
    (hp : FromPeer S isn (s.stack.conns i) pkt k) (hf : ¬hasFin pkt) (ha : Accepts (s.stack.conns i) pkt) :
    ∃ s', s.handle i (.segment pkt k) = s' ∧ SameSession i s.stack s'.stack ∧ s'.returned = s.returned ∧
      s'.buffered i = s.buffered i ++ (payload pkt).take (tcpRxbuf - 1 - (s.buffered i).length) ∧
      (s'.stack.conns i).rcvNxt = (s.stack.conns i).rcvNxt + UInt32.ofNat (payload pkt).length := by
  obtain ⟨t, ht, hsame, hcase⟩ := tcpInput_data hp hr he hf
  obtain ⟨-, hbuf, hnxt, -⟩ := hcase.resolve_left fun h => h.1 ha
  refine ⟨⟨t, s.returned⟩, by simp [Session.handle, ht], hsame, rfl, ?_, hnxt⟩
  simp [Session.buffered, hbuf, rxbufPush_contents]

lemma handle_tcpRecv (he : (s.stack.conns i).state = .established) (max : ℕ) :
    ∃ s', s.handle i (.tcpRecv max) = s' ∧ SameSession i s.stack s'.stack ∧
      s'.returned = s.returned ++ (s.buffered i).take max ∧
      s'.buffered i = (s.buffered i).drop max ∧
      (s'.stack.conns i).rcvNxt = (s.stack.conns i).rcvNxt ∧ s'.stack.log = s.stack.log := by
  obtain ⟨hpop, hrest⟩ := rxbufPop_spec max (s.stack.conns i).rxbuf
  have heq : s.handle i (.tcpRecv max) = ⟨s.stack.setConn i { s.stack.conns i with
      rxbuf := (rxbufPop max (s.stack.conns i).rxbuf).2 },
        s.returned ++ (rxbufPop max (s.stack.conns i).rxbuf).1⟩ := by
    simp [Session.handle, Tcp.tcpRecv, he]
  refine ⟨_, heq, ⟨(SameKeys.refl _).setConn rfl, by simp⟩, ?_, ?_, by simp, rfl⟩
  · simp only [hpop, Session.buffered]
  · simp [Session.buffered, hrest]

end

/-! ## The invariant of a session that keeps up -/

/-- A segment that is accepted fits into the ring and is not a copy of one sent a
multiple of `2 ^ 32` bytes earlier. -/
def KeepsUp (i : Fin maxConns) (s : Session) : Event → Prop
  | .segment pkt k => (s.stack.conns i).state = .established → Accepts (s.stack.conns i) pkt →
      (payload pkt).length ≤ tcpRxbuf - 1 - (s.buffered i).length ∧ k = (s.received i).length
  | _ => True

structure StreamInv (S : List UInt8) (isn : UInt32) (i : Fin maxConns) (s : Session) : Prop where
  routed : findConn s.stack (s.stack.conns i).dstIp (s.stack.conns i).dstPort
    (s.stack.conns i).srcPort = some i
  established : (s.stack.conns i).state = .established
  rcvNxt : (s.stack.conns i).rcvNxt = isn + 1 + UInt32.ofNat (s.received i).length
  data : s.received i <+: S
  acked : ∃ m, (acks s.stack.log).getLastD (isn + 1) = isn + 1 + UInt32.ofNat m ∧
    ackedBytes (isn + 1) (acks s.stack.log) ≤ m ∧ m ≤ (s.received i).length

section

variable {S : List UInt8} {isn : UInt32} {i : Fin maxConns} {s : Session}

lemma SessionStart.inv (hs : SessionStart isn i s) : StreamInv S isn i s := by
  have hrec : s.received i = [] := by simp [Session.received, hs.empty, hs.returned]
  refine ⟨hs.routed, hs.established, ?_, by simp [hrec], 0, ?_⟩
  · rw [hs.rcvNxt, hrec]
    simp
  · simp [hs.log, acks, ackedBytes]

/-- The distance from an earlier position of the stream to a later one is at least
what the two sequence numbers show. -/
lemma toNat_seq_sub_le (base : UInt32) {m n : ℕ} (h : m ≤ n) :
    (base + UInt32.ofNat n - (base + UInt32.ofNat m)).toNat ≤ n - m := by
  obtain ⟨d, rfl⟩ := Nat.exists_eq_add_of_le h
  have hsub : base + UInt32.ofNat (m + d) - (base + UInt32.ofNat m) = UInt32.ofNat d := by
    rw [UInt32.ofNat_add, ← UInt32.add_assoc, UInt32.add_comm _ (UInt32.ofNat d), UInt32.add_sub_cancel]
  rw [hsub, UInt32.toNat_ofNat']
  have := Nat.mod_le d (2 ^ 32)
  omega

lemma StreamInv.segment {pkt : List UInt8} {k : ℕ} (hi : StreamInv S isn i s)
    (hp : FromPeer S isn (s.stack.conns i) pkt k) (hf : ¬hasFin pkt) (hk : KeepsUp i s (.segment pkt k)) :
    StreamInv S isn i (s.handle i (.segment pkt k)) := by
  obtain ⟨t, ht, hsame, hcase⟩ := tcpInput_data hp hi.routed hi.established hf
  simp only [Session.handle, ht]
  have hroute := (routed_of_sameKeys hsame.keys hi.routed).2
  have hest := hsame.state.trans hi.established
  obtain ⟨m, hlast, hle, hm⟩ := hi.acked
  rcases hcase with ⟨-, hbuf, hnxt, hacks⟩ | ⟨ha, hbuf, hnxt, hacks⟩
  · have hrec : Session.received i ⟨t, s.returned⟩ = s.received i := by
      simp [Session.received, Session.buffered, hbuf]
    refine ⟨hroute, hest, ?_, ?_, m, ?_⟩
    · rw [hrec]
      exact hnxt.trans hi.rcvNxt
    · rw [hrec]
      exact hi.data
    rw [hrec]
    dsimp only
    rw [hacks]
    exact ⟨hlast, hle, hm⟩
  obtain ⟨hroom, hpos⟩ := hk hi.established ha
  have hrec : Session.received i ⟨t, s.returned⟩ = s.received i ++ payload pkt := by
    unfold Session.buffered at hroom
    simp only [Session.received, Session.buffered, hbuf, rxbufPush_contents]
    rw [take_of_length_le hroom, append_assoc]
  have hnxt' : (t.conns i).rcvNxt = isn + 1 + UInt32.ofNat (Session.received i ⟨t, s.returned⟩).length := by
    rw [hnxt, hi.rcvNxt, hrec, length_append, UInt32.ofNat_add, UInt32.add_assoc (isn + 1)]
  refine ⟨hroute, hest, hnxt', ?_, ?_⟩
  · rw [hrec]
    -- the slice starts where the bytes received so far end
    obtain ⟨rest, hrest⟩ := hi.data
    have hslice := hp.slice
    rw [hpos, ← hrest, drop_left] at hslice
    rw [← hrest]
    exact (prefix_append_right_inj _).mpr hslice
  dsimp only
  rw [hacks]
  by_cases hok : s.stack.ipv4Send s.stack.log.length = true
  · rw [if_pos hok]
    refine ⟨(Session.received i ⟨t, s.returned⟩).length, ?_, ?_, Nat.le_refl _⟩
    · rw [getLastD_concat, hnxt']
    have hgrow : m ≤ (Session.received i ⟨t, s.returned⟩).length := by
      rw [hrec, length_append]
      omega
    have hd := toNat_seq_sub_le (isn + 1) hgrow
    rw [ackedBytes_concat, hlast, hnxt']
    omega
  · rw [if_neg hok, append_nil]
    refine ⟨m, hlast, hle, ?_⟩
    rw [hrec, length_append]
    omega

lemma StreamInv.tcpRecv (hi : StreamInv S isn i s) (max : ℕ) : StreamInv S isn i (s.handle i (.tcpRecv max)) := by
  obtain ⟨s', hs', hsame, hret, hbuf, hnxt, hlog⟩ := handle_tcpRecv hi.established max
  have hrec : s'.received i = s.received i := by
    simp [Session.received, hret, hbuf, append_assoc, take_append_drop]
  rw [hs']
  refine ⟨(routed_of_sameKeys hsame.keys hi.routed).2, hsame.state.trans hi.established, ?_, ?_, ?_⟩
  · rw [hrec, hnxt, hi.rcvNxt]
  · rw [hrec]
    exact hi.data
  · rw [hrec, hlog]
    exact hi.acked

lemma sockRecv_established {len : ℕ} (he : (s.stack.conns i).state = .established) :
    s.handle i (.sockRecv len) = s.handle i (.tcpRecv (if len > 65535 then 65535 else len)) ∧
      (sockRecv s.stack (some i) len).1 ≠ -1 := by
  have hst : ∀ n, tcpIsEstablished (Tcp.tcpRecv s.stack i n).2 i = true := by
    intro n
    simp [tcpIsEstablished, Tcp.tcpRecv, he]
  simp only [Session.handle, sockRecv, hst, not_true_eq_false, and_false, if_false]
  refine ⟨trivial, ?_⟩
  omega

lemma StreamInv.step {ev : Event} {s' : Session} (hi : StreamInv S isn i s)
    (hs : sessionStep S isn i s ev s') (hk : KeepsUp i s ev)
    (hf : ∀ pkt k, ev = .segment pkt k → ¬hasFin pkt) : StreamInv S isn i s' := by
  obtain ⟨hp, rfl⟩ := hs
  cases ev with
  | segment pkt k => exact hi.segment (hp pkt k rfl) (hf pkt k rfl) hk
  | tcpRecv max => exact hi.tcpRecv max
  | sockRecv len =>
    rw [(sockRecv_established hi.established).1]
    exact hi.tcpRecv _

end

end AetherOS.Tcp
