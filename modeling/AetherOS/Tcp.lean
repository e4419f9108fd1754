import AetherOS.RingBuffer
import AetherOS.Runs
import AetherOS.TcpSegment

/-!
# The receive side of TCP and the socket layer above it

The connection table, the receive ring of each connection, the handler of incoming
segments with all its states, and the two calls that read from a connection. Every
segment handed to `ipv4_send` is recorded with the answer it got; the answers of
the layer below are an arbitrary sequence.
-/
namespace AetherOS.Tcp
open RingBuffer Runs

inductive TcpState where
  | closed
  | synSent
  | established
  | finWait1
  | finWait2
  | closeWait
  | timeWait
  deriving DecidableEq, Repr

def tcpRxbuf : ℕ := 4096

lemma tcpRxbuf_pos : 0 < tcpRxbuf := by decide
abbrev maxConns : ℕ := 4

structure Conn where
  inUse : Bool
  state : TcpState
  dstIp : UInt32
  dstPort : UInt16
  srcPort : UInt16
  sndSeq : UInt32
  sndUna : UInt32
  rcvNxt : UInt32
  rcvWin : UInt16
  rxbuf : Ring UInt8 tcpRxbuf

/-- A segment handed to `ipv4_send`, and whether it was sent. -/
structure Handed where
  dstIp : UInt32
  payload : List UInt8
  sent : Bool

/-- The connection table with our address, the answer `ipv4_send` gives to its
`n`-th call, and the segments handed to it so far. -/
structure Stack where
  conns : Fin maxConns → Conn
  ourIp : UInt32
  ipv4Send : ℕ → Bool
  log : List Handed

def Stack.setConn (s : Stack) (i : Fin maxConns) (c : Conn) : Stack :=
  { s with conns := Function.update s.conns i c }

/-- Store byte after byte and drop the rest once the ring is full. -/
def rxbufPush (r : Ring UInt8 tcpRxbuf) : List UInt8 → Ring UInt8 tcpRxbuf
  | [] => r
  | x :: xs =>
    match r.push x with
    | none => r
    | some r' => rxbufPush r' xs

def rxbufPop : ℕ → Ring UInt8 tcpRxbuf → List UInt8 × Ring UInt8 tcpRxbuf
  | 0, r => ([], r)
  | n + 1, r =>
    match r.pop with
    | none => ([], r)
    | some (x, r') => (x :: (rxbufPop n r').1, (rxbufPop n r').2)

/-- The header `tcp_send_seg` fills in before the checksum. -/
def segmentHdr (c : Conn) (flags : UInt8) : TcpHdr where
  srcPort := c.srcPort
  dstPort := c.dstPort
  seq := c.sndSeq
  ack := if flags &&& tcpFlagAck ≠ 0 then c.rcvNxt else 0
  dataOff := 0x50
  flags := flags
  window := c.rcvWin
  checksum := 0
  urgent := 0

def segmentBytes (ourIp : UInt32) (c : Conn) (flags : UInt8) (data : List UInt8) : List UInt8 :=
  let hdr := segmentHdr c flags
  let csum := ipPseudoChecksum ourIp c.dstIp ipProtoTcp (hdr.bytes ++ data)
  { hdr with checksum := csum }.bytes ++ data

def tcpSendSeg (s : Stack) (i : Fin maxConns) (flags : UInt8) (data : List UInt8) :
    Bool × Stack :=
  if data.length + sizeofTcpHdr > 1460 + sizeofTcpHdr then (false, s)
  else
    let c := s.conns i
    let sndSeq :=
      if flags &&& (tcpFlagSyn ||| tcpFlagFin) ≠ 0 then c.sndSeq + 1
      else c.sndSeq + UInt32.ofNat data.length
    let ok := s.ipv4Send s.log.length
    (ok, { s.setConn i { c with sndSeq := sndSeq } with
      log := s.log ++ [⟨c.dstIp, segmentBytes s.ourIp c flags data, ok⟩] })

/-- The connection a segment belongs to: the first entry in use with its address
and ports. -/
def findConn (s : Stack) (srcIp : UInt32) (sport dport : UInt16) : Option (Fin maxConns) :=
  (List.finRange maxConns).find? fun i =>
    (s.conns i).inUse && (s.conns i).dstIp == srcIp && (s.conns i).dstPort == sport &&
      (s.conns i).srcPort == dport

def inputSynSent (s : Stack) (i : Fin maxConns) (hdr : TcpHdr) : Stack :=
  let c := s.conns i
  if hdr.flags &&& (tcpFlagSyn ||| tcpFlagAck) = tcpFlagSyn ||| tcpFlagAck then
    let c := { c with rcvNxt := hdr.seq + 1, sndUna := hdr.ack, state := .established }
    (tcpSendSeg (s.setConn i c) i tcpFlagAck []).2
  else if hdr.flags &&& tcpFlagRst ≠ 0 then s.setConn i { c with state := .closed }
  else s

/-- In-order data is stored and acknowledged. -/
def acceptData (s : Stack) (i : Fin maxConns) (hdr : TcpHdr) (data : List UInt8) : Stack :=
  let c := s.conns i
  if data.length > 0 ∧ hdr.seq = c.rcvNxt then
    let c := { c with
      rxbuf := rxbufPush c.rxbuf data
      rcvNxt := c.rcvNxt + UInt32.ofNat data.length }
    (tcpSendSeg (s.setConn i c) i tcpFlagAck []).2
  else s

def acceptFin (s : Stack) (i : Fin maxConns) (hdr : TcpHdr) : Stack :=
  if hdr.flags &&& tcpFlagFin ≠ 0 then
    let c := s.conns i
    let s := s.setConn i { c with rcvNxt := c.rcvNxt + 1, state := .closeWait }
    let s := (tcpSendSeg s i tcpFlagAck []).2
    let s := (tcpSendSeg s i (tcpFlagFin ||| tcpFlagAck) []).2
    s.setConn i { s.conns i with state := .closed }
  else s

def inputEstablished (s : Stack) (i : Fin maxConns) (hdr : TcpHdr) (data : List UInt8) : Stack :=
  let c := s.conns i
  if hdr.flags &&& tcpFlagRst ≠ 0 then s.setConn i { c with state := .closed }
  else
    let s := if hdr.flags &&& tcpFlagAck ≠ 0 then s.setConn i { c with sndUna := hdr.ack } else s
    acceptFin (acceptData s i hdr data) i hdr

def inputFinWait2 (s : Stack) (i : Fin maxConns) (hdr : TcpHdr) : Stack :=
  if hdr.flags &&& tcpFlagFin ≠ 0 then
    let c := s.conns i
    let s := (tcpSendSeg (s.setConn i { c with rcvNxt := c.rcvNxt + 1 }) i tcpFlagAck []).2
    s.setConn i { s.conns i with state := .closed }
  else s

def inputFinWait1 (s : Stack) (i : Fin maxConns) (hdr : TcpHdr) : Stack :=
  let c := s.conns i
  let s := if hdr.flags &&& tcpFlagAck ≠ 0 then s.setConn i { c with state := .finWait2 } else s
  inputFinWait2 s i hdr  -- falls through

/-- The header length in bytes a packet claims to have. -/
def dataOffset (pkt : List UInt8) : ℕ := (TcpHdr.ofPacket pkt).dataOff.toNat / 16 * 4

def tcpInput (s : Stack) (srcIp : UInt32) (pkt : List UInt8) : Stack :=
  if pkt.length < sizeofTcpHdr then s
  else
    let hdr := TcpHdr.ofPacket pkt
    let doff := dataOffset pkt
    if doff < sizeofTcpHdr ∨ doff > pkt.length then s
    else
      let data := pkt.drop doff
      match findConn s srcIp hdr.srcPort hdr.dstPort with
      | none => s
      | some i =>
        match (s.conns i).state with
        | .synSent => inputSynSent s i hdr
        | .established => inputEstablished s i hdr data
        | .finWait1 => inputFinWait1 s i hdr
        | .finWait2 => inputFinWait2 s i hdr
        | _ => s

def tcpRecv (s : Stack) (i : Fin maxConns) (max : ℕ) : List UInt8 × Stack :=
  let c := s.conns i
  if c.state ≠ .established then ([], s)
  else
    let r := rxbufPop max c.rxbuf
    (r.1, s.setConn i { c with rxbuf := r.2 })

def tcpIsEstablished (s : Stack) (i : Fin maxConns) : Bool := (s.conns i).state == .established

/-- `sock_recv` on a socket whose connection is `conn`; a closed index has none. -/
def sockRecv (s : Stack) (conn : Option (Fin maxConns)) (len : ℕ) : ℤ × List UInt8 × Stack :=
  match conn with
  | none => (-1, [], s)
  | some i =>
    let len := if len > 65535 then 65535 else len
    let r := tcpRecv s i len
    if r.1.length = 0 ∧ ¬tcpIsEstablished r.2 i then (-1, [], r.2)  -- end of file
    else (r.1.length, r.1, r.2)

/-- What a push stores is what still fits. -/
theorem rxbufPush_contents (r : Ring UInt8 tcpRxbuf) (xs : List UInt8) :
    (rxbufPush r xs).contents = r.contents ++ xs.take (tcpRxbuf - 1 - r.contents.length) := by
  induction xs generalizing r with
  | nil => simp [rxbufPush]
  | cons x xs ih =>
    have hlt := r.used_lt
    cases hp : r.push x with
    | none =>
      have hfull := (r.push_eq_none x).mp hp
      have hroom : tcpRxbuf - 1 - r.contents.length = 0 := by
        rw [Ring.length_contents]
        omega
      simp only [rxbufPush, hp, hroom, List.take_zero, List.append_nil]
    | some r' =>
      have hne : r.used + 1 ≠ tcpRxbuf := by
        rw [ne_eq, ← r.push_eq_none x, hp]
        simp
      have hc := Ring.push_contents hp
      have hroom : tcpRxbuf - 1 - r.contents.length =
          tcpRxbuf - 1 - r'.contents.length + 1 := by
        rw [hc, List.length_append, Ring.length_contents]
        simp only [List.length_cons, List.length_nil]
        omega
      rw [rxbufPush, hp]
      dsimp only
      rw [ih r', hroom, List.take_succ_cons, hc, List.append_assoc, List.singleton_append]

/-- A pop returns the oldest bytes and keeps the others. -/
theorem rxbufPop_spec (n : ℕ) (r : Ring UInt8 tcpRxbuf) :
    (rxbufPop n r).1 = r.contents.take n ∧ (rxbufPop n r).2.contents = r.contents.drop n := by
  induction n generalizing r with
  | zero => simp [rxbufPop]
  | succ n ih =>
    cases hp : r.pop with
    | none =>
      have hnil := (r.pop_eq_none).mp hp
      simp [rxbufPop, hp, hnil]
    | some xr =>
      obtain ⟨x, r'⟩ := xr
      have hc := Ring.pop_contents hp
      obtain ⟨ih1, ih2⟩ := ih r'
      simp [rxbufPop, hp, hc, ih1, ih2]

/-- A call on the receive ring, with the bytes it returned. -/
inductive RxCall
  | push (data : List UInt8)
  | pop (max : ℕ) (out : List UInt8)

def rxStep (r : Ring UInt8 tcpRxbuf) : RxCall → Ring UInt8 tcpRxbuf → Prop
  | .push data, r' => r' = rxbufPush r data
  | .pop max out, r' => (out, r') = rxbufPop max r

/-- The same calls on a queue of at most 4095 bytes. -/
def queueStep (q : List UInt8) : RxCall → List UInt8 → Prop
  | .push data, q' => q' = q ++ data.take (4095 - q.length)
  | .pop max out, q' => out = q.take max ∧ q' = q.drop max

/-- Every sequence of calls on the ring is one on the queue. -/
theorem rxRun_queue {r r' : Ring UInt8 tcpRxbuf} {calls : List RxCall} (h : Run rxStep r calls r') :
    Run queueStep r.contents calls r'.contents ∧ r'.contents.length ≤ 4095 ∧ r'.head < 4096 ∧ r'.tail < 4096 := by
  have hstep : ∀ r a r', True → rxStep r a r' → True ∧ queueStep r.contents a r'.contents := by
    intro r a r' _ hs
    cases a with
    | push data =>
      obtain rfl := hs
      exact ⟨trivial, rxbufPush_contents r data⟩
    | pop max out =>
      have hpop := rxbufPop_spec max r
      rw [← hs] at hpop
      exact ⟨trivial, hpop⟩
  refine ⟨(h.simulates hstep trivial).2, ?_, r'.head_lt, r'.tail_lt⟩
  rw [Ring.length_contents]
  exact Nat.le_of_lt_succ r'.used_lt

def emptyRing : Ring UInt8 tcpRxbuf := ⟨fun _ => 0, 0, 0, by decide, by decide⟩

/-- Three bytes come in, and two are taken. -/
theorem rxRun_queue_taken :
    Run queueStep emptyRing.contents [.push [1, 2, 3], .pop 2 [1, 2]]
      (rxbufPop 2 (rxbufPush emptyRing [1, 2, 3])).2.contents :=
  (rxRun_queue (.cons (a := .push [1, 2, 3]) (by rfl) (.cons (a := .pop 2 [1, 2]) (by rfl) (.nil _)))).1

end AetherOS.Tcp
