import Mathlib.Data.List.GetD
import AetherOS.TcpDelivery

/-!
# Frames and the segments in them

`eth_recv` and `ipv4_recv` strip their headers and pass on the rest of the frame. The
total length that the IP header states is not looked at, so bytes that the link layer
appended to a short frame become part of the segment. The handlers of ARP, ICMP and UDP
leave the connection table alone and are not modelled; the neighbours they learn decide
whether a segment is sent, which is arbitrary here.
-/
namespace AetherOS.Tcp
open RingBuffer List

def ethHlen : ℕ := 14

def ethertypeIpv4 : UInt16 := 0x0800

/-- The length of an IP header without options. -/
def sizeofIpHdr : ℕ := 20

/-- A word as it stands in memory. -/
def memWord (pkt : List UInt8) (i : ℕ) : UInt32 := UInt32.ofNat (beNat ((pkt.drop i).take 4).reverse)

/-- The header of an IP packet, as far as it is read; nothing reads `totalLength`. -/
structure IpHdr where
  verIhl : UInt8
  totalLength : UInt16
  protocol : UInt8
  src : UInt32
  deriving DecidableEq, Repr

def IpHdr.ofPacket (pkt : List UInt8) : IpHdr where
  verIhl := pkt.getD 0 0
  totalLength := ntohs pkt 2
  protocol := pkt.getD 9 0
  src := memWord pkt 12

/-- The header length in bytes a packet claims to have. -/
def headerLength (pkt : List UInt8) : ℕ := (IpHdr.ofPacket pkt).verIhl.toNat % 16 * 4

def ipv4Recv (s : Stack) (pkt : List UInt8) : Stack :=
  if pkt.length < sizeofIpHdr then s
  else
    let ip := IpHdr.ofPacket pkt
    let ihl := headerLength pkt
    if ihl < sizeofIpHdr ∨ ihl > pkt.length then s
    else if ip.protocol = ipProtoTcp then tcpInput s ip.src (pkt.drop ihl)
    else s  -- ICMP and UDP

def ethRecv (s : Stack) (frame : List UInt8) : Stack :=
  if frame.length < ethHlen then s
  else if ntohs frame 12 = ethertypeIpv4 then ipv4Recv s (frame.drop ethHlen)
  else s  -- ARP

/-! ## Segments that change nothing -/

/-- The flags and numbers of a segment for which its connection does nothing. -/
def Idle (c : Conn) (hdr : TcpHdr) (data : List UInt8) : Prop :=
  match c.state with
  | .synSent => hdr.flags &&& (tcpFlagSyn ||| tcpFlagAck) ≠ tcpFlagSyn ||| tcpFlagAck ∧ hdr.flags &&& tcpFlagRst = 0
  | .established => hdr.flags &&& tcpFlagRst = 0 ∧ hdr.flags &&& tcpFlagFin = 0 ∧
      (hdr.flags &&& tcpFlagAck = 0 ∨ hdr.ack = c.sndUna) ∧ (data = [] ∨ hdr.seq ≠ c.rcvNxt)
  | .finWait1 => hdr.flags &&& tcpFlagAck = 0 ∧ hdr.flags &&& tcpFlagFin = 0
  | .finWait2 => hdr.flags &&& tcpFlagFin = 0
  | _ => True

/-- The segment has a complete header. -/
def CompleteTcp (pkt : List UInt8) : Prop :=
  sizeofTcpHdr ≤ pkt.length ∧ sizeofTcpHdr ≤ dataOffset pkt ∧ dataOffset pkt ≤ pkt.length

/-- The segment is malformed, belongs to no connection, or its connection does nothing. -/
def IgnoredTcp (s : Stack) (src : UInt32) (pkt : List UInt8) : Prop :=
  CompleteTcp pkt → ∀ i, findConn s src (TcpHdr.ofPacket pkt).srcPort (TcpHdr.ofPacket pkt).dstPort = some i →
    Idle (s.conns i) (TcpHdr.ofPacket pkt) (payload pkt)

section

variable {s : Stack} {i : Fin maxConns} {hdr : TcpHdr} {src : UInt32} {pkt data : List UInt8}

/-- The switch of `tcp_input` over the state of the connection. -/
def connInput (s : Stack) (i : Fin maxConns) (hdr : TcpHdr) (data : List UInt8) : Stack :=
  match (s.conns i).state with
  | .synSent => inputSynSent s i hdr
  | .established => inputEstablished s i hdr data
  | .finWait1 => inputFinWait1 s i hdr
  | .finWait2 => inputFinWait2 s i hdr
  | _ => s

lemma tcpInput_complete (h : CompleteTcp pkt) : tcpInput s src pkt =
    match findConn s src (TcpHdr.ofPacket pkt).srcPort (TcpHdr.ofPacket pkt).dstPort with
    | none => s
    | some i => connInput s i (TcpHdr.ofPacket pkt) (payload pkt) := by
  obtain ⟨h1, h2, h3⟩ := h
  rw [tcpInput, if_neg (by omega)]
  simp only [if_neg (show ¬(dataOffset pkt < sizeofTcpHdr ∨ dataOffset pkt > pkt.length) by omega)]
  rfl

lemma tcpInput_incomplete (h : ¬CompleteTcp pkt) : tcpInput s src pkt = s := by
  unfold CompleteTcp at h
  unfold tcpInput
  by_cases h1 : pkt.length < sizeofTcpHdr
  · rw [if_pos h1]
  · rw [if_neg h1]
    simp [if_pos (show dataOffset pkt < sizeofTcpHdr ∨ dataOffset pkt > pkt.length by omega)]

lemma setConn_eq_self {c : Conn} : s.setConn i c = s ↔ s.conns i = c := by
  constructor
  · intro h
    rw [← h, setConn_self]
  · rintro rfl
    simp [Stack.setConn]

lemma ne_of_log_lt {s' : Stack} (h : s.log.length < s'.log.length) : s' ≠ s := by
  rintro rfl
  omega

lemma tcpSendSeg_log_length (flags : UInt8) : (tcpSendSeg s i flags []).2.log.length = s.log.length + 1 := by
  rw [tcpSendSeg_log, length_append]
  rfl

lemma inputFinWait2_eq_self : inputFinWait2 s i hdr = s ↔ hdr.flags &&& tcpFlagFin = 0 := by
  unfold inputFinWait2
  by_cases hf : hdr.flags &&& tcpFlagFin = 0
  · simp [hf]
  rw [if_pos hf]
  refine iff_of_false (ne_of_log_lt ?_) hf
  simp only [setConn_log, tcpSendSeg_log_length]
  omega

lemma acceptData_log_le : s.log.length ≤ (acceptData s i hdr data).log.length := by
  unfold acceptData
  simp only
  split
  · simp only [setConn_log, tcpSendSeg_log_length]
    omega
  · exact Nat.le_refl _

/-- The peer's acknowledgement is recorded. -/
def recordAck (s : Stack) (i : Fin maxConns) (hdr : TcpHdr) : Stack :=
  if hdr.flags &&& tcpFlagAck ≠ 0 then s.setConn i { s.conns i with sndUna := hdr.ack } else s

lemma recordAck_log : (recordAck s i hdr).log = s.log := by
  unfold recordAck
  split <;> rfl

lemma recordAck_rcvNxt : ((recordAck s i hdr).conns i).rcvNxt = (s.conns i).rcvNxt := by
  unfold recordAck
  split
  · rw [setConn_self]
  · rfl

lemma recordAck_eq_self : recordAck s i hdr = s ↔ hdr.flags &&& tcpFlagAck = 0 ∨ hdr.ack = (s.conns i).sndUna := by
  unfold recordAck
  by_cases hack : hdr.flags &&& tcpFlagAck = 0
  · simp [hack]
  rw [if_pos hack, setConn_eq_self, or_iff_right hack]
  constructor
  · intro h
    rw [h]
  · intro h
    rw [h]

lemma inputEstablished_of_noReset (hr : hdr.flags &&& tcpFlagRst = 0) : inputEstablished s i hdr data =
    acceptFin (acceptData (recordAck s i hdr) i hdr data) i hdr := by
  unfold inputEstablished
  exact if_neg (not_not.mpr hr)

lemma inputEstablished_of_reset (hr : hdr.flags &&& tcpFlagRst ≠ 0) : inputEstablished s i hdr data =
    s.setConn i { s.conns i with state := .closed } := by
  unfold inputEstablished
  exact if_pos hr

lemma inputEstablished_eq_self (he : (s.conns i).state = .established) :
    inputEstablished s i hdr data = s ↔ Idle (s.conns i) hdr data := by
  unfold Idle
  simp only [he]
  by_cases hr : hdr.flags &&& tcpFlagRst = 0
  · rw [inputEstablished_of_noReset hr, and_iff_right hr]
    by_cases hf : hdr.flags &&& tcpFlagFin = 0
    · rw [and_iff_right hf, acceptFin, if_neg (not_not.mpr hf)]
      by_cases ha : data = [] ∨ hdr.seq ≠ (s.conns i).rcvNxt
      · have hidle : acceptData (recordAck s i hdr) i hdr data = recordAck s i hdr := by
          apply if_neg
          rw [recordAck_rcvNxt]
          rintro ⟨hlen, hseq⟩
          exact ha.elim (length_pos_iff.mp hlen) (absurd hseq)
        rw [hidle, recordAck_eq_self, and_iff_left ha]
      refine iff_of_false (ne_of_log_lt ?_) fun h => ha h.2
      obtain ⟨hne, hseq⟩ := not_or.mp ha
      rw [acceptData, if_pos ⟨length_pos_iff.mpr hne, recordAck_rcvNxt.symm ▸ not_not.mp hseq⟩,
        tcpSendSeg_log_length, setConn_log, recordAck_log]
      omega
    · refine iff_of_false (ne_of_log_lt ?_) fun h => hf h.1
      have hdata : (recordAck s i hdr).log.length ≤ (acceptData (recordAck s i hdr) i hdr data).log.length :=
        acceptData_log_le
      rw [acceptFin, if_pos hf]
      simp only [setConn_log, tcpSendSeg_log_length]
      rw [recordAck_log] at hdata
      omega
  · rw [inputEstablished_of_reset hr, setConn_eq_self]
    refine iff_of_false (fun h => ?_) fun h => hr h.1
    rw [h] at he
    cases he

lemma inputFinWait2_state (s : Stack) (i : Fin maxConns) (hdr : TcpHdr) :
    ((inputFinWait2 s i hdr).conns i).state = .closed ∨ inputFinWait2 s i hdr = s := by
  unfold inputFinWait2
  split
  · left
    simp
  · right
    rfl

lemma connInput_eq_self : connInput s i hdr data = s ↔ Idle (s.conns i) hdr data := by
  cases he : (s.conns i).state with
  | synSent =>
    simp only [connInput, Idle, he]
    unfold inputSynSent
    by_cases hack : hdr.flags &&& (tcpFlagSyn ||| tcpFlagAck) = tcpFlagSyn ||| tcpFlagAck
    · rw [if_pos hack]
      refine iff_of_false (ne_of_log_lt ?_) fun h => h.1 hack
      rw [tcpSendSeg_log_length, setConn_log]
      omega
    rw [if_neg hack]
    by_cases hr : hdr.flags &&& tcpFlagRst = 0
    · simp [hack, hr]
    rw [if_pos hr, setConn_eq_self]
    refine iff_of_false (fun h => ?_) fun h => hr h.2
    rw [h] at he
    cases he
  | established =>
    simp only [connInput, he]
    exact inputEstablished_eq_self he
  | finWait1 =>
    simp only [connInput, Idle, he]
    unfold inputFinWait1
    by_cases hack : hdr.flags &&& tcpFlagAck = 0
    · simp only [hack, ne_eq, not_true, if_false, true_and]
      exact inputFinWait2_eq_self
    simp only [hack, ne_eq, not_false_eq_true, if_true, false_and, iff_false]
    intro h
    -- the connection has left the state for good
    rcases inputFinWait2_state (s.setConn i { s.conns i with state := .finWait2 }) i hdr with hc | hs
    · rw [h, he] at hc
      cases hc
    rw [h] at hs
    rw [hs, setConn_self] at he
    cases he
  | finWait2 =>
    simp only [connInput, Idle, he]
    exact inputFinWait2_eq_self
  | closed | closeWait | timeWait => simp [connInput, Idle, he]

theorem tcpInput_eq_self : tcpInput s src pkt = s ↔ IgnoredTcp s src pkt := by
  unfold IgnoredTcp
  by_cases h : CompleteTcp pkt
  · rw [tcpInput_complete h]
    cases hi : findConn s src (TcpHdr.ofPacket pkt).srcPort (TcpHdr.ofPacket pkt).dstPort with
    | none => simp
    | some i => simp [h, connInput_eq_self]
  · simp [tcpInput_incomplete h, h]

end

/-! ## Padding -/

/-- The segment is the next one in sequence for an established connection and no reset,
whether it carries data or not. -/
def NextInOrder (s : Stack) (src : UInt32) (pkt : List UInt8) : Prop :=
  ∃ i, findConn s src (TcpHdr.ofPacket pkt).srcPort (TcpHdr.ofPacket pkt).dstPort = some i ∧
    (s.conns i).state = .established ∧ (TcpHdr.ofPacket pkt).flags &&& tcpFlagRst = 0 ∧
    (TcpHdr.ofPacket pkt).seq = (s.conns i).rcvNxt

section

variable {s : Stack} {i : Fin maxConns} {hdr : TcpHdr} {src : UInt32} {pkt data pad : List UInt8}

lemma take_drop_append {j k : ℕ} (h : j + k ≤ pkt.length) : ((pkt ++ pad).drop j).take k = (pkt.drop j).take k := by
  rw [drop_append_of_le_length (by omega), take_append_of_le_length]
  rw [length_drop]
  omega

lemma ntohs_append {j : ℕ} (h : j + 2 ≤ pkt.length) : ntohs (pkt ++ pad) j = ntohs pkt j := by
  rw [ntohs, ntohs, take_drop_append h]

lemma ntohl_append {j : ℕ} (h : j + 4 ≤ pkt.length) : ntohl (pkt ++ pad) j = ntohl pkt j := by
  rw [ntohl, ntohl, take_drop_append h]

lemma TcpHdr.ofPacket_append (h : sizeofTcpHdr ≤ pkt.length) : ofPacket (pkt ++ pad) = ofPacket pkt := by
  unfold sizeofTcpHdr at h
  simp only [ofPacket, TcpHdr.mk.injEq]
  refine ⟨ntohs_append (by omega), ntohs_append (by omega), ntohl_append (by omega),
    ntohl_append (by omega), ?_, ?_, ntohs_append (by omega), ntohs_append (by omega),
    ntohs_append (by omega)⟩
  · exact getD_append _ _ _ _ (by omega)
  · exact getD_append _ _ _ _ (by omega)

lemma IpHdr.ofPacket_append (h : sizeofIpHdr ≤ pkt.length) : ofPacket (pkt ++ pad) = ofPacket pkt := by
  unfold sizeofIpHdr at h
  simp only [ofPacket, IpHdr.mk.injEq]
  refine ⟨getD_append _ _ _ _ (by omega), ntohs_append (by omega), getD_append _ _ _ _ (by omega), ?_⟩
  rw [memWord, memWord, take_drop_append (by omega)]

lemma acceptData_rcvNxt (h : hdr.seq = (s.conns i).rcvNxt) :
    ((acceptData s i hdr data).conns i).rcvNxt = (s.conns i).rcvNxt + UInt32.ofNat data.length := by
  unfold acceptData
  by_cases hlen : data.length > 0
  · simp only [if_pos (And.intro hlen h), tcpSendSeg_rcvNxt, setConn_self]
  · have h0 : data.length = 0 := by omega
    simp [h0]

lemma acceptFin_rcvNxt : ((acceptFin s i hdr).conns i).rcvNxt =
    (s.conns i).rcvNxt + if hdr.flags &&& tcpFlagFin ≠ 0 then 1 else 0 := by
  unfold acceptFin
  split
  · simp only [setConn_self, tcpSendSeg_rcvNxt]
  · simp

lemma inputEstablished_append (hlen : data.length + pad.length < 65536) :
    inputEstablished s i hdr (data ++ pad) = inputEstablished s i hdr data ↔
      pad = [] ∨ hdr.flags &&& tcpFlagRst ≠ 0 ∨ hdr.seq ≠ (s.conns i).rcvNxt := by
  by_cases hpad : pad = []
  · simp [hpad]
  by_cases hr : hdr.flags &&& tcpFlagRst ≠ 0
  · simp [inputEstablished_of_reset hr, hr]
  rw [inputEstablished_of_noReset (not_not.mp hr), inputEstablished_of_noReset (not_not.mp hr),
    or_iff_right hpad, or_iff_right hr]
  by_cases hseq : hdr.seq = (s.conns i).rcvNxt
  · refine iff_of_false (fun h => ?_) (not_not.mpr hseq)
    -- the windows end up at different numbers
    have hrcv := congrArg (fun t => (t.conns i).rcvNxt) h
    have hack : hdr.seq = ((recordAck s i hdr).conns i).rcvNxt := hseq.trans recordAck_rcvNxt.symm
    simp only [acceptFin_rcvNxt, acceptData_rcvNxt hack] at hrcv
    have hnat := congrArg UInt32.toNat ((UInt32.add_right_inj _).mp ((UInt32.add_left_inj _).mp hrcv))
    rw [length_append, UInt32.toNat_ofNat', UInt32.toNat_ofNat', Nat.mod_eq_of_lt (by omega),
      Nat.mod_eq_of_lt (by omega)] at hnat
    exact hpad (length_eq_zero_iff.mp (by omega))
  · refine iff_of_true ?_ hseq
    have hskip : ∀ d, acceptData (recordAck s i hdr) i hdr d = recordAck s i hdr := by
      intro d
      apply if_neg
      rw [recordAck_rcvNxt]
      exact fun h => hseq h.2
    rw [hskip, hskip]

lemma connInput_append (hlen : data.length + pad.length < 65536) :
    connInput s i hdr (data ++ pad) = connInput s i hdr data ↔
      pad = [] ∨ ¬((s.conns i).state = .established ∧ hdr.flags &&& tcpFlagRst = 0 ∧
        hdr.seq = (s.conns i).rcvNxt) := by
  cases he : (s.conns i).state with
  | established => simp only [connInput, he, inputEstablished_append hlen, true_and, not_and_or, ne_eq]
  | _ => simp [connInput, he]

theorem tcpInput_append (h : CompleteTcp pkt) (hlen : pkt.length + pad.length < 65536) :
    tcpInput s src (pkt ++ pad) = tcpInput s src pkt ↔ pad = [] ∨ ¬NextInOrder s src pkt := by
  have hhdr : TcpHdr.ofPacket (pkt ++ pad) = TcpHdr.ofPacket pkt := TcpHdr.ofPacket_append h.1
  have hoff : dataOffset (pkt ++ pad) = dataOffset pkt := by rw [dataOffset, dataOffset, hhdr]
  have hpay : payload (pkt ++ pad) = payload pkt ++ pad := by
    rw [payload, payload, hoff, drop_append_of_le_length h.2.2]
  have hcomplete : CompleteTcp (pkt ++ pad) := by
    obtain ⟨h1, h2, h3⟩ := h
    rw [CompleteTcp, hoff, length_append]
    omega
  have hpaylen : (payload pkt).length + pad.length < 65536 := by
    rw [payload, length_drop]
    omega
  rw [tcpInput_complete hcomplete, tcpInput_complete h, hhdr, hpay]
  unfold NextInOrder
  cases hi : findConn s src (TcpHdr.ofPacket pkt).srcPort (TcpHdr.ofPacket pkt).dstPort with
  | none => simp
  | some i => simp [connInput_append hpaylen, exists_eq_left']

instance (pkt : List UInt8) : Decidable (CompleteTcp pkt) := inferInstanceAs (Decidable (_ ∧ _))

instance (s : Stack) (src : UInt32) (pkt : List UInt8) : Decidable (NextInOrder s src pkt) :=
  inferInstanceAs (Decidable (∃ _, _))

/-- The packet has complete headers, the header of TCP included. -/
def CompleteIp (pkt : List UInt8) : Prop :=
  sizeofIpHdr ≤ pkt.length ∧ sizeofIpHdr ≤ headerLength pkt ∧ headerLength pkt ≤ pkt.length ∧
    ((IpHdr.ofPacket pkt).protocol = ipProtoTcp → CompleteTcp (pkt.drop (headerLength pkt)))

instance (pkt : List UInt8) : Decidable (CompleteIp pkt) := inferInstanceAs (Decidable (_ ∧ _))

/-- The packet is malformed, or not for TCP, or TCP does nothing with it. -/
def IgnoredIp (s : Stack) (pkt : List UInt8) : Prop :=
  sizeofIpHdr ≤ pkt.length → sizeofIpHdr ≤ headerLength pkt → headerLength pkt ≤ pkt.length →
    (IpHdr.ofPacket pkt).protocol = ipProtoTcp → IgnoredTcp s (IpHdr.ofPacket pkt).src (pkt.drop (headerLength pkt))

/-- Padding does no harm: there is none; or the packet is complete and not the next one in
order for an established connection; or the padding completes its headers, and TCP does
nothing with the result. -/
def PaddingHarmless (s : Stack) (pkt pad : List UInt8) : Prop :=
  pad = [] ∨ (CompleteIp pkt ∧ ¬((IpHdr.ofPacket pkt).protocol = ipProtoTcp ∧
      NextInOrder s (IpHdr.ofPacket pkt).src (pkt.drop (headerLength pkt)))) ∨
    ¬CompleteIp pkt ∧ IgnoredIp s (pkt ++ pad)

lemma ipv4Recv_eq_self : ipv4Recv s pkt = s ↔ IgnoredIp s pkt := by
  unfold ipv4Recv IgnoredIp
  by_cases h1 : pkt.length < sizeofIpHdr
  · rw [if_pos h1]
    exact iff_of_true rfl fun h => absurd h1 (by omega)
  rw [if_neg h1]
  by_cases h2 : headerLength pkt < sizeofIpHdr ∨ headerLength pkt > pkt.length
  · simp only [if_pos h2, true_iff]
    intro _ _ _
    omega
  obtain ⟨h2, h3⟩ := not_or.mp h2
  simp only [if_neg (not_or.mpr ⟨h2, h3⟩), Nat.not_lt.mp h1, Nat.not_lt.mp h2, Nat.not_lt.mp h3, true_imp_iff]
  by_cases hp : (IpHdr.ofPacket pkt).protocol = ipProtoTcp
  · rw [if_pos hp, tcpInput_eq_self]
    simp [hp]
  · simp [hp]

lemma ipv4Recv_incomplete (h : ¬CompleteIp pkt) : ipv4Recv s pkt = s := by
  rw [ipv4Recv_eq_self]
  intro h1 h2 h3 h4 h5
  exact absurd ⟨h1, h2, h3, fun _ => h5⟩ h

theorem ipv4Recv_append (hlen : pkt.length + pad.length < 65536) :
    ipv4Recv s (pkt ++ pad) = ipv4Recv s pkt ↔ PaddingHarmless s pkt pad := by
  unfold PaddingHarmless
  by_cases hpad : pad = []
  · simp [hpad]
  by_cases h : CompleteIp pkt
  · obtain ⟨h1, h2, h3, h4⟩ := h
    have hhdr : IpHdr.ofPacket (pkt ++ pad) = IpHdr.ofPacket pkt := IpHdr.ofPacket_append h1
    have hihl : headerLength (pkt ++ pad) = headerLength pkt := by rw [headerLength, headerLength, hhdr]
    have hlong : ∀ l, l.length ≥ pkt.length → headerLength l = headerLength pkt →
        IpHdr.ofPacket l = IpHdr.ofPacket pkt → ipv4Recv s l = if (IpHdr.ofPacket pkt).protocol = ipProtoTcp then
            tcpInput s (IpHdr.ofPacket pkt).src (l.drop (headerLength pkt)) else s := by
      intro l hl hl1 hl2
      rw [ipv4Recv, if_neg (by omega)]
      simp only [hl1, hl2]
      rw [if_neg (by omega)]
    rw [hlong _ (by simp) hihl hhdr, hlong pkt (Nat.le_refl _) rfl rfl, drop_append_of_le_length h3]
    by_cases hp : (IpHdr.ofPacket pkt).protocol = ipProtoTcp
    · rw [if_pos hp, if_pos hp, tcpInput_append (h4 hp) (by rw [length_drop]; omega)]
      simp [hpad, hp, CompleteIp, h1, h2, h3, h4 hp]
    · simp [hpad, hp, CompleteIp, h1, h2, h3]
  · simp [hpad, h, ipv4Recv_incomplete h, ipv4Recv_eq_self]

end

/-- The frame without what follows the `total_length` bytes of the packet in it. -/
def cutFrame (frame : List UInt8) : List UInt8 :=
  frame.take (ethHlen + (IpHdr.ofPacket (frame.drop ethHlen)).totalLength.toNat)

/-- For every IPv4 frame that contains the whole packet and every padding after the packet:
the padded frame leaves the same connection table and sends the same segments as the frame
without padding if and only if the padding does no harm. -/
theorem ethRecv_padded_iff (s : Stack) (frame pad : List UInt8) (htype : ntohs frame 12 = ethertypeIpv4)
    (hfit : ethHlen + (IpHdr.ofPacket (frame.drop ethHlen)).totalLength.toNat ≤ frame.length)
    (hlen : (cutFrame frame ++ pad).length < 65536) :
    ethRecv s (cutFrame frame ++ pad) = ethRecv s (cutFrame frame) ↔
      PaddingHarmless s ((cutFrame frame).drop ethHlen) pad := by
  have hcut : (cutFrame frame).length = ethHlen + (IpHdr.ofPacket (frame.drop ethHlen)).totalLength.toNat := by
    rw [cutFrame, length_take, Nat.min_eq_left hfit]
  have htype' : ∀ l, ntohs (cutFrame frame ++ l) 12 = ethertypeIpv4 := by
    intro l
    have hshort : 12 + 2 ≤ (cutFrame frame).length := by
      unfold ethHlen at hcut
      omega
    have hsplit : cutFrame frame ++ frame.drop _ = frame := take_append_drop _ frame
    calc ntohs (cutFrame frame ++ l) 12 = ntohs (cutFrame frame) 12 := ntohs_append hshort
      _ = ntohs (cutFrame frame ++ frame.drop _) 12 := (ntohs_append hshort).symm
      _ = ethertypeIpv4 := by rw [hsplit, htype]
  have hrecv : ∀ l, ethRecv s (cutFrame frame ++ l) = ipv4Recv s ((cutFrame frame).drop ethHlen ++ l) := by
    intro l
    rw [ethRecv, if_neg (by rw [length_append]; omega), if_pos (htype' l), drop_append_of_le_length (by omega)]
  have hnil := hrecv []
  rw [append_nil, append_nil] at hnil
  rw [hrecv pad, hnil]
  rw [length_append] at hlen
  exact ipv4Recv_append (by rw [length_drop]; omega)

/-- An acknowledgement of the peer without data, `k` bytes into the stream. -/
def ackFrame (k : ℕ) : List UInt8 :=
  List.replicate 12 0 ++ [0x08, 0x00] ++
    [0x45, 0, 0, 40, 0, 0, 0, 0, 64, ipProtoTcp, 0, 0] ++ memBytes openConn.dstIp ++ memBytes 0x0200000a ++
    peerSegment k tcpFlagAck []

/-- Six bytes bring the frame to the minimal length; out of order it is ignored with them. -/
theorem ethRecv_padded_outOfOrder :
    ethRecv openSession.stack (cutFrame (ackFrame 1) ++ List.replicate 6 0) =
      ethRecv openSession.stack (cutFrame (ackFrame 1)) :=
  (ethRecv_padded_iff openSession.stack (ackFrame 1) (List.replicate 6 0) (by decide +kernel)
    (by decide +kernel) (by decide +kernel)).mpr
      (.inr (.inl ⟨by decide +kernel, by decide +kernel⟩))

/-- In order, the padding of an empty acknowledgement is received as six bytes of data. -/
theorem ackFrame_padding_received :
    ntohs (ackFrame 0) 12 = ethertypeIpv4 ∧
      ethHlen + (IpHdr.ofPacket ((ackFrame 0).drop ethHlen)).totalLength.toNat ≤ (ackFrame 0).length ∧
      ((ethRecv openSession.stack (cutFrame (ackFrame 0))).conns 0).rcvNxt = 1 ∧
      ((ethRecv openSession.stack (cutFrame (ackFrame 0))).conns 0).rxbuf.contents = [] ∧
      ((ethRecv openSession.stack (cutFrame (ackFrame 0) ++ List.replicate 6 0)).conns 0).rcvNxt = 7 ∧
      ((ethRecv openSession.stack (cutFrame (ackFrame 0) ++ List.replicate 6 0)).conns 0).rxbuf.contents =
        List.replicate 6 0 := by decide +kernel

end AetherOS.Tcp
