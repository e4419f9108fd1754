import AetherOS.ByteMemory
import AetherOS.Scan
import AetherOS.TcpFrames

/-!
# The network stack below TCP

Ethernet, ARP, IP, ICMP and UDP: what the stack sends, and how it takes received frames apart.
The receive functions read the frame through pointers with lengths taken from the headers of
the layers below; they are computations over the frame here, which record what they read and
what they hand on. Frames given to the network card are recorded in the order in which they
are sent, and so are the calls of UDP callbacks. A TCP segment is handed to `ipv4_send` as in
the model of TCP, where the answer is arbitrary.
-/
namespace AetherOS.Net
open Tcp ByteMemory Buffers Buffers.Scan Nat

abbrev arpTableSize : ℕ := 32

local instance : NeZero arpTableSize := ⟨by decide⟩
abbrev maxBinds : ℕ := 16

def ethMaxFrame : ℕ := 1514
def ethertypeArp : UInt16 := 0x0806
def arpHwEthernet : UInt16 := 0x0001
def arpProtoIp : UInt16 := 0x0800
def arpOpRequest : UInt16 := 1
def arpOpReply : UInt16 := 2
def ipProtoIcmp : UInt8 := 1
def ipProtoUdp : UInt8 := 17
def icmpEchoRequest : UInt8 := 8
def icmpEchoReply : UInt8 := 0

def sizeofArpPkt : ℕ := 28
def sizeofIcmpHdr : ℕ := 8
def sizeofUdpHdr : ℕ := 8

abbrev Mac := Fin 6 → UInt8

def Mac.bytes (m : Mac) : List UInt8 := List.ofFn m

def ethBroadcast : Mac := fun _ => 0xff

/-- The address in a packet at an offset. -/
def macAt (pkt : List UInt8) (i : ℕ) : Mac := fun k => pkt.getD (i + k) 0

structure ArpEntry where
  ip : UInt32
  mac : Mac
  valid : Bool

/-- A binding; the callback and its context are addresses. -/
structure UdpBind where
  port : UInt16
  fn : ℕ
  ctx : ℕ
  used : Bool
  deriving DecidableEq, Repr

/-- A call of a callback. -/
structure UdpCall where
  fn : ℕ
  ctx : ℕ
  srcIp : UInt32
  srcPort : UInt16
  data : List UInt8
  deriving DecidableEq, Repr

/-- The card with its address, if there is one, its answer to the `n`-th frame and the frames
so far; the frame buffer, the neighbours, the configuration and the last identification; the
bindings with the calls so far; and the connections. -/
structure Host where
  nic : Option Mac
  nicSend : ℕ → Bool
  wire : List (List UInt8)
  frame : ℕ → UInt8
  arp : Fin arpTableSize → ArpEntry
  ip : UInt32
  netmask : UInt32
  gateway : UInt32
  id : UInt16
  binds : Fin maxBinds → UdpBind
  calls : List UdpCall
  tcp : Stack

/-! ## Sending -/

def findEntry (n : Host) (ip : UInt32) : Option (Fin arpTableSize) :=
  (List.finRange arpTableSize).find? fun i => (n.arp i).valid && (n.arp i).ip == ip

/-- The entry of the address, else a free one, else the first. -/
def arpSlot (n : Host) (ip : UInt32) : Fin arpTableSize :=
  match findEntry n ip with
  | some i => i
  | none => ((List.finRange arpTableSize).find? fun i => !(n.arp i).valid).getD 0

def arpInsert (n : Host) (ip : UInt32) (mac : Mac) : Host :=
  { n with arp := Function.update n.arp (arpSlot n ip) ⟨ip, mac, true⟩ }

/-- The frame is built in the frame buffer; a short one is sent with what the buffer holds
behind it. -/
def ethSend (n : Host) (dst : Mac) (ethertype : UInt16) (payload : List UInt8) : Bool × Host :=
  match n.nic with
  | none => (false, n)
  | some mac =>
    if payload.length + ethHlen > ethMaxFrame + ethHlen then (false, n)
    else
      let bytes := dst.bytes ++ mac.bytes ++ htons ethertype ++ payload
      let frame := blit n.frame bytes.length 0 fun i => bytes.getD i 0
      let total := if ethHlen + payload.length < 60 then 60 else ethHlen + payload.length
      (n.nicSend n.wire.length, { n with frame := frame, wire := n.wire ++ [readBytes frame 0 total] })

def arpPkt (op : UInt16) (senderMac : Mac) (senderIp : UInt32) (targetMac : Mac) (targetIp : UInt32) :
    List UInt8 :=
  htons arpHwEthernet ++ htons arpProtoIp ++ [6, 4] ++ htons op ++ senderMac.bytes ++ memBytes senderIp ++
    targetMac.bytes ++ memBytes targetIp

/-- The address of a neighbour; a request is sent if it is not known. -/
def arpLookup (n : Host) (ip : UInt32) : Option Mac × Host :=
  match findEntry n ip with
  | some i => (some (n.arp i).mac, n)
  | none =>
    match n.nic with
    | none => (none, n)
    | some mac =>
      (none, (ethSend n ethBroadcast ethertypeArp (arpPkt arpOpRequest mac n.ip (fun _ => 0) ip)).2)

def ipChecksum (data : List UInt8) : UInt16 := UInt16.ofNat (65535 - foldCarries (wordSum data))

def ipHdr (totalLength id : UInt16) (proto : UInt8) (checksum : UInt16) (src dst : UInt32) : List UInt8 :=
  [0x45, 0] ++ htons totalLength ++ htons id ++ htons 0 ++ [64, proto] ++ htons checksum ++ memBytes src ++
    memBytes dst

/-- The neighbour that a packet is sent to. -/
def nextHop (n : Host) (dst : UInt32) : UInt32 :=
  if n.gateway ≠ 0 ∧ dst &&& n.netmask ≠ n.ip &&& n.netmask then n.gateway else dst

def ipv4Send (n : Host) (dst : UInt32) (proto : UInt8) (payload : List UInt8) : Bool × Host :=
  if sizeofIpHdr + payload.length > 1500 then (false, n)
  else
    let n := { n with id := n.id + 1 }
    let total := UInt16.ofNat (20 + payload.length)
    let csum := ipChecksum (ipHdr total n.id proto 0 n.ip dst)
    let packet := ipHdr total n.id proto csum n.ip dst ++ payload
    if dst = 0xffffffff ∨ dst = 0 then ethSend n ethBroadcast ethertypeIpv4 packet
    else
      match arpLookup n (nextHop n dst) with
      | (none, n) => (false, n)
      | (some mac, n) => ethSend n mac ethertypeIpv4 packet

def udpHdr (srcPort dstPort length checksum : UInt16) : List UInt8 :=
  htons srcPort ++ htons dstPort ++ htons length ++ htons checksum

def udpSend (n : Host) (dst : UInt32) (srcPort dstPort : UInt16) (data : List UInt8) : Bool × Host :=
  if sizeofUdpHdr + data.length > 1472 then (false, n)
  else
    let length := UInt16.ofNat (sizeofUdpHdr + data.length)
    let csum := ipPseudoChecksum n.ip dst ipProtoUdp (udpHdr srcPort dstPort length 0 ++ data)
    ipv4Send n dst ipProtoUdp (udpHdr srcPort dstPort length csum ++ data)

/-! ## Receiving -/

/-- Answer a request for our address. -/
def arpAnswer (a : List UInt8) : Scan Host Unit := do
  let n ← get
  if n.ip = 0 ∨ memWord a 24 ≠ n.ip then pure ()
  else
    match n.nic with
    | none => pure ()
    | some mac =>
      modify fun n => (ethSend n (macAt a 8) ethertypeArp (arpPkt arpOpReply mac n.ip (macAt a 8) (memWord a 14))).2

def arpRecv (p len : ℕ) : Scan Host Unit :=
  if len < sizeofArpPkt then pure ()
  else do
    let a ← slice p sizeofArpPkt
    if ntohs a 0 ≠ arpHwEthernet then pure ()
    else if ntohs a 2 ≠ arpProtoIp then pure ()
    else do
      modify fun n => arpInsert n (memWord a 14) (macAt a 8)
      if ntohs a 6 = arpOpRequest then arpAnswer a else pure ()

/-- The reply to an echo request. -/
def icmpReply (pkt : List UInt8) : List UInt8 :=
  let reply := [icmpEchoReply, pkt.getD 1 0, 0, 0] ++ pkt.drop 4
  [icmpEchoReply, pkt.getD 1 0] ++ htons (ipChecksum reply) ++ pkt.drop 4

def icmpRecv (srcIp : UInt32) (p len : ℕ) : Scan Host Unit :=
  if len < sizeofIcmpHdr then pure ()
  else do
    let hdr ← slice p sizeofIcmpHdr
    if hdr.getD 0 0 = icmpEchoRequest ∧ hdr.getD 1 0 = 0 then
      if len > 1024 then pure ()
      else do
        let pkt ← slice p len
        modify fun n => (ipv4Send n srcIp ipProtoIcmp (icmpReply pkt)).2
    else pure ()

/-- The loop of `udp_recv` over the bindings. -/
def udpDispatch (srcIp : UInt32) (srcPort dport : UInt16) (data dlen : ℕ) : List (Fin maxBinds) → Scan Host Unit
  | [] => pure ()
  | i :: rest => do
    let n ← get
    if (n.binds i).used ∧ (n.binds i).port = dport then do
      let bytes ← slice data dlen
      modify fun n => { n with calls := n.calls ++ [⟨(n.binds i).fn, (n.binds i).ctx, srcIp, srcPort, bytes⟩] }
      udpDispatch srcIp srcPort dport data dlen rest
    else udpDispatch srcIp srcPort dport data dlen rest

def udpRecv (srcIp : UInt32) (p len : ℕ) : Scan Host Unit :=
  if len < sizeofUdpHdr then pure ()
  else do
    let hdr ← slice p sizeofUdpHdr
    let dlen := ((ntohs hdr 4).toNat + 65536 - sizeofUdpHdr) % 65536
    if dlen > len - sizeofUdpHdr then pure ()
    else udpDispatch srcIp (ntohs hdr 0) (ntohs hdr 2) (p + sizeofUdpHdr) dlen (List.finRange maxBinds)

/-- `tcp_input`; the data is what `rxbuf_push` is given, if it is called. -/
def tcpInput (srcIp : UInt32) (p len : ℕ) : Scan Host Unit :=
  if len < sizeofTcpHdr then pure ()
  else do
    let pkt ← slice p sizeofTcpHdr
    let hdr := TcpHdr.ofPacket pkt
    let doff := dataOffset pkt
    if doff < sizeofTcpHdr ∨ doff > len then pure ()
    else do
      let n ← get
      match findConn n.tcp srcIp hdr.srcPort hdr.dstPort with
      | none => pure ()
      | some i => do
        let data ← slice (p + doff) ((len - doff) % 65536)
        modify fun n => { n with tcp := connInput n.tcp i hdr data }

def ipv4Recv (srcMac : Mac) (p len : ℕ) : Scan Host Unit :=
  if len < sizeofIpHdr then pure ()
  else do
    let pkt ← slice p sizeofIpHdr
    let ip := IpHdr.ofPacket pkt
    let ihl := headerLength pkt
    if ihl < sizeofIpHdr ∨ ihl > len then pure ()
    else do
      modify fun n => arpInsert n ip.src srcMac
      let plen := (len - ihl) % 65536
      let _ ← slice (p + ihl) plen
      if ip.protocol = ipProtoIcmp then icmpRecv ip.src (p + ihl) plen
      else if ip.protocol = ipProtoUdp then udpRecv ip.src (p + ihl) plen
      else if ip.protocol = ipProtoTcp then tcpInput ip.src (p + ihl) plen
      else pure ()

def ethRecv (p len : ℕ) : Scan Host Unit :=
  if len < ethHlen then pure ()
  else do
    let hdr ← slice p ethHlen
    let plen := (len - ethHlen) % 65536
    let _ ← slice (p + ethHlen) plen
    if ntohs hdr 12 = ethertypeArp then arpRecv (p + ethHlen) plen
    else if ntohs hdr 12 = ethertypeIpv4 then ipv4Recv (macAt hdr 6) (p + ethHlen) plen
    else pure ()

/-! ## Everything read lies within the frame -/

section

variable {k p len : ℕ} {srcIp : UInt32}

lemma arpAnswer_inside (a : List UInt8) : Inside k (arpAnswer a) := by
  refine .bind .get fun n => ?_
  refine .guard fun _ => ?_
  cases n.nic with
  | none => exact .pure ()
  | some mac => exact .modify _

lemma udpDispatch_inside {srcPort dport : UInt16} {data dlen : ℕ} (h : data + dlen ≤ k)
    (l : List (Fin maxBinds)) : Inside k (udpDispatch srcIp srcPort dport data dlen l) := by
  induction l with
  | nil => exact .pure ()
  | cons i rest ih =>
    refine .bind .get fun n => ?_
    refine .ite (fun _ => ?_) fun _ => ih
    refine .bind (.slice h) fun bytes => ?_
    exact .bind (.modify _) fun _ => ih

section

variable (h : p + len ≤ k)
include h

lemma arpRecv_inside : Inside k (arpRecv p len) := by
  refine .guard fun hlen => ?_
  refine .bind (.slice (by omega)) fun a => ?_
  refine .guard fun _ => ?_
  refine .guard fun _ => ?_
  refine .bind (.modify _) fun _ => ?_
  exact .ite (fun _ => arpAnswer_inside a) fun _ => .pure ()

lemma icmpRecv_inside : Inside k (icmpRecv srcIp p len) := by
  refine .guard fun hlen => ?_
  refine .bind (.slice (by omega)) fun hdr => ?_
  refine .ite (fun _ => ?_) fun _ => .pure ()
  refine .guard fun _ => ?_
  exact .bind (.slice h) fun pkt => .modify _

/-- The length in the header may be anything; what exceeds the packet is refused, also after
the subtraction has wrapped around. -/
lemma udpRecv_inside : Inside k (udpRecv srcIp p len) := by
  refine .guard fun hlen => ?_
  refine .bind (.slice (by omega)) fun hdr => ?_
  refine .guard fun hdlen => ?_
  exact udpDispatch_inside (by omega) _

lemma tcpInput_inside : Inside k (tcpInput srcIp p len) := by
  refine .guard fun hlen => ?_
  refine .bind (.slice (by omega)) fun pkt => ?_
  refine .guard fun hdoff => ?_
  refine .bind .get fun n => ?_
  cases findConn n.tcp srcIp (TcpHdr.ofPacket pkt).srcPort (TcpHdr.ofPacket pkt).dstPort with
  | none => exact .pure ()
  | some i =>
    have hle := mod_le (len - dataOffset pkt) 65536
    exact .bind (.slice (by omega)) fun data => .modify _

lemma ipv4Recv_inside {srcMac : Mac} : Inside k (ipv4Recv srcMac p len) := by
  refine .guard fun hlen => ?_
  refine .bind (.slice (by omega)) fun pkt => ?_
  refine .guard fun hihl => ?_
  have hle := mod_le (len - headerLength pkt) 65536
  have hin : p + headerLength pkt + (len - headerLength pkt) % 65536 ≤ k := by omega
  refine .bind (.modify _) fun _ => ?_
  refine .bind (.slice hin) fun _ => ?_
  refine .ite (fun _ => icmpRecv_inside hin) fun _ => ?_
  refine .ite (fun _ => udpRecv_inside hin) fun _ => ?_
  exact .ite (fun _ => tcpInput_inside hin) fun _ => .pure ()

end

end

/-- Whatever a frame of any length contains, and whatever lies behind it in memory: all bytes
that the stack reads, and all parts that it hands on, are within the frame. -/
theorem ethRecv_inside (len : ℕ) : Inside len (ethRecv 0 len) := by
  refine .ite (fun _ => .pure ()) fun hlen => ?_
  refine .bind (.slice (by omega)) fun hdr => ?_
  have hle := mod_le (len - ethHlen) 65536
  have hin : 0 + ethHlen + (len - ethHlen) % 65536 ≤ len := by omega
  refine .bind (.slice hin) fun _ => ?_
  refine .ite (fun _ => arpRecv_inside hin) fun _ => ?_
  exact .ite (fun _ => ipv4Recv_inside hin) fun _ => .pure ()

end AetherOS.Net
