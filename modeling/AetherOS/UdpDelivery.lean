import AetherOS.NetStack

/-!
# UDP from end to end

A datagram passes through three layers on its way out, each with its own header and its own
limit on the size, and through the same three layers of the peer. The peer's callbacks get
what was sent: the padding of a short frame is cut off by the length in the UDP header, since
nothing looks at the length in the IP header.
-/
namespace AetherOS.Net
open Tcp ByteMemory Buffers Buffers.Scan List Nat

/-! ## The frame that is sent -/

section

variable {n : Host} {mac : Mac} {payload : List UInt8} {dst : UInt32}

lemma readBytes_blit (buf : ℕ → UInt8) {l : List UInt8} {total : ℕ} (h : l.length ≤ total) :
    readBytes (blit buf l.length 0 fun i => l.getD i 0) 0 total = l ++ readBytes buf l.length (total - l.length) := by
  apply ext_getElem
  · simp only [length_readBytes, length_append]
    omega
  intro i hi hi'
  rw [length_readBytes] at hi
  simp only [readBytes, getElem_map, getElem_range]
  by_cases hil : i < l.length
  · rw [getElem_append_left hil, blit_inside _ _ hil]
    simp [hil]
  rw [getElem_append_right (Nat.le_of_not_lt hil), blit_outside _ _ (.inr (by omega))]
  simp only [getElem_map, getElem_range]
  congr 1
  omega

/-- What is sent behind a short frame: the former contents of the frame buffer. -/
def padding (n : Host) (length : ℕ) : List UInt8 := readBytes n.frame length (60 - length)

def ethHdr (dst src : Mac) (ethertype : UInt16) : List UInt8 := dst.bytes ++ src.bytes ++ htons ethertype

lemma length_padding (n : Host) (length : ℕ) : (padding n length).length ≤ 60 := by
  rw [padding, length_readBytes]
  exact sub_le _ _

lemma ethSend_wire (hnic : n.nic = some mac) (dst : Mac) (ethertype : UInt16)
    (hlen : payload.length ≤ ethMaxFrame) : (ethSend n dst ethertype payload).2.wire =
      n.wire ++ [ethHdr dst mac ethertype ++ payload ++ padding n (ethHlen + payload.length)] := by
  have hbytes : (dst.bytes ++ mac.bytes ++ htons ethertype ++ payload).length = ethHlen + payload.length := by
    rw [length_append]
    rfl
  rw [ethSend, hnic]
  simp only
  rw [if_neg (by omega)]
  simp only
  rw [readBytes_blit _ (by rw [hbytes]; split <;> omega), hbytes]
  congr 3
  rw [padding]
  congr 1
  split <;> omega

/-- The address of the next hop is known, or the packet is sent to all. -/
def Resolved (n : Host) (dst : UInt32) : Prop :=
  dst = 0xffffffff ∨ dst = 0 ∨ (findEntry n (nextHop n dst)).isSome = true

lemma ipv4Send_wire (hnic : n.nic = some mac) (hres : Resolved n dst) (proto : UInt8) (hlen : payload.length ≤ 1480) :
    ∃ dstMac total id csum pad, pad.length ≤ 60 ∧ (ipv4Send n dst proto payload).2.wire =
        n.wire ++ [ethHdr dstMac mac ethertypeIpv4 ++ (ipHdr total id proto csum n.ip dst ++ payload) ++ pad] := by
  let n' := { n with id := n.id + 1 }
  have hsize : ¬sizeofIpHdr + payload.length > 1500 := by
    rw [sizeofIpHdr]
    omega
  have hpacket : ∀ total id csum, (ipHdr total id proto csum n.ip dst ++ payload).length ≤ ethMaxFrame := by
    intro total id csum
    rw [length_append, show (ipHdr total id proto csum n.ip dst).length = 20 from rfl, ethMaxFrame]
    omega
  rw [ipv4Send, if_neg hsize]
  simp only
  by_cases hall : dst = 0xffffffff ∨ dst = 0
  · rw [if_pos hall]
    exact ⟨_, _, _, _, _, length_padding _ _, ethSend_wire (n := n') hnic _ _ (hpacket _ _ _)⟩
  rw [if_neg hall]
  have hfound : (findEntry n (nextHop n dst)).isSome = true := by
    rcases hres with h | h | h
    · exact absurd (.inl h) hall
    · exact absurd (.inr h) hall
    · exact h
  obtain ⟨i, hi⟩ := Option.isSome_iff_exists.mp hfound
  have hlookup : arpLookup n' (nextHop n' dst) = (some (n.arp i).mac, n') := by
    rw [arpLookup, show findEntry n' (nextHop n' dst) = some i from hi]
  rw [hlookup]
  exact ⟨_, _, _, _, _, length_padding _ _, ethSend_wire (n := n') hnic _ _ (hpacket _ _ _)⟩

lemma udpSend_wire (hnic : n.nic = some mac) (hres : Resolved n dst)
    (srcPort dstPort : UInt16) {data : List UInt8} (hlen : data.length ≤ 1464) :
    ∃ dstMac total id csum ucsum pad, pad.length ≤ 60 ∧
      (udpSend n dst srcPort dstPort data).2.wire = n.wire ++ [ethHdr dstMac mac ethertypeIpv4 ++
        (ipHdr total id ipProtoUdp csum n.ip dst ++
          (udpHdr srcPort dstPort (UInt16.ofNat (sizeofUdpHdr + data.length)) ucsum ++ data)) ++ pad] := by
  have hsize : ¬sizeofUdpHdr + data.length > 1472 := by
    rw [sizeofUdpHdr]
    omega
  rw [udpSend, if_neg hsize]
  simp only
  generalize ipPseudoChecksum _ _ _ _ = ucsum
  have hpayload : (udpHdr srcPort dstPort (UInt16.ofNat (sizeofUdpHdr + data.length)) ucsum ++ data).length ≤ 1480 := by
    rw [length_append, show (udpHdr srcPort dstPort (UInt16.ofNat (sizeofUdpHdr + data.length)) ucsum).length = 8
      from rfl]
    omega
  obtain ⟨dstMac, total, id, csum, pad, hpad, hwire⟩ := ipv4Send_wire hnic hres ipProtoUdp hpayload
  exact ⟨dstMac, total, id, csum, ucsum, pad, hpad, hwire⟩

end

/-! ## What the peer makes of it -/

/-- The calls of the callbacks that are bound to a port, in the order of the bindings. -/
def boundCalls (binds : Fin maxBinds → UdpBind) (dport : UInt16) (srcIp : UInt32) (srcPort : UInt16)
    (data : List UInt8) : List UdpCall :=
  ((List.finRange maxBinds).filter fun i => (binds i).used && (binds i).port == dport).map fun i =>
    ⟨(binds i).fn, (binds i).ctx, srcIp, srcPort, data⟩

lemma udpDispatch_calls {mem : ℕ → UInt8} (n : Host) (srcIp : UInt32) (srcPort dport : UInt16) (data dlen : ℕ)
    (l : List (Fin maxBinds)) : ((udpDispatch srcIp srcPort dport data dlen l).after mem n).calls =
      n.calls ++ (l.filter fun i => (n.binds i).used && (n.binds i).port == dport).map fun i =>
        ⟨(n.binds i).fn, (n.binds i).ctx, srcIp, srcPort, readBytes mem data dlen⟩ := by
  induction l generalizing n with
  | nil => simp [udpDispatch]
  | cons i rest ih =>
    rw [udpDispatch, after_get_bind]
    by_cases hi : (n.binds i).used = true ∧ (n.binds i).port = dport
    · rw [if_pos hi, after_slice_bind, after_modify_bind, ih, filter_cons_of_pos (by simp [hi]), map_cons]
      simp
    · rw [if_neg hi, ih, filter_cons_of_neg (by simpa using hi)]

lemma memWord_memBytes (v : UInt32) : UInt32.ofNat (beNat (memBytes v).reverse) = v := by
  apply UInt32.toNat.inj
  have hv := v.toNat_lt
  simp only [beNat, memBytes, reverse_cons, reverse_nil, nil_append, cons_append,
    foldl_cons, foldl_nil, UInt8.toNat_ofNat', UInt32.toNat_ofNat']
  omega

lemma ofPacket_ipHdr (total id : UInt16) (proto : UInt8) (csum : UInt16) (src dst : UInt32) :
    (IpHdr.ofPacket (ipHdr total id proto csum src dst)).protocol = proto ∧
      (IpHdr.ofPacket (ipHdr total id proto csum src dst)).src = src ∧
      headerLength (ipHdr total id proto csum src dst) = 20 := by
  refine ⟨rfl, memWord_memBytes src, ?_⟩
  have hver : (IpHdr.ofPacket (ipHdr total id proto csum src dst)).verIhl = 0x45 := rfl
  rw [headerLength, hver]
  decide

lemma ntohs_udpHdr (srcPort dstPort length csum : UInt16) :
    ntohs (udpHdr srcPort dstPort length csum) 0 = srcPort ∧ ntohs (udpHdr srcPort dstPort length csum) 2 = dstPort ∧
      ntohs (udpHdr srcPort dstPort length csum) 4 = length :=
  ⟨ofNat_beNat_htons srcPort, ofNat_beNat_htons dstPort, ofNat_beNat_htons length⟩

lemma ntohs_ethHdr (dst src : Mac) (ethertype : UInt16) : ntohs (ethHdr dst src ethertype) 12 = ethertype :=
  ofNat_beNat_htons ethertype

section

variable {mem : ℕ → UInt8} {n : Host} {p len : ℕ} {srcIp dst : UInt32}
  {srcPort dstPort total id csum ucsum : UInt16} {data : List UInt8}

lemma udpRecv_calls (hlen : sizeofUdpHdr + data.length ≤ len) (hsize : data.length ≤ 1464)
    (hhdr : readBytes mem p sizeofUdpHdr = udpHdr srcPort dstPort (UInt16.ofNat (sizeofUdpHdr + data.length)) ucsum)
    (hdata : readBytes mem (p + sizeofUdpHdr) data.length = data) :
    ((udpRecv srcIp p len).after mem n).calls = n.calls ++ boundCalls n.binds dstPort srcIp srcPort data := by
  obtain ⟨hsport, hdport, hlength⟩ :=
    ntohs_udpHdr srcPort dstPort (UInt16.ofNat (sizeofUdpHdr + data.length)) ucsum
  have hdlen : ((UInt16.ofNat (sizeofUdpHdr + data.length)).toNat + 65536 - sizeofUdpHdr) % 65536 = data.length := by
    rw [UInt16.toNat_ofNat', sizeofUdpHdr]
    omega
  rw [udpRecv, if_neg (by omega), after_slice_bind, hhdr, hsport, hdport, hlength]
  simp only [hdlen]
  rw [if_neg (by omega), udpDispatch_calls, hdata, boundCalls]

lemma ipv4Recv_calls {srcMac : Mac} (hlen : 20 + sizeofUdpHdr + data.length ≤ len) (hlt : len < 65536)
    (hsize : data.length ≤ 1464) (hip : readBytes mem p sizeofIpHdr = ipHdr total id ipProtoUdp csum srcIp dst)
    (hudp : readBytes mem (p + 20) sizeofUdpHdr =
      udpHdr srcPort dstPort (UInt16.ofNat (sizeofUdpHdr + data.length)) ucsum)
    (hdata : readBytes mem (p + 20 + sizeofUdpHdr) data.length = data) :
    ((ipv4Recv srcMac p len).after mem n).calls = n.calls ++ boundCalls n.binds dstPort srcIp srcPort data := by
  obtain ⟨hproto, hsrc, hihl⟩ := ofPacket_ipHdr total id ipProtoUdp csum srcIp dst
  have hshort : ¬len < sizeofIpHdr := by
    rw [sizeofIpHdr]
    omega
  have hgood : ¬(20 < sizeofIpHdr ∨ 20 > len) := by
    rw [sizeofIpHdr]
    omega
  rw [ipv4Recv, if_neg hshort, after_slice_bind, hip]
  simp only [hproto, hsrc, hihl]
  rw [if_neg hgood, after_modify_bind, after_slice_bind, if_neg (by decide), if_pos trivial, mod_eq_of_lt (by omega)]
  exact udpRecv_calls (by omega) hsize hudp hdata

end

/-- The frame of a datagram, received by any host: exactly the callbacks that are bound to its
port are called, each once, with the data, the address of the sender and its port. -/
lemma ethRecv_calls {mem : ℕ → UInt8} (n : Host) (dstMac mac : Mac) (total id csum ucsum srcPort dstPort : UInt16)
    (srcIp dst : UInt32) {data pad frame : List UInt8} (hsize : data.length ≤ 1464) (hlen : frame.length < 65536)
    (hframe : frame = ethHdr dstMac mac ethertypeIpv4 ++ (ipHdr total id ipProtoUdp csum srcIp dst ++
      (udpHdr srcPort dstPort (UInt16.ofNat (sizeofUdpHdr + data.length)) ucsum ++ data)) ++ pad)
    (hmem : Holds mem frame) : ((ethRecv 0 frame.length).after mem n).calls =
      n.calls ++ boundCalls n.binds dstPort srcIp srcPort data := by
  generalize hU : udpHdr srcPort dstPort (UInt16.ofNat (sizeofUdpHdr + data.length)) ucsum = U at hframe
  generalize hI : ipHdr total id ipProtoUdp csum srcIp dst = I at hframe
  generalize hE : ethHdr dstMac mac ethertypeIpv4 = E at hframe
  have hElen : E.length = 14 := by
    rw [← hE]
    rfl
  have hIlen : I.length = 20 := by
    rw [← hI]
    rfl
  have hUlen : U.length = 8 := by
    rw [← hU]
    rfl
  have heth : readBytes mem 0 ethHlen = E := by
    have h := readBytes_middle hmem [] E (I ++ (U ++ (data ++ pad))) (by simp [hframe])
    rwa [length_nil, hElen] at h
  have hip : readBytes mem 14 sizeofIpHdr = I := by
    have h := readBytes_middle hmem E I (U ++ (data ++ pad)) (by simp [hframe])
    rwa [hElen, hIlen] at h
  have hudp : readBytes mem 34 sizeofUdpHdr = U := by
    have h := readBytes_middle hmem (E ++ I) U (data ++ pad) (by simp [hframe])
    rwa [length_append, hElen, hIlen, hUlen] at h
  have hdata : readBytes mem 42 data.length = data := by
    have h := readBytes_middle hmem (E ++ I ++ U) data pad (by simp [hframe])
    rwa [length_append, length_append, hElen, hIlen, hUlen] at h
  have hlength : 14 + 20 + 8 + data.length ≤ frame.length := by
    rw [hframe]
    simp only [length_append, hElen, hIlen, hUlen]
    omega
  have htype : ntohs E 12 = ethertypeIpv4 := by
    rw [← hE]
    exact ntohs_ethHdr ..
  have hshort : ¬frame.length < ethHlen := by
    rw [ethHlen]
    omega
  have hmod : (frame.length - ethHlen) % 65536 = frame.length - 14 := mod_eq_of_lt (by omega)
  rw [ethRecv, if_neg hshort, after_slice_bind, heth, htype]
  simp only [hmod]
  rw [after_slice_bind, if_neg (by decide), if_pos trivial]
  have hudp8 : sizeofUdpHdr = 8 := rfl
  exact ipv4Recv_calls (by omega) (by omega) hsize (hip.trans hI.symm) (hudp.trans hU.symm) hdata

/-- UDP from end to end: the frame that a host builds for a datagram, with the padding of a
short one, makes a peer call exactly the callbacks that are bound to the destination port. -/
theorem udp_end_to_end (sender peer : Host) {mac : Mac} (hnic : sender.nic = some mac) {dst : UInt32}
    (hres : Resolved sender dst) (srcPort dstPort : UInt16) {data : List UInt8} (hlen : data.length ≤ 1464) :
    ∃ frame, (udpSend sender dst srcPort dstPort data).2.wire = sender.wire ++ [frame] ∧
      ∀ mem, Holds mem frame → ((ethRecv 0 frame.length).after mem peer).calls =
        peer.calls ++ boundCalls peer.binds dstPort sender.ip srcPort data := by
  obtain ⟨dstMac, total, id, csum, ucsum, pad, hpad, hwire⟩ := udpSend_wire hnic hres srcPort dstPort hlen
  refine ⟨_, hwire, fun mem hmem => ?_⟩
  refine ethRecv_calls peer dstMac mac total id csum ucsum srcPort dstPort sender.ip dst hlen ?_ rfl hmem
  have hE : (ethHdr dstMac mac ethertypeIpv4).length = 14 := rfl
  have hI : (ipHdr total id ipProtoUdp csum sender.ip dst).length = 20 := rfl
  have hU : (udpHdr srcPort dstPort (UInt16.ofNat (sizeofUdpHdr + data.length)) ucsum).length = 8 := rfl
  simp only [length_append, hE, hI, hU]
  omega

/-- A host with a card and no neighbours, where a callback is bound to port 53. -/
def boundHost : Host where
  nic := some fun _ => 2
  nicSend _ := true
  wire := []
  frame _ := 0
  arp _ := ⟨0, fun _ => 0, false⟩
  ip := 0x0100000a
  netmask := 0x00ffffff
  gateway := 0
  id := 0
  binds i := ⟨53, 0x1000, 0, i = 3⟩
  calls := []
  tcp := Tcp.openSession.stack

/-- Three bytes sent to all hosts reach the callback; the frame is padded. -/
theorem udp_end_to_end_broadcast : ∃ frame,
    (udpSend boundHost 0xffffffff 1000 53 [1, 2, 3]).2.wire = boundHost.wire ++ [frame] ∧
      ∀ mem, Holds mem frame → ((ethRecv 0 frame.length).after mem boundHost).calls =
        [⟨0x1000, 0, 0x0100000a, 1000, [1, 2, 3]⟩] := by
  have hres : Resolved boundHost 0xffffffff := Or.inl rfl
  have hlen : ([1, 2, 3] : List UInt8).length ≤ 1464 := by decide
  obtain ⟨frame, hwire, hcalls⟩ := udp_end_to_end boundHost boundHost rfl hres 1000 53 hlen
  refine ⟨frame, hwire, fun mem hmem => ?_⟩
  rw [hcalls mem hmem]
  decide

/-! ## Frames and earlier traffic -/

/-- A call of `eth_send`. -/
structure EthCall where
  dst : Mac
  ethertype : UInt16
  payload : List UInt8

namespace EthCall

def send (n : Host) (c : EthCall) : Host := (ethSend n c.dst c.ethertype c.payload).2

/-- The frames that the card gets from the call. -/
def frames (n : Host) (c : EthCall) : List (List UInt8) := (c.send n).wire.drop n.wire.length

variable {n m : Host} (c : EthCall)

lemma frames_congr (hnic : n.nic = m.nic)
    (hpad : padding n (ethHlen + c.payload.length) = padding m (ethHlen + c.payload.length)) :
    c.frames n = c.frames m := by
  unfold frames send
  cases hmac : n.nic with
  | none =>
    rw [ethSend, ethSend, ← hnic, hmac]
    simp [drop_length]
  | some mac =>
    by_cases hlen : c.payload.length ≤ ethMaxFrame
    · rw [ethSend_wire hmac _ _ hlen, ethSend_wire (hnic ▸ hmac) _ _ hlen, drop_left, drop_left, hpad]
    rw [ethSend, ethSend, ← hnic, hmac]
    simp only
    rw [if_pos (by omega), if_pos (by omega), drop_length, drop_length]

lemma send_frame {i : ℕ} (hi : ethHlen + c.payload.length ≤ i) :
    (c.send n).nic = n.nic ∧ (c.send n).frame i = n.frame i := by
  unfold send ethSend
  split
  · exact ⟨rfl, rfl⟩
  split
  · exact ⟨rfl, rfl⟩
  refine ⟨rfl, ?_⟩
  simp only
  rw [blit_outside _ _ (.inr ?_)]
  rw [length_append, Nat.zero_add]
  exact hi

lemma run_frame {i k : ℕ} (hi : ethHlen + k ≤ i) {hist : List EthCall} (h : ∀ d ∈ hist, d.payload.length ≤ k) :
    (hist.foldl send n).frame i = n.frame i := by
  induction hist generalizing n with
  | nil => rfl
  | cons d rest ih =>
    have hd := h d mem_cons_self
    rw [foldl_cons, ih fun e he => h e (mem_cons_of_mem _ he)]
    exact (d.send_frame (by omega)).2

lemma run_nic (n : Host) (hist : List EthCall) : (hist.foldl send n).nic = n.nic := by
  induction hist generalizing n with
  | nil => rfl
  | cons d rest ih => exact (ih _).trans (d.send_frame le_rfl).1

/-- What is sent does not depend on the calls before it if the frame needs no padding, or if no
frame before it was longer. -/
theorem frames_independent (n : Host) (hist hist' : List EthCall) (c : EthCall)
    (h : 60 ≤ ethHlen + c.payload.length ∨ ∀ d ∈ hist ++ hist', d.payload.length ≤ c.payload.length) :
    c.frames (hist.foldl send n) = c.frames (hist'.foldl send n) := by
  refine c.frames_congr ((run_nic n hist).trans (run_nic n hist').symm) ?_
  unfold padding
  rcases h with hlong | hshort
  · rw [Nat.sub_eq_zero_of_le hlong]
    rfl
  apply map_congr_left
  intro i _
  have hi : ethHlen + c.payload.length ≤ ethHlen + c.payload.length + i := by omega
  rw [run_frame hi fun d hd => hshort d (mem_append_left _ hd),
    run_frame hi fun d hd => hshort d (mem_append_right _ hd)]

/-- An empty history, and one with an equally short frame. -/
theorem frames_independent_short :
    (⟨ethBroadcast, ethertypeArp, [1, 2]⟩ : EthCall).frames boundHost =
      (⟨ethBroadcast, ethertypeArp, [1, 2]⟩ : EthCall).frames (send boundHost ⟨ethBroadcast, ethertypeIpv4, [3, 4]⟩) :=
  frames_independent boundHost [] [⟨ethBroadcast, ethertypeIpv4, [3, 4]⟩] _ (.inr (by simp))

/-- A payload of 45 bytes is sent with the last byte of the frame before it. -/
theorem frames_reveal_traffic :
    (⟨ethBroadcast, ethertypeArp, replicate 45 1⟩ : EthCall).frames boundHost =
        [ethHdr ethBroadcast (fun _ => 2) ethertypeArp ++ replicate 45 1 ++ [0]] ∧
      (⟨ethBroadcast, ethertypeArp, replicate 45 1⟩ : EthCall).frames
          (send boundHost ⟨ethBroadcast, ethertypeIpv4, replicate 46 0x55⟩) =
        [ethHdr ethBroadcast (fun _ => 2) ethertypeArp ++ replicate 45 1 ++ [0x55]] := by decide

end EthCall

end AetherOS.Net
