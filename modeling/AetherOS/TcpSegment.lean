import Mathlib.Tactic

/-!
# TCP segments on the wire

The header of a segment with its fields in network byte order, as the stack writes
and reads it, and the checksum over the pseudo header. Addresses stay in network
order throughout the stack: the bytes of such a word are those in memory.
-/
namespace AetherOS.Tcp

def tcpFlagFin : UInt8 := 0x01
def tcpFlagSyn : UInt8 := 0x02
def tcpFlagRst : UInt8 := 0x04
def tcpFlagAck : UInt8 := 0x10

/-- The length of a header without options. -/
def sizeofTcpHdr : ℕ := 20

structure TcpHdr where
  srcPort : UInt16
  dstPort : UInt16
  seq : UInt32
  ack : UInt32
  dataOff : UInt8
  flags : UInt8
  window : UInt16
  checksum : UInt16
  urgent : UInt16
  deriving DecidableEq, Repr

/-- The number whose digits are the given bytes, the most significant one first. -/
def beNat (bytes : List UInt8) : ℕ := bytes.foldl (fun n b => n * 256 + b.toNat) 0

def ntohs (pkt : List UInt8) (i : ℕ) : UInt16 := UInt16.ofNat (beNat ((pkt.drop i).take 2))
def ntohl (pkt : List UInt8) (i : ℕ) : UInt32 := UInt32.ofNat (beNat ((pkt.drop i).take 4))

/-- The two bytes of a word in network order. -/
def htons (v : UInt16) : List UInt8 := [UInt8.ofNat (v.toNat / 256), UInt8.ofNat v.toNat]

def htonl (v : UInt32) : List UInt8 :=
  [UInt8.ofNat (v.toNat / 16777216), UInt8.ofNat (v.toNat / 65536), UInt8.ofNat (v.toNat / 256), UInt8.ofNat v.toNat]

namespace TcpHdr

def bytes (h : TcpHdr) : List UInt8 :=
  htons h.srcPort ++ htons h.dstPort ++ htonl h.seq ++ htonl h.ack ++ [h.dataOff, h.flags] ++
    htons h.window ++ htons h.checksum ++ htons h.urgent

/-- The header at the start of a packet. -/
def ofPacket (pkt : List UInt8) : TcpHdr where
  srcPort := ntohs pkt 0
  dstPort := ntohs pkt 2
  seq := ntohl pkt 4
  ack := ntohl pkt 8
  dataOff := pkt.getD 12 0
  flags := pkt.getD 13 0
  window := ntohs pkt 14
  checksum := ntohs pkt 16
  urgent := ntohs pkt 18

end TcpHdr

@[simp] lemma ofNat_beNat_htons (v : UInt16) : UInt16.ofNat (beNat (htons v)) = v := by
  apply UInt16.toNat.inj
  have hv := v.toNat_lt
  simp only [beNat, htons, List.foldl_cons, List.foldl_nil, UInt8.toNat_ofNat', UInt16.toNat_ofNat']
  omega

@[simp] lemma ofNat_beNat_htonl (v : UInt32) : UInt32.ofNat (beNat (htonl v)) = v := by
  apply UInt32.toNat.inj
  have hv := v.toNat_lt
  simp only [beNat, htonl, List.foldl_cons, List.foldl_nil, UInt8.toNat_ofNat', UInt32.toNat_ofNat']
  omega

@[simp] lemma TcpHdr.length_bytes (h : TcpHdr) : h.bytes.length = sizeofTcpHdr := rfl

/-- Reading a header back. -/
@[simp] theorem TcpHdr.ofPacket_bytes (h : TcpHdr) (data : List UInt8) : ofPacket (h.bytes ++ data) = h := by
  have h0 : ((h.bytes ++ data).drop 0).take 2 = htons h.srcPort := rfl
  have h2 : ((h.bytes ++ data).drop 2).take 2 = htons h.dstPort := rfl
  have h4 : ((h.bytes ++ data).drop 4).take 4 = htonl h.seq := rfl
  have h8 : ((h.bytes ++ data).drop 8).take 4 = htonl h.ack := rfl
  have h12 : (h.bytes ++ data).getD 12 0 = h.dataOff := rfl
  have h13 : (h.bytes ++ data).getD 13 0 = h.flags := rfl
  have h14 : ((h.bytes ++ data).drop 14).take 2 = htons h.window := rfl
  have h16 : ((h.bytes ++ data).drop 16).take 2 = htons h.checksum := rfl
  have h18 : ((h.bytes ++ data).drop 18).take 2 = htons h.urgent := rfl
  simp only [ofPacket, ntohs, ntohl, h0, h2, h4, h8, h12, h13, h14, h16, h18, ofNat_beNat_htons, ofNat_beNat_htonl]

/-- The sum of the big-endian 16-bit words; an odd last byte is a high byte. -/
def wordSum : List UInt8 → ℕ
  | [] => 0
  | [a] => a.toNat * 256
  | a :: b :: rest => a.toNat * 256 + b.toNat + wordSum rest

/-- Add the carries back until the sum fits in 16 bits. -/
def foldCarries (sum : ℕ) : ℕ :=
  if sum / 65536 = 0 then sum else foldCarries (sum % 65536 + sum / 65536)
termination_by sum
decreasing_by omega

def ipProtoTcp : UInt8 := 6

/-- The bytes of a word as they stand in memory. -/
def memBytes (v : UInt32) : List UInt8 :=
  [UInt8.ofNat v.toNat, UInt8.ofNat (v.toNat / 256), UInt8.ofNat (v.toNat / 65536), UInt8.ofNat (v.toNat / 16777216)]

/-- The sums stay below `2 ^ 32` for every length a segment can have. -/
def ipPseudoChecksum (srcIp dstIp : UInt32) (proto : UInt8) (segment : List UInt8) : UInt16 :=
  let ph := memBytes srcIp ++ memBytes dstIp ++ [0, proto] ++ htons (UInt16.ofNat segment.length)
  UInt16.ofNat (65535 - foldCarries (wordSum ph + wordSum segment))

end AetherOS.Tcp
