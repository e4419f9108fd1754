import AetherOS.NetStack

/-!
# Checksums

The checksum of IP, ICMP, UDP and TCP is the complement of a sum modulo `2 ^ 16 - 1`. A sum that
is not zero is folded to a number that is not zero, so zero has one representation only, and a
receiver that sums up the packet with its checksum always gets the complement of zero.
-/
namespace AetherOS.Net
open Tcp List

lemma wordSum_append (back : List UInt8) : ∀ {front : List UInt8}, front.length % 2 = 0 →
    wordSum (front ++ back) = wordSum front + wordSum back
  | [], _ => (Nat.zero_add _).symm
  | [_], h => by cases h
  | x :: y :: front, h => by
    have heven : front.length % 2 = 0 := by
      simp only [length_cons] at h
      omega
    rw [cons_append, cons_append, wordSum, wordSum, wordSum_append back heven]
    omega

lemma wordSum_htons (v : UInt16) : wordSum (htons v) = v.toNat := by
  have hv := v.toNat_lt
  simp only [htons, wordSum, UInt8.toNat_ofNat']
  omega

lemma wordSum_le : ∀ l : List UInt8, 2 * wordSum l ≤ 65535 * (l.length + 1)
  | [] => by decide
  | [x] => by
    have hx := x.toNat_lt
    simp only [wordSum, length_singleton]
    omega
  | x :: y :: l => by
    have hx := x.toNat_lt
    have hy := y.toNat_lt
    have hl := wordSum_le l
    simp only [wordSum, length_cons]
    omega

/-- The fold keeps the sum modulo `2 ^ 16 - 1`, and zero is the sum of nothing only. -/
lemma foldCarries_spec (sum : ℕ) :
    foldCarries sum < 65536 ∧ foldCarries sum % 65535 = sum % 65535 ∧ (0 < sum → 0 < foldCarries sum) := by
  fun_induction foldCarries sum with
  | case1 sum h => exact ⟨by omega, rfl, id⟩
  | case2 sum h ih =>
    obtain ⟨hlt, hmod, hpos⟩ := ih
    exact ⟨hlt, hmod.trans (by omega), fun _ => hpos (by omega)⟩

lemma foldCarries_complement (sum : ℕ) : foldCarries (sum + (65535 - foldCarries sum)) = 65535 := by
  obtain ⟨hlt, hmod, hpos⟩ := foldCarries_spec sum
  obtain ⟨hlt', hmod', hpos'⟩ := foldCarries_spec (sum + (65535 - foldCarries sum))
  have hsum : 0 < sum + (65535 - foldCarries sum) := by
    rcases Nat.eq_zero_or_pos sum with rfl | h0
    · simp [foldCarries]
    · omega
  have hzero := hpos' hsum
  omega

lemma ipChecksum_stored {front : List UInt8} (back : List UInt8) (heven : front.length % 2 = 0) :
    ipChecksum (front ++ htons (ipChecksum (front ++ [0, 0] ++ back)) ++ back) = 0 := by
  let zeroed := front ++ [0, 0] ++ back
  have hsum : ∀ field : List UInt8, field.length = 2 →
      wordSum (front ++ field ++ back) = wordSum front + wordSum field + wordSum back := by
    intro field hfield
    rw [wordSum_append back (by rw [length_append, hfield]; omega), wordSum_append field heven]
  have hlt := (foldCarries_spec (wordSum zeroed)).1
  have hcsum : (ipChecksum zeroed).toNat = 65535 - foldCarries (wordSum zeroed) := by
    rw [ipChecksum, UInt16.toNat_ofNat']
    omega
  have hfold := foldCarries_complement (wordSum zeroed)
  have hwords : wordSum (front ++ htons (ipChecksum zeroed) ++ back) =
      wordSum zeroed + (65535 - foldCarries (wordSum zeroed)) := by
    have hzero : wordSum zeroed = wordSum front + wordSum back := hsum [0, 0] rfl
    rw [hsum _ rfl, wordSum_htons, hcsum]
    omega
  rw [ipChecksum, hwords, hfold]
  rfl

def pseudoHeader (srcIp dstIp : UInt32) (proto : UInt8) (segLen : ℕ) : List UInt8 :=
  memBytes srcIp ++ memBytes dstIp ++ [0, proto] ++ htons (UInt16.ofNat segLen)

lemma length_pseudoHeader (srcIp dstIp : UInt32) (proto : UInt8) (segLen : ℕ) :
    (pseudoHeader srcIp dstIp proto segLen).length = 12 := rfl

lemma ipPseudoChecksum_eq (srcIp dstIp : UInt32) (proto : UInt8) (segment : List UInt8) :
    ipPseudoChecksum srcIp dstIp proto segment =
      ipChecksum (pseudoHeader srcIp dstIp proto segment.length ++ segment) := by
  rw [ipChecksum, wordSum_append segment (by rw [length_pseudoHeader])]
  rfl

/-- For every segment the sums fit in 32 bits, and the pseudo header is summed up like 12 bytes
before the segment. Where a field at an even offset is zero, storing the checksum in it makes
the checksum of the result zero, with and without the pseudo header. -/
theorem checksums_verify (srcIp dstIp : UInt32) (proto : UInt8) :
    (∀ segment : List UInt8, segment.length ≤ 65535 →
      wordSum (pseudoHeader srcIp dstIp proto segment.length ++ segment) < 2 ^ 32 ∧
      ipPseudoChecksum srcIp dstIp proto segment =
        ipChecksum (pseudoHeader srcIp dstIp proto segment.length ++ segment)) ∧
    ∀ front back : List UInt8, front.length % 2 = 0 → (front ++ [0, 0] ++ back).length ≤ 65535 →
      wordSum (front ++ [0, 0] ++ back) < 2 ^ 32 ∧
      ipChecksum (front ++ htons (ipChecksum (front ++ [0, 0] ++ back)) ++ back) = 0 ∧
      ipPseudoChecksum srcIp dstIp proto
        (front ++ htons (ipPseudoChecksum srcIp dstIp proto (front ++ [0, 0] ++ back)) ++ back) = 0 := by
  refine ⟨fun segment hlen => ⟨?_, ipPseudoChecksum_eq ..⟩, fun front back heven hlen => ⟨?_, ?_, ?_⟩⟩
  · have hle := wordSum_le (pseudoHeader srcIp dstIp proto segment.length ++ segment)
    rw [length_append, length_pseudoHeader] at hle
    omega
  · have hle := wordSum_le (front ++ [0, 0] ++ back)
    omega
  · exact ipChecksum_stored back heven
  have hfield : ∀ v, (front ++ htons v ++ back).length = (front ++ [0, 0] ++ back).length := by
    intro v
    simp only [length_append]
    rfl
  rw [ipPseudoChecksum_eq, ipPseudoChecksum_eq, hfield]
  generalize hp : pseudoHeader srcIp dstIp proto (front ++ [0, 0] ++ back).length = header
  have hheader : header.length = 12 := by rw [← hp, length_pseudoHeader]
  have hfront : (header ++ front).length % 2 = 0 := by
    rw [length_append, hheader]
    omega
  have hstored := ipChecksum_stored back hfront
  simpa only [append_assoc] using hstored

/-- An echo request with an odd number of bytes. -/
theorem checksums_verify_odd : ipChecksum ([8, 0] ++ htons (ipChecksum ([8, 0] ++ [0, 0] ++ [0, 1, 0, 2, 255])) ++
    [0, 1, 0, 2, 255]) = 0 :=
  ((checksums_verify 0 0 0).2 [8, 0] [0, 1, 0, 2, 255] rfl (by decide)).2.1

end AetherOS.Net
