import AetherOS.NetStack

/-!
# The options of a DHCP message

`parse_options` walks over the options, each with a code and a length, up to the end mark or
the end of the field. A length is compared with what is left of the field before the option is
read; the message type is read whatever its length is.
-/
namespace AetherOS.Net
open Tcp Buffers Buffers.Scan

def dhcpOffer : UInt8 := 2
def dhcpAck : UInt8 := 5
def sizeofOptions : ℕ := 308

structure DhcpState where
  gotOffer : Bool
  gotAck : Bool
  offeredIp : UInt32
  serverIp : UInt32
  subnet : UInt32
  gateway : UInt32
  dns : UInt32
  deriving DecidableEq, Repr

/-- The local variables of `parse_options`. -/
structure DhcpOptions where
  msgType : UInt8
  subnet : UInt32
  router : UInt32
  dns : UInt32
  deriving DecidableEq, Repr

/-- One option, of `len` bytes at `p`. -/
def takeOption (code : UInt8) (len p : ℕ) (o : DhcpOptions) : Scan DhcpState DhcpOptions :=
  if code = 53 then do
    let b ← byte p
    pure { o with msgType := b }
  else if len < 4 then pure o
  else if code = 1 then do
    let w ← slice p 4
    pure { o with subnet := memWord w 0 }
  else if code = 3 then do
    let w ← slice p 4
    pure { o with router := memWord w 0 }
  else if code = 6 then do
    let w ← slice p 4
    pure { o with dns := memWord w 0 }
  else if code = 54 then do
    let w ← slice p 4
    modify fun d => { d with serverIp := memWord w 0 }
    pure o
  else pure o

def optionLoop (p : ℕ) (o : DhcpOptions) : Scan DhcpState DhcpOptions :=
  if p < sizeofOptions then do
    let code ← byte p
    if code = 255 then pure o
    else if code = 0 then optionLoop (p + 1) o
    else if sizeofOptions ≤ p + 1 then pure o
    else do
      let len ← byte (p + 1)
      if sizeofOptions < p + 2 + len.toNat then pure o
      else do
        let o ← takeOption code len.toNat (p + 2) o
        optionLoop (p + 2 + len.toNat) o
  else pure o
termination_by sizeofOptions - p

def parseOptions (yiaddr : UInt32) (expected : UInt8) : Scan DhcpState Unit := do
  let o ← optionLoop 0 ⟨0, 0, 0, 0⟩
  if o.msgType = dhcpOffer ∧ expected = dhcpOffer then
    modify fun d => { d with
      offeredIp := yiaddr
      subnet := o.subnet
      gateway := o.router
      dns := o.dns
      gotOffer := true }
  else if o.msgType = dhcpAck ∧ expected = dhcpAck then
    modify fun d => { d with
      offeredIp := yiaddr
      subnet := if o.subnet ≠ 0 then o.subnet else d.subnet
      gateway := if o.router ≠ 0 then o.router else d.gateway
      dns := if o.dns ≠ 0 then o.dns else d.dns
      gotAck := true }
  else pure ()

/-- The offsets of the options and pads that the walk from `p` comes to. -/
def optionStarts (mem : ℕ → UInt8) (p : ℕ) : List ℕ :=
  if p < sizeofOptions ∧ mem p ≠ 255 then
    p :: if mem p = 0 then optionStarts mem (p + 1)
      else if p + 2 + (mem (p + 1)).toNat ≤ sizeofOptions then
        optionStarts mem (p + 2 + (mem (p + 1)).toNat)
      else []
  else []
termination_by sizeofOptions - p

section

variable {mem : ℕ → UInt8} {s : DhcpState} {o : DhcpOptions}

/-- An option that ends within the field is read within it, unless it is a message type of no
bytes at the end. -/
lemma takeOption_insideAt {code : UInt8} {len p : ℕ} (h : p + len ≤ sizeofOptions) :
    InsideAt mem sizeofOptions s (takeOption code len p o) ↔ (code = 53 → p < sizeofOptions) := by
  unfold takeOption
  split_ifs with h53 hlen <;> simp [h53]
  all_goals omega

lemma optionLoop_insideAt (p : ℕ) : InsideAt mem sizeofOptions s (optionLoop p o) ↔
    ¬(306 ∈ optionStarts mem p ∧ mem 306 = 53 ∧ mem 307 = 0) := by
  induction h : sizeofOptions - p using Nat.strong_induction_on generalizing p s o with
  | _ k ih =>
    rw [optionLoop, optionStarts]
    by_cases hp : p < sizeofOptions
    case neg => simp [hp]
    rw [if_pos hp, insideAt_byte_bind, and_iff_right hp]
    by_cases hend : mem p = 255
    · simp [hend]
    rw [if_neg hend, if_pos (And.intro hp hend), List.mem_cons]
    by_cases hpad : mem p = 0
    · have hnot : ¬(306 = p ∧ mem 306 = 53) := by
        rintro ⟨rfl, h53⟩
        rw [hpad] at h53
        cases h53
      rw [if_pos hpad, if_pos hpad, ih _ (by omega) _ rfl]
      tauto
    rw [if_neg hpad, if_neg hpad]
    by_cases hnext : sizeofOptions ≤ p + 1
    · have hnot : 306 ≠ p := by
        rw [sizeofOptions] at hnext
        omega
      rw [if_pos hnext, if_neg (by omega)]
      simp [hnot]
    rw [if_neg hnext, insideAt_byte_bind, and_iff_right (by omega)]
    by_cases hlen : sizeofOptions < p + 2 + (mem (p + 1)).toNat
    · rw [if_pos hlen, if_neg (by omega)]
      refine iff_of_true (insideAt_pure o) ?_
      rintro ⟨rfl | hnil, -, hzero⟩
      · rw [show 306 + 1 = 307 from rfl, hzero] at hlen
        exact absurd hlen (by decide)
      · cases hnil
    rw [if_neg hlen, if_pos (by omega), insideAt_bind, takeOption_insideAt (by omega),
      ih _ (by omega) _ rfl]
    -- the byte of a message type is missing only if the type has no bytes and ends the field
    have hlast : (mem p = 53 → p + 2 < sizeofOptions) ↔ ¬(306 = p ∧ mem 306 = 53 ∧ mem 307 = 0) := by
      rw [sizeofOptions] at hlen hnext ⊢
      constructor
      · rintro h53 ⟨rfl, hc, -⟩
        exact absurd (h53 hc) (by decide)
      · intro hnot h53
        by_contra hge
        have hzero : (mem (p + 1)).toNat = 0 := by omega
        obtain rfl : p = 306 := by omega
        exact hnot ⟨rfl, h53, UInt8.toNat_inj.mp hzero⟩
    rw [hlast]
    tauto

end

/-- The reads of `parse_options`, which always returns, are within the options exactly if its walk
does not end with a message type of no bytes as the last option. -/
theorem parseOptions_inside_iff (mem : ℕ → UInt8) (yiaddr : UInt32) (expected : UInt8) :
    InsideOf mem sizeofOptions (parseOptions yiaddr expected) ↔
      ¬(306 ∈ optionStarts mem 0 ∧ mem 306 = 53 ∧ mem 307 = 0) := by
  have hstate : ∀ s, InsideAt mem sizeofOptions s (parseOptions yiaddr expected) ↔
      ¬(306 ∈ optionStarts mem 0 ∧ mem 306 = 53 ∧ mem 307 = 0) := by
    intro s
    rw [parseOptions, insideAt_bind, optionLoop_insideAt, and_iff_left]
    split_ifs <;> simp
  exact ⟨fun h => (hstate ⟨false, false, 0, 0, 0, 0, 0⟩).mp (h _), fun h s => (hstate s).mpr h⟩

/-- Two other options and a message type of no bytes, which ends with the field: the byte behind
the field is read. -/
theorem parseOptions_reads_behind : ⟨308, 1⟩ ∈ (parseOptions 0 dhcpOffer).touched
    (fun i => if i = 0 ∨ i = 257 then 12 else if i = 1 then 255 else if i = 258 then 47 else if i = 306 then 53 else 0)
    ⟨false, false, 0, 0, 0, 0, 0⟩ := by decide +kernel

end AetherOS.Net
