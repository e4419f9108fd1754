import AetherOS.NetStack

/-!
# Answers of a name server

`dns_recv_cb` looks for the first address in a response. It skips the name in the question and
the names of the records with two different loops, by lengths that are bytes of the packet; the
position may be beyond the end afterwards.
-/
namespace AetherOS.Net
open Tcp Buffers Buffers.Scan List

def sizeofDnsHdr : ℕ := 12
def dnsQrResponse : UInt16 := 0x8000
def dnsTypeA : UInt16 := 1

structure DnsState where
  gotReply : Bool
  resolvedIp : UInt32
  queryId : UInt16
  deriving DecidableEq, Repr

/-- Behind the name of the question. -/
def skipQname (len p : ℕ) : Scan DnsState ℕ :=
  if p < len then do
    let b ← byte p
    if b = 0 then pure (p + 1)
    else if b &&& 0xc0 = 0xc0 then pure (p + 2)
    else skipQname len (p + 1 + b.toNat)
  else pure p
termination_by len - p

def skipLabels (len p : ℕ) : Scan DnsState ℕ :=
  if p < len then do
    let b ← byte p
    if b = 0 then pure (p + 1) else skipLabels len (p + 1 + b.toNat)
  else pure p
termination_by len - p

/-- Behind the name of a record. -/
def skipName (len p : ℕ) : Scan DnsState ℕ :=
  if p < len then do
    let b ← byte p
    if b &&& 0xc0 = 0xc0 then pure (p + 2) else skipLabels len p
  else skipLabels len p

/-- The loop over the records that are left; the difference `end - p` may be negative. -/
def parseAnswers (len : ℕ) : ℕ → ℕ → Scan DnsState Unit
  | 0, _ => pure ()
  | n + 1, p =>
    if p < len then do
      let p ← skipName len p
      if len < p + 10 then pure ()
      else do
        let rtype ← slice p 2
        let rdlen ← slice (p + 8) 2
        if ntohs rtype 0 = dnsTypeA ∧ ntohs rdlen 0 = 4 ∧ p + 10 + 4 ≤ len then do
          let addr ← slice (p + 10) 4
          modify fun d => { d with resolvedIp := memWord addr 0, gotReply := true }
        else parseAnswers len n (p + 10 + (ntohs rdlen 0).toNat)
    else pure ()

def dnsRecvCb (len : ℕ) : Scan DnsState Unit :=
  if len < sizeofDnsHdr then pure ()
  else do
    let hdr ← slice 0 sizeofDnsHdr
    let d ← get
    if ntohs hdr 0 ≠ d.queryId then pure ()
    else if ntohs hdr 2 &&& dnsQrResponse = 0 then pure ()
    else if ntohs hdr 6 = 0 then pure ()
    else do
      let p ← skipQname len sizeofDnsHdr
      parseAnswers len (ntohs hdr 6).toNat (p + 4)

/-! ## Everything read lies within the payload -/

lemma skipQname_inside (len p : ℕ) : Inside len (skipQname len p) := by
  induction h : len - p using Nat.strong_induction_on generalizing p with
  | _ k ih =>
    rw [skipQname]
    refine .ite (fun hp => ?_) fun _ => .pure p
    refine .bind (.byte hp) fun b => ?_
    refine .ite (fun _ => .pure _) fun _ => ?_
    exact .ite (fun _ => .pure _) fun _ => ih _ (by omega) _ rfl

lemma skipLabels_inside (len p : ℕ) : Inside len (skipLabels len p) := by
  induction h : len - p using Nat.strong_induction_on generalizing p with
  | _ k ih =>
    rw [skipLabels]
    refine .ite (fun hp => ?_) fun _ => .pure p
    refine .bind (.byte hp) fun b => ?_
    exact .ite (fun _ => .pure _) fun _ => ih _ (by omega) _ rfl

lemma skipName_inside (len p : ℕ) : Inside len (skipName len p) := by
  refine .ite (fun hp => ?_) fun _ => skipLabels_inside len p
  refine .bind (.byte hp) fun b => ?_
  exact .ite (fun _ => .pure _) fun _ => skipLabels_inside len p

lemma parseAnswers_inside (len n p : ℕ) : Inside len (parseAnswers len n p) := by
  induction n generalizing p with
  | zero => exact .pure ()
  | succ n ih =>
    refine .ite (fun _ => ?_) fun _ => .pure ()
    refine .bind (skipName_inside len p) fun p => ?_
    refine .guard fun hlen => ?_
    refine .bind (.slice (by omega)) fun rtype => ?_
    refine .bind (.slice (by omega)) fun rdlen => ?_
    refine .ite (fun ha => ?_) fun _ => ih _
    exact .bind (.slice ha.2.2) fun addr => .modify _

/-- Whatever a payload of any length contains: the function, which always returns, reads nothing
outside of it. -/
theorem dnsRecvCb_inside (len : ℕ) : Inside len (dnsRecvCb len) := by
  refine .ite (fun _ => .pure ()) fun hlen => ?_
  refine .bind (.slice (by omega)) fun hdr => ?_
  refine .bind .get fun d => ?_
  refine .ite (fun _ => .pure ()) fun _ => ?_
  refine .ite (fun _ => .pure ()) fun _ => ?_
  refine .ite (fun _ => .pure ()) fun _ => ?_
  exact .bind (skipQname_inside len _) fun p => parseAnswers_inside len _ _

end AetherOS.Net
