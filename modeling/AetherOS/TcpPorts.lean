import AetherOS.Descriptors
import AetherOS.TcpSend

/-!
# Local ports

A connection is known by the address and port of its peer and by its local port.
`alloc_port` counts through the 16-bit numbers and looks neither at the connections that
are still open nor at the number 0. The calls of several threads interleave while one of
them polls for its answer, so `tcp_connect` is cut at its polling loop.
-/
namespace AetherOS.Tcp
open Runs Function

/-- The entry that `tcp_connect` fills in; the ring keeps its old bytes. -/
def newConn (old : Conn) (srcPort : UInt16) (dstIp : UInt32) (dstPort : UInt16) : Conn where
  inUse := true
  state := .synSent
  dstIp := dstIp
  dstPort := dstPort
  srcPort := srcPort
  sndSeq := 0x12345678
  sndUna := 0x12345678
  rcvNxt := 0
  rcvWin := 4095
  rxbuf := ⟨old.rxbuf.buf, 0, 0, tcpRxbuf_pos, tcpRxbuf_pos⟩

/-- `tcp_connect` up to its polling loop. -/
def tcpDial (s : Stack) (i : Fin maxConns) (srcPort : UInt16) (dstIp : UInt32) (dstPort : UInt16) : Stack :=
  (tcpSendSeg (s.setConn i (newConn (s.conns i) srcPort dstIp dstPort)) i tcpFlagSyn []).2

/-- `tcp_connect` after its polling loop. -/
def tcpSettle (s : Stack) (i : Fin maxConns) : Option (Fin maxConns) × Stack :=
  if (s.conns i).state ≠ .established then (none, s.setConn i { s.conns i with inUse := false })
  else (some i, s)

lemma tcpConnect_eq (s : Stack) (i : Fin maxConns) (srcPort : UInt16) (dstIp : UInt32) (dstPort : UInt16)
    (polls : List (Option (List UInt8))) : tcpConnect s i srcPort dstIp dstPort polls =
      tcpSettle (pollLoop (tcpDial s i srcPort dstIp dstPort) i (polls.take 300000)) i := rfl

/-- The connection table and `s_next_port`. -/
structure TcpTable where
  stack : Stack
  nextPort : UInt16

inductive TcpAction where
  | dial (ip : UInt32) (port : UInt16)
  | settle (i : Fin maxConns)
  | recv (frame : List UInt8)
  | send (i : Fin maxConns) (data : List UInt8)
  | close (i : Fin maxConns)

def TcpTable.perform (t : TcpTable) : TcpAction → TcpTable
  | .dial ip port =>
    match allocConn t.stack with
    | none => t
    | some i => ⟨tcpDial t.stack i t.nextPort ip port, t.nextPort + 1⟩
  | .settle i => { t with stack := (tcpSettle t.stack i).2 }
  | .recv frame => { t with stack := ethRecv t.stack frame }
  | .send i data => { t with stack := (tcpSend t.stack i data).2 }
  | .close i => { t with stack := tcpClose t.stack i }

def tableStep (t : TcpTable) (a : TcpAction) (t' : TcpTable) : Prop := t' = t.perform a

/-- No connection is in use, and the port counter has its initial value. -/
structure TableStart (t : TcpTable) : Prop where
  unused : ∀ i, (t.stack.conns i).inUse = false
  nextPort : t.nextPort = 49152

/-- Connections to one peer have different local ports, none of which is 0, and every
connection is the one that gets its segments. -/
structure Distinguishable (s : Stack) : Prop where
  ne_zero : ∀ i, (s.conns i).inUse = true → (s.conns i).srcPort ≠ 0
  ne : ∀ i j, i ≠ j → (s.conns i).inUse = true → (s.conns j).inUse = true →
    (s.conns i).dstIp = (s.conns j).dstIp → (s.conns i).dstPort = (s.conns j).dstPort →
    (s.conns i).srcPort ≠ (s.conns j).srcPort
  routed : ∀ i, (s.conns i).inUse = true →
    findConn s (s.conns i).dstIp (s.conns i).dstPort (s.conns i).srcPort = some i

/-- A connection is started only while the next port is not 0 and no connection to the same
peer has it. -/
def PortFree (t : TcpTable) : TcpAction → Prop
  | .dial ip port => t.nextPort ≠ 0 ∧ ∀ i, (t.stack.conns i).inUse = true →
      (t.stack.conns i).dstIp = ip → (t.stack.conns i).dstPort = port →
      (t.stack.conns i).srcPort ≠ t.nextPort
  | _ => True

instance (t : TcpTable) : (a : TcpAction) → Decidable (PortFree t a)
  | .dial _ _ => inferInstanceAs (Decidable (_ ∧ _))
  | .settle _ => instDecidableTrue
  | .recv _ => instDecidableTrue
  | .send _ _ => instDecidableTrue
  | .close _ => instDecidableTrue

/-- The first two facts, in terms of the keys. -/
structure KeysDiffer (key : Fin maxConns → Bool × UInt32 × UInt16 × UInt16) : Prop where
  ne_zero : ∀ i, (key i).1 = true → (key i).2.2.2 ≠ 0
  inj : ∀ i j, (key i).1 = true → key i = key j → i = j

def Stack.keys (s : Stack) (i : Fin maxConns) : Bool × UInt32 × UInt16 × UInt16 := (s.conns i).key

section

variable {s s' : Stack} {i : Fin maxConns} {dport sport : UInt16} {ip : UInt32} {c : Conn}

lemma findConn_key (h : findConn s ip sport dport = some i) : s.keys i = (true, ip, sport, dport) := by
  have hi := List.find?_some h
  simp only [Bool.and_eq_true, beq_iff_eq] at hi
  obtain ⟨⟨⟨h1, h2⟩, h3⟩, h4⟩ := hi
  simp [Stack.keys, Conn.key, h1, h2, h3, h4]

lemma findConn_eq_some (hi : s.keys i = (true, ip, sport, dport))
    (hfirst : ∀ j, j < i → s.keys j ≠ (true, ip, sport, dport)) : findConn s ip sport dport = some i := by
  have hmatch : ∀ j, ((s.conns j).inUse && (s.conns j).dstIp == ip && (s.conns j).dstPort == sport &&
      (s.conns j).srcPort == dport) = true ↔ s.keys j = (true, ip, sport, dport) := by
    intro j
    simp [Bool.and_eq_true, beq_iff_eq, Stack.keys, Conn.key, and_assoc]
  unfold findConn
  rw [List.find?_eq_some_iff_getElem]
  refine ⟨(hmatch i).mpr hi, i.val, by simp, by simp, fun k hk => ?_⟩
  have hne := mt (hmatch ⟨k, Nat.lt_trans hk i.isLt⟩).mp (hfirst _ hk)
  rw [List.getElem_finRange, Bool.not_eq_true']
  exact Bool.eq_false_iff.mpr hne

lemma findConn_isSome (h : (s.conns i).inUse = true) :
    (findConn s (s.conns i).dstIp (s.conns i).dstPort (s.conns i).srcPort).isSome = true := by
  unfold findConn
  rw [List.find?_isSome]
  exact ⟨i, List.mem_finRange i, by simp [h]⟩

section

variable (h : KeysDiffer s.keys)
include h

theorem KeysDiffer.distinguishable : Distinguishable s where
  ne_zero := h.ne_zero
  ne i j hij hi hj hip hport hsrc := by
    apply hij
    apply h.inj i j hi
    simp [Stack.keys, Conn.key, hi, hj, hip, hport, hsrc]
  routed i hi := by
    obtain ⟨j, hj⟩ := Option.isSome_iff_exists.mp (findConn_isSome hi)
    have hkey := findConn_key hj
    rw [hj]
    refine congrArg some (h.inj i j hi ?_).symm
    rw [hkey]
    simp [Stack.keys, Conn.key, hi]

lemma KeysDiffer.of_sameKeys (hk : SameKeys s s') : KeysDiffer s'.keys := by
  have heq : s'.keys = s.keys := funext hk
  rw [heq]
  exact h

lemma KeysDiffer.set (hnew : c.inUse = true → c.srcPort ≠ 0 ∧ ∀ j, s.keys j ≠ (true, c.dstIp, c.dstPort, c.srcPort)) :
    KeysDiffer (s.setConn i c).keys := by
  have hkey : ∀ j, j ≠ i → (s.setConn i c).keys j = s.keys j := by
    intro j hj
    simp [Stack.keys, Stack.setConn, hj]
  have hself : (s.setConn i c).keys i = c.key := by rw [Stack.keys, setConn_self]
  constructor
  · intro j hj
    by_cases hji : j = i
    · subst hji
      rw [hself] at hj ⊢
      exact (hnew hj).1
    · rw [hkey j hji] at hj ⊢
      exact h.ne_zero j hj
  intro j k hj hjk
  by_cases hji : j = i
  · subst hji
    by_contra hkj
    rw [hself] at hj hjk
    rw [hkey k (Ne.symm hkj)] at hjk
    have hin : c.inUse = true := hj
    exact (hnew hin).2 k (by rw [← hjk, Conn.key, hin])
  rw [hkey j hji] at hj hjk
  by_cases hki : k = i
  · subst hki
    rw [hself] at hjk
    have hin : c.inUse = true := by rw [hjk] at hj; exact hj
    exact absurd (by rw [hjk, Conn.key, hin]) ((hnew hin).2 j)
  · rw [hkey k hki] at hjk
    exact h.inj j k hj hjk

end

lemma SameKeys.connInput (hdr : TcpHdr) (data : List UInt8) : SameKeys s (connInput s i hdr data) := by
  have hrefl := SameKeys.refl s
  have hfin2 : ∀ t, SameKeys s t → SameKeys s (inputFinWait2 t i hdr) := by
    intro t ht
    unfold inputFinWait2
    split
    · refine SameKeys.setConn ?_ rfl
      apply SameKeys.tcpSendSeg
      exact ht.setConn rfl
    · exact ht
  unfold Tcp.connInput
  split
  · unfold inputSynSent
    simp only
    split
    · apply SameKeys.tcpSendSeg
      exact hrefl.setConn rfl
    split
    · exact hrefl.setConn rfl
    · exact hrefl
  · unfold inputEstablished
    simp only
    split
    · exact hrefl.setConn rfl
    apply SameKeys.acceptFin
    apply SameKeys.acceptData
    split
    · exact hrefl.setConn rfl
    · exact hrefl
  · unfold inputFinWait1
    apply hfin2
    split
    · exact hrefl.setConn rfl
    · exact hrefl
  · exact hfin2 s hrefl
  · exact hrefl

/-- Frames do not change who a connection belongs to. -/
theorem ethRecv_sameKeys (s : Stack) (frame : List UInt8) : SameKeys s (ethRecv s frame) := by
  have htcp : ∀ src pkt, SameKeys s (tcpInput s src pkt) := by
    intro src pkt
    by_cases h : CompleteTcp pkt
    · rw [tcpInput_complete h]
      split
      · exact .refl s
      · exact .connInput _ _
    · rw [tcpInput_incomplete h]
      exact .refl s
  unfold ethRecv ipv4Recv
  split
  · exact .refl s
  split
  · split
    · exact .refl s
    simp only
    split
    · exact .refl s
    split
    · exact htcp _ _
    · exact .refl s
  · exact .refl s

lemma sendLoop_sameKeys (fuel : ℕ) (data : List UInt8) (h : SameKeys s s') :
    SameKeys s (sendLoop fuel s' i data).2 := by
  induction fuel generalizing s' data with
  | zero => exact h
  | succ fuel ih =>
    rw [sendLoop]
    split
    · exact h
    simp only
    split
    · exact h.tcpSendSeg
    · exact ih _ h.tcpSendSeg

end

lemma KeysDiffer.step {t t' : TcpTable} {a : TcpAction} (h : KeysDiffer t.stack.keys) (hfree : PortFree t a)
    (hs : tableStep t a t') : KeysDiffer t'.stack.keys := by
  obtain rfl := hs
  cases a with
  | dial ip port =>
    simp only [TcpTable.perform]
    split
    · exact h
    refine KeysDiffer.of_sameKeys ?_ (SameKeys.refl _).tcpSendSeg
    refine h.set fun _ => ⟨hfree.1, fun j hj => ?_⟩
    simp only [Stack.keys, Conn.key, newConn, Prod.mk.injEq] at hj
    obtain ⟨h1, h2, h3, h4⟩ := hj
    exact hfree.2 j h1 h2 h3 h4
  | settle i =>
    simp only [TcpTable.perform, tcpSettle]
    split
    · exact h.set fun hc => by cases hc
    · exact h
  | recv frame => exact h.of_sameKeys (ethRecv_sameKeys t.stack frame)
  | send i data =>
    refine h.of_sameKeys ?_
    simp only [TcpTable.perform, tcpSend]
    split
    · exact .refl _
    · exact sendLoop_sameKeys _ _ (.refl _)
  | close i =>
    simp only [TcpTable.perform, tcpClose]
    refine KeysDiffer.set ?_ fun hc => by cases hc
    split
    · exact h.of_sameKeys (SameKeys.refl _).tcpSendSeg
    · exact h

/-- In every run that starts connections only with free ports, connections to one peer have
different local ports and every segment reaches the connection it belongs to. -/
theorem distinguishable_of_portFree {t : TcpTable}
    (hr : Reachable (fun t a t' => PortFree t a ∧ tableStep t a t') TableStart t) : Distinguishable t.stack := by
  have hinv : KeysDiffer t.stack.keys := by
    refine Reachable.invariant (I := fun t => KeysDiffer t.stack.keys) (fun s hs => ?_)
      (fun s a s' h hs => h.step hs.1 hs.2) hr
    have hunused : ∀ i, (s.stack.keys i).1 = true → False := by
      intro i hi
      exact absurd ((hs.unused i).symm.trans hi) (by decide)
    exact ⟨fun i hi => (hunused i hi).elim, fun i _ hi => (hunused i hi).elim⟩
  exact hinv.distinguishable

/-! ## A port that comes round again -/

/-- A table after start-up whose segments are all sent. -/
def emptyTable : TcpTable where
  stack := { openSession.stack with conns := fun _ => { openConn with inUse := false, state := .closed } }
  nextPort := 49152

lemma emptyTable_start : TableStart emptyTable := ⟨fun _ => rfl, rfl⟩

/-- Two connections to one peer. -/
theorem distinguishable_two_connections :
    Distinguishable ((emptyTable.perform (.dial 0x0100000a 80)).perform (.dial 0x0100000a 80)).stack :=
  distinguishable_of_portFree ⟨emptyTable, [.dial 0x0100000a 80, .dial 0x0100000a 80], emptyTable_start,
    .cons ⟨by decide +kernel, rfl⟩ (.cons ⟨by decide +kernel, rfl⟩ (.nil _))⟩

/-- The answer of port 80 of the peer to the connection with the given local port. -/
def synAckFrame (port : UInt16) : List UInt8 :=
  List.replicate 12 0 ++ [0x08, 0x00] ++
    [0x45, 0, 0, 40, 0, 0, 0, 0, 64, ipProtoTcp, 0, 0] ++ memBytes openConn.dstIp ++ memBytes 0x0200000a ++
    { peerHdr 0 (tcpFlagSyn ||| tcpFlagAck) with dstPort := port }.bytes

lemma ethRecv_synAck (s : Stack) (port : UInt16) : ethRecv s (synAckFrame port) =
    match findConn s 0x0100000a 80 port with
    | none => s
    | some i => connInput s i { peerHdr 0 (tcpFlagSyn ||| tcpFlagAck) with dstPort := port } [] := by
  let pkt := (synAckFrame port).drop (ethHlen + 20)
  let hdr := { peerHdr 0 (tcpFlagSyn ||| tcpFlagAck) with dstPort := port }
  have hpkt : pkt = hdr.bytes ++ [] := by
    rw [List.append_nil]
    rfl
  have hip : ethRecv s (synAckFrame port) = tcpInput s 0x0100000a pkt := by
    have hlen : ¬(synAckFrame port).length < ethHlen := Nat.not_lt.mpr (Nat.le_add_right 14 40)
    have htype : ntohs (synAckFrame port) 12 = ethertypeIpv4 := rfl
    have hipLen : ¬((synAckFrame port).drop ethHlen).length < sizeofIpHdr :=
      Nat.not_lt.mpr (Nat.le_add_right 20 20)
    have hver : (IpHdr.ofPacket ((synAckFrame port).drop ethHlen)).verIhl = 0x45 := rfl
    have hihl : headerLength ((synAckFrame port).drop ethHlen) = 20 := by
      rw [headerLength, hver]
      decide
    have hproto : (IpHdr.ofPacket ((synAckFrame port).drop ethHlen)).protocol = ipProtoTcp := rfl
    rw [ethRecv, if_neg hlen, if_pos htype, ipv4Recv, if_neg hipLen]
    simp only [if_pos hproto, hihl, List.drop_drop]
    rfl
  have hhdr : TcpHdr.ofPacket pkt = hdr := by rw [hpkt, TcpHdr.ofPacket_bytes]
  have hoff : dataOffset pkt = 20 := by
    rw [dataOffset, hhdr]
    show (0x50 : UInt8).toNat / 16 * 4 = 20
    decide
  have hcomplete : CompleteTcp pkt := by
    rw [CompleteTcp, hoff]
    exact ⟨Nat.le_refl 20, Nat.le_refl 20, Nat.le_refl 20⟩
  rw [hip, tcpInput_complete hcomplete, hhdr, payload, hoff]
  rfl

section

variable {t : TcpTable} {i j : Fin maxConns} {s : Stack} {port : UInt16}

lemma perform_dial (hi : allocConn t.stack = some i) (ip : UInt32) (port : UInt16) :
    t.perform (.dial ip port) = ⟨tcpDial t.stack i t.nextPort ip port, t.nextPort + 1⟩ := by
  simp [TcpTable.perform, hi]

lemma allocConn_congr {s' : Stack} (h : ∀ j, (s'.conns j).inUse = (s.conns j).inUse) :
    allocConn s' = allocConn s := by
  unfold allocConn
  congr 1
  funext j
  rw [h j]

lemma allocConn_eq_some (hi : (s.keys i).1 = false) (hfirst : ∀ j, j < i → (s.keys j).1 = true) :
    allocConn s = some i := by
  unfold allocConn
  rw [List.find?_eq_some_iff_getElem]
  refine ⟨congrArg not hi, i.val, by simp, by simp, fun k hk => ?_⟩
  have hused : (s.conns ⟨k, Nat.lt_trans hk i.isLt⟩).inUse = true := hfirst _ hk
  simp [hused]

lemma allocConn_free (hi : allocConn s = some i) : (s.conns i).inUse = false := by
  have h := List.find?_some hi
  simpa using h

lemma tcpDial_self (s : Stack) (srcPort : UInt16) (ip : UInt32) (port : UInt16) :
    (tcpDial s i srcPort ip port).conns i = { newConn (s.conns i) srcPort ip port with sndSeq := 0x12345679 } := by
  have hflag : tcpFlagSyn &&& (tcpFlagSyn ||| tcpFlagFin) ≠ 0 := by decide
  rw [tcpDial, tcpSendSeg_nil]
  simp only [if_pos hflag, Stack.setConn, update_self]
  rfl

lemma tcpDial_of_ne {srcPort : UInt16} {ip : UInt32}
    (hj : j ≠ i) : (tcpDial s i srcPort ip port).conns j = s.conns j := by
  simp [tcpDial, tcpSendSeg_nil, Stack.setConn, hj]

lemma tcpClose_keys_of_ne (hj : j ≠ i) : (tcpClose s i).keys j = s.keys j := by
  have hsent : SameKeys s (if (s.conns i).state = .established then
      (tcpSendSeg s i (tcpFlagFin ||| tcpFlagAck) []).2 else s) := by
    split
    · exact (SameKeys.refl s).tcpSendSeg
    · exact .refl s
  rw [tcpClose, Stack.keys, Stack.setConn]
  simp only [update_of_ne hj]
  exact hsent j

lemma silent_round (hi : allocConn t.stack = some i) (ip : UInt32) (port : UInt16) :
    ∃ t', Run tableStep t [.dial ip port, .settle i] t' ∧ t'.nextPort = t.nextPort + 1 ∧
      allocConn t'.stack = some i ∧ ∀ j, j ≠ i → t'.stack.conns j = t.stack.conns j := by
  let s1 := tcpDial t.stack i t.nextPort ip port
  have hstate : (s1.conns i).state ≠ .established := by
    rw [tcpDial_self]
    show TcpState.synSent ≠ TcpState.established
    decide
  have hsettle : tableStep ⟨s1, t.nextPort + 1⟩ (.settle i)
      ⟨s1.setConn i { s1.conns i with inUse := false }, t.nextPort + 1⟩ := by
    simp [tableStep, TcpTable.perform, tcpSettle, if_pos hstate]
  have hother : ∀ j, j ≠ i → (s1.setConn i { s1.conns i with inUse := false }).conns j = t.stack.conns j := by
    intro j hj
    exact (update_of_ne hj _ _).trans (tcpDial_of_ne hj)
  refine ⟨_, .cons (perform_dial hi ip port).symm (.cons hsettle (.nil _)), rfl, ?_, hother⟩
  rw [← hi]
  apply allocConn_congr
  intro j
  by_cases hj : j = i
  · subst hj
    rw [setConn_self, allocConn_free hi]
  · exact congrArg Conn.inUse (hother j hj)

lemma silent_rounds (n : ℕ) (hi : allocConn t.stack = some i) (ip : UInt32) (port : UInt16) :
    ∃ as t', Run tableStep t as t' ∧ t'.nextPort = t.nextPort + UInt16.ofNat n ∧
      allocConn t'.stack = some i ∧ ∀ j, j ≠ i → t'.stack.conns j = t.stack.conns j := by
  induction n generalizing t with
  | zero => exact ⟨[], t, .nil t, (UInt16.add_zero _).symm, hi, fun _ _ => rfl⟩
  | succ n ih =>
    obtain ⟨t1, hrun, hport, halloc, hconns⟩ := silent_round hi ip port
    obtain ⟨as, t2, hrun', hport', halloc', hconns'⟩ := ih halloc
    refine ⟨_, t2, hrun.append hrun', ?_, halloc', fun j hj => (hconns' j hj).trans (hconns j hj)⟩
    rw [hport', hport, Nat.add_comm n 1, UInt16.ofNat_add, ← UInt16.add_assoc]
    rfl

lemma synAck_established (hfind : findConn s 0x0100000a 80 port = some i) (hstate : (s.conns i).state = .synSent) :
    ((ethRecv s (synAckFrame port)).conns i).state = .established := by
  have hack : (peerHdr 0 (tcpFlagSyn ||| tcpFlagAck)).flags &&& (tcpFlagSyn ||| tcpFlagAck) =
      tcpFlagSyn ||| tcpFlagAck := by decide
  rw [ethRecv_synAck, hfind]
  simp only [connInput, hstate, inputSynSent]
  rw [if_pos hack, tcpSendSeg_state, setConn_self]

lemma answered_round (hi : allocConn t.stack = some i)
    (hfirst : ∀ j, j < i → t.stack.keys j ≠ (true, 0x0100000a, 80, t.nextPort)) :
    ∃ t', Run tableStep t [.dial 0x0100000a 80, .recv (synAckFrame t.nextPort), .settle i] t' ∧
      t'.nextPort = t.nextPort + 1 ∧ t'.stack.keys i = (true, 0x0100000a, 80, t.nextPort) ∧
      ∀ j, j ≠ i → t'.stack.keys j = t.stack.keys j := by
  let s1 := tcpDial t.stack i t.nextPort 0x0100000a 80
  have hkey : s1.keys i = (true, 0x0100000a, 80, t.nextPort) := by
    rw [Stack.keys, tcpDial_self]
    rfl
  have hother : ∀ j, j ≠ i → s1.keys j = t.stack.keys j := fun j hj => congrArg Conn.key (tcpDial_of_ne hj)
  have hfind : findConn s1 0x0100000a 80 t.nextPort = some i :=
    findConn_eq_some hkey fun j hj => hother j (Fin.ne_of_lt hj) ▸ hfirst j hj
  have hstate : ((ethRecv s1 (synAckFrame t.nextPort)).conns i).state = .established := by
    apply synAck_established hfind
    rw [tcpDial_self]
    rfl
  have hsame : ∀ j, (ethRecv s1 (synAckFrame t.nextPort)).keys j = s1.keys j := ethRecv_sameKeys s1 _
  have hsettle : tableStep ⟨ethRecv s1 (synAckFrame t.nextPort), t.nextPort + 1⟩ (.settle i)
      ⟨ethRecv s1 (synAckFrame t.nextPort), t.nextPort + 1⟩ := by
    simp [tableStep, TcpTable.perform, tcpSettle, if_neg (not_not.mpr hstate)]
  exact ⟨_, .cons (perform_dial hi _ _).symm (.cons rfl (.cons hsettle (.nil _))), rfl,
    (hsame i).trans hkey, fun j hj => (hsame j).trans (hother j hj)⟩

end

/-- The second of two connections to a peer stays open while the first one is closed and
65535 connections come to nothing. The next one gets the port of the connection that is
still open, and the segments of the old connection are delivered to the new one. -/
theorem port_comes_round : ∃ as t, Run tableStep emptyTable as t ∧
    t.stack.keys 0 = (true, 0x0100000a, 80, 49153) ∧ t.stack.keys 1 = (true, 0x0100000a, 80, 49153) ∧
    ¬Distinguishable t.stack ∧ findConn t.stack 0x0100000a 80 49153 = some 0 := by
  have h0 : ∀ j : Fin maxConns, ¬j < 0 := fun j => Nat.not_lt_zero j.val
  have h1 : ∀ j : Fin maxConns, j < 1 → j = 0 := by decide
  obtain ⟨t1, hrun1, hport1, hkey1, hother1⟩ := answered_round (t := emptyTable) (i := 0)
    (allocConn_eq_some rfl fun j hj => absurd hj (h0 j)) fun j hj => absurd hj (h0 j)
  have halloc1 : allocConn t1.stack = some 1 := by
    apply allocConn_eq_some
    · rw [hother1 1 (by decide)]
      rfl
    · intro j hj
      rw [h1 j hj, hkey1]
  obtain ⟨t2, hrun2, hport2, hkey2, hother2⟩ := answered_round halloc1 fun j hj => by
    rw [h1 j hj, hkey1, hport1]
    decide
  -- the first connection is closed
  have hclosed : ((t2.perform (.close 0)).stack.keys 0).1 = false := by
    simp [TcpTable.perform, tcpClose, Stack.keys, Conn.key]
  have hkept : (t2.perform (.close 0)).stack.keys 1 = t2.stack.keys 1 := tcpClose_keys_of_ne (by decide)
  obtain ⟨as, t4, hrun4, hport4, halloc4, hother4⟩ := silent_rounds 65535
    (allocConn_eq_some hclosed fun j hj => absurd hj (h0 j)) 0x0100000a 80
  have hport : t4.nextPort = 49153 := by
    rw [hport4]
    show t2.nextPort + UInt16.ofNat 65535 = 49153
    rw [hport2, hport1]
    decide
  obtain ⟨t5, hrun5, -, hkey5, hother5⟩ := answered_round halloc4 fun j hj => absurd hj (h0 j)
  have hnew : t5.stack.keys 0 = (true, 0x0100000a, 80, 49153) := by rw [hkey5, hport]
  have hold : t5.stack.keys 1 = (true, 0x0100000a, 80, 49153) := by
    have h4 : t4.stack.keys 1 = (t2.perform (.close 0)).stack.keys 1 :=
      congrArg Conn.key (hother4 1 (by decide))
    rw [hother5 1 (by decide), h4, hkept, hkey2, hport1]
    decide
  refine ⟨_, t5, hrun1.append (hrun2.append (.cons rfl (hrun4.append hrun5))), hnew, hold, fun h => ?_,
    findConn_eq_some hnew fun j hj => absurd hj (h0 j)⟩
  have hkeys := hnew.trans hold.symm
  simp only [Stack.keys, Conn.key, Prod.mk.injEq] at hnew hold
  exact h.ne 0 1 (by decide) hnew.1 hold.1 (hnew.2.1.trans hold.2.1.symm)
    (hnew.2.2.1.trans hold.2.2.1.symm) (hnew.2.2.2.trans hold.2.2.2.symm)

end AetherOS.Tcp
