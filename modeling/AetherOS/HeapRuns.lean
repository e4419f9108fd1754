import AetherOS.HeapAllocation
import AetherOS.Runs

/-!
# Runs of the kernel heap and its clients

A run starts with `heap_init` and goes on with any calls of `kmalloc` and `kfree`
and any stores of the clients into the memory they hold. The ghost list `live`
records the pointers handed out and not yet freed.
-/
namespace AetherOS.Heap
open ByteMemory LinkedList Runs Function

/-- The heap, the live allocations as pointer and requested size, and the number of
pages the page allocator has handed over. -/
structure Client where
  heap : State
  live : List (ℕ × ℕ)
  pages : ℕ

/-- What can happen: a call of the allocator, with the outcomes its calls of
`expand` consume, or a store of one byte by a client. -/
inductive Call where
  | kmalloc (size : ℕ) (supply : List ExpandOutcome)
  | kfree (p : ℕ)
  | store (a : ℕ) (v : UInt8)

/-- The most pages the page allocator manages. -/
def pmmMaxPages : ℕ := 2 ^ 24

namespace Client

/-- Clients free null or a pointer they hold, and store into memory they hold. -/
def Allowed (c : Client) : Call → Prop
  | .kmalloc _ supply => c.pages + suppliedPages supply ≤ pmmMaxPages
  | .kfree p => p = 0 ∨ ∃ size, (p, size) ∈ c.live
  | .store a _ => ∃ x ∈ c.live, x.1 ≤ a ∧ a < x.1 + x.2

def perform (c : Client) : Call → Except Fault Client
  | .kmalloc size supply =>
    match Heap.kmalloc c.heap size supply with
    | .error e => .error e
    | .ok (p, h) => .ok ⟨h, if p = 0 then c.live else (p, size) :: c.live, c.pages + suppliedPages supply⟩
  | .kfree p =>
    match Heap.kfree c.heap p with
    | .error e => .error e
    | .ok h => .ok { c with heap := h, live := c.live.filter (·.1 ≠ p) }
  | .store a v => .ok { c with heap := { c.heap with mem := update c.heap.mem a v } }

end Client

def heapStep (c : Client) (call : Call) (c' : Client) : Prop :=
  c.Allowed call ∧ c.perform call = .ok c'

/-- The state after a call of `heap_init` that returned. -/
def heapStart (c : Client) : Prop :=
  ∃ m o h, heapInit m o = .ok h ∧ c = ⟨h, [], o.pages⟩

/-- What holds between two calls. -/
structure ClientInv (c : Client) (bs fl : List ℕ) : Prop where
  wf : Wf c.heap bs fl
  held : ∀ x ∈ c.live, Held c.heap bs x.1 x.2
  apart : c.live.Pairwise fun x y => x.1 ≠ y.1
  budget : c.pages ≤ pmmMaxPages
  grown : c.heap.heapEnd ≤ heapVirtBase + osPageSize * c.pages

/-- The bytes `[x.1, x.1 + x.2)` of a live allocation survive a call. -/
def Survives (x : ℕ × ℕ) (c c' : Client) : Prop :=
  x ∈ c.live → x ∈ c'.live ∧ ∀ y, x.1 ≤ y → y < x.1 + x.2 → c'.heap.mem y = c.heap.mem y

/-- The call neither frees `x` nor stores into it. -/
def Spares (x : ℕ × ℕ) : Call → Prop
  | .kmalloc _ _ => True
  | .kfree p => p ≠ x.1
  | .store a _ => a < x.1 ∨ x.1 + x.2 ≤ a

section

variable {c c' : Client} {bs fl : List ℕ}

@[simp] lemma freeListAdd_heapEnd (h : State) (b : ℕ) : (freeListAdd h b).heapEnd = h.heapEnd := by
  simp only [freeListAdd]
  split <;> rfl

@[simp] lemma freeListRemove_heapEnd (h : State) (b : ℕ) : (freeListRemove h b).heapEnd = h.heapEnd := by
  simp only [freeListRemove, put_heapEnd]
  split <;> split <;> rfl

@[simp] lemma absorb_heapEnd (h : State) (lo hi : ℕ) : (absorb h lo hi).heapEnd = h.heapEnd := by
  simp only [absorb]
  split <;> split <;> rfl

lemma kfree_heapEnd {h h' : State} {p : ℕ} (he : kfree h p = .ok h') : h'.heapEnd = h.heapEnd := by
  have hnext : ∀ (g : State) (b : ℕ), (coalesceNext g b).heapEnd = g.heapEnd := by
    intro g b
    simp only [coalesceNext]
    split <;> simp
  have hprev : ∀ (g : State) (b : ℕ), (coalescePrev g b).2.heapEnd = g.heapEnd := by
    intro g b
    simp only [coalescePrev]
    split <;> simp
  simp only [kfree, kfreeLocked] at he
  split at he
  · rw [Except.ok.inj he]
  split at he
  · cases he
  · rw [← Except.ok.inj he, freeListAdd_heapEnd, hprev, hnext, put_heapEnd]

lemma wf_empty (m : Mem) : Wf ⟨m, 0, 0, heapVirtBase⟩ [] [] := by
  refine ⟨⟨rfl, rfl⟩, rfl, List.nodup_nil, fun b => by simp, List.isChain_nil, ?_⟩
  exact Nat.le_add_right _ _

lemma heapStart.inv (hs : heapStart c) : ∃ bs fl, ClientInv c bs fl := by
  obtain ⟨m, o, h, hi, rfl⟩ := hs
  cases o with
  | noPage | mapFailed => simp [heapInit, expand] at hi
  | mapped fill =>
    obtain ⟨h', bs, fl, he, hw, -, hend⟩ := expand_spec (wf_empty m) fill
      (by simp only [osPageSize]; omega)
    simp only [heapInit, he, Except.ok.injEq] at hi
    subst hi
    refine ⟨bs, fl, hw, by simp, List.Pairwise.nil, by simp [ExpandOutcome.pages, pmmMaxPages], ?_⟩
    rw [hend]
    simp [ExpandOutcome.pages]

lemma Keeps.held {P : ℕ → Prop} {h h' : State} {bs' : List ℕ} {p size : ℕ}
    (hk : Keeps P h bs h' bs') (hh : Held h bs p size) (hP : ∀ b, p = b + sizeofBlock → P b) :
    Held h' bs' p size ∧ ∀ y, p ≤ y → y < p + size → h'.mem y = h.mem y := by
  obtain ⟨b, hb, rfl, hu, hs⟩ := hh
  obtain ⟨hb', hu', hs', hm⟩ := hk b hb (hP b rfl) hu
  refine ⟨⟨b, hb', rfl, hu', by rw [hs']; exact hs⟩, fun y hy1 hy2 => hm y hy1 (by omega)⟩

section

variable (hi : ClientInv c bs fl)
include hi

/-- An allowed request keeps the heap below the 64 GiB the page allocator manages. -/
lemma ClientInv.supply_bound {size : ℕ} {supply : List ExpandOutcome} (ha : c.Allowed (.kmalloc size supply)) :
    c.heap.heapEnd + osPageSize * suppliedPages supply ≤ heapVirtBase + 2 ^ 36 := by
  have hg := hi.grown
  simp only [Client.Allowed, pmmMaxPages] at ha
  simp only [osPageSize] at hg ⊢
  omega

lemma ClientInv.kmalloc (size : ℕ) (supply : List ExpandOutcome) (ha : c.Allowed (.kmalloc size supply)) :
    ∃ c' bs' fl', c.perform (.kmalloc size supply) = .ok c' ∧ ClientInv c' bs' fl' ∧ ∀ x, Survives x c c' := by
  obtain ⟨p, h', bs', fl', he, hw, hk, hend, hall⟩ :=
    kmalloc_spec hi.wf supply (hi.supply_bound ha) size
  have hkept : ∀ x ∈ c.live, Held h' bs' x.1 x.2 ∧ ∀ y, x.1 ≤ y → y < x.1 + x.2 → h'.mem y = c.heap.mem y :=
    fun x hx => hk.held (hi.held x hx) fun _ _ => trivial
  have hgrown : h'.heapEnd ≤ heapVirtBase + osPageSize * (c.pages + suppliedPages supply) := by
    have hg := hi.grown
    rw [mul_add]
    omega
  refine ⟨_, bs', fl', by simp only [Client.perform, he]; rfl, ?_, ?_⟩
  · by_cases hp : p = 0
    · rw [if_pos hp]
      exact ⟨hw, fun x hx => (hkept x hx).1, hi.apart, ha, hgrown⟩
    rw [if_neg hp]
    refine ⟨hw, ?_, ?_, ha, hgrown⟩
    · intro x hx
      rcases List.mem_cons.mp hx with rfl | hx
      · exact (hall hp).held
      · exact (hkept x hx).1
    refine List.Pairwise.cons ?_ hi.apart
    rintro x hx rfl
    exact (hall hp).fresh x.2 (hi.held x hx)
  · intro x hx
    refine ⟨?_, (hkept x hx).2⟩
    dsimp only
    split
    · exact hx
    · exact List.mem_cons_of_mem _ hx

lemma ClientInv.kfree (p : ℕ) (ha : c.Allowed (.kfree p)) :
    ∃ c' bs' fl', c.perform (.kfree p) = .ok c' ∧ ClientInv c' bs' fl' ∧ ∀ x, x.1 ≠ p → Survives x c c' := by
  have hmem : ∀ {x}, x ∈ c.live.filter (fun x => x.1 ≠ p) ↔ x ∈ c.live ∧ x.1 ≠ p := by
    intro x
    simp [List.mem_filter]
  have hnull : p = 0 → Heap.kfree c.heap p = .ok c.heap := fun h0 => by simp [Heap.kfree, h0]
  have hfree : ∃ h' bs' fl', Heap.kfree c.heap p = .ok h' ∧ Wf h' bs' fl' ∧
      Keeps (fun b => b + sizeofBlock ≠ p) c.heap bs h' bs' := by
    rcases ha with h0 | ⟨size, hlive⟩
    · exact ⟨c.heap, bs, fl, hnull h0, hi.wf, .refl _ _ _⟩
    obtain ⟨b, hb, hp, hu, -⟩ := hi.held _ hlive
    obtain ⟨h', bs', fl', he, hw, hk⟩ := kfree_spec hi.wf hb hu
    refine ⟨h', bs', fl', by rw [← he, ← hp], hw, hk.mono ?_⟩
    rintro x hx rfl
    exact hx hp.symm
  obtain ⟨h', bs', fl', he, hw, hk⟩ := hfree
  have hkept : ∀ x ∈ c.live, x.1 ≠ p → Held h' bs' x.1 x.2 ∧
      ∀ y, x.1 ≤ y → y < x.1 + x.2 → h'.mem y = c.heap.mem y := by
    intro x hx hxp
    refine hk.held (hi.held x hx) ?_
    rintro b hb rfl
    exact hxp hb
  refine ⟨_, bs', fl', by simp only [Client.perform, he]; rfl, ?_, ?_⟩
  · refine ⟨hw, fun x hx => ?_, hi.apart.filter _, hi.budget, ?_⟩
    swap
    · exact (kfree_heapEnd he).le.trans hi.grown
    obtain ⟨hxl, hxp⟩ := hmem.mp hx
    exact (hkept x hxl hxp).1
  · exact fun x hxp hx => ⟨hmem.mpr ⟨hx, hxp⟩, (hkept x hx hxp).2⟩

omit hi in
lemma Wf.store {h : State} {p size a : ℕ} (hw : Wf h bs fl) (hh : Held h bs p size)
    (ha1 : p ≤ a) (ha2 : a < p + size) (v : UInt8) :
    (∀ b ∈ bs, ∀ f, State.get { h with mem := update h.mem a v } b f = h.get b f) ∧
      Wf { h with mem := update h.mem a v } bs fl := by
  obtain ⟨x, hx, rfl, hu, hs⟩ := hh
  have hget : ∀ b ∈ bs, ∀ f, State.get { h with mem := update h.mem a v } b f = h.get b f := by
    intro b hb f
    have hout := hw.blocks.payload_apart hx ha1 (by omega) b hb
    have hoff := f.off_add_width_le
    simp only [State.get]
    exact readLE_congr fun i _ _ => update_of_ne (by omega) _ _
  have hl := hw.listed.congr (t := { h with mem := update h.mem a v }) rfl fun b hb f _ _ => hget b hb f
  refine ⟨hget, hw.blocks.same_shape fun b hb f _ _ => hget b hb f, hl.links, hl.once, hl.free_iff, ?_, hw.bound⟩
  exact NotBothFree.isChain_congr hw.coalesced fun b hb => hget b hb _

lemma ClientInv.store (a : ℕ) (v : UInt8) (ha : c.Allowed (.store a v)) :
    ∃ c', c.perform (.store a v) = .ok c' ∧ ClientInv c' bs fl ∧ ∀ x, a < x.1 ∨ x.1 + x.2 ≤ a → Survives x c c' := by
  obtain ⟨x, hx, hx1, hx2⟩ := ha
  obtain ⟨hget, hw⟩ := hi.wf.store (hi.held x hx) hx1 hx2 v
  refine ⟨_, rfl, ⟨hw, fun z hz => ?_, hi.apart, hi.budget, hi.grown⟩, ?_⟩
  · obtain ⟨b, hb, hp, hu, hs⟩ := hi.held z hz
    exact ⟨b, hb, hp, by rw [hget b hb, hu], by rw [hget b hb]; exact hs⟩
  · exact fun z hz hzl => ⟨hzl, fun y hy1 hy2 => update_of_ne (by omega) _ _⟩

lemma ClientInv.perform (call : Call) (ha : c.Allowed call) :
    ∃ c' bs' fl', c.perform call = .ok c' ∧ ClientInv c' bs' fl' ∧ ∀ x, Spares x call → Survives x c c' := by
  cases call with
  | kmalloc size supply =>
    obtain ⟨c', bs', fl', he, hi', hs⟩ := hi.kmalloc size supply ha
    exact ⟨c', bs', fl', he, hi', fun x _ => hs x⟩
  | kfree p =>
    obtain ⟨c', bs', fl', he, hi', hs⟩ := hi.kfree p ha
    exact ⟨c', bs', fl', he, hi', fun x hx => hs x (Ne.symm hx)⟩
  | store a v =>
    obtain ⟨c', he, hi', hs⟩ := hi.store a v ha
    exact ⟨c', bs, fl, he, hi', hs⟩

lemma ClientInv.step {call : Call} (hs : heapStep c call c') :
    (∃ bs' fl', ClientInv c' bs' fl') ∧ ∀ x, Spares x call → Survives x c c' := by
  obtain ⟨c1, bs1, fl1, he, hi1, hsv⟩ := hi.perform call hs.1
  obtain rfl : c1 = c' := Except.ok.inj (he.symm.trans hs.2)
  exact ⟨⟨bs1, fl1, hi1⟩, hsv⟩

end

lemma reachable_inv (hc : Reachable heapStep heapStart c) : ∃ bs fl, ClientInv c bs fl :=
  hc.invariant (fun _ hs => hs.inv) fun _ _ _ ⟨_, _, hi⟩ hs => (hi.step hs).1

lemma Survives.trans {x : ℕ × ℕ} {c c' c'' : Client} (h1 : Survives x c c')
    (h2 : Survives x c' c'') : Survives x c c'' := by
  intro hx
  obtain ⟨hx', hm'⟩ := h1 hx
  obtain ⟨hx'', hm''⟩ := h2 hx'
  exact ⟨hx'', fun y hy1 hy2 => (hm'' y hy1 hy2).trans (hm' y hy1 hy2)⟩

lemma Held.inside {h : State} {p size : ℕ} (hw : Wf h bs fl) (hh : Held h bs p size) :
    heapVirtBase ≤ p ∧ p + size ≤ h.heapEnd ∧ ∀ b ∈ bs, p + size ≤ b ∨ b + sizeofBlock ≤ p := by
  obtain ⟨x, hx, rfl, hu, hs⟩ := hh
  obtain ⟨h1, h2, h3⟩ := hw.blocks.bounds x hx
  refine ⟨by omega, by omega, fun b hb => ?_⟩
  by_cases hxb : x = b
  · exact .inr (by rw [hxb])
  have hd := hw.blocks.disjoint x hx b hb hxb
  have hb3 := (hw.blocks.bounds b hb).2.2
  simp only [minSplit] at hb3
  omega

lemma Held.apart {h : State} {p size q size' : ℕ} (hw : Wf h bs fl) (hp : Held h bs p size)
    (hq : Held h bs q size') (hne : p ≠ q) : p + size ≤ q ∨ q + size' ≤ p := by
  obtain ⟨x, hx, rfl, -, hs⟩ := hp
  obtain ⟨z, hz, rfl, -, hs'⟩ := hq
  have hd := hw.blocks.disjoint x hx z hz (by rintro rfl; exact hne rfl)
  omega

end

/-- The heap after `heap_init` on a zeroed machine. -/
def firstHeap : State := (expand ⟨fun _ => 0, 0, 0, heapVirtBase⟩ (.mapped fun _ => 0)).2

lemma heapStart_firstHeap : heapStart ⟨firstHeap, [], 1⟩ :=
  ⟨fun _ => 0, .mapped fun _ => 0, firstHeap, rfl, rfl⟩

lemma kmalloc_firstHeap : (kmalloc firstHeap 100 []).toOption.map Prod.fst = some (heapVirtBase + sizeofBlock) := by
  decide +kernel

lemma exists_live_client : ∃ c, Reachable heapStep heapStart c ∧ c.pages = 1 ∧
    c.live = [(heapVirtBase + sizeofBlock, 100)] ∧
    (kmalloc firstHeap 100 []).toOption.map Prod.snd = some c.heap := by
  have hk := kmalloc_firstHeap
  rcases he : kmalloc firstHeap 100 [] with e | ⟨p, h⟩
  · rw [he] at hk
    exact absurd hk (by simp [Except.toOption])
  rw [he] at hk
  obtain rfl : p = heapVirtBase + sizeofBlock := by simpa [Except.toOption] using hk
  refine ⟨⟨h, [(heapVirtBase + sizeofBlock, 100)], 1⟩, ⟨_, [.kmalloc 100 []],
    heapStart_firstHeap, .cons ⟨?_, ?_⟩ (.nil _)⟩, rfl, rfl, rfl⟩
  · simp [Client.Allowed, suppliedPages, pmmMaxPages]
  · simp [Client.perform, he, suppliedPages, heapVirtBase]

/-- In every state of every run the heap is well-formed and no further call can
panic or loop. -/
theorem heap_invariant {c : Client} (hc : Reachable heapStep heapStart c) :
    (∃ bs fl, Wf c.heap bs fl) ∧ ∀ call, c.Allowed call → ∃ c', c.perform call = .ok c' := by
  obtain ⟨bs, fl, hi⟩ := reachable_inv hc
  refine ⟨⟨bs, fl, hi.wf⟩, fun call ha => ?_⟩
  obtain ⟨c', _, _, he, _⟩ := hi.perform call ha
  exact ⟨c', he⟩

/-- The first block is split for a request, and merged with the rest when it is freed. -/
theorem heap_invariant_freed : ∃ c c' : Client, Reachable heapStep heapStart c ∧
    c.live = [(heapVirtBase + sizeofBlock, 100)] ∧
    Run heapStep c [.kfree (heapVirtBase + sizeofBlock)] c' ∧ ∃ bs fl, Wf c'.heap bs fl := by
  obtain ⟨c, hc, -, hlive, -⟩ := exists_live_client
  have ha : c.Allowed (.kfree (heapVirtBase + sizeofBlock)) := by simp [Client.Allowed, hlive]
  obtain ⟨c', he⟩ := (heap_invariant hc).2 _ ha
  have hrun : Run heapStep c [.kfree (heapVirtBase + sizeofBlock)] c' := .cons ⟨ha, he⟩ (.nil _)
  obtain ⟨s, as, hs, hbefore⟩ := hc
  exact ⟨c, c', ⟨s, as, hs, hbefore⟩, hlive, hrun, (heap_invariant ⟨s, _, hs, hbefore.append hrun⟩).1⟩

/-- In every state of every run each live allocation lies inside the heap, apart
from the other ones and from all headers; and along any further run its bytes stay
as they are until it is freed or its holder writes to them. -/
theorem heap_live_allocations {c : Client} (hc : Reachable heapStep heapStart c) :
    (∃ bs fl, Wf c.heap bs fl ∧ ∀ x ∈ c.live, heapVirtBase ≤ x.1 ∧
      x.1 + x.2 ≤ c.heap.heapEnd ∧ ∀ b ∈ bs, x.1 + x.2 ≤ b ∨ b + sizeofBlock ≤ x.1) ∧
    c.live.Pairwise (fun x y => x.1 + x.2 ≤ y.1 ∨ y.1 + y.2 ≤ x.1) ∧
    ∀ x ∈ c.live, ∀ calls c', Run heapStep c calls c' → (∀ call ∈ calls, Spares x call) →
      x ∈ c'.live ∧ ∀ y, x.1 ≤ y → y < x.1 + x.2 → c'.heap.mem y = c.heap.mem y := by
  obtain ⟨bs, fl, hi⟩ := reachable_inv hc
  refine ⟨⟨bs, fl, hi.wf, fun x hx => (hi.held x hx).inside hi.wf⟩, ?_, ?_⟩
  · refine hi.apart.imp_of_mem fun hx hy hne => ?_
    exact (hi.held _ hx).apart hi.wf (hi.held _ hy) hne
  intro x hx calls c' hrun hsp
  have hsv : Survives x c c' := by
    refine hrun.relates (I := fun s => ∃ bs fl, ClientInv s bs fl)
      (fun s hs => ⟨hs, fun _ _ _ => rfl⟩)
      (fun _ _ _ h1 h2 => h1.trans h2) ?_ ⟨bs, fl, hi⟩ hsp
    rintro s call t ⟨bs1, fl1, hi1⟩ hP hstep
    obtain ⟨hi2, hsv⟩ := hi1.step hstep
    exact ⟨hi2, hsv x hP⟩
  exact hsv hx

/-- A second allocation leaves the bytes of the first one alone. -/
theorem heap_live_allocations_two : ∃ c c' : Client, Reachable heapStep heapStart c ∧
    c.live = [(heapVirtBase + sizeofBlock, 100)] ∧ Run heapStep c [.kmalloc 50 []] c' ∧
    ∀ y, heapVirtBase + sizeofBlock ≤ y → y < heapVirtBase + sizeofBlock + 100 → c'.heap.mem y = c.heap.mem y := by
  obtain ⟨c, hc, hpages, hlive, -⟩ := exists_live_client
  obtain ⟨bs, fl, hi⟩ := reachable_inv hc
  have ha : c.Allowed (.kmalloc 50 []) := by simp [Client.Allowed, suppliedPages, pmmMaxPages, hpages]
  obtain ⟨c', _, _, he, _⟩ := hi.perform _ ha
  have hrun : Run heapStep c [.kmalloc 50 []] c' := .cons ⟨ha, he⟩ (.nil _)
  refine ⟨c, c', hc, hlive, hrun, ?_⟩
  exact ((heap_live_allocations hc).2.2 (heapVirtBase + sizeofBlock, 100) (by simp [hlive])
    _ _ hrun (by simp [Spares])).2

end AetherOS.Heap
