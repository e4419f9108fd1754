import AetherOS.HeapRuns

/-!
# What growing the heap yields

Each `expand` puts the block it grew or made at the head of the free list and at
the top of the heap, so the pages one call of `kmalloc` adds form one block. The
second walk over the free list ends at that block at once. This decides when
`kmalloc` fails and which address it returns.
-/
namespace AetherOS.Heap
open ByteMemory LinkedList Runs

/-- The header and the request, rounded up to a multiple of 16. -/
def requestTotal (size : ℕ) : ℕ := wrap64 (wrap64 (size + 15) / 16 * 16 + sizeofBlock)

/-- The pages `kmalloc` adds when nothing on the free list fits. -/
def requestPages (size : ℕ) : ℕ := wrap64 (requestTotal size + osPageSize - 1) / osPageSize

/-- The block the next page goes to: the topmost one if it is free, else a new one. -/
def grownBlock (h : State) : ℕ :=
  if h.heapLast ≠ 0 ∧ h.get h.heapLast .flags = blockFree then h.heapLast else h.heapEnd

/-- The block that serves a request of `total` bytes, header included. -/
def servingBlock (h : State) (total : ℕ) : ℕ :=
  match firstFit h total (walkFuel h) h.freeList with
  | .error _ => 0
  | .ok b => if b ≠ 0 then b else grownBlock h

/-- Every `expand` that `kmalloc` performs for `size` bytes succeeds. -/
def ExpandsSucceed (h : State) (size : ℕ) (supply : List ExpandOutcome) : Prop :=
  firstFit h (requestTotal size) (walkFuel h) h.freeList = .ok 0 → (expandPages (requestPages size) h supply).1 = true

/-- `b` is the topmost block, free, and the first of the free list. -/
structure OnTop (h : State) (b : ℕ) : Prop where
  last : h.heapLast = b
  first : h.freeList = b
  free : h.get b .flags = blockFree
  size : b + h.get b .size = h.heapEnd

section

variable {h : State} {bs fl : List ℕ} {supply : List ExpandOutcome} {b total : ℕ}

@[simp] lemma freeListAdd_freeList (h : State) (b : ℕ) : (freeListAdd h b).freeList = b := by
  simp only [freeListAdd]
  split <;> rfl

@[simp] lemma freeListAdd_heapLast (h : State) (b : ℕ) : (freeListAdd h b).heapLast = h.heapLast := by
  simp only [freeListAdd]
  split <;> rfl

@[simp] lemma freeListRemove_heapLast (h : State) (b : ℕ) : (freeListRemove h b).heapLast = h.heapLast := by
  simp only [freeListRemove, put_heapLast]
  split <;> split <;> rfl

section

variable (hw : Wf h bs fl)
include hw

lemma Wf.head_free (h0 : h.freeList ≠ 0) : h.freeList ∈ bs ∧ h.get h.freeList .flags = blockFree := by
  have hd := hw.links
  cases fl with
  | nil => exact absurd hd h0
  | cons b fl =>
    obtain ⟨hb, -⟩ := hd
    rw [hb]
    exact (hw.free_iff b).mp (by simp)

lemma Wf.last_size (h0 : h.heapLast ≠ 0) : h.heapLast + h.get h.heapLast .size = h.heapEnd := by
  rcases hw.blocks.last_cases with ⟨_, hz⟩ | ⟨l, hl⟩
  · exact absurd hz h0
  have hb := hw.blocks
  rw [hl] at hb
  rcases hb.above with ⟨_, hend, _⟩ | ⟨n, t, hr, _⟩
  · exact hend
  · exact absurd hr (by simp)

lemma Wf.base_le_heapEnd : heapVirtBase ≤ h.heapEnd := hw.blocks.le

lemma Wf.grownBlock_bounds : grownBlock h ≠ 0 ∧ grownBlock h ≤ h.heapEnd := by
  have hpos := heapVirtBase_pos
  have hle := hw.base_le_heapEnd
  rw [grownBlock]
  split
  next hlast =>
    have hs := hw.last_size hlast.1
    exact ⟨hlast.1, by omega⟩
  · exact ⟨by omega, le_rfl⟩

end

lemma OnTop.grownBlock_eq (ht : OnTop h b) (h0 : b ≠ 0) : grownBlock h = b := by
  rw [grownBlock, if_pos]
  · exact ht.last
  · rw [ht.last]
    exact ⟨h0, ht.free⟩

lemma expand_onTop (hw : Wf h bs fl) (fill : ℕ → UInt8) (hb : h.heapEnd + osPageSize ≤ heapVirtBase + 2 ^ 36) :
    ∃ h' bs' fl', expand h (.mapped fill) = (true, h') ∧ Wf h' bs' fl' ∧
      h'.heapEnd = h.heapEnd + osPageSize ∧ OnTop h' (grownBlock h) := by
  obtain ⟨h', bs', fl', he, hw', -, hend⟩ := expand_spec hw fill hb
  have hplace : h'.heapLast = grownBlock h ∧ h'.freeList = grownBlock h := by
    have he2 : h' = (expand h (.mapped fill)).2 := by rw [he]
    rw [he2]
    simp only [expand, growEnd_heapLast, hw.last_free_growEnd, grownBlock]
    split <;> simp
  have h0 := hw.grownBlock_bounds.1
  refine ⟨h', bs', fl', he, hw', hend, hplace.1, hplace.2, ?_, ?_⟩
  · have hfree := (hw'.head_free (by rw [hplace.2]; exact h0)).2
    rwa [hplace.2] at hfree
  · have hsize := hw'.last_size (by rw [hplace.1]; exact h0)
    rwa [hplace.1] at hsize

lemma expandPages_first {n : ℕ}
    (hok : (expandPages (n + 1) h supply).1 = true) : ∃ fill os, supply = .mapped fill :: os := by
  rcases supply with _ | ⟨_ | _ | fill, os⟩
  · simp [expandPages] at hok
  · simp [expandPages, expand] at hok
  · simp [expandPages, expand] at hok
  · exact ⟨fill, os, rfl⟩

lemma expandPages_onTop (n : ℕ) {h : State} {bs fl : List ℕ} {supply : List ExpandOutcome} (hw : Wf h bs fl)
    (hb : h.heapEnd + osPageSize * suppliedPages supply ≤ heapVirtBase + 2 ^ 36)
    (hok : (expandPages (n + 1) h supply).1 = true) :
    ∃ bs' fl', Wf (expandPages (n + 1) h supply).2 bs' fl' ∧
      (expandPages (n + 1) h supply).2.heapEnd = h.heapEnd + osPageSize * (n + 1) ∧
      OnTop (expandPages (n + 1) h supply).2 (grownBlock h) := by
  obtain ⟨fill, os, rfl⟩ := expandPages_first hok
  simp only [suppliedPages, List.map_cons, List.sum_cons, ExpandOutcome.pages, mul_add] at hb
  obtain ⟨h1, bs1, fl1, he, hw1, hend, htop⟩ := expand_onTop hw fill (by omega)
  have hstep : expandPages (n + 1) h (.mapped fill :: os) = expandPages n h1 os := by rw [expandPages, he]
  rw [hstep] at hok ⊢
  cases n with
  | zero => exact ⟨bs1, fl1, hw1, hend, htop⟩
  | succ n =>
    obtain ⟨bs2, fl2, hw2, hend2, htop2⟩ := expandPages_onTop n hw1 (by simp only [suppliedPages]; omega) hok
    rw [htop.grownBlock_eq hw.grownBlock_bounds.1] at htop2
    refine ⟨bs2, fl2, hw2, ?_, htop2⟩
    rw [hend2, hend]
    simp only [osPageSize]
    omega

lemma OnTop.firstFit_eq (ht : OnTop h b) (hs : total ≤ h.get b .size) :
    firstFit h total (walkFuel h) h.freeList = .ok b := by
  have hns : ¬h.get b .size < total := by omega
  rw [walkFuel, ht.first, firstFit, if_neg (fun hc => hns hc.2)]

/-- What an allocation hands out: the serving block, or nothing if growing failed.
A total so large that the page count wraps finds nothing either. -/
lemma allocTotal_cases (hw : Wf h bs fl)
    (hb : h.heapEnd + osPageSize * suppliedPages supply ≤ heapVirtBase + 2 ^ 36)
    (hmin : minSplit ≤ total) (hlt : total < 2 ^ 64) :
    ∃ p h', allocTotal h total supply = .ok (p, h') ∧ (p = servingBlock h total + sizeofBlock ∨
      p = 0 ∧ firstFit h total (walkFuel h) h.freeList = .ok 0 ∧ (total + osPageSize ≤ 2 ^ 64 →
        (expandPages (wrap64 (total + osPageSize - 1) / osPageSize) h supply).1 = false)) := by
  rw [allocTotal, servingBlock]
  rcases firstFit_spec hw total with he | ⟨b, hb', he, hb0, hf, hs⟩
  swap
  · obtain ⟨-, -, -, hp, -⟩ := takeBlock_spec hw hb' hf hmin hs
    refine ⟨(takeBlock h b total).1, (takeBlock h b total).2, by simp [he, hb0], .inl ?_⟩
    simp only [he, ne_eq, hb0, not_false_eq_true, if_true]
    exact hp
  simp only [he, ne_eq, not_true_eq_false, if_false]
  by_cases hwrap : 2 ^ 64 < total + osPageSize
  · -- the sum wraps, no page is added and the second walk ends like the first
    have hpages : wrap64 (total + osPageSize - 1) / osPageSize = 0 := by
      simp only [wrap64, osPageSize] at hwrap ⊢
      omega
    rw [hpages]
    exact ⟨0, h, by simp [expandPages, he], .inr ⟨rfl, trivial, fun hle => by omega⟩⟩
  have hpages : wrap64 (total + osPageSize - 1) / osPageSize = (total - 1) / osPageSize + 1 := by
    simp only [minSplit] at hmin
    rw [wrap64_of_lt (by omega)]
    simp only [osPageSize]
    omega
  rw [hpages]
  rcases hg : expandPages ((total - 1) / osPageSize + 1) h supply with ⟨ok, h1⟩
  cases ok with
  | false => exact ⟨0, h1, rfl, .inr ⟨rfl, trivial, fun _ => rfl⟩⟩
  | true =>
    obtain ⟨bs1, fl1, hw1, hend1, htop⟩ := expandPages_onTop _ hw hb (by rw [hg])
    rw [hg] at hw1 hend1 htop
    dsimp only at hw1 hend1 htop ⊢
    obtain ⟨hn0, hle⟩ := hw.grownBlock_bounds
    have hs : total ≤ h1.get (grownBlock h) .size := by
      have hsz := htop.size
      simp only [osPageSize] at hend1
      omega
    have hfit := htop.firstFit_eq hs
    have hmem : grownBlock h ∈ bs1 := by
      have hm := hw1.heapLast_mem (by rw [htop.last]; exact hn0)
      rwa [htop.last] at hm
    obtain ⟨-, -, -, hp, -⟩ := takeBlock_spec hw1 hmem htop.free hmin hs
    exact ⟨(takeBlock h1 (grownBlock h) total).1, (takeBlock h1 (grownBlock h) total).2,
      by simp [hfit, hn0], .inl hp⟩

/-- Every call of `kmalloc` returns the payload of the block that serves it, or null. -/
lemma kmalloc_cases (size : ℕ) (hw : Wf h bs fl)
    (hb : h.heapEnd + osPageSize * suppliedPages supply ≤ heapVirtBase + 2 ^ 36) :
    ∃ p h', kmalloc h size supply = .ok (p, h') ∧ (p = servingBlock h (requestTotal size) + sizeofBlock ∨
      p = 0 ∧ (1 ≤ size → size ≤ 2 ^ 36 → ¬ExpandsSucceed h size supply)) := by
  by_cases hz : size = 0
  · exact ⟨0, h, by simp [kmalloc, hz], .inr ⟨rfl, fun h1 => by omega⟩⟩
  by_cases hbig : size > uint64Max - sizeofBlock - 16
  · refine ⟨0, h, by rw [kmalloc, if_neg hz, kmallocLocked, if_pos hbig], .inr ⟨rfl, ?_⟩⟩
    intro _ hs
    simp only [uint64Max, sizeofBlock] at hbig
    omega
  obtain ⟨-, hmin⟩ := request_total hz (Nat.le_of_not_gt hbig)
  have hlt : requestTotal size < 2 ^ 64 := Nat.mod_lt _ (by decide)
  obtain ⟨p, h', he, hcases⟩ := allocTotal_cases hw hb hmin hlt
  refine ⟨p, h', by rw [kmalloc, if_neg hz, kmallocLocked, if_neg hbig, he], ?_⟩
  refine hcases.imp_right (And.imp_right fun hnone _ hs hgrow => ?_)
  have hsmall : requestTotal size + osPageSize ≤ 2 ^ 64 := by
    simp only [requestTotal, osPageSize, wrap64, sizeofBlock]
    omega
  have hok := hgrow hnone.1
  rw [requestPages, requestTotal] at hok
  rw [requestTotal] at hsmall
  rw [hnone.2 hsmall] at hok
  exact absurd hok (by simp)

end

/-- A request that finds every page it asks for is served. -/
theorem kmalloc_served {c : Client} (hc : Reachable heapStep heapStart c) {size : ℕ}
    {supply : List ExpandOutcome} (ha : c.Allowed (.kmalloc size supply)) (h1 : 1 ≤ size)
    (h36 : size ≤ 2 ^ 36) (hgrow : ExpandsSucceed c.heap size supply) :
    ∃ p h' bs fl, kmalloc c.heap size supply = .ok (p, h') ∧ p ≠ 0 ∧ Wf h' bs fl ∧ Held h' bs p size := by
  obtain ⟨bs, fl, hi⟩ := reachable_inv hc
  obtain ⟨p, h', bs', fl', he, hw', -, -, hall⟩ := kmalloc_spec hi.wf supply (hi.supply_bound ha) size
  obtain ⟨q, t, hq, hp | ⟨-, hfail⟩⟩ := kmalloc_cases size hi.wf (hi.supply_bound ha)
  · obtain ⟨rfl, rfl⟩ := Prod.mk.inj (Except.ok.inj (he.symm.trans hq))
    have hp0 : p ≠ 0 := by simp [hp, sizeofBlock]
    exact ⟨p, h', bs', fl', he, hp0, hw', (hall hp0).held⟩
  · exact absurd hgrow (hfail h1 h36)

/-- Two pages for a request of 5000 bytes that the first page cannot serve. -/
theorem kmalloc_served_twoPages :
    ∃ p h' bs fl, kmalloc firstHeap 5000 [.mapped fun _ => 0, .mapped fun _ => 0] = .ok (p, h') ∧
      p ≠ 0 ∧ Wf h' bs fl ∧ Held h' bs p 5000 :=
  kmalloc_served (c := ⟨firstHeap, [], 1⟩) ⟨_, [], heapStart_firstHeap, .nil _⟩
    (by simp [Client.Allowed, suppliedPages, ExpandOutcome.pages, pmmMaxPages])
    (by decide) (by decide) (fun _ => by decide +kernel)

end AetherOS.Heap
