import AetherOS.HeapOperations

/-!
# Growing the heap and allocating from it

A page obtained by `expand` either extends the trailing free block or becomes a
block of its own. With the first-fit walk over the free list this gives the
specification of `kmalloc`, for every size and every pattern of failures.
-/
namespace AetherOS.Heap
open ByteMemory LinkedList List Nat Tiling

variable {h : State} {bs fl l r : List ℕ} {b a e last p size total : ℕ} {g : ℕ → Field → ℕ}

lemma Keeps.refl (P : ℕ → Prop) (h : State) (bs : List ℕ) : Keeps P h bs h bs :=
  fun _ hx _ hu => ⟨hx, hu, rfl, fun _ _ _ => rfl⟩

@[simp] lemma growEnd_heapLast (h : State) (fill : ℕ → UInt8) :
    (growEnd h fill).heapLast = h.heapLast := rfl

lemma growEnd_heapEnd (h : State) (fill : ℕ → UInt8) (hb : h.heapEnd + osPageSize ≤ heapVirtBase + 2 ^ 36) :
    (growEnd h fill).heapEnd = h.heapEnd + osPageSize := by
  simp only [growEnd]
  apply wrap64_of_lt
  simp only [heapVirtBase] at hb
  omega

lemma growEnd_mem (h : State) (fill : ℕ → UInt8) {y : ℕ} (hy : y < h.heapEnd) : (growEnd h fill).mem y = h.mem y := by
  simp only [growEnd]
  exact blit_outside _ _ (.inl hy)

lemma growEnd_get (h : State) (fill : ℕ → UInt8) {x : ℕ} (hx : x + sizeofBlock ≤ h.heapEnd)
    (f : Field) : (growEnd h fill).get x f = h.get x f := by
  have hf := f.off_add_width_le
  simp only [State.get, growEnd]
  exact readLE_blit_disjoint _ _ (.inr (by omega))

lemma Blocks.last_cases (hb : Blocks g 0 a bs last e) : (bs = [] ∧ last = 0) ∨ ∃ l, bs = l ++ [last] := by
  rcases eq_nil_or_concat' bs with rfl | ⟨l, b, rfl⟩
  · exact .inl ⟨rfl, hb.1⟩
  rcases hb.above with ⟨_, _, hlast⟩ | ⟨n, t, hr, _⟩
  · exact .inr ⟨l, by rw [hlast]⟩
  · exact absurd hr (by simp)

lemma Wf.below (hw : Wf h bs fl) : ∀ x ∈ bs, x + sizeofBlock ≤ h.heapEnd := by
  intro x hx
  obtain ⟨_, h2, h3⟩ := hw.blocks.bounds x hx
  simp only [minSplit] at h3
  omega

lemma Wf.keeps_growEnd (hw : Wf h bs fl) (fill : ℕ → UInt8) : Keeps (fun _ => True) h bs (growEnd h fill) bs := by
  intro x hx _ hu
  have htop := (hw.blocks.bounds x hx).2.1
  refine ⟨hx, ?_, growEnd_get h fill (hw.below x hx) _, fun y _ hy2 => growEnd_mem h fill (by omega)⟩
  rw [growEnd_get h fill (hw.below x hx), hu]

/-- The topmost block, which is pending, takes the `n` bytes above it. -/
lemma Blocks.grow_last {n : ℕ} (hb : Blocks h.get 0 heapVirtBase (l ++ [b]) b e) (hl : Listed h (l ++ []) fl)
    (hlast : h.heapLast = b) (hend : h.heapEnd = e + n) (hbound : h.heapEnd ≤ heapVirtBase + 2 ^ 36) :
    Pending (h.put b .size (h.get b .size + n)) l b [] fl := by
  have hlt := heapEnd_lt hbound
  have hlay := hb.layout heapVirtBase_pos (by omega)
  have hput : ∀ x ∈ l ++ [], ∀ f, (h.put b .size (h.get b .size + n)).get x f = h.get x f := by
    intro x hx f
    refine get_put_sep _ _ _ _ (hlay.sep b (by simp) x (mem_middle.mpr (.inr hx)) ?_)
    rintro rfl
    exact hb.notMem_middle hx
  have hputb : ∀ f, f ≠ .size → (h.put b .size (h.get b .size + n)).get b f = h.get b f :=
    fun f hf => get_put_field _ _ _ (Ne.symm hf)
  have hl' := hl.congr (t := h.put b .size (h.get b .size + n)) rfl fun x hx f _ _ => hput x hx f
  refine ⟨?_, hl'.links, hl'.once, hl'.free_iff, hbound⟩
  obtain ⟨q, d, hleft, h1, h2, h3, h4, h5, -, h6⟩ := Blocks.append_iff.mp hb
  have hsize : (h.put b .size (h.get b .size + n)).get b .size = h.get b .size + n :=
    get_put_word _ b rfl (by omega)
  rw [put_heapLast, put_heapEnd, hlast, hend]
  refine Blocks.append_iff.mpr ⟨q, d, hleft.same_shape fun x hx f _ _ => hput x (by simp [hx]) f, ?_⟩
  simp only [Blocks, hsize, hputb .magic (by decide), hputb .flags (by decide), hputb .prev (by decide)]
  exact ⟨h1, h2, h3, by omega, h5, trivial, by omega⟩

lemma expand_coalesce (hw : Wf h (l ++ [b]) fl) (hlast : h.heapLast = b)
    (hf : h.get b .flags = blockFree) (fill : ℕ → UInt8) (hb : h.heapEnd + osPageSize ≤ heapVirtBase + 2 ^ 36) :
    ∃ h' fl', expand h (.mapped fill) = (true, h') ∧ Wf h' (l ++ [b]) fl' ∧
      Keeps (fun _ => True) h (l ++ [b]) h' (l ++ [b]) ∧
      h'.heapEnd = h.heapEnd + osPageSize := by
  have hend := growEnd_heapEnd h fill hb
  have hgrow : ∀ x ∈ l ++ [b], ∀ f, (growEnd h fill).get x f = h.get x f :=
    fun x hx f => growEnd_get h fill (hw.below x hx) f
  have hgb : (growEnd h fill).get b .flags = blockFree := by rw [hgrow b (by simp), hf]
  have hblocks := hw.blocks.same_shape fun x hx f _ _ => hgrow x hx f
  rw [hlast] at hblocks
  obtain ⟨hlinks, fl', hl⟩ := (hw.listed.congr (t := growEnd h fill) rfl fun x hx f _ _ => hgrow x hx f).remove
    hw.layout (fun _ hx => hx) hgb (fun _ => mem_middle) hw.blocks.notMem_middle
  have hrest := hblocks.same_shape hlinks.get_eq
  have hpend := hrest.grow_last (n := osPageSize) hl (hlinks.last_eq.trans hlast) (hlinks.end_eq.trans hend)
    (by rw [hlinks.end_eq, hend]; exact hb)
  let h1 := freeListRemove (growEnd h fill) b
  have hflags : ∀ x ∈ l ++ [b], (h1.put b .size
      (h1.get b .size + osPageSize)).get x .flags = h.get x .flags := by
    intro x hx
    rw [get_put_of_ne _ _ (hw.layout.sep b (by simp) x hx) (.inr (by decide)),
      hlinks.get_eq x hx _ (by decide) (by decide), hgrow x hx]
  obtain ⟨hlinks2, hwf⟩ := hpend.wf_add (by rw [hflags b (by simp), hf])
    (NotBothFree.isChain_congr hw.coalesced hflags)
  refine ⟨_, _, ?_, hwf, .of_free hf ?_, ?_⟩
  · have hbound := (hrest.bounds b (by simp)).2.1
    have hlt := heapEnd_lt hpend.bound
    rw [put_heapEnd, hlinks.end_eq, hend] at hlt
    simp [expand, growEnd_heapLast, hlast, hw.layout.pos b (by simp), hgb, hlinks.last_eq, put_heapLast,
      wrap64_of_lt (show (freeListRemove (growEnd h fill) b).get b .size + osPageSize < 2 ^ 64 by omega)]
  · have hput := hrest.keeps_put (b := b) hw.layout (by simp) .size
      (h1.get b .size + osPageSize)
    exact ((((hw.keeps_growEnd fill).mono fun _ _ => trivial).trans (hlinks.keeps _ hblocks)).trans
      (hput.mono fun _ hx => hx.2)).trans (hlinks2.keeps _ hpend.blocks)
  · rw [hlinks2.end_eq, put_heapEnd, hlinks.end_eq, hend]

lemma Wf.heapLast_mem (hw : Wf h bs fl) (h0 : h.heapLast ≠ 0) : h.heapLast ∈ bs := by
  rcases hw.blocks.last_cases with ⟨_, hz⟩ | ⟨l, hl⟩
  · exact absurd hz h0
  · rw [hl]
    simp

/-- The page behind the end does not change whether the last block is free. -/
lemma Wf.last_free_growEnd (hw : Wf h bs fl) (fill : ℕ → UInt8) :
    (h.heapLast ≠ 0 ∧ (growEnd h fill).get h.heapLast .flags = blockFree) ↔
      (h.heapLast ≠ 0 ∧ h.get h.heapLast .flags = blockFree) :=
  and_congr_right fun h0 => by rw [growEnd_get h fill (hw.below _ (hw.heapLast_mem h0))]

lemma expand_append (hw : Wf h bs fl)
    (hlast : ¬(h.heapLast ≠ 0 ∧ h.get h.heapLast .flags = blockFree)) (fill : ℕ → UInt8)
    (hb : h.heapEnd + osPageSize ≤ heapVirtBase + 2 ^ 36) :
    ∃ h' fl', expand h (.mapped fill) = (true, h') ∧ Wf h' (bs ++ [h.heapEnd]) fl' ∧
      Keeps (fun _ => True) h bs h' (bs ++ [h.heapEnd]) ∧
      h'.heapEnd = h.heapEnd + osPageSize := by
  have hend := growEnd_heapEnd h fill hb
  have hlastlt : h.heapLast < 2 ^ 64 := by
    by_cases h0 : h.heapLast = 0
    · omega
    · exact hw.layout.lt _ (hw.heapLast_mem h0)
  have hself := writeFreeHeader_self (growEnd h fill) h.heapEnd
    (show osPageSize < 2 ^ 64 by decide) hlastlt
  have hcond := hlast
  rw [← hw.last_free_growEnd fill] at hcond
  have hexpand : expand h (.mapped fill) = (true, freeListAdd ((writeFreeHeader (growEnd h fill) h.heapEnd
      osPageSize h.heapLast).setHeapLast h.heapEnd) h.heapEnd) := by simp [expand, growEnd_heapLast, hcond]
  generalize hm : (writeFreeHeader (growEnd h fill) h.heapEnd osPageSize h.heapLast).setHeapLast h.heapEnd = m
    at hexpand
  have hmend : m.heapEnd = h.heapEnd + osPageSize := by
    rw [← hm, setHeapLast_heapEnd, writeFreeHeader_heapEnd, hend]
  have hold : ∀ x ∈ bs, ∀ f, m.get x f = h.get x f := by
    intro x hx f
    rw [← hm, get_setHeapLast, writeFreeHeader_sep _ (.inr (hw.below x hx)), growEnd_get h fill (hw.below x hx)]
  have hpend : Pending m bs h.heapEnd [] fl := by
    have hl := hw.listed.congr (hm ▸ rfl) fun x hx f _ _ => hold x hx f
    refine ⟨?_, hl.links, hl.once, by rw [append_nil]; exact hl.free_iff, by rw [hmend]; exact hb⟩
    rw [hmend]
    refine Blocks.append_iff.mpr ⟨h.heapLast, h.heapEnd, hw.blocks.same_shape (fun x hx f _ _ => hold x hx f), ?_⟩
    simp only [Blocks, ← hm, get_setHeapLast, setHeapLast_heapLast, hself.1, hself.2.1, hself.2.2.1, hself.2.2.2]
    exact ⟨trivial, trivial, .inl trivial, by decide, trivial, trivial, trivial⟩
  have hchain : (bs ++ [h.heapEnd]).IsChain (NotBothFree m.get) := by
    refine isChain_middle (NotBothFree.isChain_congr hw.coalesced
      (fun x hx => hold x hx _)) isChain_nil ?_ (by simp)
    intro n hn hfn
    have hnm : n ∈ bs := mem_of_mem_getLast? hn
    rcases hw.blocks.last_cases with ⟨hnil, _⟩ | ⟨l, hl⟩
    · rw [hnil] at hnm
      exact absurd hnm (by simp)
    rw [hl] at hn
    simp only [getLast?_append, getLast?_singleton, Option.some_or, Option.mem_def, Option.some.injEq] at hn
    rw [hold n hnm, ← hn] at hfn
    exact hlast ⟨hw.layout.pos _ (hn ▸ hnm), hfn⟩
  obtain ⟨hlinks, hwf⟩ := hpend.wf_add (by rw [← hm, get_setHeapLast, hself.2.1]) hchain
  refine ⟨_, _, hexpand, hwf, ?_, hlinks.end_eq.trans hmend⟩
  intro x hx _ hu
  have hx' : x ∈ bs ++ [h.heapEnd] := by simp [hx]
  refine ⟨hx', ?_, ?_, fun y hy1 hy2 => ?_⟩
  · rw [hlinks.get_eq x hx' _ (by decide) (by decide), hold x hx, hu]
  · rw [hlinks.get_eq x hx' _ (by decide) (by decide), hold x hx]
  have htop := (hw.blocks.bounds x hx).2.1
  have hout : ∀ c ∈ bs ++ [h.heapEnd], y < c ∨ c + sizeofBlock ≤ y := by
    intro c hc
    rcases mem_append.mp hc with hc | hc
    · exact hw.blocks.payload_apart hx hy1 hy2 c hc
    · rw [mem_singleton.mp hc]
      exact .inl (by omega)
  rw [hlinks.mem_eq y hout, ← hm]
  exact (writeFreeHeader_mem _ (hout _ (by simp))).trans (growEnd_mem h fill (by omega))

/-- A successful `expand` adds one page and keeps everything else. -/
theorem expand_spec (hw : Wf h bs fl) (fill : ℕ → UInt8) (hb : h.heapEnd + osPageSize ≤ heapVirtBase + 2 ^ 36) :
    ∃ h' bs' fl', expand h (.mapped fill) = (true, h') ∧ Wf h' bs' fl' ∧
      Keeps (fun _ => True) h bs h' bs' ∧ h'.heapEnd = h.heapEnd + osPageSize := by
  by_cases hlast : h.heapLast ≠ 0 ∧ h.get h.heapLast .flags = blockFree
  · rcases hw.blocks.last_cases with ⟨_, h0⟩ | ⟨l, hl⟩
    · exact absurd h0 hlast.1
    subst hl
    obtain ⟨h', fl', hh⟩ := expand_coalesce hw rfl hlast.2 fill hb
    exact ⟨h', _, fl', hh⟩
  · obtain ⟨h', fl', hh⟩ := expand_append hw hlast fill hb
    exact ⟨h', _, fl', hh⟩

lemma Blocks.length_le (hb : Blocks g p a bs last e) : a + bs.length ≤ e :=
  hb.tiles.length_le fun n hn => by simp only [minSplit] at hn; omega

lemma Wf.length_lt_walkFuel (hw : Wf h bs fl) : fl.length < walkFuel h := by
  have hsub : fl ⊆ bs := fun x hx => ((hw.free_iff x).mp hx).1
  have hle := (hw.once.subperm hsub).length_le
  have hbs := hw.blocks.length_le
  simp only [walkFuel]
  omega

lemma firstFit_of_dll (h : State) (total : ℕ) {fl : List ℕ} {fuel : ℕ}
    (hd : Dll 0 (fun b => h.get b .nextFree) (fun b => h.get b .prevFree) p a fl) (hf : fl.length < fuel) :
    firstFit h total fuel a = .ok 0 ∨
      ∃ b ∈ fl, firstFit h total fuel a = .ok b ∧ b ≠ 0 ∧ total ≤ h.get b .size := by
  induction fuel generalizing fl p a with
  | zero => omega
  | succ n ih =>
    cases fl with
    | nil =>
      left
      simp only [Dll] at hd
      simp [firstFit, hd]
    | cons b fl =>
      obtain ⟨rfl, hb0, _, hrest⟩ := hd
      by_cases hs : h.get a .size < total
      · have hstep : firstFit h total (n + 1) a = firstFit h total n (h.get a .nextFree) := by
          simp [firstFit, hb0, hs]
        rw [hstep]
        rcases ih hrest (by simpa using hf) with h0 | ⟨c, hc, hcs⟩
        · exact .inl h0
        · exact .inr ⟨c, by simp [hc], hcs⟩
      · refine .inr ⟨a, by simp, ?_, hb0, by omega⟩
        simp [firstFit, hs]

/-- On a well-formed heap the walk returns null or a free block that fits. -/
theorem firstFit_spec (hw : Wf h bs fl) (total : ℕ) :
    firstFit h total (walkFuel h) h.freeList = .ok 0 ∨
      ∃ b ∈ bs, firstFit h total (walkFuel h) h.freeList = .ok b ∧ b ≠ 0 ∧
        h.get b .flags = blockFree ∧ total ≤ h.get b .size := by
  rcases firstFit_of_dll h total hw.links hw.length_lt_walkFuel with h0 | ⟨b, hb, he, hn, hs⟩
  · exact .inl h0
  · obtain ⟨hbs, hf⟩ := (hw.free_iff b).mp hb
    exact .inr ⟨b, hbs, he, hn, hf, hs⟩

/-- The pages a supply hands over at most. -/
def ExpandOutcome.pages : ExpandOutcome → ℕ
  | .mapped _ => 1
  | _ => 0

def suppliedPages (supply : List ExpandOutcome) : ℕ := (supply.map ExpandOutcome.pages).sum

lemma expandPages_spec (n : ℕ) : ∀ {h : State} {bs fl : List ℕ} (supply : List ExpandOutcome),
    Wf h bs fl → h.heapEnd + osPageSize * suppliedPages supply ≤ heapVirtBase + 2 ^ 36 →
    ∃ bs' fl', Wf (expandPages n h supply).2 bs' fl' ∧ Keeps (fun _ => True) h bs (expandPages n h supply).2 bs' ∧
      (expandPages n h supply).2.heapEnd ≤ h.heapEnd + osPageSize * suppliedPages supply := by
  induction n with
  | zero =>
    intro h bs fl supply hw _
    exact ⟨bs, fl, hw, .refl _ _ _, Nat.le_add_right _ _⟩
  | succ n ih =>
    intro h bs fl supply hw hb
    cases supply with
    | nil => exact ⟨bs, fl, hw, .refl _ _ _, Nat.le_add_right _ _⟩
    | cons o os =>
      simp only [suppliedPages, map_cons, sum_cons] at hb ⊢
      cases o with
      | noPage | mapFailed => exact ⟨bs, fl, hw, .refl _ _ _, Nat.le_add_right _ _⟩
      | mapped fill =>
        simp only [ExpandOutcome.pages, mul_add] at hb ⊢
        obtain ⟨h1, bs1, fl1, he, hw1, hk1, hend1⟩ := expand_spec hw fill (by omega)
        obtain ⟨bs2, fl2, hw2, hk2, hend2⟩ := ih os hw1 (by simp only [suppliedPages]; omega)
        simp only [expandPages, he]
        refine ⟨bs2, fl2, hw2, hk1.trans hk2, ?_⟩
        simp only [suppliedPages] at hend2
        omega

/-- The `size` bytes from `p` on are those of a block in use. -/
def Held (h : State) (bs : List ℕ) (p size : ℕ) : Prop :=
  ∃ b ∈ bs, p = b + sizeofBlock ∧ h.get b .flags = blockUsed ∧ size + sizeofBlock ≤ h.get b .size

/-- What an allocation that returned `p` leaves behind. -/
structure Allocated (h : State) (bs : List ℕ) (size p : ℕ) (h' : State) (bs' : List ℕ) : Prop where
  held : Held h' bs' p size
  fresh : ∀ s, ¬Held h bs p s

/-- One attempt of `kmalloc` to serve a request from the free list of `h1`, where
`h` is the heap at the start of the call. -/
lemma attempt_spec {h1 : State} {bs1 fl1 : List ℕ}
    (hw1 : Wf h1 bs1 fl1) (hk : Keeps (fun _ => True) h bs h1 bs1) (ht : minSplit ≤ total)
    (hsz : size + sizeofBlock ≤ total) :
    firstFit h1 total (walkFuel h1) h1.freeList = .ok 0 ∨
      ∃ b bs' fl', firstFit h1 total (walkFuel h1) h1.freeList = .ok b ∧ b ≠ 0 ∧ Wf (takeBlock h1 b total).2 bs' fl' ∧
        Keeps (fun _ => True) h bs (takeBlock h1 b total).2 bs' ∧
        (takeBlock h1 b total).2.heapEnd = h1.heapEnd ∧
        Allocated h bs size (takeBlock h1 b total).1 (takeBlock h1 b total).2 bs' := by
  rcases firstFit_spec hw1 total with h0 | ⟨b, hb, he, hb0, hf, hs⟩
  · exact .inl h0
  obtain ⟨bs', fl', hw', hp, hk', hmem, hu, hroom, hend⟩ := takeBlock_spec hw1 hb hf ht hs
  refine .inr ⟨b, bs', fl', he, hb0, hw', hk.trans hk', hend, ?_⟩
  rw [hp]
  refine ⟨⟨b, hmem, rfl, hu, hsz.trans hroom⟩, ?_⟩
  rintro s ⟨c, hc, hcb, hused, _⟩
  obtain rfl : c = b := by omega
  -- a block in use at the start would still be in use in `h1`
  have hf1 := (hk c hc trivial hused).2.1
  rw [hf] at hf1
  exact absurd hf1 (by decide)

lemma request_total (h0 : size ≠ 0) (hs : size ≤ uint64Max - sizeofBlock - 16) :
    size + sizeofBlock ≤ wrap64 (wrap64 (size + 15) / 16 * 16 + sizeofBlock) ∧
      minSplit ≤ wrap64 (wrap64 (size + 15) / 16 * 16 + sizeofBlock) := by
  simp only [uint64Max, sizeofBlock] at hs
  have h1 : wrap64 (size + 15) = size + 15 := wrap64_of_lt (by omega)
  have h2 : wrap64 ((size + 15) / 16 * 16 + sizeofBlock) = (size + 15) / 16 * 16 + sizeofBlock := by
    apply wrap64_of_lt
    simp only [sizeofBlock]
    omega
  rw [h1, h2]
  simp only [minSplit, sizeofBlock]
  omega

/-- An allocation that keeps the heap well-formed and leaves every block in use alone; a non-null
result is a block in use that nobody held before. -/
def Served (h : State) (bs : List ℕ) (size : ℕ) (supply : List ExpandOutcome) (r : Except Fault (ℕ × State)) : Prop :=
  ∃ p h' bs' fl', r = .ok (p, h') ∧ Wf h' bs' fl' ∧ Keeps (fun _ => True) h bs h' bs' ∧
    h'.heapEnd ≤ h.heapEnd + osPageSize * suppliedPages supply ∧ (p ≠ 0 → Allocated h bs size p h' bs')

section

variable (hw : Wf h bs fl) (supply : List ExpandOutcome)
  (hb : h.heapEnd + osPageSize * suppliedPages supply ≤ heapVirtBase + 2 ^ 36)
include hw hb

lemma allocTotal_spec (hmin : minSplit ≤ total) (hroom : size + sizeofBlock ≤ total) :
    Served h bs size supply (allocTotal h total supply) := by
  rw [allocTotal]
  rcases attempt_spec hw (Keeps.refl _ h bs) hmin hroom with
    he | ⟨b, bs', fl', he, hb0, hw', hk', hend', hall⟩
  swap
  · refine ⟨_, _, bs', fl', ?_, hw', hk', by rw [hend']; exact Nat.le_add_right _ _, fun _ => hall⟩
    simp [he, hb0]
  -- nothing fits: grow the heap and try once more
  obtain ⟨bs1, fl1, hw1, hk1, hend1⟩ :=
    expandPages_spec (wrap64 (total + osPageSize - 1) / osPageSize) supply hw hb
  simp only [he, ne_eq, not_true_eq_false, if_false]
  generalize expandPages (wrap64 (total + osPageSize - 1) / osPageSize) h supply = grown
    at hw1 hk1 hend1 ⊢
  obtain ⟨ok, h1⟩ := grown
  have hnone : (0 ≠ 0 → Allocated h bs size 0 h1 bs1) := fun h0 => absurd rfl h0
  cases ok with
  | false => exact ⟨0, h1, bs1, fl1, by simp, hw1, hk1, hend1, hnone⟩
  | true =>
    rcases attempt_spec hw1 hk1 hmin hroom with
      he1 | ⟨b, bs', fl', he1, hb0, hw', hk', hend', hall⟩
    · exact ⟨0, h1, bs1, fl1, by simp [he1], hw1, hk1, hend1, hnone⟩
    · refine ⟨_, _, bs', fl', ?_, hw', hk', by rw [hend']; exact hend1, fun _ => hall⟩
      simp [he1, hb0]

/-- `kmalloc` always returns. -/
theorem kmalloc_spec (size : ℕ) : Served h bs size supply (kmalloc h size supply) := by
  have hsame : Wf h bs fl ∧ Keeps (fun _ => True) h bs h bs ∧
      h.heapEnd ≤ h.heapEnd + osPageSize * suppliedPages supply ∧
      (0 ≠ 0 → Allocated h bs size 0 h bs) :=
    ⟨hw, .refl _ _ _, Nat.le_add_right _ _, fun h0 => absurd rfl h0⟩
  by_cases hz : size = 0
  · exact ⟨0, h, bs, fl, by simp [kmalloc, hz], hsame⟩
  by_cases hbig : size > uint64Max - sizeofBlock - 16
  · exact ⟨0, h, bs, fl, by rw [kmalloc, if_neg hz, kmallocLocked, if_pos hbig], hsame⟩
  obtain ⟨hroom, hmin⟩ := request_total hz (Nat.le_of_not_gt hbig)
  rw [kmalloc, if_neg hz, kmallocLocked, if_neg hbig]
  exact allocTotal_spec hw supply hb hmin hroom

end

end AetherOS.Heap
