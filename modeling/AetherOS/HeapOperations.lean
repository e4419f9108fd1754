import AetherOS.HeapInvariant

/-!
# What the heap's entry points do

From the step lemmas: freeing, splitting, growing, the first-fit walk, and with
them `kmalloc` and `kfree` as a whole. Each keeps the representation invariant,
returns, and leaves every used block it does not hand out or take back alone.
-/
namespace AetherOS.Heap
open ByteMemory LinkedList List Tiling

variable {h : State} {l r fl bs : List ℕ} {b prev size t total : ℕ}

lemma isChain_middle {g : ℕ → Field → ℕ} (hl : l.IsChain (NotBothFree g))
    (hr : r.IsChain (NotBothFree g)) (hlast : ∀ n ∈ l.getLast?, g n .flags ≠ blockFree)
    (hhead : ∀ n ∈ r.head?, g n .flags ≠ blockFree) : (l ++ b :: r).IsChain (NotBothFree g) := by
  refine hl.append (isChain_cons.mpr ⟨?_, hr⟩) ?_
  · intro n hn hboth
    exact hhead n hn hboth.2
  · intro n hn c _ hboth
    exact hlast n hn hboth.1

/-- Freeing a used block: it is merged with its free neighbours and listed. -/
theorem kfree_spec (hw : Wf h bs fl) (hb : b ∈ bs) (hu : h.get b .flags = blockUsed) :
    ∃ h' bs' fl', kfree h (b + sizeofBlock) = .ok h' ∧ Wf h' bs' fl' ∧ Keeps (fun x => x ≠ b) h bs h' bs' := by
  obtain ⟨l, r, rfl⟩ := append_of_mem hb
  have hmagic := hw.blocks.magic b (by simp)
  have hblt := hw.layout.lt b (by simp)
  have hptr : wrap64 (b + sizeofBlock + 2 ^ 64 - sizeofBlock) = b := by
    unfold wrap64
    omega
  have hp0 := hw.pending_of_used hu
  obtain ⟨hp1, hflag1, hsame1⟩ := hp0.put_flags (.inl rfl)
  have hchain := hw.coalesced
  rw [isChain_append, isChain_cons] at hchain
  obtain ⟨hchl, ⟨_, hchr⟩, _⟩ := hchain
  have hl1 := NotBothFree.isChain_congr hchl fun x hx => hsame1 x (by simp [hx]) .flags
  have hr1 := NotBothFree.isChain_congr hchr fun x hx => hsame1 x (by simp [hx]) .flags
  obtain ⟨r', fl2, hp2, hflags2, ⟨hr', hhead⟩, hkeep2⟩ := hp1.coalesceNext hr1
  have hl2 := NotBothFree.isChain_congr hl1 fun x hx => hflags2 x (by simp [hx])
  have hr2 := NotBothFree.isChain_congr hr' fun x hx => hflags2 x (by simp [hx])
  obtain ⟨l', fl3, hp3, hflags3, ⟨hl', hlast⟩, hblock, hkeep3⟩ := hp2.coalescePrev hl2
  have hchain2 := isChain_middle (b := (coalescePrev (coalesceNext (h.put b .flags blockFree) b) b).1) hl' hr2 hlast
    fun n hn => by
      rw [hflags2 n (by simp [mem_of_mem_head? hn])]
      exact hhead n hn
  obtain ⟨hlinks, hwf⟩ := hp3.wf_add (by
    rw [hflags3 _ (by simp)]
    rcases hblock with he | hf
    · rw [he, hflags2 b (by simp), hflag1]
    · exact hf) (NotBothFree.isChain_congr hchain2 hflags3)
  refine ⟨_, _, _, ?_, hwf, ?_⟩
  · simp only [kfree, kfreeLocked, hptr]
    rw [if_neg (by simp only [sizeofBlock]; omega), if_neg (by simp [hmagic, hu])]
  have hkeep1 := hw.blocks.keeps_put hw.layout hb .flags blockFree
  exact ((hkeep1.trans hkeep2).trans hkeep3).trans (hlinks.keeps _ hp3.blocks)

@[simp] lemma writeFreeHeader_heapLast (h : State) (t size prev : ℕ) :
    (writeFreeHeader h t size prev).heapLast = h.heapLast := rfl

@[simp] lemma writeFreeHeader_heapEnd (h : State) (t size prev : ℕ) :
    (writeFreeHeader h t size prev).heapEnd = h.heapEnd := rfl

lemma writeFreeHeader_self (h : State) (t : ℕ) (hs : size < 2 ^ 64) (hp : prev < 2 ^ 64) :
    (writeFreeHeader h t size prev).get t .magic = heapMagic ∧
      (writeFreeHeader h t size prev).get t .flags = blockFree ∧
      (writeFreeHeader h t size prev).get t .size = size ∧
      (writeFreeHeader h t size prev).get t .prev = prev := by
  unfold writeFreeHeader
  refine ⟨?_, ?_, ?_, ?_⟩
  · iterate 5 rw [get_put_field _ _ _ (by decide)]
    rw [get_put_same]
    rfl
  · iterate 4 rw [get_put_field _ _ _ (by decide)]
    rw [get_put_same]
    rfl
  · iterate 3 rw [get_put_field _ _ _ (by decide)]
    exact get_put_word _ t rfl hs
  · iterate 2 rw [get_put_field _ _ _ (by decide)]
    exact get_put_word _ t rfl hp

lemma writeFreeHeader_sep (h : State) {c : ℕ} (hs : Sep t c) (f : Field) :
    (writeFreeHeader h t size prev).get c f = h.get c f := by
  unfold writeFreeHeader
  iterate 6 rw [get_put_sep _ _ _ _ hs]

lemma writeFreeHeader_mem (h : State) {y : ℕ}
    (hy : y < t ∨ t + sizeofBlock ≤ y) : (writeFreeHeader h t size prev).mem y = h.mem y := by
  unfold writeFreeHeader
  iterate 6 rw [mem_put_outside _ _ _ hy]

lemma splitTail_eq (hs : total ≤ h.get b .size)
    (hr : Blocks h.get b (b + h.get b .size) r h.heapLast h.heapEnd) (hbr : b ∉ r) (hpos : ∀ x ∈ r, x ≠ 0)
    (hlt : h.heapEnd < 2 ^ 64) :
    splitTail h b total =
      (relink (writeFreeHeader h (b + total) (h.get b .size - total) b) r (b + total)).put b .size total := by
  have hle := hr.le
  have hself := writeFreeHeader_self h (b + total)
    (show h.get b .size - total < 2 ^ 64 by omega) (show b < 2 ^ 64 by omega)
  have hsum : b + total + (h.get b .size - total) = b + h.get b .size := by omega
  rcases hr.next hbr with ⟨rfl, hlast, hend⟩ | ⟨t, rfl, hlast, hend⟩
  · have hnext : blockNextMem (writeFreeHeader h (b + total) (h.get b .size - total) b)
        (b + total) = 0 := by
      unfold blockNextMem
      rw [hself.2.2.1, hsum, ← hend, wrap64_of_lt hlt]
      simp
    simp [splitTail, wrap64_of_lt (show b + total < 2 ^ 64 by omega), hnext, writeFreeHeader_heapLast, hlast, relink]
  have hnext : blockNextMem (writeFreeHeader h (b + total) (h.get b .size - total) b)
      (b + total) = b + h.get b .size := by
    unfold blockNextMem
    rw [hself.2.2.1, hsum, wrap64_of_lt (by omega), writeFreeHeader_heapEnd, if_neg (by omega)]
  simp only [splitTail, wrap64_of_lt (show b + total < 2 ^ 64 by omega), hnext, ne_eq,
    hpos _ mem_cons_self, not_false_eq_true, if_true, put_heapLast, writeFreeHeader_heapLast, if_neg hlast,
    relink]

/-- Splitting inserts the new header above `b`. All other headers keep their
flags and links, and bytes outside the headers are not written. -/
theorem splitTail_spec (hb : Blocks h.get 0 heapVirtBase (l ++ b :: r) h.heapLast h.heapEnd)
    (hlt : h.heapEnd < 2 ^ 64) (ht : minSplit ≤ total) (hs : total + minSplit ≤ h.get b .size) :
    Blocks (splitTail h b total).get 0 heapVirtBase (l ++ b :: (b + total) :: r)
        (splitTail h b total).heapLast h.heapEnd ∧
      (splitTail h b total).heapEnd = h.heapEnd ∧
      (splitTail h b total).freeList = h.freeList ∧
      (splitTail h b total).get (b + total) .flags = blockFree ∧
      (∀ x ∈ l ++ b :: r, ∀ f, f ≠ .size → f ≠ .prev → (splitTail h b total).get x f = h.get x f) ∧
      (splitTail h b total).get b .size = total ∧
      (∀ x ∈ l ++ r, (splitTail h b total).get x .size = h.get x .size) ∧
      ∀ y, (∀ c ∈ l ++ b :: (b + total) :: r, y < c ∨ c + sizeofBlock ≤ y) →
        (splitTail h b total).mem y = h.mem y := by
  have hlay := hb.layout heapVirtBase_pos hlt.le
  have hnodup := hb.nodup
  have hbmem : b ∈ l ++ b :: r := by simp
  have hbound := (hb.bounds b hbmem).2.1
  have hrmem : ∀ x ∈ r, x ∈ l ++ b :: r := fun x hx => by simp [hx]
  have hmem : ∀ x ∈ l ++ r, x ∈ l ++ b :: r := fun x hx => mem_middle.mpr (.inr hx)
  simp only [minSplit] at ht hs
  have htsep : ∀ x ∈ l ++ b :: r, Sep (b + total) x := by
    intro x hx
    by_cases hxb : b = x
    · subst hxb
      exact .inr (by omega)
    have hd := hb.disjoint b hbmem x hx hxb
    have hxs := (hb.bounds x hx).2.2
    simp only [minSplit] at hxs
    unfold Sep
    omega
  have hbsep : Sep b (b + total) := Or.inl (by omega)
  obtain ⟨hself1, hself2, hself3, hself4⟩ := writeFreeHeader_self h (b + total)
    (show h.get b .size - total < 2 ^ 64 by omega) (hlay.lt b hbmem)
  have hnewr : b + total ∉ r := by
    intro hc
    have hsep := htsep _ (hrmem _ hc)
    simp only [Sep, sizeofBlock] at hsep
    omega
  simp only [nodup_append, nodup_cons, mem_cons] at hnodup
  obtain ⟨-, ⟨hbr, -⟩, hlr⟩ := hnodup
  have hother : ∀ x ∈ l ++ r, b ≠ x := fun x hx he => hb.notMem_middle (he ▸ hx)
  obtain ⟨q, d, hleft, hright⟩ := Blocks.append_iff.mp hb
  obtain ⟨hbd, hbm, hbf, hbs, hbp, hrest⟩ := hright
  rw [splitTail_eq (by omega) hrest hbr (fun x hx => hlay.pos x (hrmem x hx)) hlt]
  have hwrite : ∀ x ∈ l ++ b :: r, ∀ f,
      (writeFreeHeader h (b + total) (h.get b .size - total) b).get x f = h.get x f :=
    fun x hx f => writeFreeHeader_sep h (htsep x hx) f
  generalize hw : writeFreeHeader h (b + total) (h.get b .size - total) b = w
    at hself1 hself2 hself3 hself4 hwrite ⊢
  obtain ⟨hwlast, hwend, hwhead⟩ : w.heapLast = h.heapLast ∧ w.heapEnd = h.heapEnd ∧ w.freeList = h.freeList :=
    hw ▸ ⟨rfl, rfl, rfl⟩
  have habove := hrest.same_shape fun x hx f _ _ => hwrite x (hrmem x hx) f
  rw [← hwlast] at habove
  replace habove := habove.relink (t := b + total)
    (fun c hc x hx => hlay.sep c (hrmem c hc) x (hrmem x hx)) (by omega)
  obtain ⟨hend, hhead⟩ := relink_frame w r (b + total)
  have hrelink : ∀ x ∈ l ++ b :: r, ∀ f, x ∉ r ∨ f ≠ .prev → (relink w r (b + total)).get x f = h.get x f :=
    fun x hx f hf => (relink_get (fun c hc => hlay.sep c (hrmem c hc) x hx) hf).trans (hwrite x hx f)
  have hnew : ∀ f, (relink w r (b + total)).get (b + total) f = w.get (b + total) f :=
    fun f => relink_get (fun c hc _ => (htsep c (hrmem c hc)).symm) (.inl hnewr)
  have hmem' : ∀ y, (∀ c ∈ r, y < c ∨ c + sizeofBlock ≤ y) → (relink w r (b + total)).mem y = w.mem y :=
    fun y hy => relink_mem hy
  generalize relink w r (b + total) = m at habove hend hhead hrelink hnew hmem' ⊢
  have hold : ∀ x ∈ l ++ r, ∀ f, x ∉ r ∨ f ≠ .prev → (m.put b .size total).get x f = h.get x f :=
    fun x hx f hf => (get_put_sep _ _ _ _ (hlay.sep b hbmem x (hmem x hx) (hother x hx))).trans
      (hrelink x (hmem x hx) f hf)
  have hbold : ∀ f, f ≠ .size → (m.put b .size total).get b f = h.get b f :=
    fun f hf => (get_put_field _ _ _ (Ne.symm hf)).trans (hrelink b hbmem f (.inl hbr))
  have hbsize : (m.put b .size total).get b .size = total := get_put_word _ b rfl (by omega)
  have hnew' := fun f => (get_put_sep m .size f total hbsep).trans (hnew f)
  refine ⟨Blocks.append_iff.mpr ⟨q, d, hleft.same_shape fun x hx f _ _ => ?_, ?_⟩,
    hend.trans hwend, hhead.trans hwhead, by rw [hnew', hself2], ?_, hbsize,
    fun x hx => hold x hx _ (.inr (by decide)), ?_⟩
  · exact hold x (by simp [hx]) f (.inl fun hxr => hlr x hx x (.inr hxr) rfl)
  · simp only [Blocks, hbsize, hnew', hself1, hself2, hself3, hself4, put_heapLast,
      hbold .magic (by decide), hbold .flags (by decide), hbold .prev (by decide)]
    refine ⟨hbd, hbm, hbf, ht, hbp, trivial, trivial, .inl trivial, ?_, trivial, ?_⟩
    · simp only [minSplit]
      omega
    rw [show b + total + (h.get b .size - total) = b + h.get b .size by omega]
    refine habove.same_shape fun x hx f _ _ => ?_
    exact get_put_sep _ _ _ _ (hlay.sep b hbmem x (hrmem x hx) (hother x (mem_append_right l hx)))
  · intro x hx f hf1 hf2
    rcases mem_middle.mp hx with rfl | hx
    · exact hbold f hf1
    · exact hold x hx f (.inr hf2)
  · intro y hy
    rw [mem_put_outside _ _ _ (hy b (by simp)), hmem' y fun c hc => hy c (by simp [hc]), ← hw]
    exact writeFreeHeader_mem h (hy (b + total) (by simp))

lemma split_pending (hw : Wf h (l ++ b :: r) fl) (hf : h.get b .flags = blockFree) (ht : minSplit ≤ total)
    (hs : total + minSplit ≤ h.get b .size) :
    ∃ fl', Pending (freeListAdd (freeListRemove (splitTail h b total) b) (b + total)) l b
        ((b + total) :: r) fl' ∧
      LinksOnly (l ++ b :: (b + total) :: r) (splitTail h b total)
        (freeListAdd (freeListRemove (splitTail h b total) b) (b + total)) := by
  obtain ⟨hblocks, hend, hhead, htf, hget, _, _, _⟩ :=
    splitTail_spec hw.blocks (heapEnd_lt hw.bound) ht hs
  have hlay := hblocks.layout heapVirtBase_pos (heapEnd_lt hw.bound).le
  have hin : ∀ x ∈ l ++ b :: r, x ∈ l ++ b :: (b + total) :: r := by
    intro x hx
    simp only [mem_append, mem_cons] at hx ⊢
    tauto
  have hnew : b + total ∉ l ++ r := by
    have hnodup := hblocks.nodup
    rw [nodup_middle, nodup_cons, nodup_middle, nodup_cons] at hnodup
    exact hnodup.2.1
  have hbf : (splitTail h b total).get b .flags = blockFree := by
    rw [hget b (by simp) _ (by decide) (by decide), hf]
  obtain ⟨hlinks, fl', hl⟩ := (hw.listed.congr hhead hget).remove hlay hin hbf (fun _ => mem_middle)
    hw.blocks.notMem_middle
  obtain ⟨hadd, hl'⟩ := hl.add (n := b + total) (C := l ++ (b + total) :: r) hlay
    (fun x hx => hin x (mem_middle.mpr (.inr hx))) (by simp)
    (by rw [hlinks.get_eq _ (by simp) _ (by decide) (by decide), htf]) (fun _ => mem_middle) hnew
  have hall := hlinks.trans hadd
  refine ⟨_, ⟨?_, hl'.links, hl'.once, hl'.free_iff, by rw [hall.end_eq, hend]; exact hw.bound⟩, hall⟩
  rw [hall.last_eq, hall.end_eq, hend]
  exact hblocks.same_shape hall.get_eq

/-- A pending block of `m` that was free in `h` is handed out. -/
lemma Pending.hand_out {m : State} (hp : Pending m l b r fl) (hl : l.IsChain (NotBothFree m.get))
    (hr : r.IsChain (NotBothFree m.get)) (hf : h.get b .flags = blockFree)
    (hk : Keeps (fun x => x ≠ b) h bs m (l ++ b :: r)) :
    Wf (m.put b .flags blockUsed) (l ++ b :: r) fl ∧
      Keeps (fun _ => True) h bs (m.put b .flags blockUsed) (l ++ b :: r) ∧
      (m.put b .flags blockUsed).get b .flags = blockUsed ∧
      (m.put b .flags blockUsed).get b .size = m.get b .size := by
  obtain ⟨hp', hflag', hsame'⟩ := hp.put_flags (.inr rfl)
  refine ⟨hp'.wf_used hflag' ?_ ?_, .of_free hf ?_, hflag', get_put_field _ _ _ (by decide)⟩
  · exact NotBothFree.isChain_congr hl fun x hx => hsame' x (by simp [hx]) _
  · exact NotBothFree.isChain_congr hr fun x hx => hsame' x (by simp [hx]) _
  · exact (hk.trans (hp.blocks.keeps_put hp.layout (by simp) _ _)).mono fun x hx => hx.2

/-- Handing out a free block that is large enough. The caller's bytes start
behind its header and no block in use is touched. -/
theorem takeBlock_spec (hw : Wf h bs fl) (hb : b ∈ bs)
    (hf : h.get b .flags = blockFree) (ht : minSplit ≤ total) (hs : total ≤ h.get b .size) :
    ∃ bs' fl', Wf (takeBlock h b total).2 bs' fl' ∧ (takeBlock h b total).1 = b + sizeofBlock ∧
      Keeps (fun _ => True) h bs (takeBlock h b total).2 bs' ∧ b ∈ bs' ∧
      (takeBlock h b total).2.get b .flags = blockUsed ∧
      total ≤ (takeBlock h b total).2.get b .size ∧
      (takeBlock h b total).2.heapEnd = h.heapEnd := by
  obtain ⟨l, r, rfl⟩ := append_of_mem hb
  have hend := heapEnd_lt hw.bound
  obtain ⟨_, hbound, hmin⟩ := hw.blocks.bounds b hb
  have hptr : wrap64 (b + sizeofBlock) = b + sizeofBlock := by
    apply wrap64_of_lt
    simp only [minSplit] at hmin
    omega
  have hbase := (hw.blocks.bounds b hb).1
  have htot : wrap64 (total + minSplit) = total + minSplit := by
    apply wrap64_of_lt
    simp only [heapVirtBase, minSplit, sizeofBlock] at hbase ⊢
    omega
  have hwrapt : wrap64 (b + total) = b + total := wrap64_of_lt (by omega)
  have hchain := hw.coalesced
  rw [isChain_append, isChain_cons] at hchain
  obtain ⟨hchl, ⟨hchb, hchr⟩, _⟩ := hchain
  by_cases hsplit : h.get b .size ≥ total + minSplit
  · have he : takeBlock h b total = (b + sizeofBlock, (freeListAdd (freeListRemove
        (splitTail h b total) b) (b + total)).put b .flags blockUsed) := by
      simp [takeBlock, htot, hsplit, hptr, hwrapt]
    rw [he]
    obtain ⟨hblocks, hend', _, _, hget, hbsize, hsize, hmem⟩ := splitTail_spec hw.blocks hend ht hsplit
    obtain ⟨fl', hp, hlinks⟩ := split_pending hw hf ht hsplit
    have hin : ∀ x ∈ l ++ r, x ∈ l ++ b :: (b + total) :: r :=
      fun x hx => mem_middle.mpr (.inr (mem_middle.mpr (.inr hx)))
    have hflags : ∀ x ∈ l ++ r, (freeListAdd (freeListRemove (splitTail h b total) b) (b + total)).get x .flags =
        h.get x .flags := by
      intro x hx
      rw [hlinks.get_eq x (hin x hx) _ (by decide) (by decide),
        hget x (mem_middle.mpr (.inr hx)) _ (by decide) (by decide)]
    have hcut : Keeps (fun x => x ≠ b) h (l ++ b :: r) (splitTail h b total) (l ++ b :: (b + total) :: r) := by
      intro x hx hxb hu
      have hxlr := (mem_middle.mp hx).resolve_left hxb
      refine ⟨hin x hxlr, by rw [hget x hx _ (by decide) (by decide), hu], hsize x hxlr, fun y hy1 hy2 => ?_⟩
      -- the payload of `x` also avoids the new header, which lies inside `b`
      exact hmem y (hblocks.payload_apart (hin x hxlr) hy1 (by rw [hsize x hxlr]; exact hy2))
    obtain ⟨hwf, hkeep, hused, hgot⟩ := hp.hand_out
      (NotBothFree.isChain_congr hchl fun x hx => hflags x (by simp [hx]))
      (isChain_cons.mpr ⟨fun y hy hboth => hchb y hy ⟨hf, by
        rw [← hflags y (by simp [mem_of_mem_head? hy])]
        exact hboth.2⟩, NotBothFree.isChain_congr hchr fun x hx => hflags x (by simp [hx])⟩)
      hf (hcut.trans (hlinks.keeps _ hblocks))
    refine ⟨_, fl', hwf, rfl, hkeep, by simp, hused, ?_, ?_⟩
    · rw [hgot, hlinks.get_eq b (by simp) _ (by decide) (by decide), hbsize]
    · rw [put_heapEnd, hlinks.end_eq, hend']
  · have he : takeBlock h b total = (b + sizeofBlock, (freeListRemove h b).put b .flags blockUsed) := by
      simp [takeBlock, htot, hsplit, hptr]
    rw [he]
    obtain ⟨hlinks, fl', hp⟩ := hw.pending_of_free hf
    have hflags : ∀ x ∈ l ++ b :: r, (freeListRemove h b).get x .flags = h.get x .flags :=
      fun x hx => hlinks.get_eq x hx _ (by decide) (by decide)
    obtain ⟨hwf, hkeep, hused, hgot⟩ := hp.hand_out
      (NotBothFree.isChain_congr hchl fun x hx => hflags x (by simp [hx]))
      (NotBothFree.isChain_congr hchr fun x hx => hflags x (by simp [hx])) hf (hlinks.keeps _ hw.blocks)
    refine ⟨_, fl', hwf, rfl, hkeep, by simp, hused, ?_, ?_⟩
    · rw [hgot, hlinks.get_eq b (by simp) _ (by decide) (by decide)]
      exact hs
    · rw [put_heapEnd, hlinks.end_eq]

end AetherOS.Heap
