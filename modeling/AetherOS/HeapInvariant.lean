import AetherOS.HeapBlocks

/-!
# The representation invariant of the kernel heap

`Wf` ties the four structures of the allocator together: the block sequence, the
back pointers with the topmost block, the free list, and the absence of two free
neighbours. Between the steps of an operation one block is neither in nor out of
the free list; `Pending` describes these states. Every step also says which bytes
it may write, so that the contents of used blocks are carried along.
-/
namespace AetherOS.Heap
open ByteMemory LinkedList List Option Tiling

/-- Two neighbours of which not both are free. -/
def NotBothFree (g : ℕ → Field → ℕ) (b c : ℕ) : Prop :=
  ¬(g b .flags = blockFree ∧ g c .flags = blockFree)

/-- The blocks `bs` tile the heap, `fl` is the free list, and the two agree. -/
structure Wf (h : State) (bs fl : List ℕ) : Prop where
  blocks : Blocks h.get 0 heapVirtBase bs h.heapLast h.heapEnd
  links : FreeDll h fl
  once : fl.Nodup
  free_iff : ∀ b, b ∈ fl ↔ b ∈ bs ∧ h.get b .flags = blockFree
  coalesced : bs.IsChain (NotBothFree h.get)
  bound : h.heapEnd ≤ heapVirtBase + 2 ^ 36

/-- As `Wf`, except that `b` is in no list and its flag says nothing yet. -/
structure Pending (h : State) (l : List ℕ) (b : ℕ) (r fl : List ℕ) : Prop where
  blocks : Blocks h.get 0 heapVirtBase (l ++ b :: r) h.heapLast h.heapEnd
  links : FreeDll h fl
  once : fl.Nodup
  free_iff : ∀ x, x ∈ fl ↔ x ∈ l ++ r ∧ h.get x .flags = blockFree
  bound : h.heapEnd ≤ heapVirtBase + 2 ^ 36

/-- From `h` to `h'` the used blocks that satisfy `P` stay where they are, with
their size and with every byte after their header. -/
def Keeps (P : ℕ → Prop) (h : State) (bs : List ℕ) (h' : State) (bs' : List ℕ) : Prop :=
  ∀ x ∈ bs, P x → h.get x .flags = blockUsed →
    x ∈ bs' ∧ h'.get x .flags = blockUsed ∧ h'.get x .size = h.get x .size ∧
      ∀ y, x + sizeofBlock ≤ y → y < x + h.get x .size → h'.mem y = h.mem y

section

variable {P Q : ℕ → Prop} {h h' h'' : State} {bs bs' bs'' l r fl : List ℕ} {g g' : ℕ → Field → ℕ}
  {p a last e b : ℕ}

lemma Keeps.trans (h1 : Keeps P h bs h' bs') (h2 : Keeps P h' bs' h'' bs'') : Keeps P h bs h'' bs'' := by
  intro x hx hP hu
  obtain ⟨hx', hu', hs', hm'⟩ := h1 x hx hP hu
  obtain ⟨hx'', hu'', hs'', hm''⟩ := h2 x hx' hP hu'
  refine ⟨hx'', hu'', hs''.trans hs', fun y hy1 hy2 => ?_⟩
  rw [hm'' y hy1 (by rw [hs']; exact hy2), hm' y hy1 hy2]

lemma Keeps.mono (hk : Keeps Q h bs h' bs') (hPQ : ∀ x, P x → Q x) : Keeps P h bs h' bs' :=
  fun x hx hP hu => hk x hx (hPQ x hP) hu

lemma heapEnd_lt (hb : h.heapEnd ≤ heapVirtBase + 2 ^ 36) : h.heapEnd < 2 ^ 64 := by
  simp only [heapVirtBase] at hb
  omega

lemma heapVirtBase_pos : 0 < heapVirtBase := by decide

lemma Wf.layout (hw : Wf h bs fl) : Layout bs :=
  hw.blocks.layout heapVirtBase_pos (heapEnd_lt hw.bound).le

lemma Pending.layout (hw : Pending h l b r fl) : Layout (l ++ b :: r) :=
  hw.blocks.layout heapVirtBase_pos (heapEnd_lt hw.bound).le

/-- Writes that stay inside the headers of `bs` do not reach the bytes of a block. -/
lemma Blocks.payload_apart (hb : Blocks g p a bs last e) {x y : ℕ} (hx : x ∈ bs) (hy1 : x + sizeofBlock ≤ y)
    (hy2 : y < x + g x .size) : ∀ c ∈ bs, y < c ∨ c + sizeofBlock ≤ y := by
  intro c hc
  by_cases hxc : x = c
  · exact .inr (hxc ▸ hy1)
  have hd := hb.disjoint x hx c hc hxc
  have hs := (hb.bounds c hc).2.2
  simp only [minSplit] at hs
  omega

lemma LinksOnly.keeps (P : ℕ → Prop)
    (hl : LinksOnly bs h h') (hb : Blocks h.get p a bs last e) : Keeps P h bs h' bs := by
  intro x hx _ hu
  refine ⟨hx, ?_, ?_, fun y hy1 hy2 => ?_⟩
  · rw [hl.get_eq x hx _ (by decide) (by decide), hu]
  · rw [hl.get_eq x hx _ (by decide) (by decide)]
  · exact hl.mem_eq y (hb.payload_apart hx hy1 hy2)

lemma NotBothFree.isChain_congr
    (hc : bs.IsChain (NotBothFree g)) (hg : ∀ x ∈ bs, g' x .flags = g x .flags) : bs.IsChain (NotBothFree g') := by
  refine hc.imp_of_mem_imp ?_
  intro x y hx hy hxy
  unfold NotBothFree at hxy ⊢
  rw [hg x hx, hg y hy]
  exact hxy

/-- A free block is not among the blocks in use. -/
lemma Keeps.of_free (hf : h.get b .flags = blockFree)
    (hk : Keeps (fun x => P x ∧ x ≠ b) h bs h' bs') : Keeps P h bs h' bs' := by
  intro x hx hP hu
  refine hk x hx ⟨hP, ?_⟩ hu
  rintro rfl
  rw [hf] at hu
  exact absurd hu (by decide)

lemma Blocks.keeps_put (hb : Blocks h.get p a bs last e)
    (hlay : Layout bs) (hmem : b ∈ bs) (f : Field) (v : ℕ) : Keeps (fun x => x ≠ b) h bs (h.put b f v) bs := by
  intro x hx hxb hu
  have hs := hlay.sep b hmem x hx (Ne.symm hxb)
  refine ⟨hx, by rw [get_put_sep h _ _ v hs, hu], get_put_sep h _ _ v hs, fun y hy1 hy2 => ?_⟩
  exact mem_put_outside h _ _ (hb.payload_apart hx hy1 hy2 b hmem)

lemma LinksOnly.blocks (hl : LinksOnly bs h h')
    (hb : Blocks h.get p a bs h.heapLast h.heapEnd) : Blocks h'.get p a bs h'.heapLast h'.heapEnd := by
  rw [hl.last_eq, hl.end_eq]
  exact hb.same_shape hl.get_eq

end

/-- The free list is `fl`, with exactly the free blocks of `B`. -/
structure Listed (h : State) (B fl : List ℕ) : Prop where
  links : FreeDll h fl
  once : fl.Nodup
  free_iff : ∀ x, x ∈ fl ↔ x ∈ B ∧ h.get x .flags = blockFree

namespace Listed

variable {h h' : State} {B C W fl : List ℕ} {n : ℕ}

section

variable (hl : Listed h B fl)
include hl

lemma sub : ∀ x ∈ fl, x ∈ B := fun x hx => ((hl.free_iff x).mp hx).1

lemma congr {t : State} (hhead : t.freeList = h.freeList)
    (hg : ∀ x ∈ B, ∀ f, f ≠ .size → f ≠ .prev → t.get x f = h.get x f) : Listed t B fl where
  links := hl.links.congr hhead (fun x hx => hg x (hl.sub x hx) _ (by decide) (by decide))
    (fun x hx => hg x (hl.sub x hx) _ (by decide) (by decide))
  once := hl.once
  free_iff x := by
    rw [hl.free_iff]
    refine and_congr_right fun hx => ?_
    rw [hg x hx _ (by decide) (by decide)]

/-- A block in use may be counted among the blocks or not. -/
lemma of_used (hu : h.get n .flags = blockUsed) (hC : ∀ x, x ≠ n → (x ∈ B ↔ x ∈ C)) : Listed h C fl where
  __ := hl
  free_iff x := by
    rw [hl.free_iff]
    refine and_congr_left fun hf => hC x ?_
    rintro rfl
    rw [hu] at hf
    exact absurd hf (by decide)

/-- Taking a free block `n` out of the list leaves the free blocks of `C`. -/
lemma remove (hW : Layout W) (hsub : ∀ x ∈ B, x ∈ W) (hf : h.get n .flags = blockFree)
    (hB : ∀ x, x ∈ B ↔ x = n ∨ x ∈ C) (hn : n ∉ C) :
    LinksOnly W h (freeListRemove h n) ∧ ∃ fl', Listed (freeListRemove h n) C fl' := by
  obtain ⟨xs, ys, rfl⟩ := append_of_mem ((hl.free_iff n).mpr ⟨(hB n).mpr (.inl rfl), hf⟩)
  obtain ⟨hlinks, hd⟩ := freeListRemove_spec hW (fun x hx => hsub x (hl.sub x hx)) hl.links hl.once
  have honce := hl.once
  rw [nodup_middle, nodup_cons] at honce
  refine ⟨hlinks, xs ++ ys, hd, honce.2, fun x => ?_⟩
  have hflags : x ∈ C → (freeListRemove h n).get x .flags = h.get x .flags :=
    fun hx => hlinks.get_eq x (hsub x ((hB x).mpr (.inr hx))) _ (by decide) (by decide)
  constructor
  · intro hx
    obtain ⟨hxB, hfx⟩ := (hl.free_iff x).mp (mem_middle.mpr (.inr hx))
    have hxC := ((hB x).mp hxB).resolve_left fun he => honce.1 (he ▸ hx)
    exact ⟨hxC, by rw [hflags hxC, hfx]⟩
  rintro ⟨hx, hfx⟩
  rw [hflags hx] at hfx
  have hxfl := (hl.free_iff x).mpr ⟨(hB x).mpr (.inr hx), hfx⟩
  exact (mem_middle.mp hxfl).resolve_left fun he => hn (he ▸ hx)

lemma add (hW : Layout W) (hsub : ∀ x ∈ B, x ∈ W) (hnW : n ∈ W)
    (hf : h.get n .flags = blockFree) (hC : ∀ x, x ∈ C ↔ x = n ∨ x ∈ B) (hn : n ∉ B) :
    LinksOnly W h (freeListAdd h n) ∧ Listed (freeListAdd h n) C (n :: fl) := by
  have hnew : n ∉ fl := fun hx => hn (hl.sub n hx)
  have hin : ∀ x ∈ fl, x ∈ W := fun x hx => hsub x (hl.sub x hx)
  have hlinks := freeListAdd_links hW hnW hin hl.links
  refine ⟨hlinks, freeListAdd_dll hW hnW hin hl.links hl.once hnew, nodup_cons.mpr ⟨hnew, hl.once⟩, fun x => ?_⟩
  have hflags : x ∈ W → (freeListAdd h n).get x .flags = h.get x .flags :=
    fun hx => hlinks.get_eq x hx _ (by decide) (by decide)
  rw [mem_cons, hl.free_iff, hC]
  constructor
  · rintro (rfl | ⟨hx, hfx⟩)
    · exact ⟨.inl rfl, by rw [hflags hnW, hf]⟩
    · exact ⟨.inr hx, by rw [hflags (hsub x hx), hfx]⟩
  rintro ⟨rfl | hx, hfx⟩
  · exact .inl rfl
  · rw [hflags (hsub x hx)] at hfx
    exact .inr ⟨hx, hfx⟩

end

end Listed

variable {h : State} {l r fl bs : List ℕ} {b : ℕ}

lemma Blocks.notMem_middle {g : ℕ → Field → ℕ} {p a last e : ℕ} (hb : Blocks g p a (l ++ b :: r) last e) :
    b ∉ l ++ r := by
  have hn := hb.nodup
  rw [nodup_middle, nodup_cons] at hn
  exact hn.1

lemma Wf.listed (hw : Wf h bs fl) : Listed h bs fl := ⟨hw.links, hw.once, hw.free_iff⟩

lemma Pending.listed (hp : Pending h l b r fl) : Listed h (l ++ r) fl := ⟨hp.links, hp.once, hp.free_iff⟩

lemma Wf.pending_of_used (hw : Wf h (l ++ b :: r) fl) (hu : h.get b .flags = blockUsed) : Pending h l b r fl := by
  have hl := hw.listed.of_used hu (C := l ++ r) fun x hne => by simp [hne]
  exact ⟨hw.blocks, hl.links, hl.once, hl.free_iff, hw.bound⟩

lemma Wf.pending_of_free (hw : Wf h (l ++ b :: r) fl) (hf : h.get b .flags = blockFree) :
    LinksOnly (l ++ b :: r) h (freeListRemove h b) ∧ ∃ fl', Pending (freeListRemove h b) l b r fl' := by
  obtain ⟨hlinks, fl', hl⟩ := hw.listed.remove hw.layout (fun _ hx => hx) hf (fun _ => mem_middle)
    hw.blocks.notMem_middle
  exact ⟨hlinks, fl', hlinks.blocks hw.blocks, hl.links, hl.once, hl.free_iff, hlinks.end_eq ▸ hw.bound⟩

/-- A pending block that is free and has no free neighbour goes back to the list. -/
lemma Pending.wf_add (hp : Pending h l b r fl) (hf : h.get b .flags = blockFree)
    (hc : (l ++ b :: r).IsChain (NotBothFree h.get)) :
    LinksOnly (l ++ b :: r) h (freeListAdd h b) ∧ Wf (freeListAdd h b) (l ++ b :: r) (b :: fl) := by
  obtain ⟨hlinks, hl⟩ := hp.listed.add hp.layout (fun _ hx => mem_middle.mpr (.inr hx)) (by simp) hf
    (fun _ => mem_middle) hp.blocks.notMem_middle
  refine ⟨hlinks, hlinks.blocks hp.blocks, hl.links, hl.once, hl.free_iff, ?_, hlinks.end_eq ▸ hp.bound⟩
  exact NotBothFree.isChain_congr hc fun x hx => hlinks.get_eq x hx _ (by decide) (by decide)

lemma Pending.put_flags (hp : Pending h l b r fl) {v : ℕ} (hv : v = blockFree ∨ v = blockUsed) :
    Pending (h.put b .flags v) l b r fl ∧ (h.put b .flags v).get b .flags = v ∧
      ∀ x ∈ l ++ r, ∀ f, (h.put b .flags v).get x f = h.get x f := by
  have hin : ∀ x ∈ l ++ r, x ∈ l ++ b :: r := fun x hx => mem_middle.mpr (.inr hx)
  have hsame : ∀ x ∈ l ++ r, ∀ f, (h.put b .flags v).get x f = h.get x f := by
    intro x hx f
    apply get_put_sep
    refine hp.layout.sep b (by simp) x (hin x hx) ?_
    rintro rfl
    exact hp.blocks.notMem_middle hx
  have hself : (h.put b .flags v).get b .flags = v := by
    rw [get_put_same]
    rcases hv with rfl | rfl <;> rfl
  have hfield : ∀ x ∈ l ++ b :: r, ∀ f, .flags ≠ f → (h.put b .flags v).get x f = h.get x f :=
    fun x hx f hf => get_put_of_ne h v (hp.layout.sep b (by simp) x hx) (.inr hf)
  have hl := hp.listed.congr (t := h.put b .flags v) rfl fun x hx f _ _ => hsame x hx f
  refine ⟨⟨hp.blocks.congr ?_ ?_ ?_ ?_, hl.links, hl.once, hl.free_iff, hp.bound⟩, hself, hsame⟩
  · exact fun x hx => hfield x hx _ (by decide)
  · intro x hx
    rcases mem_middle.mp hx with rfl | hx
    · rw [hself]
      exact hv
    · rw [hsame x hx]
      exact hp.blocks.flags x (hin x hx)
  · exact fun x hx => hfield x hx _ (by decide)
  · exact fun x hx => hfield x hx _ (by decide)

lemma Pending.wf_used (hp : Pending h l b r fl) (hu : h.get b .flags = blockUsed)
    (hl : l.IsChain (NotBothFree h.get)) (hr : r.IsChain (NotBothFree h.get)) : Wf h (l ++ b :: r) fl := by
  have hlist := hp.listed.of_used hu (C := l ++ b :: r) fun x hne => by simp [hne]
  refine ⟨hp.blocks, hlist.links, hlist.once, hlist.free_iff, ?_, hp.bound⟩
  have hb : h.get b .flags ≠ blockFree := by
    rw [hu]
    decide
  refine hl.append (isChain_cons.mpr ⟨fun y _ hboth => hb hboth.1, hr⟩) ?_
  intro x _ y hy hboth
  simp only [head?_cons, mem_def, some.injEq] at hy
  subst hy
  exact hb hboth.2

/-- The header above learns that `t` is below it now; if there is none, `t` is the topmost block. -/
def relink (h : State) : List ℕ → ℕ → State
  | [], t => h.setHeapLast t
  | c :: _, t => h.put c .prev t

section

variable {t p a e x : ℕ}

lemma relink_frame (h : State) (r : List ℕ) (t : ℕ) :
    (relink h r t).heapEnd = h.heapEnd ∧ (relink h r t).freeList = h.freeList := by
  cases r with
  | nil | cons c r => exact ⟨rfl, rfl⟩

lemma relink_get {f : Field} (hsep : ∀ c ∈ r, c ≠ x → Sep c x) (hne : x ∉ r ∨ f ≠ .prev) :
    (relink h r t).get x f = h.get x f := by
  cases r with
  | nil => exact get_setHeapLast h t x f
  | cons c r =>
    refine get_put_of_ne h t (hsep c mem_cons_self) (hne.imp (fun hx he => ?_) Ne.symm)
    exact hx (he ▸ mem_cons_self)

lemma relink_mem {y : ℕ} (hy : ∀ c ∈ r, y < c ∨ c + sizeofBlock ≤ y) : (relink h r t).mem y = h.mem y := by
  cases r with
  | nil => rfl
  | cons c r => exact mem_put_outside h _ _ (hy c mem_cons_self)

lemma Blocks.relink (hb : Blocks h.get p a r h.heapLast e) (hsep : ∀ c ∈ r, ∀ x ∈ r, c ≠ x → Sep c x)
    (ht : t < 2 ^ 64) : Blocks (relink h r t).get t a r (relink h r t).heapLast e := by
  have hnodup := hb.nodup
  cases r with
  | nil => exact ⟨rfl, hb.2⟩
  | cons c r =>
    obtain ⟨hc, hm, hf, hs, -, hrest⟩ := hb
    have hold : ∀ f, f ≠ .prev → (h.put c .prev t).get c f = h.get c f :=
      fun f hf => get_put_field h c t (Ne.symm hf)
    simp only [Heap.relink, Blocks, put_heapLast, hold .magic (by decide), hold .flags (by decide),
      hold .size (by decide)]
    refine ⟨hc, hm, hf, hs, get_put_word h c rfl ht, hrest.same_shape fun x hx f _ _ => ?_⟩
    refine get_put_sep h _ _ t (hsep c mem_cons_self x (mem_cons_of_mem c hx) ?_)
    exact fun he => (nodup_cons.mp hnodup).1 (he ▸ hx)

/-- The blocks of `r` follow on `a`, and `p` is below them: this is what `block_next_mem` and the
comparison with `s_heap_last` find. -/
lemma Blocks.next (hb : Blocks h.get p a r h.heapLast h.heapEnd) (hp : p ∉ r) :
    (r = [] ∧ h.heapLast = p ∧ h.heapEnd = a) ∨ ∃ t, r = a :: t ∧ h.heapLast ≠ p ∧ a < h.heapEnd := by
  cases r with
  | nil => exact .inl ⟨rfl, hb.1, hb.2⟩
  | cons c r =>
    have hlast := hb.last_mem
    obtain ⟨rfl, -, -, hs, -, hrest⟩ := hb
    have hle := hrest.le
    simp only [minSplit, sizeofBlock] at hs
    exact .inr ⟨r, rfl, fun he => hp (he ▸ hlast), by omega⟩

lemma absorb_eq {lo hi : ℕ} (hs : h.get lo .size + h.get hi .size < 2 ^ 64)
    (hr : Blocks h.get hi (lo + (h.get lo .size + h.get hi .size)) r h.heapLast h.heapEnd) (hhi : hi ∉ r)
    (hpos : ∀ x ∈ r, x ≠ 0) (hlt : h.heapEnd < 2 ^ 64) :
    absorb h lo hi = relink (h.put lo .size (h.get lo .size + h.get hi .size)) r lo := by
  have hsize := get_put_word h lo (f := .size) rfl hs
  rcases hr.next hhi with ⟨rfl, hlast, hend⟩ | ⟨t, rfl, hlast, hend⟩
  · have hnext : blockNextMem ((h.put lo .size (h.get lo .size + h.get hi .size)).setHeapLast lo) lo = 0 := by
      unfold blockNextMem
      rw [get_setHeapLast, hsize, ← hend, wrap64_of_lt hlt]
      simp
    simp only [absorb, wrap64_of_lt hs, put_heapLast, hlast, if_pos, hnext, relink]
    simp
  have hnext : blockNextMem (h.put lo .size (h.get lo .size + h.get hi .size)) lo =
      lo + (h.get lo .size + h.get hi .size) := by
    unfold blockNextMem
    rw [hsize, wrap64_of_lt (by omega), put_heapEnd, if_neg (by omega)]
  simp only [absorb, wrap64_of_lt hs, put_heapLast, if_neg hlast, hnext, if_pos (hpos _ mem_cons_self), relink]

end

/-- Merging neighbours drops the upper header from the sequence. Flags and links
of all remaining headers stay, and so does every byte outside of them. -/
theorem absorb_spec {lo hi : ℕ} (hb : Blocks h.get 0 heapVirtBase (l ++ lo :: hi :: r) h.heapLast h.heapEnd)
    (hlt : h.heapEnd < 2 ^ 64) :
    Blocks (absorb h lo hi).get 0 heapVirtBase (l ++ lo :: r) (absorb h lo hi).heapLast
        h.heapEnd ∧
      (absorb h lo hi).heapEnd = h.heapEnd ∧ (absorb h lo hi).freeList = h.freeList ∧
      (∀ x ∈ l ++ lo :: r, ∀ f, f ≠ .size → f ≠ .prev → (absorb h lo hi).get x f = h.get x f) ∧
      (∀ x ∈ l ++ r, (absorb h lo hi).get x .size = h.get x .size) ∧
      ∀ y, (∀ c ∈ l ++ lo :: r, y < c ∨ c + sizeofBlock ≤ y) → (absorb h lo hi).mem y = h.mem y := by
  have hlay := hb.layout heapVirtBase_pos hlt.le
  have hnodup := hb.nodup
  have hlomem : lo ∈ l ++ lo :: hi :: r := by simp
  have hmem : ∀ x ∈ l ++ lo :: r, x ∈ l ++ lo :: hi :: r := by
    intro x hx
    simp only [mem_append, mem_cons] at hx ⊢
    tauto
  have hrmem : ∀ x ∈ r, x ∈ l ++ lo :: hi :: r := fun x hx => by simp [hx]
  simp only [nodup_append, nodup_cons, mem_cons, not_or] at hnodup
  obtain ⟨-, ⟨⟨-, hlor⟩, hhir, -⟩, hlr⟩ := hnodup
  obtain ⟨q, d, hleft, hright⟩ := Blocks.append_iff.mp hb
  obtain ⟨hlo, hlom, hlof, hlos, hlop, hright⟩ := hright
  obtain ⟨hhi, _, _, hhis, _, hrest⟩ := hright
  have hle := hrest.le
  have hsum : h.get lo .size + h.get hi .size < 2 ^ 64 := by omega
  rw [show hi + h.get hi .size = lo + (h.get lo .size + h.get hi .size) by omega] at hrest
  rw [absorb_eq hsum hrest hhir (fun x hx => hlay.pos x (hrmem x hx)) hlt]
  -- the grown size at `lo` disturbs no other header
  have hother : ∀ x ∈ l ++ r, lo ≠ x := fun x hx he => hb.notMem_middle (he ▸ by simp at hx ⊢; tauto)
  generalize hm : h.put lo .size (h.get lo .size + h.get hi .size) = m
  have hgrow : ∀ x ∈ l ++ r, ∀ f, m.get x f = h.get x f := fun x hx f =>
    hm ▸ get_put_sep h _ _ _ (hlay.sep lo hlomem x (hmem x (mem_middle.mpr (.inr hx))) (hother x hx))
  have hlosize : m.get lo .size = h.get lo .size + h.get hi .size := hm ▸ get_put_word h lo rfl hsum
  have hlokeep : ∀ f, f ≠ .size → m.get lo f = h.get lo f := fun f hf => hm ▸ get_put_field h lo _ (Ne.symm hf)
  have hlast : m.heapLast = h.heapLast := hm ▸ rfl
  have habove := hrest.same_shape fun x hx f _ _ => hgrow x (mem_append_right l hx) f
  rw [← hlast] at habove
  have hget : ∀ x ∈ l ++ lo :: r, ∀ f, x ∉ r ∨ f ≠ .prev → (relink m r lo).get x f = m.get x f :=
    fun x hx f hf => relink_get (fun c hc => hlay.sep c (hrmem c hc) x (hmem x hx)) hf
  obtain ⟨hend, hhead⟩ := relink_frame m r lo
  refine ⟨Blocks.append_iff.mpr ⟨q, d, hleft.same_shape fun x hx f _ _ => ?_, ?_⟩, hend.trans (hm ▸ rfl),
    hhead.trans (hm ▸ rfl), fun x hx f hf1 hf2 => ?_, fun x hx => ?_, fun y hy => ?_⟩
  · rw [hget x (by simp [hx]) f (.inl fun hxr => hlr x hx x (.inr (.inr hxr)) rfl), hgrow x (by simp [hx])]
  · simp only [Blocks, fun f => hget lo (by simp) f (.inl hlor), hlosize, hlokeep .magic (by decide),
      hlokeep .flags (by decide), hlokeep .prev (by decide)]
    exact ⟨hlo, hlom, hlof, by omega, hlop,
      habove.relink (fun c hc x hx => hlay.sep c (hrmem c hc) x (hrmem x hx)) (hlay.lt lo hlomem)⟩
  · rw [hget x hx f (.inr hf2)]
    rcases mem_middle.mp hx with rfl | hx
    · exact hlokeep f hf1
    · exact hgrow x hx f
  · rw [hget x (mem_middle.mpr (.inr hx)) _ (.inr (by decide)), hgrow x hx]
  · rw [relink_mem fun c hc => hy c (by simp [hc]), ← hm]
    exact mem_put_outside h _ _ (hy lo (by simp))

lemma merge_pending {lo hi : ℕ} (hb : Blocks h.get 0 heapVirtBase (l ++ lo :: hi :: r) h.heapLast h.heapEnd)
    (hl : Listed h (l ++ r) fl) (hbound : h.heapEnd ≤ heapVirtBase + 2 ^ 36) :
    Pending (absorb h lo hi) l lo r fl ∧
      (∀ x ∈ l ++ lo :: r, (absorb h lo hi).get x .flags = h.get x .flags) ∧
      Keeps (fun x => x ≠ lo ∧ x ≠ hi) h (l ++ lo :: hi :: r) (absorb h lo hi) (l ++ lo :: r) := by
  obtain ⟨hblocks, hend, hhead, hget, hsize, hmem⟩ := absorb_spec hb (heapEnd_lt hbound)
  have hflags : ∀ x ∈ l ++ lo :: r, (absorb h lo hi).get x .flags = h.get x .flags :=
    fun x hx => hget x hx _ (by decide) (by decide)
  have hin : ∀ x ∈ l ++ r, x ∈ l ++ lo :: r := fun x hx => mem_middle.mpr (.inr hx)
  have hl' := hl.congr hhead fun x hx => hget x (hin x hx)
  refine ⟨⟨by rw [hend]; exact hblocks, hl'.links, hl'.once, hl'.free_iff, by rw [hend]; exact hbound⟩, hflags, ?_⟩
  rintro x hx ⟨hxlo, hxhi⟩ hu
  have hxlr : x ∈ l ++ r := by
    simp only [mem_append, mem_cons] at hx ⊢
    tauto
  refine ⟨hin x hxlr, by rw [hflags x (hin x hxlr), hu], hsize x hxlr, ?_⟩
  intro y hy1 hy2
  apply hmem
  intro c hc
  refine hb.payload_apart hx hy1 hy2 c ?_
  simp only [mem_append, mem_cons] at hc ⊢
  tauto

lemma blockNextMem_eq {p a last : ℕ} (hb : Blocks h.get p a (l ++ b :: r) last h.heapEnd)
    (hlt : h.heapEnd < 2 ^ 64) : blockNextMem h b = r.headD 0 := by
  unfold blockNextMem
  have hbound := (hb.bounds b (by simp)).2.1
  rcases hb.above with ⟨hr, hend, _⟩ | ⟨n, t, hr, hn, _⟩
  · rw [hend, wrap64_of_lt hlt, hr]
    simp
  have hnb := hb.bounds n (by rw [hr]; simp)
  have hlt' : n < h.heapEnd := by
    have := hnb.2.2
    simp only [minSplit, sizeofBlock] at this
    omega
  rw [← hn, wrap64_of_lt (by omega), if_neg (by omega), hr]
  rfl

/-- A pending block `c` and its free neighbour `n` become one pending block. -/
lemma Pending.merge {lo hi n c : ℕ} {l' r' : List ℕ} (hp : Pending h l' c r' fl) (he : l' ++ c :: r' = l ++ lo :: hi :: r)
    (hn : n = lo ∧ c = hi ∨ n = hi ∧ c = lo) (hf : h.get n .flags = blockFree) :
    ∃ fl', Pending (absorb (freeListRemove h n) lo hi) l lo r fl' ∧
      (∀ x ∈ l ++ lo :: r, (absorb (freeListRemove h n) lo hi).get x .flags = h.get x .flags) ∧
      Keeps (fun x => x ≠ c) h (l' ++ c :: r') (absorb (freeListRemove h n) lo hi) (l ++ lo :: r) := by
  have hblocks := hp.blocks
  have hc := hblocks.notMem_middle
  have hlay := hp.layout
  have hin : ∀ x ∈ l' ++ r', x ∈ l' ++ c :: r' := fun x hx => mem_middle.mpr (.inr hx)
  have hmem : ∀ x, x ∈ l' ++ c :: r' ↔ x = lo ∨ x = hi ∨ x ∈ l ++ r := by
    intro x
    rw [he, mem_middle, mem_middle]
  rw [he] at hblocks
  have hnodup := hblocks.nodup
  rw [nodup_middle, nodup_cons, nodup_middle, nodup_cons, mem_middle, not_or] at hnodup
  obtain ⟨⟨hne, hlo⟩, hhi, -⟩ := hnodup
  have hrest : ∀ x, x ∈ l' ++ r' ↔ x = n ∨ x ∈ l ++ r := by
    intro x
    have hx := hmem x
    rw [mem_middle] at hx
    grind
  obtain ⟨hlinks, fl', hl⟩ := hp.listed.remove hlay hin hf hrest (by grind)
  obtain ⟨hpend, hflags, hkeep⟩ := merge_pending (by rw [← he] at hblocks ⊢; exact hlinks.blocks hblocks) hl
    (hlinks.end_eq ▸ hp.bound)
  refine ⟨fl', hpend, fun x hx => ?_, .of_free hf ?_⟩
  · rw [hflags x hx, hlinks.get_eq x ((hmem x).mpr (by rw [mem_middle] at hx; tauto)) _ (by decide) (by decide)]
  · rw [← he] at hkeep
    exact ((hlinks.keeps _ hp.blocks).trans hkeep).mono (by grind)

/-- Merging upwards: afterwards the block above is not free. -/
lemma Pending.coalesceNext (hp : Pending h l b r fl) (hr : r.IsChain (NotBothFree h.get)) :
    ∃ r' fl', Pending (coalesceNext h b) l b r' fl' ∧
      (∀ x ∈ l ++ b :: r', (Heap.coalesceNext h b).get x .flags = h.get x .flags) ∧
      (r'.IsChain (NotBothFree h.get) ∧ ∀ n ∈ r'.head?, h.get n .flags ≠ blockFree) ∧
      Keeps (fun x => x ≠ b) h (l ++ b :: r) (Heap.coalesceNext h b) (l ++ b :: r') := by
  have hnext := blockNextMem_eq hp.blocks (heapEnd_lt hp.bound)
  have hsame := (LinksOnly.refl _ h).keeps (fun x => x ≠ b) hp.blocks
  cases r with
  | nil =>
    have he : Heap.coalesceNext h b = h := by simp [Heap.coalesceNext, hnext]
    rw [he]
    exact ⟨[], fl, hp, fun _ _ => rfl, ⟨hr, by simp⟩, hsame⟩
  | cons n t =>
    have hn0 : n ≠ 0 := hp.layout.pos n (by simp)
    have hnm := hp.blocks.magic n (by simp)
    by_cases hf : h.get n .flags = blockFree
    · have he : Heap.coalesceNext h b = absorb (freeListRemove h n) b n := by
        simp [Heap.coalesceNext, hnext, hn0, hnm, hf]
      obtain ⟨fl', hpend, hflags, hkeep⟩ := hp.merge rfl (.inr ⟨rfl, rfl⟩) hf
      rw [isChain_cons] at hr
      rw [he]
      exact ⟨t, fl', hpend, hflags, ⟨hr.2, fun m hm hfm => hr.1 m hm ⟨hf, hfm⟩⟩, hkeep⟩
    · have he : Heap.coalesceNext h b = h := by simp [Heap.coalesceNext, hnext, hf]
      rw [he]
      refine ⟨n :: t, fl, hp, fun _ _ => rfl, ⟨hr, fun m hm => ?_⟩, hsame⟩
      simp only [head?_cons, mem_def, some.injEq] at hm
      rw [← hm]
      exact hf

lemma Pending.coalescePrev (hp : Pending h l b r fl) (hl : l.IsChain (NotBothFree h.get)) :
    ∃ l' fl', Pending (coalescePrev h b).2 l' (Heap.coalescePrev h b).1 r fl' ∧
      (∀ x ∈ l' ++ (Heap.coalescePrev h b).1 :: r, (Heap.coalescePrev h b).2.get x .flags = h.get x .flags) ∧
      (l'.IsChain (NotBothFree h.get) ∧ ∀ n ∈ l'.getLast?, h.get n .flags ≠ blockFree) ∧
      ((Heap.coalescePrev h b).1 = b ∨ h.get (Heap.coalescePrev h b).1 .flags = blockFree) ∧
      Keeps (fun x => x ≠ b) h (l ++ b :: r) (Heap.coalescePrev h b).2
        (l' ++ (Heap.coalescePrev h b).1 :: r) := by
  have hsame := (LinksOnly.refl _ h).keeps (fun x => x ≠ b) hp.blocks
  rcases hp.blocks.below with ⟨rfl, hprev⟩ | ⟨t, n, rfl, hprev⟩
  · have he : Heap.coalescePrev h b = (b, h) := by simp [Heap.coalescePrev, hprev]
    rw [he]
    exact ⟨[], fl, hp, fun _ _ => rfl, ⟨hl, by simp⟩, .inl rfl, hsame⟩
  have hnmem : n ∈ t ++ [n] ++ b :: r := by simp
  have hn0 : n ≠ 0 := hp.layout.pos n hnmem
  have hnm := hp.blocks.magic n hnmem
  by_cases hf : h.get n .flags = blockFree
  · have he : Heap.coalescePrev h b = (n, absorb (freeListRemove h n) n b) := by
      simp [Heap.coalescePrev, hprev, hn0, hnm, hf]
    obtain ⟨fl', hpend, hflags, hkeep⟩ := hp.merge (l := t) (r := r) (by simp) (.inl ⟨rfl, rfl⟩) hf
    rw [isChain_append] at hl
    rw [he]
    exact ⟨t, fl', hpend, hflags, ⟨hl.1, fun m hm hfm => hl.2.2 m hm n rfl ⟨hfm, hf⟩⟩, .inr hf, hkeep⟩
  · have he : Heap.coalescePrev h b = (b, h) := by simp [Heap.coalescePrev, hprev, hf]
    rw [he]
    refine ⟨t ++ [n], fl, hp, fun _ _ => rfl, ⟨hl, fun m hm => ?_⟩, .inl rfl, hsame⟩
    simp only [getLast?_append, getLast?_singleton, some_or, mem_def, some.injEq] at hm
    rw [← hm]
    exact hf

end AetherOS.Heap
