import AetherOS.Heap
import AetherOS.LinkedList
import AetherOS.Tiling

/-!
# Headers, the free list and the block sequence of the heap

The allocator's assignments are first understood field by field on headers that
do not overlap. From this follow what linking and unlinking a block do to the
free list, and what relabelling, merging, splitting and growing do to the
sequence of blocks that covers the heap.
-/
namespace AetherOS.Heap
open ByteMemory LinkedList List

/-- The headers at `b` and `c` do not overlap. -/
def Sep (b c : ℕ) : Prop := b + sizeofBlock ≤ c ∨ c + sizeofBlock ≤ b

lemma Sep.symm {b c : ℕ} (h : Sep b c) : Sep c b := Or.symm h

/-- Addresses of headers that lie in the address space and do not overlap. -/
structure Layout (B : List ℕ) : Prop where
  sep : ∀ b ∈ B, ∀ c ∈ B, b ≠ c → Sep b c
  pos : ∀ b ∈ B, b ≠ 0
  lt : ∀ b ∈ B, b < 2 ^ 64

lemma Field.off_add_width_le (f : Field) : f.off + f.width ≤ sizeofBlock := by cases f <;> decide

lemma get_congr {h h' : State} (hm : h'.mem = h.mem) (b : ℕ) (f : Field) : h'.get b f = h.get b f := by
  simp [State.get, hm]

@[simp] lemma get_setFreeList (h : State) (v b : ℕ) (f : Field) : (h.setFreeList v).get b f = h.get b f := by
  apply get_congr
  rfl

@[simp] lemma get_setHeapLast (h : State) (v b : ℕ) (f : Field) : (h.setHeapLast v).get b f = h.get b f := by
  apply get_congr
  rfl

section

variable (h : State) (b : ℕ)

@[simp] lemma put_freeList (f : Field) (v : ℕ) : (h.put b f v).freeList = h.freeList := rfl

@[simp] lemma put_heapLast (f : Field) (v : ℕ) : (h.put b f v).heapLast = h.heapLast := rfl

@[simp] lemma put_heapEnd (f : Field) (v : ℕ) : (h.put b f v).heapEnd = h.heapEnd := rfl

@[simp] lemma setFreeList_freeList : (h.setFreeList b).freeList = b := rfl

@[simp] lemma setHeapLast_heapLast : (h.setHeapLast b).heapLast = b := rfl

@[simp] lemma setHeapLast_heapEnd : (h.setHeapLast b).heapEnd = h.heapEnd := rfl

lemma get_lt (f : Field) : h.get b f < 2 ^ 64 := by
  have hr := readLE_lt h.mem f.width (b + f.off)
  cases f <;> simp only [State.get, Field.width] at hr ⊢ <;> omega

@[simp] lemma get_put_same (f : Field) (v : ℕ) : (h.put b f v).get b f = v % 256 ^ f.width := by
  simp [State.get, State.put]

lemma get_put_word {f : Field} {v : ℕ} (hf : f.width = 8) (hv : v < 2 ^ 64) : (h.put b f v).get b f = v := by
  rw [get_put_same, hf]
  exact Nat.mod_eq_of_lt (by omega)

lemma get_put_field {f g : Field} (v : ℕ) (hfg : f ≠ g) : (h.put b f v).get b g = h.get b g := by
  simp only [State.get, State.put]
  apply readLE_outside
  cases f <;> cases g <;> first | contradiction | (simp only [Field.off, Field.width]; omega)

end

lemma get_put_sep (h : State) {b c : ℕ} (f g : Field) (v : ℕ) (hs : Sep b c) : (h.put b f v).get c g = h.get c g := by
  simp only [State.get, State.put]
  apply readLE_outside
  have hf := f.off_add_width_le
  have hg := g.off_add_width_le
  unfold Sep at hs
  omega

lemma get_put_of_ne (h : State) {b c : ℕ} {f g : Field} (v : ℕ)
    (hs : b ≠ c → Sep b c) (hne : b ≠ c ∨ f ≠ g) : (h.put b f v).get c g = h.get c g := by
  by_cases hbc : b = c
  · subst hbc
    exact get_put_field h b v (hne.resolve_left (fun hb => hb rfl))
  · exact get_put_sep h f g v (hs hbc)

lemma get_put_link (h : State) {b c v : ℕ} {f : Field} (hf : f.width = 8) (hv : v < 2 ^ 64)
    (hs : b ≠ c → Sep b c) : (h.put b f v).get c f = if c = b then v else h.get c f := by
  split_ifs with hc
  · rw [hc]
    exact get_put_word h b hf hv
  · exact get_put_of_ne h v hs (.inl (Ne.symm hc))

lemma mem_put_outside (h : State) {b x : ℕ} (f : Field) (v : ℕ)
    (hx : x < b ∨ b + sizeofBlock ≤ x) : (h.put b f v).mem x = h.mem x := by
  have hf := f.off_add_width_le
  exact writeLE_outside _ (by omega)

/-- The step from `h` to `h'` only moved free-list links of headers in `B`. -/
structure LinksOnly (B : List ℕ) (h h' : State) : Prop where
  get_eq : ∀ b ∈ B, ∀ f, f ≠ .nextFree → f ≠ .prevFree → h'.get b f = h.get b f
  last_eq : h'.heapLast = h.heapLast
  end_eq : h'.heapEnd = h.heapEnd
  mem_eq : ∀ x, (∀ b ∈ B, x < b ∨ b + sizeofBlock ≤ x) → h'.mem x = h.mem x

lemma LinksOnly.refl (B : List ℕ) (h : State) : LinksOnly B h h :=
  ⟨fun _ _ _ _ _ => rfl, rfl, rfl, fun _ _ => rfl⟩

lemma LinksOnly.trans {B : List ℕ} {h h' h'' : State} (h1 : LinksOnly B h h')
    (h2 : LinksOnly B h' h'') : LinksOnly B h h'' where
  get_eq b hb f hn hp := (h2.get_eq b hb f hn hp).trans (h1.get_eq b hb f hn hp)
  last_eq := h2.last_eq.trans h1.last_eq
  end_eq := h2.end_eq.trans h1.end_eq
  mem_eq x hx := (h2.mem_eq x hx).trans (h1.mem_eq x hx)

lemma LinksOnly.setFreeList (B : List ℕ) (h : State) (v : ℕ) : LinksOnly B h (h.setFreeList v) :=
  ⟨fun c _ f _ _ => get_setFreeList h v c f, rfl, rfl, fun _ _ => rfl⟩

lemma LinksOnly.put {B : List ℕ} (hB : Layout B) (h : State) {b : ℕ} (hb : b ∈ B)
    {f : Field} (hf : f = .nextFree ∨ f = .prevFree) (v : ℕ) :
    LinksOnly B h (h.put b f v) where
  get_eq c hc g hn hp := by
    apply get_put_of_ne h v (hB.sep b hb c hc)
    right
    rintro rfl
    exact hf.elim hn hp
  last_eq := rfl
  end_eq := rfl
  mem_eq x hx := mem_put_outside h f v (hx b hb)

/-- The free list visits exactly the nodes `fl`, front to back. -/
def FreeDll (h : State) (fl : List ℕ) : Prop :=
  Dll 0 (fun b => h.get b .nextFree) (fun b => h.get b .prevFree) 0 h.freeList fl

lemma FreeDll.congr {h h' : State} {fl : List ℕ} (hd : FreeDll h fl) (hhead : h'.freeList = h.freeList)
    (hn : ∀ x ∈ fl, h'.get x .nextFree = h.get x .nextFree)
    (hp : ∀ x ∈ fl, h'.get x .prevFree = h.get x .prevFree) : FreeDll h' fl := by
  unfold FreeDll
  rw [hhead]
  exact Dll.congr hd hn hp

section

variable {B fl : List ℕ} {h : State} {b : ℕ}

lemma freeListAdd_null (h0 : h.freeList = 0) : freeListAdd h b =
    ((h.put b .nextFree h.freeList).put b .prevFree 0).setFreeList b := by simp [freeListAdd, h0]

lemma freeListAdd_cons (h0 : h.freeList ≠ 0) : freeListAdd h b =
    (((h.put b .nextFree h.freeList).put b .prevFree 0).put h.freeList
      .prevFree b).setFreeList b := by simp [freeListAdd, h0]

section

variable (hB : Layout B) (hb : b ∈ B) (hsub : ∀ x ∈ fl, x ∈ B) (hd : FreeDll h fl)
include hB hb hsub hd

lemma freeListAdd_links : LinksOnly B h (freeListAdd h b) := by
  have hnode : LinksOnly B h ((h.put b .nextFree h.freeList).put b .prevFree 0) :=
    (LinksOnly.put hB h hb (.inl rfl) _).trans (LinksOnly.put hB _ hb (.inr rfl) _)
  rcases Dll.head_cases hd with ⟨h0, _⟩ | ⟨h0, t, ht⟩
  · rw [freeListAdd_null h0]
    exact hnode.trans (LinksOnly.setFreeList B _ b)
  have hhead : h.freeList ∈ B := hsub _ (by rw [ht]; simp)
  rw [freeListAdd_cons h0]
  exact (hnode.trans (LinksOnly.put hB _ hhead (.inr rfl) b)).trans
    (LinksOnly.setFreeList B _ b)

theorem freeListAdd_dll (hl : fl.Nodup) (hnew : b ∉ fl) : FreeDll (freeListAdd h b) (b :: fl) := by
  have hsep : ∀ x ∈ fl, b ≠ x → Sep b x := fun x hx => hB.sep b hb x (hsub x hx)
  have hne : ∀ x ∈ fl, b ≠ x := fun x hx he => hnew (he ▸ hx)
  have hblt := hB.lt b hb
  -- the fields after the two assignments to the new node itself
  let h2 := (h.put b .nextFree h.freeList).put b .prevFree 0
  have hn2 : h2.get b .nextFree = h.freeList := by
    rw [get_put_field _ _ _ (by decide)]
    rcases Dll.head_cases hd with ⟨h0, _⟩ | ⟨_, t, ht⟩
    · rw [get_put_word h b rfl (by omega)]
    · exact get_put_word h b rfl (hB.lt _ (hsub _ (by rw [ht]; simp)))
  have hp2 : h2.get b .prevFree = 0 := get_put_word _ b rfl (by omega)
  have hold : ∀ x ∈ fl, ∀ f, h2.get x f = h.get x f := by
    intro x hx f
    rw [get_put_sep _ _ _ _ (hsep x hx (hne x hx)), get_put_sep _ _ _ _ (hsep x hx (hne x hx))]
  rcases Dll.head_cases hd with ⟨h0, hnil⟩ | ⟨h0, t, ht⟩
  · subst hnil
    rw [freeListAdd_null h0]
    simp only [FreeDll, get_setFreeList, setFreeList_freeList]
    refine Dll.push hd (hB.pos b hb) nodup_nil hn2 hp2 ?_ ?_ <;> simp
  have hmem : h.freeList ∈ fl := by rw [ht]; simp
  have hhb : h.freeList ≠ b := fun he => hnew (he ▸ hmem)
  have hhB := hsub _ hmem
  rw [freeListAdd_cons h0]
  simp only [FreeDll, get_setFreeList, setFreeList_freeList]
  refine Dll.push hd (hB.pos b hb) hl ?_ ?_ ?_ ?_
  · exact (get_put_of_ne _ _ (hB.sep _ hhB _ hb) (.inl hhb)).trans hn2
  · exact (get_put_of_ne _ _ (hB.sep _ hhB _ hb) (.inl hhb)).trans hp2
  · intro x hx
    exact (get_put_of_ne _ _ (hB.sep _ hhB _ (hsub x hx)) (.inr (by decide))).trans
      (hold x hx _)
  intro x hx
  by_cases hxh : x = h.freeList
  · rw [if_pos hxh, hxh]
    exact get_put_word _ _ rfl hblt
  rw [if_neg hxh]
  exact (get_put_of_ne _ _ (hB.sep _ hhB _ (hsub x hx))
    (.inl (fun he => hxh he.symm))).trans (hold x hx _)

end

/-- First half of unlinking: the predecessor, or the list head, skips `b`. -/
def skipForward (h : State) (b : ℕ) : State :=
  if h.get b .prevFree ≠ 0 then h.put (h.get b .prevFree) .nextFree (h.get b .nextFree)
  else h.setFreeList (h.get b .nextFree)

/-- Second half of unlinking: the successor skips `b` backwards. -/
def skipBackward (h : State) (b : ℕ) : State :=
  if h.get b .nextFree ≠ 0 then h.put (h.get b .nextFree) .prevFree (h.get b .prevFree)
  else h

lemma freeListRemove_eq (h : State) (b : ℕ) : freeListRemove h b =
    ((skipBackward (skipForward h b) b).put b .nextFree 0).put b .prevFree 0 := rfl

variable {xs ys : List ℕ}

section

variable (hB : Layout B) (hsub : ∀ x ∈ xs ++ b :: ys, x ∈ B)
include hB hsub

lemma skipForward_spec (hd : FreeDll h (xs ++ b :: ys)) : LinksOnly B h (skipForward h b) ∧
    (skipForward h b).freeList = (if xs = [] then h.get b .nextFree else h.freeList) ∧
    (∀ x ∈ xs ++ b :: ys, (skipForward h b).get x .nextFree =
      if x = h.get b .prevFree then h.get b .nextFree else h.get x .nextFree) ∧
    ∀ x ∈ xs ++ b :: ys, (skipForward h b).get x .prevFree = h.get x .prevFree := by
  unfold skipForward
  rcases Dll.prev_of_mem hd with ⟨hx, hb⟩ | ⟨hx, hb⟩
  · have hb : h.get b .prevFree = 0 := hb
    rw [if_neg (by simp [hb]), if_pos hx]
    refine ⟨LinksOnly.setFreeList B h _, rfl, ?_, fun x _ => get_setFreeList h _ x _⟩
    intro x hx
    rw [hb, if_neg (hB.pos x (hsub x hx)), get_setFreeList]
  have hb : h.get b .prevFree ∈ xs := hb
  have hpB : h.get b .prevFree ∈ B := hsub _ (by simp [hb])
  rw [if_pos (hB.pos _ hpB), if_neg hx]
  refine ⟨LinksOnly.put hB h hpB (.inl rfl) _, rfl, ?_, ?_⟩
  · exact fun x hx => get_put_link h rfl (get_lt h b _) (hB.sep _ hpB x (hsub x hx))
  · exact fun x hx => get_put_of_ne h _ (hB.sep _ hpB x (hsub x hx)) (.inr (by decide))

lemma skipBackward_spec (hnext : h.get b .nextFree = 0 ∨ h.get b .nextFree ∈ ys) : LinksOnly B h (skipBackward h b) ∧
    (skipBackward h b).freeList = h.freeList ∧
    (∀ x ∈ xs ++ b :: ys, (skipBackward h b).get x .prevFree =
      if x = h.get b .nextFree then h.get b .prevFree else h.get x .prevFree) ∧
    ∀ x ∈ xs ++ b :: ys, (skipBackward h b).get x .nextFree = h.get x .nextFree := by
  unfold skipBackward
  rcases hnext with hb | hb
  · rw [if_neg (by simp [hb])]
    refine ⟨.refl B h, rfl, ?_, fun _ _ => rfl⟩
    intro x hx
    rw [hb, if_neg (hB.pos x (hsub x hx))]
  have hnB : h.get b .nextFree ∈ B := hsub _ (by simp [hb])
  rw [if_pos (hB.pos _ hnB)]
  refine ⟨LinksOnly.put hB h hnB (.inr rfl) _, rfl, ?_, ?_⟩
  · exact fun x hx => get_put_link h rfl (get_lt h b _) (hB.sep _ hnB x (hsub x hx))
  · exact fun x hx => get_put_of_ne h _ (hB.sep _ hnB x (hsub x hx)) (.inr (by decide))

/-- Unlinking a node takes exactly it out of the list and touches nothing but
links of list nodes. -/
theorem freeListRemove_spec (hd : FreeDll h (xs ++ b :: ys)) (hl : (xs ++ b :: ys).Nodup) :
    LinksOnly B h (freeListRemove h b) ∧ FreeDll (freeListRemove h b) (xs ++ ys) := by
  have hbmem : b ∈ xs ++ b :: ys := by simp
  have hbB : b ∈ B := hsub b hbmem
  have hxne : ∀ x ∈ xs ++ ys, b ≠ x := by
    intro x hx he
    subst he
    rw [nodup_middle] at hl
    exact (nodup_cons.mp hl).1 hx
  have hmem : ∀ x ∈ xs ++ ys, x ∈ xs ++ b :: ys := fun x hx => Tiling.mem_middle.mpr (.inr hx)
  have hnext := Dll.next_of_mem hd
  have hbn : b ≠ h.get b .prevFree := by
    rcases Dll.prev_of_mem hd with ⟨_, hp⟩ | ⟨_, hp⟩
    · intro he
      exact hB.pos b hbB (he.trans hp)
    · exact hxne _ (by simp [hp])
  obtain ⟨hlinks1, hhead1, hn1, hp1⟩ := skipForward_spec hB hsub hd
  have hn1b : (skipForward h b).get b .nextFree = h.get b .nextFree := by rw [hn1 b hbmem, if_neg hbn]
  have hp1b := hp1 b hbmem
  obtain ⟨hlinks2, hhead2, hp2, hn2⟩ := skipBackward_spec (h := skipForward h b) hB hsub
    (by rw [hn1b]; exact hnext.imp (fun hn => hn.1) (fun hn => hn.2))
  have hput : ∀ x ∈ xs ++ ys, ∀ f, (freeListRemove h b).get x f = (skipBackward (skipForward h b) b).get x f := by
    intro x hx f
    rw [freeListRemove_eq]
    have hs := hB.sep b hbB x (hsub x (hmem x hx)) (hxne x hx)
    rw [get_put_sep _ _ _ _ hs, get_put_sep _ _ _ _ hs]
  refine ⟨?_, ?_⟩
  · rw [freeListRemove_eq]
    exact ((hlinks1.trans hlinks2).trans (LinksOnly.put hB _ hbB (.inl rfl) _)).trans
      (LinksOnly.put hB _ hbB (.inr rfl) _)
  have hhead : (freeListRemove h b).freeList = if xs = [] then h.get b .nextFree else h.freeList := by
    rw [freeListRemove_eq, put_freeList, put_freeList, hhead2, hhead1]
  unfold FreeDll
  rw [hhead]
  refine Dll.unlink hd hl (fun h0 => hB.pos 0 (hsub 0 h0) rfl) ?_ ?_
  · intro x hx
    rw [hput x hx, hn2 x (hmem x hx), hn1 x (hmem x hx)]
  · intro x hx
    rw [hput x hx, hp2 x (hmem x hx), hn1b, hp1b, hp1 x (hmem x hx)]

end

end

/-- From address `a` on, above the block `p`, the blocks `bs` follow each other
without gap and end at `e`. Every header points back to the block below it and
`last` is the topmost block. -/
def Blocks (g : ℕ → Field → ℕ) : ℕ → ℕ → List ℕ → ℕ → ℕ → Prop
  | p, a, [], last, e => last = p ∧ e = a
  | p, a, b :: bs, last, e =>
    b = a ∧ g b .magic = heapMagic ∧ (g b .flags = blockFree ∨ g b .flags = blockUsed) ∧
      minSplit ≤ g b .size ∧ g b .prev = p ∧ Blocks g b (b + g b .size) bs last e

variable {g g' : ℕ → Field → ℕ} {p a last e : ℕ} {bs l r : List ℕ} {b c : ℕ}

lemma Blocks.append_iff : Blocks g p a (l ++ r) last e ↔ ∃ q d, Blocks g p a l q d ∧ Blocks g q d r last e := by
  induction l generalizing p a with
  | nil =>
    constructor
    · intro h
      exact ⟨p, a, ⟨rfl, rfl⟩, h⟩
    · rintro ⟨q, d, ⟨rfl, rfl⟩, h⟩
      exact h
  | cons x l ih =>
    simp only [cons_append, Blocks, ih]
    constructor
    · rintro ⟨h1, h2, h3, h4, h5, q, d, h6, h7⟩
      exact ⟨q, d, ⟨h1, h2, h3, h4, h5, h6⟩, h7⟩
    · rintro ⟨q, d, ⟨h1, h2, h3, h4, h5, h6⟩, h7⟩
      exact ⟨h1, h2, h3, h4, h5, q, d, h6, h7⟩

section

variable (h : Blocks g p a bs last e)
include h

lemma Blocks.congr (hm : ∀ x ∈ bs, g' x .magic = g x .magic)
    (hf : ∀ x ∈ bs, g' x .flags = blockFree ∨ g' x .flags = blockUsed) (hs : ∀ x ∈ bs, g' x .size = g x .size)
    (hp : ∀ x ∈ bs, g' x .prev = g x .prev) : Blocks g' p a bs last e := by
  induction bs generalizing p a with
  | nil => exact h
  | cons b bs ih =>
    obtain ⟨h1, h2, _, h4, h5, h6⟩ := h
    have hb : b ∈ b :: bs := by simp
    refine ⟨h1, by rw [hm b hb, h2], hf b hb, by rw [hs b hb]; exact h4, by rw [hp b hb, h5], ?_⟩
    rw [hs b hb]
    exact ih h6 (fun x hx => hm x (by simp [hx])) (fun x hx => hf x (by simp [hx]))
      (fun x hx => hs x (by simp [hx])) (fun x hx => hp x (by simp [hx]))

lemma Blocks.header : ∀ x ∈ bs, g x .magic = heapMagic ∧ (g x .flags = blockFree ∨ g x .flags = blockUsed) := by
  induction bs generalizing p a with
  | nil => simp
  | cons b bs ih =>
    obtain ⟨_, h2, h3, _, _, h6⟩ := h
    exact forall_mem_cons.mpr ⟨⟨h2, h3⟩, ih h6⟩

lemma Blocks.flags (x : ℕ) (hx : x ∈ bs) :
    g x .flags = blockFree ∨ g x .flags = blockUsed := (h.header x hx).2

lemma Blocks.magic (x : ℕ) (hx : x ∈ bs) : g x .magic = heapMagic := (h.header x hx).1

lemma Blocks.same_shape (hg : ∀ x ∈ bs, ∀ f, f ≠ .nextFree → f ≠ .prevFree → g' x f = g x f) : Blocks g' p a bs last e :=
  h.congr (fun x hx => hg x hx _ (by decide) (by decide))
    (fun x hx => by rw [hg x hx _ (by decide) (by decide)]; exact h.flags x hx)
    (fun x hx => hg x hx _ (by decide) (by decide))
    (fun x hx => hg x hx _ (by decide) (by decide))

lemma Blocks.tiles : Tiling.Tiles (g · .size) (minSplit ≤ ·) a bs e := by
  induction bs generalizing p a with
  | nil => exact h.2.symm
  | cons b bs ih =>
    obtain ⟨h1, _, _, h4, _, h6⟩ := h
    exact ⟨h1, h4, ih h6⟩

lemma Blocks.le : a ≤ e := h.tiles.le

lemma Blocks.bounds : ∀ x ∈ bs, a ≤ x ∧ x + g x .size ≤ e ∧ minSplit ≤ g x .size :=
  h.tiles.bounds

lemma Blocks.disjoint : ∀ x ∈ bs, ∀ y ∈ bs, x ≠ y →
    x + g x .size ≤ y ∨ y + g y .size ≤ x := fun _ hx _ hy hne => h.tiles.apart hx hy hne

lemma Blocks.nodup : bs.Nodup := by
  refine h.tiles.pairwise.imp_of_mem fun {b c} hb _ hle he => ?_
  have hmin := (h.bounds b hb).2.2
  simp only [minSplit, sizeofBlock] at hmin
  omega

lemma Blocks.layout (ha : 0 < a) (he : e ≤ 2 ^ 64) : Layout bs where
  sep x hx y hy hne := by
    have hxb := (h.bounds x hx).2.2
    have hyb := (h.bounds y hy).2.2
    have hd := h.disjoint x hx y hy hne
    simp only [minSplit] at hxb hyb
    unfold Sep
    omega
  pos x hx := by
    have := (h.bounds x hx).1
    omega
  lt x hx := by
    obtain ⟨_, h2, h3⟩ := h.bounds x hx
    simp only [minSplit, sizeofBlock] at h3
    omega

end

lemma Blocks.last_mem (h : Blocks g p a (b :: bs) last e) : last ∈ b :: bs := by
  induction bs generalizing p a b with
  | nil =>
    obtain ⟨_, _, _, _, _, h6⟩ := h
    simp [h6.1]
  | cons c bs ih =>
    obtain ⟨_, _, _, _, _, h6⟩ := h
    exact mem_cons_of_mem _ (ih h6)

lemma Blocks.above (h : Blocks g p a (l ++ b :: r) last e) :
    (r = [] ∧ b + g b .size = e ∧ last = b) ∨
    ∃ n t, r = n :: t ∧ n = b + g b .size ∧ g n .prev = b := by
  obtain ⟨q, d, _, h2⟩ := Blocks.append_iff.mp h
  obtain ⟨_, _, _, _, _, h6⟩ := h2
  cases r with
  | nil => exact .inl ⟨rfl, h6.2.symm, h6.1⟩
  | cons n t =>
    obtain ⟨hn, _, _, _, hp, _⟩ := h6
    exact .inr ⟨n, t, rfl, hn, hp⟩

/-- What a back pointer holds: the entry value for the lowest block, else the
block directly below. -/
lemma Blocks.below (h : Blocks g p a (l ++ b :: r) last e) :
    (l = [] ∧ g b .prev = p) ∨ ∃ t n, l = t ++ [n] ∧ g b .prev = n := by
  obtain ⟨q, d, h1, h2⟩ := Blocks.append_iff.mp h
  obtain ⟨_, _, _, _, hp, _⟩ := h2
  rcases eq_nil_or_concat' l with rfl | ⟨t, n, rfl⟩
  · exact .inl ⟨rfl, by rw [hp, h1.1]⟩
  obtain ⟨q', d', _, h1⟩ := Blocks.append_iff.mp h1
  obtain ⟨_, _, _, _, _, h6⟩ := h1
  exact .inr ⟨t, n, rfl, by rw [hp, h6.1]⟩

end AetherOS.Heap
