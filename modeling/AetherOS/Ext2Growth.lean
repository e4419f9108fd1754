import AetherOS.Ext2Blocks

/-!
# Growing a file

`ext2_write` hangs new blocks into empty slots of the inode and of blocks of block
numbers. A new block is cleared, so no file notices: its bytes were zero before because
nothing was mapped, and are zero now.
-/
namespace AetherOS.Ext2
open ByteMemory ByteBitmap PointerTree Function Option Nat

section

variable {g : Geometry} {v : View} {n h b : ℕ}

lemma ptrs_pos (g : Geometry) : 0 < g.ptrs := by
  have h1 := g.four_mul_ptrs
  have h2 := g.blockSize_pos
  omega

lemma height_of_reach {k : ℕ} {p : List ℕ} (hr : reach g v n (k :: p) = some (.block h b)) :
    k < 15 ∧ h + p.length = slotHeight k := by
  induction p using List.reverseRecOn generalizing h b with
  | nil =>
    simp only [reach, walk, refs] at hr
    split at hr
    next hk =>
      simp only [bind_some, some.injEq, Node.block.injEq] at hr
      exact ⟨hk.1, by simp [hr.1]⟩
    · cases hr
  | append_singleton p i ih =>
    have hr' : reach g v n ((k :: p) ++ [i]) = some (.block h b) := hr
    rw [reach, walk_concat] at hr'
    obtain ⟨t, ht, hi⟩ := bind_eq_some_iff.mp hr'
    cases t with
    | inode m =>
      cases p using List.reverseRecOn with
      | nil =>
        have : reach g v n ([] ++ [k]) = some (.inode m) := ht
        exact absurd this (reach_concat_inode m)
      | append_singleton q j =>
        have : reach g v n ((k :: q) ++ [j]) = some (.inode m) := ht
        exact absurd this (reach_concat_inode m)
    | block m d =>
      obtain ⟨hk, hm⟩ := ih ht
      cases m with
      | zero => cases hi
      | succ m =>
        simp only [refs] at hi
        split at hi
        · simp only [some.injEq, Node.block.injEq] at hi
          refine ⟨hk, ?_⟩
          simp only [List.length_append, List.length_singleton]
          omega
        · cases hi

lemma pathOf_height {idx : ℕ} (hr : reach g v n (pathOf g idx) = some (.block h b)) : h = 0 := by
  unfold pathOf at hr
  split_ifs at hr
  all_goals
    have := (height_of_reach hr).2
    simp only [List.length_cons, List.length_nil, slotHeight] at this
    omega

lemma pathOf_injective {idx idx' : ℕ} (he : pathOf g idx = pathOf g idx') : idx = idx' := by
  have hdivmod : ∀ a b, a / g.ptrs = b / g.ptrs → a % g.ptrs = b % g.ptrs → a = b := by
    intro a b hdiv hmod
    rw [← div_add_mod a g.ptrs, ← div_add_mod b g.ptrs, hdiv, hmod]
  unfold pathOf at he
  simp only at he
  split_ifs at he <;> simp at he
  · exact he
  · omega
  · have := hdivmod _ _ he.1 he.2
    omega
  rw [← Nat.div_div_eq_div_mul, ← Nat.div_div_eq_div_mul] at he
  have := hdivmod _ _ (hdivmod _ _ he.1 he.2.1) he.2.2
  omega

end

/-- No file and no inode is different. -/
structure Grown (g : Geometry) (v v' : View) : Prop where
  consistent : Consistent g v'
  live : v'.live = v.live
  count : v'.blocksCount = v.blocksCount
  paths : ∀ n, v.live n → ∀ p t, reach g v n p = some t → reach g v' n p = some t
  bytes : ∀ n, v.live n → ∀ x, fileByte g v' n x = fileByte g v n x
  inodes : ∀ n, RealGroup g v (inodeGroup g n) → inodeAt g v'.disk n = inodeAt g v.disk n
  inodeBits : ∀ i j, RealGroup g v i → inodeBit g v'.disk i j = inodeBit g v.disk i j
  inVolume : InVolume g v → InVolume g v'

section

variable {g : Geometry} {v v' v'' : View}

lemma Grown.refl (h : Consistent g v) : Grown g v v :=
  ⟨h, rfl, rfl, fun _ _ _ _ ht => ht, fun _ _ _ => rfl, fun _ _ => rfl, fun _ _ _ => rfl, id⟩

lemma Grown.realGroup (h : Grown g v v') (i : ℕ) : RealGroup g v' i ↔ RealGroup g v i := by
  rw [RealGroup, RealGroup, h.count]

lemma Grown.trans (h : Grown g v v') (h' : Grown g v' v'') : Grown g v v'' where
  consistent := h'.consistent
  live := h'.live.trans h.live
  count := h'.count.trans h.count
  paths n hn p t ht := h'.paths n (h.live ▸ hn) p t (h.paths n hn p t ht)
  bytes n hn x := (h'.bytes n (h.live ▸ hn) x).trans (h.bytes n hn x)
  inodes n hn := (h'.inodes n ((h.realGroup _).mpr hn)).trans (h.inodes n hn)
  inodeBits i j hi := (h'.inodeBits i j ((h.realGroup i).mpr hi)).trans (h.inodeBits i j hi)
  inVolume hv := h'.inVolume (h.inVolume hv)

lemma SameRoles.grown (hr : SameRoles g v v') (h : Consistent g v) (h' : Consistent g v')
    (hu : Untouched g v v') : Grown g v v' where
  __ := hr
  consistent := h'
  paths n hn p t ht := (hr.reach hn p).trans ht
  bytes n hn x := fileByte_congr (hr.reach hn _) fun m b hb =>
    hu b _ (Consistent.file_role hn hb) (by simp) (by simp) (by simp)
  inodes n hn := inodeAt_congr h.inodesFit (hr.groups _ hn).inodeTable
    (hu _ _ (h.inodeBlock_role hn) (by simp) (by simp) (by simp))
  inodeBits i _ hi := inodeBit_congr (hr.groups i hi).inodeBitmap
    (hu _ _ (Consistent.inodeBitmap_role hi) (by simp) (by simp) (by simp))
  inVolume := hr.inVolume

end

/-- The empty slot `i` at the end of the path `p` below the inode got the block `c`. -/
structure Grafted (g : Geometry) (v v' : View) (ino : ℕ) (p : List ℕ) (i m c : ℕ) : Prop where
  live : v'.live = v.live
  count : v'.blocksCount = v.blocksCount
  empty : reach g v ino (p ++ [i]) = none
  self : ∀ q, reach g v' ino q = if q = p ++ [i] then some (.block m c) else reach g v ino q
  others : ∀ n, n ≠ ino → v.live n → ∀ q, reach g v' n q = reach g v n q
  disk : ∀ b, (∀ h, reach g v ino p ≠ some (.block h b)) → Same g v.disk v'.disk b

section

variable {g : Geometry} {v v' : View} {ino i m c b : ℕ} {p : List ℕ}

section

variable (hg : Grafted g v v' ino p i m c)
include hg

lemma Grafted.same_of_role (h : Consistent g v) (hlive : v.live ino)
    {r : Role} (hb : HasRole g v b r) (hr : r ≠ .file ino p) : Same g v.disk v'.disk b := by
  refine hg.disk b fun t ht => hr ?_
  exact h.unique b r _ hb (Consistent.file_role hlive ht)

lemma Grafted.bgd (h : Consistent g v) (hlive : v.live ino) {k : ℕ}
    (hk : k * g.blocksPerGroup < v.blocksCount) : bgdAt g v'.disk k = bgdAt g v.disk k :=
  bgdAt_eq_of_same (hg.same_of_role h hlive (Consistent.descriptor_role hk) (by simp))

lemma Grafted.realGroup (k : ℕ) : RealGroup g v' k ↔ RealGroup g v k := by rw [RealGroup, RealGroup, hg.count]

section

variable (h : Consistent g v)
include h

section

variable (hlive : v.live ino)
include hlive

lemma Grafted.hasRole (b : ℕ) (r : Role) : HasRole g v' b r ↔ HasRole g v b r ∨ r = .file ino (p ++ [i]) ∧ b = c := by
  cases r with
  | super => simp [HasRole]
  | descriptors => simp [HasRole, hg.count]
  | blockBitmap k | inodeBitmap k | inodeTable k =>
    simp only [HasRole, hg.realGroup, reduceCtorEq, false_and, or_false]
    exact and_congr_right fun hk => by rw [hg.bgd h hlive hk.described]
  | file n q =>
    by_cases hn : n = ino
    · subst hn
      simp only [HasRole, hg.live, hg.self q, Role.file.injEq, true_and]
      by_cases hq : q = p ++ [i]
      · subst hq
        simp only [if_true, hg.empty]
        simp [hlive, eq_comm]
      · simp [hq]
    · simp only [HasRole, hg.live, Role.file.injEq, hn, false_and, or_false]
      exact and_congr_right fun hl => by rw [hg.others n hn hl]

lemma Grafted.bits {k j : ℕ} (hk : RealGroup g v k) : blockBit g v'.disk k j = blockBit g v.disk k j := by
  have hsame := hg.same_of_role h hlive (Consistent.blockBitmap_role hk) (by simp)
  rw [blockBit, blockBit, hg.bgd h hlive hk.described, hsame.block]

theorem Grafted.consistent (hc : Spare g v c) : Consistent g v' where
  __ := h
  blocksCount_lt := hg.count ▸ h.blocksCount_lt
  tables k b hb := by
    rw [hg.count]
    rcases (hg.hasRole h hlive b _).mp hb with hb | ⟨hr, -⟩
    · exact h.tables k b hb
    · cases hr
  live n hn := by
    rw [hg.realGroup]
    exact h.live n (hg.live ▸ hn)
  unique b r r' hb hb' := by
    rcases (hg.hasRole h hlive b r).mp hb with hb | ⟨rfl, rfl⟩
    · rcases (hg.hasRole h hlive b r').mp hb' with hb' | ⟨rfl, rfl⟩
      · exact h.unique b r r' hb hb'
      · exact absurd hb (hc.noRole r)
    rcases (hg.hasRole h hlive b r').mp hb' with hb' | ⟨rfl, -⟩
    · exact absurd hb' (hc.noRole r')
    · rfl
  free k j hk hj hbit := by
    rw [hg.realGroup] at hk
    rw [hg.bits h hlive hk] at hbit
    obtain ⟨hlt, hnone⟩ := h.free k j hk hj hbit
    refine ⟨hg.count ▸ hlt, fun r hr => ?_⟩
    rcases (hg.hasRole h hlive _ r).mp hr with hr | ⟨-, he⟩
    · exact hnone r hr
    · rw [hc.used k j hk hj he] at hbit
      cases hbit
  past k hk hreal := by
    rw [hg.count] at hk
    rw [hg.realGroup] at hreal
    rw [hg.bgd h hlive hk]
    exact h.past k hk hreal

theorem Grafted.grown (hc : Spare g v c) (htable : ∀ b, reach g v ino p ≠ some (.block 0 b)) : Grown g v v' where
  __ := hg
  consistent := hg.consistent h hlive hc
  paths n hn q t ht := by
    by_cases hni : n = ino
    · subst hni
      have hq : q ≠ p ++ [i] := by
        rintro rfl
        rw [hg.empty] at ht
        cases ht
      rw [hg.self q, if_neg hq]
      exact ht
    · rw [hg.others n hni hn q]
      exact ht
  bytes n hn x := by
    -- the block of a byte is not the one whose slot was filled
    have hdata : ∀ t b, reach g v n (pathOf g (x / g.blockSize)) = some (.block t b) → Same g v.disk v'.disk b := by
      intro t b hb
      obtain rfl := pathOf_height hb
      refine hg.same_of_role h hlive (Consistent.file_role hn hb) fun he => ?_
      obtain ⟨rfl, hp⟩ := Role.file.inj he
      exact htable b (hp ▸ hb)
    by_cases hni : n = ino
    · subst hni
      by_cases hq : pathOf g (x / g.blockSize) = p ++ [i]
      · have hnew := hg.self (p ++ [i])
        rw [if_pos rfl, ← hq] at hnew
        rw [fileByte_of_reach hnew, fileByte_of_none (hq ▸ hg.empty)]
        have hsame := hg.disk c fun t ht => hc.noRole _ (Consistent.file_role hlive ht)
        have hx := mod_lt x g.blockSize_pos
        rw [hsame _ hx, hc.zero _ hx]
      · have hold := hg.self (pathOf g (x / g.blockSize))
        rw [if_neg hq] at hold
        exact fileByte_congr hold hdata
    · exact fileByte_congr (hg.others n hni hn _) hdata
  inodes n hn := by
    have hsame := hg.same_of_role h hlive (h.inodeBlock_role hn) (by simp)
    exact inodeAt_congr h.inodesFit (by rw [hg.bgd h hlive hn.described]) hsame
  inodeBits k _ hk := by
    have hsame := hg.same_of_role h hlive (Consistent.inodeBitmap_role hk) (by simp)
    exact inodeBit_congr (by rw [hg.bgd h hlive hk.described]) hsame
  inVolume hv n q t b hn hb := by
    rw [hg.count]
    rw [hg.live] at hn
    by_cases hni : n = ino
    · subst hni
      rw [hg.self q] at hb
      split at hb
      · cases hb
        exact hc.lt
      · exact hv n q t b hn hb
    · rw [hg.others n hni hn] at hb
      exact hv n q t b hn hb

end

end

end

end

section

variable {g : Geometry} {v : View} {ino i k m c t : ℕ} {p : List ℕ}

lemma refs_cleared {disk : Mem} (hz : ∀ x < g.blockSize, disk (c * g.blockSize + x) = 0) (l h j : ℕ)
    (slots : ℕ → ℕ → ℕ) (live : ℕ → Prop) (count : ℕ) :
    refs g ⟨disk, count, slots, live⟩ l (.block h c) j = none := by
  cases h with
  | zero => rfl
  | succ h =>
    by_cases hj : j < g.ptrs
    · apply refs_block_zero
      have hbytes : ∀ a < 4, disk (c * g.blockSize + 4 * j + a) = 0 := by
        intro a ha
        have hptrs := g.four_mul_ptrs
        rw [add_assoc]
        exact hz _ (by omega)
      simp only [pointer, readLE]
      have h0 := hbytes 0 (by omega)
      have h1 := hbytes 1 (by omega)
      have h2 := hbytes 2 (by omega)
      have h3 := hbytes 3 (by omega)
      simp only [add_zero] at h0
      simp only [h0, h1, h2, h3, show c * g.blockSize + 4 * j + 1 + 1 = c * g.blockSize + 4 * j + 2 from rfl,
        show c * g.blockSize + 4 * j + 2 + 1 = c * g.blockSize + 4 * j + 3 from rfl]
      rfl
    · simp [refs, if_neg fun hc : j < g.ptrs ∧ _ => hj hc.1]

lemma reach_inode {n : ℕ} {q : List ℕ} (h : reach g v ino q = some (.inode n)) : q = [] ∧ n = ino := by
  cases q using List.reverseRecOn with
  | nil => exact ⟨rfl, (Node.inode.inj (some.inj h)).symm⟩
  | append_singleton q j => exact absurd h (reach_concat_inode n)

lemma grafted_slot (hk : k < 15) (h0 : v.slots ino k = 0) (hc : Spare g v c) :
    Grafted g v { v with slots := update v.slots ino (update (v.slots ino) k c) }
      ino [] k (slotHeight k) c where
  live := rfl
  count := rfl
  empty := by simp [List.nil_append, reach, walk, refs_inode_zero 0 h0]
  self q := by
    refine walk_graft (p := []) (t := .inode ino) (d := q.length) rfl (refs_inode_zero _ h0) ?_
      (fun j _ => refs_cleared hc.zero _ _ _ _ _ _) (fun r n j _ hn hne => ?_) q (le_refl _)
    · have hslot : update v.slots ino (update (v.slots ino) k c) ino k = c := by rw [update_self, update_self]
      simp [refs, hslot, if_pos (And.intro hk hc.ne_zero)]
    refine refs_congr _ (fun n' hn' _ => ?_) fun _ _ _ => .refl _ _
    obtain ⟨rfl, rfl⟩ := reach_inode (hn' ▸ hn : reach g v ino r = some (.inode n'))
    have hjk : j ≠ k := fun hj => hne ⟨rfl, hj⟩
    simp [update_of_ne hjk]
  others n hn _ q := by
    apply reach_congr
    · intro j _
      simp [update_of_ne hn]
    · intro _ _ b _
      exact .refl _ b
  disk b _ := .refl _ b

lemma same_writeEntry (disk : Mem) (hi : i < g.ptrs) (x : ℕ) {b : ℕ} (hb : b ≠ t) :
    Same g disk (writeLE disk 4 (t * g.blockSize + 4 * i) x) b := by
  have hptrs := g.four_mul_ptrs
  exact same_blit (fun j => UInt8.ofNat (x / 256 ^ j)) (Nat.le_add_right _ _) (by omega) hb

lemma grafted_entry (h : Consistent g v) (hlive : v.live ino)
    (hp : reach g v ino p = some (.block (m + 1) t)) (hi : i < g.ptrs)
    (h0 : pointer g v.disk t i = 0) (hc : Spare g v c) :
    Grafted g v { v with disk := writeLE v.disk 4 (t * g.blockSize + 4 * i) c } ino p i m c := by
  have hct : c ≠ t := by
    rintro rfl
    exact hc.noRole _ (Consistent.file_role hlive hp)
  have hcount := h.blocksCount_lt
  have hsame : ∀ b, b ≠ t → Same g v.disk (writeLE v.disk 4 (t * g.blockSize + 4 * i) c) b :=
    fun b hb => same_writeEntry v.disk hi c hb
  have hother : ∀ n q b l, v.live n → reach g v n q = some (.block l b) → ¬(n = ino ∧ q = p) → b ≠ t := by
    rintro n q b l hn hq hne rfl
    obtain ⟨h1, h2⟩ := Role.file.inj (h.unique b _ _ (Consistent.file_role hn hq)
      (Consistent.file_role hlive hp))
    exact hne ⟨h1, h2⟩
  refine ⟨rfl, rfl, ?_, fun q => ?_, fun n hn hl q => ?_, fun b hb => ?_⟩
  · rw [reach, walk_concat]
    rw [reach] at hp
    rw [hp, bind_some]
    exact refs_block_zero _ h0
  · refine walk_graft (d := q.length) hp (refs_block_zero _ h0) ?_ (fun j _ => ?_)
      (fun r n j _ hn hne => ?_) q (le_refl _)
    · have hnew : pointer g (writeLE v.disk 4 (t * g.blockSize + 4 * i) c) t i = c := by
        rw [pointer, readLE_writeLE_same]
        exact mod_eq_of_lt (lt_trans hc.lt hcount)
      simp [refs, hnew, if_pos (And.intro hi hc.ne_zero)]
    · exact refs_cleared (fun x hx => (hsame c hct x hx).trans (hc.zero x hx)) _ _ _ _ _ _
    by_cases hr : r = p
    · -- another entry of the same block
      subst hr
      have hji : j ≠ i := fun hj => hne ⟨rfl, hj⟩
      obtain rfl : n = .block (m + 1) t := some.inj (hn.symm.trans hp)
      have hkeep : pointer g (writeLE v.disk 4 (t * g.blockSize + 4 * i) c) t j =
          pointer g v.disk t j := readLE_outside _ (by omega)
      simp [refs, hkeep]
    · refine refs_congr _ (fun _ _ _ => rfl) fun l b hb => hsame b ?_
      exact hother ino r b (l + 1) hlive (hb ▸ hn) fun he => hr he.2
  · apply reach_congr
    · intro _ _
      rfl
    · intro r l b hb
      exact hsame b (hother n r b (l + 1) hl hb fun he => hn he.1)
  · refine hsame b ?_
    rintro rfl
    exact hb (m + 1) hp

end

/-- The view in which the slots of an inode are those of a copy in memory. -/
def Fs.openView (s : Fs) (slots : ℕ → ℕ → ℕ) (live : ℕ → Prop) (ino : ℕ) (inode : Mem) : View :=
  s.view (update slots ino (iBlock inode)) live

/-- Empty slots of the inode may have been filled. -/
structure Filled (inode inode' : Mem) : Prop where
  header : ∀ a < 40, inode' a = inode a
  slots : ∀ k, iBlock inode k ≠ 0 → iBlock inode' k = iBlock inode k

lemma Filled.refl (inode : Mem) : Filled inode inode := ⟨fun _ _ => rfl, fun _ _ => rfl⟩

lemma Filled.trans {x y z : Mem} (h : Filled x y) (h' : Filled y z) : Filled x z where
  header a ha := (h'.header a ha).trans (h.header a ha)
  slots k hk := by
    have hxy := h.slots k hk
    rw [h'.slots k (hxy ▸ hk), hxy]

lemma Filled.iSize {x y : Mem} (h : Filled x y) : iSize y = iSize x :=
  readLE_congr fun a _ ha => h.header a (by omega)

lemma iBlock_setIBlock (inode : Mem) (k : ℕ) {c : ℕ} (hc : c < 2 ^ 32) :
    iBlock (setIBlock inode k c) = update (iBlock inode) k c := by
  funext j
  by_cases hj : j = k
  · subst hj
    rw [update_self, iBlock, setIBlock, readLE_writeLE_same]
    exact mod_eq_of_lt hc
  · rw [update_of_ne hj]
    exact readLE_outside _ (by omega)

lemma filled_setIBlock {inode : Mem} {k c : ℕ} (hk : iBlock inode k = 0) (hc : c < 2 ^ 32) :
    Filled inode (setIBlock inode k c) where
  header a ha := writeLE_outside _ (by omega)
  slots j hj := by
    have hjk : j ≠ k := by
      rintro rfl
      exact hj hk
    rw [iBlock_setIBlock inode k hc, update_of_ne hjk]

section

variable {g : Geometry} {s : Fs} {slots : ℕ → ℕ → ℕ} {live : ℕ → Prop} {ino i k m t : ℕ}
  {inode : Mem} {p : List ℕ} {new : Fs → Option ℕ × Fs}

/-- What `ext2_write` expects of the two ways to get a new block. -/
def NewBlock (g : Geometry) (new : Fs → Option ℕ × Fs) : Prop :=
  ∀ s slots live, Consistent g (s.view slots live) → NoFault s →
    new s = (none, s) ∧ allocBlock g s = (0, s) ∨
      ∃ c s', new s = (some c, s') ∧ Allocated g s s' slots live c

lemma newData_newBlock : NewBlock g (newData g) := by
  intro s slots live h hn
  rcases allocBlock_spec h hn with hz | ⟨c, s', hc, ha⟩
  · exact .inl ⟨by simp [newData, hz], hz⟩
  right
  refine ⟨c, s', ?_, ha⟩
  simp [newData, hc, if_neg ha.spare.ne_zero]

lemma newTable_newBlock : NewBlock g (newTable g) := by
  intro s slots live h hn
  rcases allocBlock_spec h hn with hz | ⟨c, s', hc, ha⟩
  · exact .inl ⟨by simp [newTable, hz], hz⟩
  right
  refine ⟨c, s', ?_, ha⟩
  have hcleared : blit s'.disk g.blockSize (c * g.blockSize) zeros = s'.disk :=
    blit_eq_self ha.spare.zero
  simp [newTable, hc, if_neg ha.spare.ne_zero, writeBlock_eq g ha.noFault, hcleared]

lemma Allocated.grown {s' : Fs} {c : ℕ} (ha : Allocated g s s' slots live c)
    (h : Consistent g (s.view slots live)) : Grown g (s.view slots live) (s'.view slots live) :=
  ha.roles.grown h ha.consistent ha.untouched

theorem ensureSlot_spec (hnew : NewBlock g new) (h : Consistent g (s.openView slots live ino inode))
    (hn : NoFault s) (hlive : live ino) (hk : k < 15) :
    ∃ r inode' s', ensureSlot new s inode k = (r, inode', s') ∧ NoFault s' ∧
      sInodesCount s'.sb = sInodesCount s.sb ∧ Filled inode inode' ∧
      Grown g (s.openView slots live ino inode) (s'.openView slots live ino inode') ∧
      (∀ b, r = some b → reach g (s'.openView slots live ino inode') ino [k] = some (.block (slotHeight k) b)) ∧
      (r = none → allocBlock g s' = (0, s')) := by
  by_cases h0 : iBlock inode k = 0
  · rcases hnew s _ live h hn with ⟨hz, hfull⟩ | ⟨c, s', hc, ha⟩
    · refine ⟨none, inode, s, ?_, hn, rfl, .refl inode, .refl h, (fun b hb => by cases hb), fun _ => hfull⟩
      simp [ensureSlot, h0, hz]
    have hc32 : c < 2 ^ 32 := lt_trans ha.spare.lt ha.consistent.blocksCount_lt
    have hslots : update slots ino (iBlock (setIBlock inode k c)) = update (update slots ino (iBlock inode)) ino
          (update (update slots ino (iBlock inode) ino) k c) := by
      rw [update_idem, update_self, iBlock_setIBlock inode k hc32]
    have hg : Grafted g (s'.openView slots live ino inode)
        (s'.openView slots live ino (setIBlock inode k c)) ino [] k (slotHeight k) c := by
      have hempty : (s'.openView slots live ino inode).slots ino k = 0 := by
        simp [Fs.openView, Fs.view, h0]
      have hfill := grafted_slot hk hempty ha.spare
      unfold Fs.openView at hfill ⊢
      rw [hslots]
      exact hfill
    refine ⟨some c, setIBlock inode k c, s', ?_, ha.noFault, ha.inodesCount, filled_setIBlock h0 hc32,
      (ha.grown h).trans (hg.grown ha.consistent hlive ha.spare fun b hb => by cases hb), ?_,
      fun hb => by cases hb⟩
    · simp [ensureSlot, h0, hc]
    intro b hb
    cases hb
    exact (hg.self [k]).trans (if_pos rfl)
  · refine ⟨some (iBlock inode k), inode, s, ?_, hn, rfl, .refl inode, .refl h, fun b hb => ?_,
      fun hb => by cases hb⟩
    · simp [ensureSlot, h0]
    cases hb
    have hslot : (s.openView slots live ino inode).slots ino k = iBlock inode k := by
      simp [Fs.openView, Fs.view]
    have href : refs g (s.openView slots live ino inode) 0 (.inode ino) k = _ :=
      refs_inode 0 hk (hslot ▸ h0)
    simp [reach, walk, href, hslot]

theorem ensureEntry_spec (hnew : NewBlock g new) (h : Consistent g (s.view slots live))
    (hn : NoFault s) (hlive : live ino)
    (hp : reach g (s.view slots live) ino p = some (.block (m + 1) t)) (hi : i < g.ptrs) :
    ∃ r s', ensureEntry g new s t i = (r, s') ∧ NoFault s' ∧ sInodesCount s'.sb = sInodesCount s.sb ∧
      Grown g (s.view slots live) (s'.view slots live) ∧
      (∀ b, r = some b → reach g (s'.view slots live) ino (p ++ [i]) = some (.block m b)) ∧
      (r = none → allocBlock g s' = (0, s')) := by
  have hread := readBlock_eq g hn t
  have hentry := entry_eq_pointer (g := g) s.disk t hi
  by_cases h0 : pointer g s.disk t i = 0
  · rcases hnew s slots live h hn with ⟨hz, hfull⟩ | ⟨c, s', hc, ha⟩
    · refine ⟨none, s, ?_, hn, rfl, .refl h, (fun b hb => by cases hb), fun _ => hfull⟩
      simp [ensureEntry, request_eq hn, hread, hentry, h0, hz]
    -- the table was read before the allocation, which left it alone
    have hsame : Same g s.disk s'.disk t :=
      ha.untouched t _ (Consistent.file_role hlive hp) (by simp) (by simp) (by simp)
    have hp' : reach g (s'.view slots live) ino p = some (.block (m + 1) t) :=
      (ha.roles.reach hlive p).trans hp
    have h0' : pointer g s'.disk t i = 0 := (hsame.pointer hi).trans h0
    have hg := grafted_entry ha.consistent hlive hp' hi h0' ha.spare
    have hdisk : blit s'.disk g.blockSize (t * g.blockSize)
        (setEntry (slice s.disk (t * g.blockSize) g.blockSize) i c) =
          writeLE s'.disk 4 (t * g.blockSize + 4 * i) c := by
      have hptrs := g.four_mul_ptrs
      rw [← hsame.block]
      exact blit_slice_blit s'.disk (fun j => UInt8.ofNat (c / 256 ^ j)) (by omega)
    refine ⟨some c, { s' with disk := writeLE s'.disk 4 (t * g.blockSize + 4 * i) c }, ?_,
      ha.noFault.setDisk _, ha.inodesCount, (ha.grown h).trans (hg.grown ha.consistent hlive ha.spare ?_), ?_,
      fun hb => by cases hb⟩
    · simp [ensureEntry, request_eq hn, hread, hentry, h0, hc, writeBlock_eq g ha.noFault, hdisk]
    · intro b hb
      rw [hp'] at hb
      cases hb
    intro b hb
    cases hb
    exact (hg.self (p ++ [i])).trans (if_pos rfl)
  · refine ⟨some (pointer g s.disk t i), s, ?_, hn, rfl, .refl h, fun b hb => ?_, fun hb => by cases hb⟩
    · simp [ensureEntry, request_eq hn, hread, hentry, h0]
    cases hb
    rw [reach] at hp
    rw [reach, walk_concat, hp, bind_some]
    exact refs_block _ hi h0

end

end AetherOS.Ext2
