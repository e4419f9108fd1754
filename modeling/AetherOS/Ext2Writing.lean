import Mathlib.Data.List.GetD
import AetherOS.Ext2Growth

/-!
# Writing to a file

Every round of `ext2_write` maps one block, growing the file if necessary, and overwrites
a part of it. Only the bytes of this file in the written range change.
-/
namespace AetherOS.Ext2
open ByteMemory ByteBitmap PointerTree List Nat

/-- The blocks of a file that the driver can map. -/
def maxBlocks (g : Geometry) : ℕ := 12 + g.ptrs + g.ptrs * g.ptrs

section

variable {g : Geometry} {s : Fs} {slots : ℕ → ℕ → ℕ} {live : ℕ → Prop} {ino : ℕ} {inode : Mem}

/-- What `mapBlock` does: the file may grow, and the block it returns is the one at the
path of `idx`. -/
structure Mapped (g : Geometry) (s : Fs) (slots : ℕ → ℕ → ℕ) (live : ℕ → Prop) (ino : ℕ) (inode : Mem)
    (idx : ℕ) (r : Option ℕ × Mem × Fs) : Prop where
  noFault : NoFault r.2.2
  inodesCount : sInodesCount r.2.2.sb = sInodesCount s.sb
  filled : Filled inode r.2.1
  grown : Grown g (s.openView slots live ino inode) (r.2.2.openView slots live ino r.2.1)
  block : ∀ b, r.1 = some b → idx < maxBlocks g ∧
    reach g (r.2.2.openView slots live ino r.2.1) ino (pathOf g idx) = some (.block 0 b)
  full : r.1 = none → idx < maxBlocks g → allocBlock g r.2.2 = (0, r.2.2)

theorem mapBlock_spec (h : Consistent g (s.openView slots live ino inode)) (hn : NoFault s)
    (hlive : live ino) (idx : ℕ) : Mapped g s slots live ino inode idx (mapBlock g s inode idx) := by
  unfold mapBlock
  by_cases h12 : idx < 12
  · -- a slot of the inode
    obtain ⟨r, inode', s', hr, hn', hcount, hfill, hgrown, hreach, hfull⟩ :=
      ensureSlot_spec (k := idx) newData_newBlock h hn hlive (by omega)
    rw [if_pos h12, hr]
    refine ⟨hn', hcount, hfill, hgrown, fun b hb => ⟨by unfold maxBlocks; omega, ?_⟩, fun hb _ => hfull hb⟩
    have hpath : pathOf g idx = [idx] := if_pos h12
    have hheight : slotHeight idx = 0 := by
      unfold slotHeight
      omega
    rw [hpath, ← hheight]
    exact hreach b hb
  rw [if_neg h12]
  by_cases h1 : idx < 12 + g.ptrs
  · -- an entry of the indirect block
    rw [if_pos h1]
    obtain ⟨r, inode', s', hr, hn', hcount, hfill, hgrown, hreach, hfull⟩ :=
      ensureSlot_spec (k := 12) newTable_newBlock h hn hlive (by omega)
    rw [hr]
    cases r with
    | none => exact ⟨hn', hcount, hfill, hgrown, (fun b hb => by cases hb), fun _ _ => hfull rfl⟩
    | some indir =>
      obtain ⟨r2, s2, hr2, hn2, hcount2, hgrown2, hreach2, hfull2⟩ := ensureEntry_spec newData_newBlock
        hgrown.consistent hn' hlive (hreach indir rfl) (show idx - 12 < g.ptrs by omega)
      simp only [hr2]
      refine ⟨hn2, hcount2.trans hcount, hfill, hgrown.trans hgrown2,
        fun b hb => ⟨by unfold maxBlocks; omega, ?_⟩, fun hb _ => hfull2 hb⟩
      have hpath : pathOf g idx = [12] ++ [idx - 12] := by
        unfold pathOf
        rw [if_neg h12, if_pos h1]
        rfl
      rw [hpath]
      exact hreach2 b hb
  · rw [if_neg h1]
    by_cases h2 : idx < 12 + g.ptrs + g.ptrs * g.ptrs
    · -- an entry of a block below the doubly indirect block
      rw [if_pos h2]
      have hl1 : (idx - 12 - g.ptrs) / g.ptrs < g.ptrs := Nat.div_lt_of_lt_mul (by omega)
      have hl2 : (idx - 12 - g.ptrs) % g.ptrs < g.ptrs := mod_lt _ (ptrs_pos g)
      obtain ⟨r, inode', s', hr, hn', hcount, hfill, hgrown, hreach, hfull⟩ :=
        ensureSlot_spec (k := 13) newTable_newBlock h hn hlive (by omega)
      simp only [hr]
      cases r with
      | none => exact ⟨hn', hcount, hfill, hgrown, (fun b hb => by cases hb), fun _ _ => hfull rfl⟩
      | some dbl =>
        obtain ⟨r2, s2, hr2, hn2, hcount2, hgrown2, hreach2, hfull2⟩ := ensureEntry_spec newTable_newBlock
          hgrown.consistent hn' hlive (hreach dbl rfl) hl1
        simp only [hr2]
        cases r2 with
        | none =>
          exact ⟨hn2, hcount2.trans hcount, hfill, hgrown.trans hgrown2, (fun b hb => by cases hb),
            fun _ _ => hfull2 rfl⟩
        | some l1 =>
          obtain ⟨r3, s3, hr3, hn3, hcount3, hgrown3, hreach3, hfull3⟩ := ensureEntry_spec newData_newBlock
            hgrown2.consistent hn2 hlive (hreach2 l1 rfl) hl2
          simp only [hr3]
          refine ⟨hn3, (hcount3.trans hcount2).trans hcount, hfill, (hgrown.trans hgrown2).trans hgrown3,
            fun b hb => ⟨h2, ?_⟩, fun hb _ => hfull3 hb⟩
          have hpath : pathOf g idx = [13] ++ [(idx - 12 - g.ptrs) / g.ptrs] ++ [(idx - 12 - g.ptrs) % g.ptrs] := by
            unfold pathOf
            rw [if_neg h12, if_neg h1, if_pos h2]
            rfl
          rw [hpath]
          exact hreach3 b hb
    · rw [if_neg h2]
      exact ⟨hn, rfl, .refl inode, .refl h, (fun b hb => by cases hb), fun _ hlt => absurd hlt h2⟩

end

/-- The bytes `data` were written to the file from offset `a` on; the statements about the
file itself are for offsets that fit into 32 bits. -/
structure Wrote (g : Geometry) (v v' : View) (ino a : ℕ) (data : List UInt8) : Prop where
  consistent : Consistent g v'
  live : v'.live = v.live
  count : v'.blocksCount = v.blocksCount
  paths : ∀ n, v.live n → ∀ p t, reach g v n p = some t → reach g v' n p = some t
  others : ∀ n, v.live n → n ≠ ino → ∀ x, fileByte g v' n x = fileByte g v n x
  bytes : a + data.length < 2 ^ 32 → ∀ x, fileByte g v' ino x =
    if a ≤ x ∧ x < a + data.length then data.getD (x - a) 0 else fileByte g v ino x
  mapped : a + data.length < 2 ^ 32 → ∀ x, a ≤ x → x < a + data.length →
    x / g.blockSize < maxBlocks g ∧ ∃ b, reach g v' ino (pathOf g (x / g.blockSize)) = some (.block 0 b)
  inodes : ∀ n, RealGroup g v (inodeGroup g n) → inodeAt g v'.disk n = inodeAt g v.disk n
  inodeBits : ∀ i j, RealGroup g v i → inodeBit g v'.disk i j = inodeBit g v.disk i j
  inVolume : InVolume g v → InVolume g v'

section

variable {g : Geometry} {v v' v'' : View} {ino a : ℕ} {data data' : List UInt8}

lemma Grown.wrote (h : Grown g v v') (hlive : v.live ino) : Wrote g v v' ino a [] where
  __ := h
  others n hn _ x := h.bytes n hn x
  bytes _ x := by
    rw [if_neg (by simp only [length_nil]; omega)]
    exact h.bytes ino hlive x
  mapped _ x h1 h2 := by
    simp only [length_nil] at h2
    omega

lemma Wrote.realGroup (h : Wrote g v v' ino a data) (i : ℕ) : RealGroup g v' i ↔ RealGroup g v i := by
  rw [RealGroup, RealGroup, h.count]

lemma Wrote.append (h : Wrote g v v' ino a data) (hlive : v.live ino)
    (h' : Wrote g v' v'' ino (a + data.length) data') : Wrote g v v'' ino a (data ++ data') where
  consistent := h'.consistent
  live := h'.live.trans h.live
  count := h'.count.trans h.count
  paths n hn p t ht := h'.paths n (h.live ▸ hn) p t (h.paths n hn p t ht)
  others n hn hne x := (h'.others n (h.live ▸ hn) hne x).trans (h.others n hn hne x)
  bytes hlt x := by
    rw [length_append] at hlt ⊢
    rw [h'.bytes (by omega) x]
    by_cases h2 : a + data.length ≤ x ∧ x < a + data.length + data'.length
    · rw [if_pos h2, if_pos (by omega), getD_append_right _ _ _ _ (by omega), sub_add_eq]
    rw [if_neg h2, h.bytes (by omega) x]
    by_cases h1 : a ≤ x ∧ x < a + data.length
    · rw [if_pos h1, if_pos (by omega), getD_append _ _ _ _ (by omega)]
    · rw [if_neg h1, if_neg (by omega)]
  mapped hlt x h1 h2 := by
    rw [length_append] at hlt h2
    by_cases hx : x < a + data.length
    · obtain ⟨hmax, b, hb⟩ := h.mapped (by omega) x h1 hx
      exact ⟨hmax, b, h'.paths ino (h.live ▸ hlive) _ _ hb⟩
    · exact h'.mapped (by omega) x (by omega) (by omega)
  inodes n hn := (h'.inodes n ((h.realGroup _).mpr hn)).trans (h.inodes n hn)
  inodeBits i j hi := (h'.inodeBits i j ((h.realGroup i).mpr hi)).trans (h.inodeBits i j hi)
  inVolume hv := h'.inVolume (h.inVolume hv)

lemma Consistent.writeData {idx b : ℕ} (h : Consistent g v) (hlive : v.live ino)
    (hb : reach g v ino (pathOf g idx) = some (.block 0 b)) (buf : Mem) :
    let v' := { v with disk := blit v.disk g.blockSize (b * g.blockSize) buf }
    SameRoles g v v' ∧ Consistent g v' ∧ (∀ n, v.live n → ∀ x, fileByte g v' n x =
        if n = ino ∧ x / g.blockSize = idx then buf (x % g.blockSize) else fileByte g v n x) ∧
      (∀ n, RealGroup g v (inodeGroup g n) → inodeAt g v'.disk n = inodeAt g v.disk n) ∧
      ∀ i j, RealGroup g v i → inodeBit g v'.disk i j = inodeBit g v.disk i j := by
  intro v'
  have hrole : HasRole g v b (.file ino (pathOf g idx)) := Consistent.file_role hlive hb
  have hsame : ∀ c, c ≠ b → Same g v.disk v'.disk c := fun c hc => same_writeBlock buf hc
  have hother : ∀ c r, HasRole g v c r → r ≠ .file ino (pathOf g idx) → Same g v.disk v'.disk c :=
    fun c r hc hr => hsame c (h.role_ne hc hrole hr)
  obtain ⟨hroles, hcons, -⟩ := h.write (c := b) v'.disk hsame
    (fun hd => by cases h.unique b _ _ hd hrole) (fun i hi => by cases h.unique b _ _ hi hrole)
    fun n p m hn hp => by
      obtain ⟨rfl, rfl⟩ := Role.file.inj (h.unique b _ _ (Consistent.file_role hn hp) hrole)
      rw [hb] at hp
      cases hp
  refine ⟨hroles, hcons, fun n hn x => ?_, fun n hn => ?_, fun i j hi => ?_⟩
  · by_cases hx : n = ino ∧ x / g.blockSize = idx
    · obtain ⟨rfl, rfl⟩ := hx
      have hb' : reach g v' n (pathOf g (x / g.blockSize)) = some (.block 0 b) :=
        (hroles.reach hn _).trans hb
      rw [if_pos ⟨rfl, rfl⟩, fileByte_of_reach hb']
      exact blit_inside _ _ (mod_lt x g.blockSize_pos)
    rw [if_neg hx]
    refine fileByte_congr (hroles.reach hn _) fun m c hc => ?_
    refine hother c _ (Consistent.file_role hn hc) fun he => hx ?_
    obtain ⟨rfl, hp⟩ := Role.file.inj he
    exact ⟨rfl, pathOf_injective hp⟩
  · exact inodeAt_congr h.inodesFit (hroles.groups _ hn).inodeTable
      (hother _ _ (h.inodeBlock_role hn) (by simp))
  · exact inodeBit_congr (hroles.groups i hi).inodeBitmap
      (hother _ _ (Consistent.inodeBitmap_role hi) (by simp))

lemma chunk_bounds (g : Geometry) (a len x : ℕ) :
    (a ≤ x ∧ x < a + chunk g a len) ↔ x / g.blockSize = a / g.blockSize ∧
      a % g.blockSize ≤ x % g.blockSize ∧ x % g.blockSize < a % g.blockSize + chunk g a len := by
  have hpos := g.blockSize_pos
  have ha := div_add_mod a g.blockSize
  have hx := div_add_mod x g.blockSize
  have hamod := mod_lt a hpos
  have hxmod := mod_lt x hpos
  have hchunk : a % g.blockSize + chunk g a len ≤ g.blockSize := by
    unfold chunk
    omega
  constructor
  · rintro ⟨h1, h2⟩
    have hq : x / g.blockSize = a / g.blockSize := by
      apply le_antisymm
      · apply le_of_lt_succ
        rw [Nat.div_lt_iff_lt_mul hpos, succ_mul, mul_comm]
        omega
      · exact Nat.div_le_div_right h1
    rw [hq] at hx
    exact ⟨hq, by omega, by omega⟩
  · rintro ⟨hq, h1, h2⟩
    rw [hq] at hx
    omega

/-- One round of the loop, with `blkbuf` read from the block where it is not overwritten. -/
lemma Consistent.writeChunk {b : ℕ} {blkbuf : Mem} (h : Consistent g v) (hlive : v.live ino)
    (hmax : u32 (a % 2 ^ 64 / g.blockSize) < maxBlocks g)
    (hb : reach g v ino (pathOf g (u32 (a % 2 ^ 64 / g.blockSize))) = some (.block 0 b))
    (hbuf : ∀ y < g.blockSize, ¬(a % 2 ^ 64 % g.blockSize ≤ y ∧
      y < a % 2 ^ 64 % g.blockSize + chunk g (a % 2 ^ 64) data.length) → blkbuf y = v.disk (b * g.blockSize + y)) :
    Wrote g v
      { v with
        disk := blit v.disk g.blockSize (b * g.blockSize)
          (blit blkbuf (chunk g (a % 2 ^ 64) data.length) (a % 2 ^ 64 % g.blockSize)
            fun i => data.getD i 0) }
      ino a (data.take (chunk g (a % 2 ^ 64) data.length)) := by
  obtain ⟨hroles, hcons, hbytes, hinodes, hbits⟩ := h.writeData hlive hb
    (blit blkbuf (chunk g (a % 2 ^ 64) data.length) (a % 2 ^ 64 % g.blockSize) fun i => data.getD i 0)
  have hlen : (data.take (chunk g (a % 2 ^ 64) data.length)).length = chunk g (a % 2 ^ 64) data.length := by
    rw [length_take, min_eq_left (chunk_le g _ _)]
  -- below 2^32 nothing wraps around
  have hlow : a + chunk g (a % 2 ^ 64) data.length < 2 ^ 32 →
      a % 2 ^ 64 = a ∧ u32 (a / g.blockSize) = a / g.blockSize := by
    intro hlt
    have hle := Nat.div_le_self a g.blockSize
    exact ⟨mod_eq_of_lt (by omega), mod_eq_of_lt (by omega)⟩
  refine ⟨hcons, hroles.live, hroles.count, fun n hn p t ht => (hroles.reach hn p).trans ht,
    fun n hn hne x => ?_, fun hlt x => ?_, fun hlt x h1 h2 => ?_, hinodes, hbits, hroles.inVolume⟩
  · rw [hbytes n hn x, if_neg fun hc => hne hc.1]
  · rw [hlen] at hlt ⊢
    obtain ⟨ha, hidx⟩ := hlow hlt
    rw [hbytes ino hlive x]
    rw [ha] at hbuf hb ⊢
    rw [hidx] at hb ⊢
    have hbounds := chunk_bounds g a data.length x
    have hxmod := mod_lt x g.blockSize_pos
    by_cases hblock : x / g.blockSize = a / g.blockSize
    · rw [if_pos ⟨rfl, hblock⟩]
      by_cases hin : a % g.blockSize ≤ x % g.blockSize ∧ x % g.blockSize < a % g.blockSize + chunk g a data.length
      · have hx := hbounds.mpr ⟨hblock, hin⟩
        have hdx := div_add_mod x g.blockSize
        have hda := div_add_mod a g.blockSize
        rw [hblock] at hdx
        have hoff : x % g.blockSize = a % g.blockSize + (x - a) := by omega
        rw [if_pos hx, hoff, blit_inside _ _ (by omega)]
        rw [getD_eq_getElem?_getD, getD_eq_getElem?_getD, getElem?_take_of_lt (by omega)]
      · rw [if_neg fun hx => hin (hbounds.mp hx).2, blit_outside _ _ (by omega), hbuf _ hxmod hin]
        have hb' := hblock ▸ hb
        rw [fileByte_of_reach hb']
    · rw [if_neg fun hc => hblock hc.2, if_neg fun hx => hblock (hbounds.mp hx).1]
  · rw [hlen] at hlt h2
    obtain ⟨ha, hidx⟩ := hlow hlt
    rw [ha] at hb hmax h2
    rw [hidx] at hb hmax
    have hx := ((chunk_bounds g a data.length x).mp ⟨h1, h2⟩).1
    rw [hx]
    exact ⟨hmax, b, (hroles.reach hlive _).trans hb⟩

end

section

variable {g : Geometry} {slots : ℕ → ℕ → ℕ} {live : ℕ → Prop} {ino : ℕ}

lemma readForWrite_spec (g : Geometry) {s : Fs} (a len : ℕ) (hn : NoFault s) (b : ℕ) :
    ∃ blkbuf, (if 0 < a % g.blockSize ∨ chunk g a len < g.blockSize then readBlock g s b
        else (some zeros, s)) = (some blkbuf, s) ∧
      ∀ y < g.blockSize, ¬(a % g.blockSize ≤ y ∧ y < a % g.blockSize + chunk g a len) →
        blkbuf y = s.disk (b * g.blockSize + y) := by
  by_cases hpart : 0 < a % g.blockSize ∨ chunk g a len < g.blockSize
  · refine ⟨slice s.disk (b * g.blockSize) g.blockSize, ?_, fun y hy _ => slice_inside _ hy⟩
    rw [if_pos hpart, readBlock_eq g hn]
  · exact ⟨zeros, if_neg hpart, fun y hy hout => absurd hy (by omega)⟩

/-- What the loop of `ext2_write` does, from `written` bytes on. -/
structure Looped (g : Geometry) (s : Fs) (slots : ℕ → ℕ → ℕ) (live : ℕ → Prop) (ino : ℕ) (inode : Mem)
    (off written : ℕ) (data : List UInt8) (r : ℕ × Mem × Fs) : Prop where
  noFault : NoFault r.2.2
  inodesCount : sInodesCount r.2.2.sb = sInodesCount s.sb
  filled : Filled inode r.2.1
  le : written ≤ r.1 ∧ r.1 ≤ written + data.length
  wrote : Wrote g (s.openView slots live ino inode) (r.2.2.openView slots live ino r.2.1) ino
    (off + written) (data.take (r.1 - written))

theorem writeLoop_spec (hlive : live ino) (off written : ℕ) (data : List UInt8) (s : Fs) (inode : Mem)
    (h : Consistent g (s.openView slots live ino inode)) (hn : NoFault s) :
    Looped g s slots live ino inode off written data (writeLoop g s inode off written data) := by
  induction hlen : data.length using Nat.strong_induction_on generalizing s inode written data with
  | _ len ih =>
    subst hlen
    rw [writeLoop]
    by_cases hnil : data = []
    · subst hnil
      rw [if_pos rfl]
      refine ⟨hn, rfl, .refl inode, by simp, ?_⟩
      rw [take_nil]
      exact (Grown.refl h).wrote hlive
    rw [if_neg hnil]
    have hm := mapBlock_spec h hn hlive (u32 ((off + written) % 2 ^ 64 / g.blockSize))
    rcases hr : mapBlock g s inode (u32 ((off + written) % 2 ^ 64 / g.blockSize)) with ⟨r, inode1, s1⟩
    rw [hr] at hm
    cases r with
    | none =>
      simp only [hr]
      refine ⟨hm.noFault, hm.inodesCount, hm.filled, by simp, ?_⟩
      simp only [Nat.sub_self, take_zero]
      exact hm.grown.wrote hlive
    | some b =>
      have hn1 : NoFault s1 := hm.noFault
      have hgrown := hm.grown
      obtain ⟨hmax, hb⟩ := hm.block b rfl
      obtain ⟨blkbuf, hblk, hbuf⟩ := readForWrite_spec g ((off + written) % 2 ^ 64) data.length hn1 b
      simp only [hr, hblk, writeBlock_eq g hn1, if_true]
      have hchunk := hgrown.consistent.writeChunk (a := off + written) hlive hmax hb hbuf
      have hpos : 0 < chunk g ((off + written) % 2 ^ 64) data.length :=
        chunk_pos g (length_pos_iff.mpr hnil)
      have hle := chunk_le g ((off + written) % 2 ^ 64) data.length
      generalize chunk g ((off + written) % 2 ^ 64) data.length = n at hchunk hpos hle ⊢
      have hfirst := (hgrown.wrote (a := off + written) hlive).append hlive hchunk
      generalize hs2 : ({ s1 with disk := blit s1.disk g.blockSize (b * g.blockSize) _ } : Fs) = s2
      have hn2 : NoFault s2 := hs2 ▸ hn1.setDisk _
      have hcount : sInodesCount s2.sb = sInodesCount s.sb := by
        rw [← hs2]
        exact hm.inodesCount
      have hfirst' : Wrote g (s.openView slots live ino inode) (s2.openView slots live ino inode1) ino
          (off + written) (data.take n) := hs2 ▸ hfirst
      have hrec := ih (data.drop n).length (by rw [length_drop]; omega) (written + n)
        (data.drop n) s2 inode1 hfirst'.consistent hn2 rfl
      obtain ⟨hle1, hle2⟩ := hrec.le
      rw [length_drop] at hle2
      refine ⟨hrec.noFault, hrec.inodesCount.trans hcount, hm.filled.trans hrec.filled, by omega, ?_⟩
      have htake : (data.take n).length = n := by rw [length_take, min_eq_left hle]
      generalize writeLoop g s2 inode1 off (written + n) (data.drop n) = r at hrec hle1 hle2 ⊢
      have hrest : Wrote g (s2.openView slots live ino inode1) (r.2.2.openView slots live ino r.2.1) ino
          (off + written + (data.take n).length) ((data.drop n).take (r.1 - (written + n))) := by
        rw [htake, add_assoc]
        exact hrec.wrote
      have hsplit : data.take (r.1 - written) = data.take n ++ (data.drop n).take (r.1 - (written + n)) := by
        rw [← take_add]
        congr 1
        omega
      rw [hsplit]
      exact hfirst'.append hlive hrest

end

end AetherOS.Ext2
