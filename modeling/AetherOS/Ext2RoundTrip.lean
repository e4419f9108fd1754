import AetherOS.Ext2Check

/-!
# Reading back what was written

`ext2_write` and `ext2_read` find the blocks of a file by the same paths, so that a read
returns what the write before it stored, up to the number of bytes that the write reports.
-/
namespace AetherOS.Ext2
open ByteMemory ByteBitmap PointerTree Function List Option Nat

/-- What a call of `ext2_write` does that stored the bytes `data` from offset `off` on; the
statements about the file itself are for offsets that fit into 32 bits. -/
structure Written (g : Geometry) (s s' : Fs) (live : ℕ → Prop) (ino off : ℕ) (data : List UInt8) : Prop where
  noFault : NoFault s'
  consistent : Consistent g (s'.mounted g live)
  count : sBlocksCount s'.sb = sBlocksCount s.sb
  others : ∀ n, live n → n ≠ ino → ∀ x, fileByte g (s'.mounted g live) n x = fileByte g (s.mounted g live) n x
  bytes : off + data.length < 2 ^ 32 → ∀ x, fileByte g (s'.mounted g live) ino x =
    if off ≤ x ∧ x < off + data.length then data.getD (x - off) 0 else fileByte g (s.mounted g live) ino x
  mapped : off + data.length < 2 ^ 32 → ∀ x, off ≤ x → x < off + data.length → x / g.blockSize < maxBlocks g ∧
      ∃ b, reach g (s'.mounted g live) ino (pathOf g (x / g.blockSize)) = some (.block 0 b)
  size : off + data.length < 2 ^ 32 → data ≠ [] →
    iSize (inodeAt g s'.disk ino) = max (iSize (inodeAt g s.disk ino)) (off + data.length)
  inodes : ∀ n, n ≠ 0 → n ≠ ino → RealGroup g (s.mounted g live) (inodeGroup g n) →
    inodeAt g s'.disk n = inodeAt g s.disk n
  inodesCount : sInodesCount s'.sb = sInodesCount s.sb
  inodeBits : ∀ i j, RealGroup g (s.mounted g live) i → inodeBit g s'.disk i j = inodeBit g s.disk i j
  inVolume : InVolume g (s.mounted g live) → InVolume g (s'.mounted g live)
  header : ∀ a, a < 4 ∨ 8 ≤ a ∧ a < 28 → inodeAt g s'.disk ino a = inodeAt g s.disk ino a

section

variable {g : Geometry} {s s1 : Fs} {live : ℕ → Prop} {ino off : ℕ} {data : List UInt8} {inode' : Mem}

lemma openView_inodeAt : s.openView (diskSlots g s.disk) live ino (inodeAt g s.disk ino) = s.mounted g live := by
  rw [Fs.openView, Fs.mounted]
  congr 1
  exact update_eq_self ino (diskSlots g s.disk)

lemma iBlock_extend (inode : Mem) (newEnd k : ℕ) : iBlock (extend g inode newEnd) k = iBlock inode k := by
  unfold extend
  split
  · rw [iBlock, setIBlocks, readLE_outside _ (by omega), setISize,
      readLE_outside _ (by omega), iBlock]
  · rfl

lemma iSize_extend (inode : Mem) {newEnd : ℕ} (hlt : newEnd < 2 ^ 32) :
    iSize (extend g inode newEnd) = max (iSize inode) newEnd := by
  unfold extend
  split
  · rw [iSize, setIBlocks, readLE_outside _ (by omega), setISize, readLE_writeLE_same]
    omega
  · omega

lemma extend_header (inode : Mem) (newEnd : ℕ) {a : ℕ} (ha : a < 4 ∨ 8 ≤ a ∧ a < 28) :
    extend g inode newEnd a = inode a := by
  unfold extend
  split
  · rw [setIBlocks, writeLE_outside _ (by omega), setISize, writeLE_outside _ (by omega)]
  · rfl

lemma sameRoles_remount {disk' : Mem} (hin : ∀ n, live n → inodeAt g disk' n = inodeAt g s.disk n) {sb : Mem}
    {outcomes : ℕ → Bool} :
    SameRoles g (Fs.view ⟨disk', sb, outcomes⟩ (diskSlots g s.disk) live)
      (Fs.mounted g ⟨disk', sb, outcomes⟩ live) := by
  refine sameRoles_of_slots fun n hn k _ => ?_
  simp only [Fs.view]
  rw [diskSlots, diskSlots, hin n hn]

section

variable (hn : NoFault s1) (hcount : sInodesCount s1.sb = sInodesCount s.sb)
include hn hcount

/-- The loop stored nothing: the blocks it took are lost, and the files are as before. -/
lemma written_nothing
    (hf : Filled (inodeAt g s.disk ino) inode') (h : Consistent g (s.mounted g live)) (hlive : live ino)
    (hw : Wrote g (s.mounted g live) (s1.openView (diskSlots g s.disk) live ino inode') ino off []) :
    Written g s s1 live ino off [] := by
  have hinodes : ∀ n, live n → inodeAt g s1.disk n = inodeAt g s.disk n :=
    fun n hn => hw.inodes n (h.live n hn).2
  have hroles : SameRoles g (s1.view _ live) (s1.mounted g live) := sameRoles_remount hinodes
  rw [← update_eq_self ino (diskSlots g s.disk)] at hroles
  have hcons := hw.consistent.unfill hf
  have hbyte : ∀ n, live n → ∀ x,
      fileByte g (s1.openView (diskSlots g s.disk) live ino inode') n x = fileByte g (s.mounted g live) n x →
      fileByte g (s1.mounted g live) n x = fileByte g (s.mounted g live) n x := by
    intro n hn x hx
    rw [← fileByte_unfill hf (fun _ _ => rfl) hx]
    exact fileByte_congr (hroles.reach hn _) fun _ b _ => .refl _ b
  refine ⟨hn, ?_, hw.count, fun n hn hne x => hbyte n hn x (hw.others n hn hne x), fun hlt x => ?_,
    fun _ x h1 h2 => ?_, fun _ hne => absurd rfl hne, fun n _ _ hn => hw.inodes n hn, hcount,
    hw.inodeBits, fun hv => hroles.inVolume ((hw.inVolume hv).unfill hf), fun a _ => by rw [hinodes ino hlive]⟩
  · exact hcons.of_disk hroles rfl
  · rw [if_neg (by simp only [length_nil]; omega)]
    apply hbyte ino hlive
    rw [hw.bytes hlt x, if_neg (by simp only [length_nil]; omega)]
  · simp only [length_nil] at h2
    omega

lemma written_back (h : Consistent g (s.mounted g live))
    (hf : Filled (inodeAt g s.disk ino) inode') (hlive : live ino)
    (hw : Wrote g (s.mounted g live) (s1.openView (diskSlots g s.disk) live ino inode') ino off data) :
    let inode := extend g inode' ((off + data.length) % 2 ^ 64)
    Written g s { s1 with disk := blit s1.disk 128 (inodeAddr g s1.disk ino) inode } live ino off data := by
  intro inode
  have hslots : ∀ n, live n → n ≠ ino → ∀ k < 15, diskSlots g s.disk n k = diskSlots g s1.disk n k := by
    intro n hn _ k _
    exact congrArg (iBlock · k) (hw.inodes n (h.live n hn).2).symm
  obtain ⟨hroles, hcons, hbytes, hself, hinodes, hbits⟩ := commit_spec hw.consistent hlive hslots
    fun k _ => iBlock_extend inode' ((off + data.length) % 2 ^ 64) k
  refine ⟨hn.setDisk _, hcons, hw.count, fun n hn hne x => ?_, fun hlt x => ?_, fun hlt x h1 h2 => ?_,
    fun hlt _ => ?_, fun n h0 hne hgn => ?_, hcount, fun i j hi => ?_,
    fun hv => hroles.inVolume (hw.inVolume hv), fun a ha => ?_⟩
  · exact (hbytes n hn x).trans (hw.others n hn hne x)
  · exact (hbytes ino hlive x).trans (hw.bytes hlt x)
  · obtain ⟨hmax, b, hb⟩ := hw.mapped hlt x h1 h2
    exact ⟨hmax, b, (hroles.reach hlive _).trans hb⟩
  · rw [hself, iSize, readLE_slice _ (by omega), zero_add, mod_eq_of_lt (by omega)]
    exact (iSize_extend inode' hlt).trans (by rw [hf.iSize])
  · exact (hinodes n h0 hne ((hw.realGroup _).mpr hgn)).trans (hw.inodes n hgn)
  · exact (hbits i j ((hw.realGroup i).mpr hi)).trans (hw.inodeBits i j hi)
  · rw [hself, slice_inside _ (by omega), zero_add, extend_header _ _ ha, hf.header a (by omega)]

end

section

variable (h : Consistent g (s.mounted g live)) (hn : NoFault s) (hlive : live ino)
include h hn hlive

theorem ext2Write_spec (hdata : data ≠ []) : ∃ w s', ext2Write g s ino off data = (some w, s') ∧ w ≤ data.length ∧
      Written g s s' live ino off (data.take w) := by
  obtain ⟨hino, hreal⟩ := h.live ino hlive
  have hloop := writeLoop_spec hlive off 0 data s _ (openView_inodeAt ▸ h) hn
  rw [ext2Write, if_neg (by simp [hino, hdata])]
  simp only [readInode_eq h.inodesFit hn hino, request_eq hn, if_true]
  rcases hr : writeLoop g s (inodeAt g s.disk ino) off 0 data with ⟨w, inode', s1⟩
  rw [hr] at hloop
  have hn1 : NoFault s1 := hloop.noFault
  have hf : Filled (inodeAt g s.disk ino) inode' := hloop.filled
  have hle : w ≤ data.length := le_trans hloop.le.2 (by omega)
  have hw : Wrote g (s.mounted g live) (s1.openView (diskSlots g s.disk) live ino inode') ino off
      (data.take w) := openView_inodeAt ▸ hloop.wrote
  by_cases hpos : 0 < w
  · refine ⟨w, _, if_pos hpos, hle, ?_⟩
    have hback := written_back hn1 hloop.inodesCount h hf hlive hw
    rw [length_take, min_eq_left hle] at hback
    rw [writeInode_eq h.inodesFit hn1 hino]
    exact hback
  · obtain rfl : w = 0 := by omega
    exact ⟨0, s1, if_neg hpos, hle, written_nothing hn1 hloop.inodesCount hf h hlive hw⟩

lemma written_of_ext2Write {s' : Fs} {w : ℕ} (hw : ext2Write g s ino off data = (some w, s')) :
    w ≤ data.length ∧ Written g s s' live ino off (data.take w) := by
  have hdata : data ≠ [] := by
    rintro rfl
    simp only [ext2Write, or_true, if_true] at hw
    cases hw
  obtain ⟨w', s1, hw', hwritten⟩ := ext2Write_spec h hn hlive hdata
  obtain ⟨hww, rfl⟩ := Prod.mk.inj (hw'.symm.trans hw)
  cases hww
  exact hwritten

end

end

/-- The blocks of block numbers above block `idx` of the file are there. -/
def TablesPresent (g : Geometry) (v : View) (ino idx : ℕ) : Prop :=
  (reach g v ino (pathOf g idx).dropLast).isSome

instance (g : Geometry) (v : View) (ino idx : ℕ) : Decidable (TablesPresent g v ino idx) :=
  inferInstanceAs (Decidable (_ = true))

section

variable {g : Geometry} {s : Fs} {live : ℕ → Prop} {ino idx b h i k l : ℕ} {t : Node} {v : View}

lemma mounted_slots (n k : ℕ) : (s.mounted g live).slots n k = iBlock (inodeAt g s.disk n) k := rfl

lemma mounted_disk : (s.mounted g live).disk = s.disk := rfl

lemma refs_block_inv (hr : refs g v l (.block (h + 1) b) i = some t) :
    i < g.ptrs ∧ pointer g v.disk b i ≠ 0 ∧ t = .block h (pointer g v.disk b i) := by
  simp only [refs] at hr
  split at hr
  case isTrue hc => exact ⟨hc.1, hc.2, (some.inj hr).symm⟩
  case isFalse => cases hr

lemma refs_inode_eq (l : ℕ) (hk : k < 15) : refs g v l (.inode ino) k =
    if v.slots ino k = 0 then none else some (.block (slotHeight k) (v.slots ino k)) := by
  by_cases h0 : v.slots ino k = 0
  · rw [if_pos h0, refs_inode_zero l h0]
  · rw [if_neg h0, refs_inode l hk h0]

lemma refs_block_eq (l : ℕ) (hi : i < g.ptrs) : refs g v l (.block (h + 1) b) i =
    if pointer g v.disk b i = 0 then none else some (.block h (pointer g v.disk b i)) := by
  by_cases h0 : pointer g v.disk b i = 0
  · rw [if_pos h0, refs_block_zero l h0]
  · rw [if_neg h0, refs_block l hi h0]

/-- What `ext2_read` finds below the triply indirect block: it stops where a block of block
numbers is missing; otherwise it finds the block at the path of `idx`, 0 if there is none. -/
lemma findBlock_cases (live : ℕ → Prop) (ino : ℕ) (hn : NoFault s) (hmax : idx < maxBlocks g) :
    (¬TablesPresent g (s.mounted g live) ino idx ∧ findBlock g s (inodeAt g s.disk ino) idx = (.stop, s)) ∨
    (TablesPresent g (s.mounted g live) ino idx ∧ ∃ b, findBlock g s (inodeAt g s.disk ino) idx = (.block b, s) ∧
      reach g (s.mounted g live) ino (pathOf g idx) = if b = 0 then none else some (.block 0 b)) := by
  have hptrs := ptrs_pos g
  unfold findBlock TablesPresent pathOf
  by_cases h12 : idx < 12
  · -- a direct block
    have hheight : slotHeight idx = 0 := by
      rw [slotHeight]
      omega
    simp only [if_pos h12]
    refine .inr ⟨rfl, _, rfl, ?_⟩
    rw [reach, walk, refs_inode_eq 0 (by omega), mounted_slots, hheight]
    split <;> rfl
  simp only [if_neg h12]
  by_cases h1 : idx < 12 + g.ptrs
  · simp only [if_pos h1]
    have hi : idx - 12 < g.ptrs := by omega
    have hdrop : [12, idx - 12].dropLast = [12] := rfl
    rw [hdrop, reach, reach, walk, walk, refs_inode_eq 0 (by omega), mounted_slots]
    by_cases h0 : iBlock (inodeAt g s.disk ino) 12 = 0
    · simp only [if_pos h0]
      exact .inl ⟨by simp, trivial⟩
    simp only [if_neg h0, readBlock_eq g hn, entry_eq_pointer s.disk _ hi, bind_some, walk, slotHeight]
    refine .inr ⟨rfl, _, rfl, ?_⟩
    rw [refs_block_eq 1 hi, mounted_disk]
    split <;> rfl
  have h2 : idx < 12 + g.ptrs + g.ptrs * g.ptrs := hmax
  simp only [if_neg h1, if_pos h2]
  have hi : (idx - 12 - g.ptrs) / g.ptrs < g.ptrs := Nat.div_lt_of_lt_mul (by omega)
  have hj : (idx - 12 - g.ptrs) % g.ptrs < g.ptrs := mod_lt _ hptrs
  generalize (idx - 12 - g.ptrs) / g.ptrs = i at hi ⊢
  generalize (idx - 12 - g.ptrs) % g.ptrs = j at hj ⊢
  have hdrop : [13, i, j].dropLast = [13, i] := rfl
  rw [hdrop, reach, reach, walk, walk, refs_inode_eq 0 (by omega), mounted_slots]
  by_cases h0 : iBlock (inodeAt g s.disk ino) 13 = 0
  · simp only [if_pos h0]
    exact .inl ⟨by simp, trivial⟩
  simp only [if_neg h0, readBlock_eq g hn, entry_eq_pointer s.disk _ hi, bind_some, walk, slotHeight]
  rw [refs_block_eq 1 hi, mounted_disk]
  by_cases h0' : pointer g s.disk (iBlock (inodeAt g s.disk ino) 13) i = 0
  · simp only [if_pos h0']
    exact .inl ⟨by simp, trivial⟩
  simp only [if_neg h0', entry_eq_pointer s.disk _ hj, bind_some]
  refine .inr ⟨rfl, _, rfl, ?_⟩
  rw [refs_block_eq 2 hj, mounted_disk]
  split <;> rfl

lemma tablesPresent_of_reach {n : Node} (hb : reach g v ino (pathOf g idx) = some n) : TablesPresent g v ino idx := by
  have hp : pathOf g idx ≠ [] := by
    unfold pathOf
    split_ifs <;> simp
  rw [← dropLast_append_getLast hp, reach, walk_append] at hb
  obtain ⟨m, hm, -⟩ := bind_eq_some_iff.mp hb
  exact isSome_iff_exists.mpr ⟨m, hm⟩

lemma chunk_mod {a len i : ℕ} (hi : i < chunk g a len) : (a + i) / g.blockSize = a / g.blockSize ∧
    (a + i) % g.blockSize = a % g.blockSize + i ∧ a % g.blockSize + i < g.blockSize := by
  obtain ⟨hq, hle, hlt⟩ := (chunk_bounds g a len (a + i)).mp ⟨by omega, by omega⟩
  have ha := div_add_mod a g.blockSize
  have hai := div_add_mod (a + i) g.blockSize
  have hbs := mod_lt (a + i) g.blockSize_pos
  rw [hq] at hai
  exact ⟨hq, by omega, by omega⟩

lemma findBlock_found (hn : NoFault s) (inode : Mem) (idx : ℕ) :
    ∃ f, findBlock g s inode idx = (f, s) ∧ f ≠ .fail := by
  rw [findBlock]
  simp only [readBlock_eq g hn]
  split_ifs <;> exact ⟨_, rfl, nofun⟩

/-- The byte that `ext2_read` finds at an offset, unless it stops there. -/
def foundByte (g : Geometry) (s : Fs) (inode : Mem) (x : ℕ) : Option UInt8 :=
  match (findBlock g s inode (x / g.blockSize)).1 with
  | .block b => some (if b = 0 then 0 else s.disk (b * g.blockSize + x % g.blockSize))
  | _ => none

/-- The loop of `ext2_read` takes what is found, block by block. -/
theorem readLoop_eq (hn : NoFault s) (inode : Mem) (off len : ℕ) (dst : List UInt8) :
    readLoop g inode s off len dst = (some (dst ++ takeSome (foundByte g s inode) off len), s) := by
  induction len using Nat.strong_induction_on generalizing off dst with
  | _ len ih =>
    rw [readLoop]
    by_cases hlen : len = 0
    · rw [if_pos hlen, hlen, takeSome, append_nil]
    rw [if_neg hlen]
    have hpos : 0 < chunk g off len := chunk_pos g (by omega)
    have hsplit := takeSome_add (foundByte g s inode) off (chunk g off len) (len - chunk g off len)
    rw [Nat.add_sub_of_le (chunk_le g off len)] at hsplit
    obtain ⟨f, hf, hfail⟩ := findBlock_found (g := g) hn inode (off / g.blockSize)
    simp only [hf]
    cases f with
    | fail => exact absurd rfl hfail
    | stop =>
      have hnone : foundByte g s inode off = none := by rw [foundByte, hf]
      rw [takeSome_none hnone, append_nil]
    | block b =>
      have hround := takeSome_eq_map (f := foundByte g s inode) (n := chunk g off len)
        (v := fun i => if b = 0 then 0 else s.disk (b * g.blockSize + (off % g.blockSize + i))) (by
          intro i hi
          obtain ⟨hq, hmod, -⟩ := chunk_mod hi
          rw [foundByte, hq, hf, hmod])
      rw [hsplit, if_pos (by rw [hround]; simp), hround]
      by_cases h0 : b = 0
      · simp only [if_pos h0]
        rw [ih _ (by omega), append_assoc, map_const', length_range]
      simp only [if_neg h0, readBlock_eq g hn]
      rw [ih _ (by omega), append_assoc]
      congr 4
      apply map_congr_left
      intro i hi
      exact slice_inside _ (chunk_mod (mem_range.mp hi)).2.2

/-- `ext2_read` takes what is found up to the size of the file. -/
theorem ext2Read_takes (hfit : g.InodesFit) (hn : NoFault s) (hino : ino ≠ 0) (off size : ℕ) : ext2Read g s ino off size =
    (some (takeSome (foundByte g s (inodeAt g s.disk ino)) off (min size (iSize (inodeAt g s.disk ino) - off))), s) := by
  simp only [ext2Read, readInode_eq hfit hn hino]
  split
  next hend => rw [Nat.sub_eq_zero_of_le hend, Nat.min_zero, takeSome]
  next hlt =>
    have hmin : (if iSize (inodeAt g s.disk ino) < off + size then iSize (inodeAt g s.disk ino) - off else size) =
        min size (iSize (inodeAt g s.disk ino) - off) := by split <;> omega
    rw [readLoop_eq hn, nil_append, hmin]

/-- The bytes of a range of which `ext2_read` finds every block, or a hole. -/
theorem takeSome_tables (hn : NoFault s) (off len : ℕ)
    (htables : ∀ x, off ≤ x → x < off + len → x / g.blockSize < maxBlocks g ∧
      TablesPresent g (s.mounted g live) ino (x / g.blockSize)) :
    takeSome (foundByte g s (inodeAt g s.disk ino)) off len =
      (List.range len).map fun i => fileByte g (s.mounted g live) ino (off + i) := by
  refine takeSome_eq_map fun i hi => ?_
  obtain ⟨hmax, htab⟩ := htables (off + i) (by omega) (by omega)
  obtain ⟨hno, -⟩ | ⟨-, b, hfind, hreach⟩ := findBlock_cases live ino hn hmax
  · exact absurd htab hno
  rw [foundByte, hfind]
  by_cases h0 : b = 0
  · rw [if_pos h0] at hreach
    simp only [if_pos h0, fileByte_of_none hreach]
  · rw [if_neg h0] at hreach
    simp only [if_neg h0, fileByte_of_reach hreach, mounted_disk]

/-- What was stored is read back. -/
theorem Written.ext2Read {s' : Fs} {off : ℕ} {data : List UInt8} (h : Written g s s' live ino off data)
    (hlive : live ino) (hlt : off + data.length < 2 ^ 32) : ext2Read g s' ino off data.length = (some data, s') := by
  have hino := (h.consistent.live ino hlive).1
  have hbytes : (List.range data.length).map (fun i => fileByte g (s'.mounted g live) ino (off + i)) = data := by
    apply ext_getElem (by simp)
    intro i hi _
    rw [getElem_map, getElem_range, h.bytes hlt, if_pos (by simp at hi; omega),
      Nat.add_sub_cancel_left, getD_eq_getElem]
  rw [ext2Read_takes h.consistent.inodesFit h.noFault hino]
  by_cases hnil : data = []
  · subst hnil
    rw [length_nil, Nat.zero_min, takeSome]
  have hlen := length_pos_iff.mpr hnil
  have hsize := h.size hlt hnil
  have htables := fun x h1 h2 => (h.mapped hlt x h1 h2).imp_right (Exists.elim · fun _ => tablesPresent_of_reach)
  rw [Nat.min_eq_left (by omega), takeSome_tables h.noFault off _ htables, hbytes]

end

/-- For every consistent volume, inode in use, data and offset below 4 GiB: what `ext2_write`
reports as written is read back by `ext2_read`; the other bytes of the file keep their value,
and so do the bytes of all other files and all other inodes. -/
theorem ext2Read_of_ext2Write (g : Geometry) (s s' : Fs) (live : ℕ → Prop) (ino off w : ℕ)
    (data : List UInt8) (h : Consistent g (s.mounted g live)) (hn : NoFault s) (hlive : live ino)
    (hoff : off + data.length ≤ 2 ^ 32 - 1) (hw : ext2Write g s ino off data = (some w, s')) :
    w ≤ data.length ∧ ext2Read g s' ino off w = (some (data.take w), s') ∧ (∀ x, ¬(off ≤ x ∧ x < off + w) →
        fileByte g (s'.mounted g live) ino x = fileByte g (s.mounted g live) ino x) ∧
      (∀ n, live n → n ≠ ino → ∀ x, fileByte g (s'.mounted g live) n x = fileByte g (s.mounted g live) n x) ∧
      ∀ n, n ≠ 0 → n ≠ ino → RealGroup g (s.mounted g live) (inodeGroup g n) →
        inodeAt g s'.disk n = inodeAt g s.disk n := by
  obtain ⟨hle, hwritten⟩ := written_of_ext2Write h hn hlive hw
  have hlen : (data.take w).length = w := by rw [length_take, min_eq_left hle]
  have hread := hwritten.ext2Read hlive (by omega)
  have hbytes := hwritten.bytes (by omega)
  rw [hlen] at hread hbytes
  refine ⟨hle, hread, fun x hx => ?_, hwritten.others, hwritten.inodes⟩
  rw [hbytes x, if_neg hx]

/-- One group of sixteen blocks: the superblock, the descriptors, the two bitmaps, one block
of inodes, and ten free blocks. -/
def smallGeometry : Geometry where
  logBlockSize := 0
  inodesPerGroup := 8
  blocksPerGroup := 16
  inodeSize := 128
  firstDataBlock := 1

/-- The volume with an empty file, inode 3. -/
def smallVolume : Fs where
  disk a :=
    if a = 2048 then 3 else if a = 2052 then 4 else if a = 2056 then 5 else if a = 2060 then 10
    else if a = 3072 then 0x1f else if a = 3073 then 0x80 else if a = 5377 then 0x81 else 0
  sb a := if a = 4 then 16 else if a = 12 then 10 else 0
  outcomes _ := true

lemma consistent_smallVolume : Consistent smallGeometry (smallVolume.mounted smallGeometry (· = 3)) := by
  have hchecked : Checked smallGeometry (smallVolume.mounted smallGeometry (· = 3)) [3] := by decide +kernel
  have hlive : (· = 3) = (· ∈ [3]) := funext fun n => propext mem_singleton.symm
  exact hchecked.consistent hlive

/-- Two bytes on both sides of the border between the direct and the indirect blocks. -/
theorem ext2Read_of_ext2Write_border :
    (ext2Write smallGeometry smallVolume 3 12287 [1, 2]).1 = some 2 ∧
      (ext2Read smallGeometry (ext2Write smallGeometry smallVolume 3 12287 [1, 2]).2 3 12287 2).1 = some [1, 2] := by
  have hw : (ext2Write smallGeometry smallVolume 3 12287 [1, 2]).1 = some 2 := by decide +kernel
  have hread := (ext2Read_of_ext2Write smallGeometry smallVolume _ (· = 3) 3 12287 2 [1, 2]
    consistent_smallVolume (fun _ => rfl) rfl (by decide) (Prod.ext hw rfl)).2.1
  exact ⟨hw, congrArg Prod.fst hread⟩

/-- The inode table is an array. -/
theorem readInode_writeInode (g : Geometry) (s : Fs) (P : ℕ → Prop) (ino : ℕ) (x : Mem)
    (h : InodeTables g s.disk P) (hs : NoFault s) (hino : ino ≠ 0) (hgi : P (inodeGroup g ino)) :
    ∃ s', writeInode g s ino x = (true, s') ∧ ∀ n, n ≠ 0 → P (inodeGroup g n) →
      (readInode g s' n).1 = if n = ino then some (slice x 0 128) else (readInode g s n).1 := by
  have hs' : NoFault { s with disk := blit s.disk 128 (inodeAddr g s.disk ino) x } := hs
  refine ⟨_, writeInode_eq h.fit hs hino x, fun n hn hgn => ?_⟩
  rw [readInode_eq h.fit hs hn, readInode_eq h.fit hs' hn, h.inodeAt_blit hn hino hgn hgi]
  split
  · rfl
  · rfl

/-- Inode 4 is written; inode 3 in the same block stays. -/
theorem readInode_writeInode_four : ∃ s', writeInode smallGeometry smallVolume 4 (fun _ => 1) = (true, s') ∧
    (readInode smallGeometry s' 4).1 = some (slice (fun _ => 1) 0 128) ∧
      (readInode smallGeometry s' 3).1 = (readInode smallGeometry smallVolume 3).1 := by
  have hgroup := (consistent_smallVolume.live 3 rfl).2
  obtain ⟨s', hw, hread⟩ := readInode_writeInode smallGeometry smallVolume _ 4 (fun _ => 1)
    consistent_smallVolume.inodeTables (fun _ => rfl) (by decide) hgroup
  exact ⟨s', hw, hread 4 (by decide) hgroup, hread 3 (by decide) hgroup⟩

end AetherOS.Ext2
