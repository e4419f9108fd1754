import AetherOS.Ext2Frame
import AetherOS.Ext2Dirents

/-!
# Directories

The entries of a directory are those of its direct blocks. `dir_add_entry` puts an entry
into a block with room or into a new block; `dir_remove_entry` deletes the first entry with
the name. Both keep the blocks chains of records, and a directory is a map from names to
inodes.
-/
namespace AetherOS.Ext2
open ByteMemory ByteBitmap PointerTree Function List Option Nat

def iLinksCount (inode : Mem) : ℕ := readLE inode 2 26
def iBlocks (inode : Mem) : ℕ := readLE inode 4 28

section

variable (g : Geometry)

/-- The rounds of `dir_add_entry` over `n` direct blocks from slot `b` on. -/
def addLoop (s : Fs) (inode : Mem) (name : Name) (ino ftype : ℕ) : ℕ → ℕ → Bool × Fs
  | 0, _ => (false, s)
  | n + 1, b =>
    if iBlock inode b = 0 then (false, s)
    else
      match readBlock g s (iBlock inode b) with
      | (none, s) => addLoop s inode name ino ftype n (b + 1)
      | (some blk, s) =>
        match addInBlock blk g.blockSize name ino ftype 0 with
        | some blk => (true, (writeBlock g s (iBlock inode b) blk).2)
        | none => addLoop s inode name ino ftype n (b + 1)

/-- The first empty slot among the `n` slots from `b` on. -/
def emptySlot (inode : Mem) : ℕ → ℕ → Option ℕ
  | 0, _ => none
  | n + 1, b => if iBlock inode b = 0 then some b else emptySlot inode n (b + 1)

/-- The contents of a new directory block. -/
def newDirBlock (name : Name) (ino ftype : ℕ) : Mem :=
  putEntry (writeLE zeros 2 4 g.blockSize) 0 ino name ftype

/-- The directory inode with a new block in slot `k`. -/
def attachBlock (inode : Mem) (k blockNo : ℕ) : Mem :=
  let inode := setIBlock inode k blockNo
  let inode := setISize inode (iSize inode + g.blockSize)
  setIBlocks inode (iBlocks inode + g.blockSize / 512)

/-- A new block for the directory. -/
def addDirBlock (s : Fs) (dirIno : ℕ) (inode : Mem) (name : Name) (ino ftype : ℕ) : Bool × Fs :=
  let new := allocBlock g s
  if new.1 = 0 then (false, new.2)
  else
    let s := (writeBlock g new.2 new.1 (newDirBlock g name ino ftype)).2
    match emptySlot inode 12 0 with
    | some k => (true, (writeInode g s dirIno (attachBlock g inode k new.1)).2)
    | none => (false, freeBlock g s new.1)

/-- The length of the name is kept in one byte. -/
def dirAddEntry (s : Fs) (dirIno : ℕ) (name : Name) (childIno ftype : ℕ) : Bool × Fs :=
  let name := name.take (name.length % 256)
  match readInode g s dirIno with
  | (none, s) => (false, s)
  | (some inode, s) =>
    let blk := s.request
    if blk.1 then
      match addLoop g blk.2 inode name childIno ftype 12 0 with
      | (true, s) => (true, s)
      | (false, s) => addDirBlock g s dirIno inode name childIno ftype
    else (false, blk.2)

def removeLoop (s : Fs) (inode : Mem) (name : Name) : ℕ → ℕ → Bool × Fs
  | 0, _ => (false, s)
  | n + 1, b =>
    if iBlock inode b = 0 then (false, s)
    else
      match readBlock g s (iBlock inode b) with
      | (none, s) => removeLoop s inode name n (b + 1)
      | (some blk, s) =>
        match removeInBlock blk g.blockSize name 0 with
        | some blk => (true, (writeBlock g s (iBlock inode b) blk).2)
        | none => removeLoop s inode name n (b + 1)

def dirRemoveEntry (s : Fs) (dirIno : ℕ) (name : Name) : Bool × Fs :=
  let name := name.take (name.length % 256)
  match readInode g s dirIno with
  | (none, s) => (false, s)
  | (some inode, s) =>
    let blk := s.request
    if blk.1 then removeLoop g blk.2 inode name 12 0 else (false, blk.2)

/-- The bytes of the block in slot `k`. -/
def slotBlock (disk inode : Mem) (k : ℕ) : Mem := slice disk (iBlock inode k * g.blockSize) g.blockSize

/-- The live entries in slot `k`. -/
def slotEntries (disk inode : Mem) (k : ℕ) : List (Name × ℕ) :=
  if iBlock inode k = 0 then []
  else liveEntries ((chain (slotBlock g disk inode k) g.blockSize 0).getD [])

/-- The live entries in the direct blocks. -/
def dirEntries (disk inode : Mem) : List (Name × ℕ) := (List.range 12).flatMap (slotEntries g disk inode)

/-- The entries of inode `d`. -/
def entriesOf (disk : Mem) (d : ℕ) : List (Name × ℕ) := dirEntries g disk (inodeAt g disk d)

/-- The direct blocks are chains of valid records. -/
def DirChains (disk inode : Mem) : Prop :=
  ∀ k < 12, iBlock inode k ≠ 0 → (chain (slotBlock g disk inode k) g.blockSize 0).isSome = true

instance (disk inode : Mem) : Decidable (DirChains g disk inode) := by
  unfold DirChains
  infer_instance

/-- What `dir_find_in_block` finds in the direct blocks, in order. -/
def dirFind (disk inode : Mem) (name : Name) : Option ℕ :=
  (List.range 12).findSome? fun k =>
    if iBlock inode k = 0 then none
    else
      let found := dirFindInBlock (slotBlock g disk inode k) g.blockSize name 0
      if found = 0 then none else some found

end

section

variable {g : Geometry} {disk disk' inode inode' : Mem} {k : ℕ} {name : Name} {f f' : ℕ → List (Name × ℕ)}
  {e : Name × ℕ} {l : List ℕ}

lemma lookup_live {es : List (Name × ℕ)} {i : ℕ} (h : (liveEntries es).lookup name = some i) : i ≠ 0 := by
  obtain ⟨l1, l2, hl, -⟩ := lookup_eq_some_iff.mp h
  have hmem : (name, i) ∈ liveEntries es := by
    rw [hl]
    simp
  simpa using (mem_filter.mp hmem).2

lemma slot_find (hc : DirChains g disk inode) (hk : k < 12) :
    (if iBlock inode k = 0 then none
      else
        let found := dirFindInBlock (slotBlock g disk inode k) g.blockSize name 0
        if found = 0 then none else some found) = (slotEntries g disk inode k).lookup name := by
  by_cases h0 : iBlock inode k = 0
  · simp only [slotEntries, if_pos h0, lookup_nil]
  obtain ⟨es, hes⟩ := isSome_iff_exists.mp (hc k hk h0)
  have hfind := dirFindInBlock_eq (chain_iff.mp hes) name
  simp only [slotEntries, if_neg h0, hes, getD_some, hfind]
  cases hl : (liveEntries es).lookup name with
  | none => rfl
  | some i => exact if_neg (lookup_live hl)

lemma lookup_flatMap (l : List ℕ) (f : ℕ → List (Name × ℕ)) :
    (l.flatMap f).lookup name = l.findSome? fun k => (f k).lookup name := by
  induction l with
  | nil => rfl
  | cons k l ih =>
    rw [flatMap_cons, lookup_append, ih, findSome?_cons]
    cases (f k).lookup name <;> rfl

lemma findSome_congr {f f' : ℕ → Option ℕ} (h : ∀ k ∈ l, f k = f' k) : l.findSome? f = l.findSome? f' := by
  induction l with
  | nil => rfl
  | cons k l ih =>
    rw [findSome?_cons, findSome?_cons, h k mem_cons_self, ih fun j hj => h j (mem_cons_of_mem k hj)]

/-- The search finds what the list of entries has. -/
theorem dirFind_eq (hc : DirChains g disk inode) :
    dirFind g disk inode name = (dirEntries g disk inode).lookup name := by
  rw [dirEntries, lookup_flatMap, dirFind]
  exact findSome_congr fun k hk => slot_find hc (mem_range.mp hk)

lemma slotEntries_congr (hi : iBlock inode' k = iBlock inode k)
    (hb : iBlock inode k ≠ 0 → Same g disk disk' (iBlock inode k)) :
    slotEntries g disk' inode' k = slotEntries g disk inode k := by
  unfold slotEntries slotBlock
  rw [hi]
  by_cases h0 : iBlock inode k = 0
  · rw [if_pos h0, if_pos h0]
  · rw [if_neg h0, if_neg h0, (hb h0).block]

lemma dirEntries_congr (h : ∀ k < 12, slotEntries g disk' inode' k = slotEntries g disk inode k) :
    dirEntries g disk' inode' = dirEntries g disk inode := by
  unfold dirEntries
  rw [flatMap_def, flatMap_def, map_congr_left fun k hk => h k (mem_range.mp hk)]

lemma dirChains_congr (hi : ∀ k < 12, iBlock inode' k = iBlock inode k)
    (hb : ∀ k < 12, iBlock inode k ≠ 0 → Same g disk disk' (iBlock inode k))
    (hc : DirChains g disk inode) : DirChains g disk' inode' := by
  intro k hk h0
  rw [hi k hk] at h0
  rw [slotBlock, hi k hk, (hb k hk h0).block]
  exact hc k hk h0

lemma flatMap_congr_of_notMem (hk : k ∉ l) (hf : ∀ j ∈ l, j ≠ k → f' j = f j) : l.flatMap f' = l.flatMap f := by
  rw [flatMap_def, flatMap_def, map_congr_left fun j hj => hf j hj ?_]
  rintro rfl
  exact hk hj

lemma inserted_flatMap (hl : l.Nodup) (hk : k ∈ l)
    (hf : ∀ j ∈ l, j ≠ k → f' j = f j) (h : Inserted (f k) e (f' k)) : Inserted (l.flatMap f) e (l.flatMap f') := by
  induction l with
  | nil => cases hk
  | cons j l ih =>
    obtain ⟨hj, hl⟩ := nodup_cons.mp hl
    have hrest : ∀ i ∈ l, i ≠ k → f' i = f i := fun i hi => hf i (mem_cons_of_mem j hi)
    rw [flatMap_cons, flatMap_cons]
    by_cases hjk : j = k
    · subst hjk
      rw [flatMap_congr_of_notMem hj hrest]
      exact h.append_right _
    · rw [hf j mem_cons_self hjk]
      exact (ih hl ((mem_cons.mp hk).resolve_left fun he => hjk he.symm) hrest).append_left _

lemma inserted_dirEntries (hk : k < 12)
    (hf : ∀ j < 12, j ≠ k → slotEntries g disk' inode' j = slotEntries g disk inode j)
    (h : Inserted (slotEntries g disk inode k) e (slotEntries g disk' inode' k)) :
    Inserted (dirEntries g disk inode) e (dirEntries g disk' inode') :=
  inserted_flatMap nodup_range (mem_range.mpr hk)
    (fun j hj hne => hf j (mem_range.mp hj) hne) h

end

section

variable {g : Geometry} {s s' : Fs} {live : ℕ → Prop} {d k x : ℕ}

lemma pathOf_direct (hk : k < 12) : pathOf g k = [k] := if_pos hk

section

variable (hk : k < 12) (h0 : iBlock (inodeAt g s.disk d) k ≠ 0)
include hk h0

lemma reach_slot : reach g (s.mounted g live) d (pathOf g k) = some (.block 0 (iBlock (inodeAt g s.disk d) k)) := by
  have href : refs g (s.mounted g live) 0 (.inode d) k = _ :=
    refs_inode 0 (by omega) (mounted_slots d k ▸ h0)
  have hheight : slotHeight k = 0 := by
    unfold slotHeight
    omega
  rw [pathOf_direct hk]
  simp [reach, walk, href, hheight, mounted_slots]

lemma fileByte_slot (hx : x < g.blockSize) : fileByte g (s.mounted g live) d (k * g.blockSize + x) =
      s.disk (iBlock (inodeAt g s.disk d) k * g.blockSize + x) := by
  have hdiv : (k * g.blockSize + x) / g.blockSize = k := by
    rw [mul_comm, mul_add_div g.blockSize_pos, div_eq_of_lt hx, add_zero]
  have hmod : (k * g.blockSize + x) % g.blockSize = x := by rw [mul_comm, mul_add_mod, mod_eq_of_lt hx]
  have hr : reach g (s.mounted g live) d (pathOf g k) = _ := reach_slot hk h0
  rw [← hdiv] at hr
  rw [fileByte_of_reach hr, hdiv, hmod, mounted_disk]

end

lemma same_slot (hi : iBlock (inodeAt g s'.disk d) k = iBlock (inodeAt g s.disk d) k)
    (hb : ∀ x < g.blockSize, fileByte g (s'.mounted g live) d (k * g.blockSize + x) =
      fileByte g (s.mounted g live) d (k * g.blockSize + x)) (hk : k < 12)
    (h0 : iBlock (inodeAt g s.disk d) k ≠ 0) : Same g s.disk s'.disk (iBlock (inodeAt g s.disk d) k) := by
  intro x hx
  have hbyte := hb x hx
  rw [fileByte_slot hk h0 hx, fileByte_slot hk (by rw [hi]; exact h0) hx, hi] at hbyte
  exact hbyte

/-- A directory whose file is untouched keeps its entries. -/
theorem entriesOf_congr (hi : inodeAt g s'.disk d = inodeAt g s.disk d)
    (hb : ∀ x, fileByte g (s'.mounted g live) d x = fileByte g (s.mounted g live) d x) :
    entriesOf g s'.disk d = entriesOf g s.disk d ∧
      (DirChains g s.disk (inodeAt g s.disk d) → DirChains g s'.disk (inodeAt g s'.disk d)) := by
  have hiblock : ∀ k, iBlock (inodeAt g s'.disk d) k = iBlock (inodeAt g s.disk d) k := fun k => by rw [hi]
  have hsame : ∀ k < 12, iBlock (inodeAt g s.disk d) k ≠ 0 → Same g s.disk s'.disk (iBlock (inodeAt g s.disk d) k) :=
    fun k hk h0 => same_slot (hiblock k) (fun x _ => hb _) hk h0
  refine ⟨dirEntries_congr fun k hk => slotEntries_congr (hiblock k) (hsame k hk), ?_⟩
  exact dirChains_congr (fun k _ => hiblock k) hsame

end

/-- No block comes after an empty slot. -/
def NoHoles (inode : Mem) : Prop := ∀ j < 12, ∀ k < 12, j ≤ k → iBlock inode j = 0 → iBlock inode k = 0

instance (inode : Mem) : Decidable (NoHoles inode) := by
  unfold NoHoles
  infer_instance

/-- A directory was changed: it is still made of chains, and its inode has the same mode,
owner and links and keeps its blocks. -/
structure DirEdited (g : Geometry) (live : ℕ → Prop) (d : ℕ) (s s' : Fs) : Prop where
  touched : Touched g live {d} s s'
  chains : DirChains g s'.disk (inodeAt g s'.disk d)
  header : ∀ a, a < 4 ∨ 8 ≤ a ∧ a < 28 → inodeAt g s'.disk d a = inodeAt g s.disk d a
  noHoles : NoHoles (inodeAt g s.disk d) → NoHoles (inodeAt g s'.disk d)
  slots : ∀ k < 12, iBlock (inodeAt g s.disk d) k ≠ 0 → iBlock (inodeAt g s'.disk d) k = iBlock (inodeAt g s.disk d) k

section

variable {g : Geometry} {s s' : Fs} {live : ℕ → Prop} {d k n b ino ftype c : ℕ} {name : Name}
  {inode blk' : Mem}

/-- The rounds of the loops over `n` direct blocks from slot `b` on: the first block that is
edited is written back. -/
def editLoop (g : Geometry) (edit : Mem → Option Mem) (s : Fs) (inode : Mem) : ℕ → ℕ → Bool × Fs
  | 0, _ => (false, s)
  | n + 1, b =>
    if iBlock inode b = 0 then (false, s)
    else
      match readBlock g s (iBlock inode b) with
      | (none, s) => editLoop g edit s inode n (b + 1)
      | (some blk, s) =>
        match edit blk with
        | some blk => (true, (writeBlock g s (iBlock inode b) blk).2)
        | none => editLoop g edit s inode n (b + 1)

lemma editLoop_cases (hn : NoFault s) (edit : Mem → Option Mem) (inode : Mem) (m b : ℕ) :
    editLoop g edit s inode m b = (false, s) ∨
    ∃ k blk', k < b + m ∧ iBlock inode k ≠ 0 ∧ edit (slotBlock g s.disk inode k) = some blk' ∧
      editLoop g edit s inode m b =
        (true, { s with disk := blit s.disk g.blockSize (iBlock inode k * g.blockSize) blk' }) := by
  induction m generalizing b with
  | zero => exact .inl rfl
  | succ m ih =>
    rw [editLoop]
    by_cases h0 : iBlock inode b = 0
    · exact .inl (if_pos h0)
    rw [if_neg h0, readBlock_eq g hn]
    cases hedit : edit (slotBlock g s.disk inode b) with
    | none =>
      rw [slotBlock] at hedit
      simp only [hedit]
      rcases ih (b + 1) with hz | ⟨k, blk', hk, hrest⟩
      · exact .inl hz
      · exact .inr ⟨k, blk', by omega, hrest⟩
    | some blk' =>
      refine .inr ⟨b, blk', by omega, h0, hedit, ?_⟩
      rw [slotBlock] at hedit
      simp [hedit, writeBlock_eq g hn]

lemma addLoop_eq (s : Fs) (inode : Mem) (name : Name) (ino ftype m b : ℕ) : addLoop g s inode name ino ftype m b =
    editLoop g (addInBlock · g.blockSize name ino ftype 0) s inode m b := by
  induction m generalizing s b with
  | zero => rfl
  | succ m ih => simp [addLoop, editLoop, ih]

lemma removeLoop_eq (s : Fs) (inode : Mem) (name : Name) (m b : ℕ) : removeLoop g s inode name m b =
    editLoop g (removeInBlock · g.blockSize name 0) s inode m b := by
  induction m generalizing s b with
  | zero => rfl
  | succ m ih => simp [removeLoop, editLoop, ih]

lemma take_length_mod (h : name.length < 256) : name.take (name.length % 256) = name := by
  rw [mod_eq_of_lt h, take_length]

lemma emptySlot_spec {m : ℕ} (h : emptySlot inode m b = some k) :
    b ≤ k ∧ k < b + m ∧ iBlock inode k = 0 ∧ ∀ j, b ≤ j → j < k → iBlock inode j ≠ 0 := by
  induction m generalizing b with
  | zero => cases h
  | succ m ih =>
    rw [emptySlot] at h
    by_cases h0 : iBlock inode b = 0
    · rw [if_pos h0] at h
      cases h
      exact ⟨le_refl _, by omega, h0, fun j h1 h2 => by omega⟩
    rw [if_neg h0] at h
    obtain ⟨h1, h2, h3, h4⟩ := ih h
    refine ⟨by omega, by omega, h3, fun j hj hjk => ?_⟩
    by_cases hjb : j = b
    · rw [hjb]
      exact h0
    · exact h4 j (by omega) hjk

lemma chain_newDirBlock (hlen : name.length < 256) (hino : ino < 2 ^ 32) :
    Chain (newDirBlock g name ino ftype) g.blockSize 0 [(name, ino)] := by
  have hsize := g.blockSize_cases
  have hrec : deRecLen (writeLE zeros 2 4 g.blockSize) 0 = g.blockSize := by
    rw [deRecLen, readLE_writeLE_same]
    exact mod_eq_of_lt (by omega)
  refine Chain.putEntry hlen hino (by omega) ?_ (by omega) ?_
  · rw [hrec, direntLen]
    omega
  · rw [hrec, zero_add]
    exact .done

lemma iBlock_attachBlock (inode : Mem) (c j : ℕ) :
    iBlock (attachBlock g inode k c) j = iBlock (setIBlock inode k c) j := by
  rw [attachBlock, iBlock, setIBlocks, readLE_outside _ (by omega), setISize,
    readLE_outside _ (by omega), iBlock]

lemma attachBlock_header (inode : Mem) (c : ℕ) {a : ℕ} (ha : a < 4 ∨ 8 ≤ a ∧ a < 28) :
    attachBlock g inode k c a = inode a := by
  rw [attachBlock, setIBlocks, writeLE_outside _ (by omega), setISize, writeLE_outside _ (by omega),
    setIBlock, writeLE_outside _ (by omega)]

lemma exists_blockNumber (hpos : 0 < g.blocksPerGroup) (hc : g.firstDataBlock ≤ c) :
    ∃ i j, j < g.blocksPerGroup ∧ blockNumber g i j = c := by
  refine ⟨(c - g.firstDataBlock) / g.blocksPerGroup, (c - g.firstDataBlock) % g.blocksPerGroup, mod_lt _ hpos, ?_⟩
  have hdiv := div_add_mod (c - g.firstDataBlock) g.blocksPerGroup
  rw [blockNumber, mul_comm]
  omega

/-- The volume after a new block was put into the first empty slot of the directory. -/
structure Attached (g : Geometry) (live : ℕ → Prop) (d k c : ℕ) (blk : Mem) (s s' : Fs) : Prop where
  touched : Touched g live {d} s s'
  inode : inodeAt g s'.disk d = slice (attachBlock g (inodeAt g s.disk d) k c) 0 128
  bytes : ∀ x, fileByte g (s'.mounted g live) d x =
    if x / g.blockSize = k then blk (x % g.blockSize) else fileByte g (s.mounted g live) d x

lemma Attached.edited {es : List (Name × ℕ)} (ha : Attached g live d k c blk' s s') (hc0 : c ≠ 0)
    (hc32 : c < 2 ^ 32) (hc : DirChains g s.disk (inodeAt g s.disk d))
    (hk : emptySlot (inodeAt g s.disk d) 12 0 = some k) (hes : Chain blk' g.blockSize 0 es) :
    DirEdited g live d s s' ∧ (∀ j < 12, j ≠ k → slotEntries g s'.disk (inodeAt g s'.disk d) j =
        slotEntries g s.disk (inodeAt g s.disk d) j) ∧
      slotEntries g s'.disk (inodeAt g s'.disk d) k = liveEntries es := by
  obtain ⟨-, hk12, hk0, hfirst⟩ := emptySlot_spec hk
  have hk12 : k < 12 := by omega
  have hslots : ∀ j < 12, iBlock (inodeAt g s'.disk d) j = update (iBlock (inodeAt g s.disk d)) k c j := by
    intro j hj
    rw [ha.inode, iBlock_slice (by omega), iBlock_attachBlock, iBlock_setIBlock _ _ hc32]
  have hne : ∀ j < 12, j ≠ k → iBlock (inodeAt g s'.disk d) j = iBlock (inodeAt g s.disk d) j := by
    intro j hj hjk
    rw [hslots j hj, update_of_ne hjk]
  have hself : iBlock (inodeAt g s'.disk d) k = c := by rw [hslots k hk12, update_self]
  have hdiv : ∀ j x, x < g.blockSize → (j * g.blockSize + x) / g.blockSize = j ∧
      (j * g.blockSize + x) % g.blockSize = x := by
    intro j x hx
    rw [mul_comm, mul_add_div g.blockSize_pos, div_eq_of_lt hx, mul_add_mod, mod_eq_of_lt hx]
    exact ⟨add_zero j, rfl⟩
  have hsame : ∀ j < 12, j ≠ k → iBlock (inodeAt g s.disk d) j ≠ 0 →
      Same g s.disk s'.disk (iBlock (inodeAt g s.disk d) j) := by
    intro j hj hjk hj0
    have hbytes : ∀ x < g.blockSize, fileByte g (s'.mounted g live) d (j * g.blockSize + x) =
        fileByte g (s.mounted g live) d (j * g.blockSize + x) := by
      intro x hx
      rw [ha.bytes, (hdiv j x hx).1, if_neg hjk]
    exact same_slot (hne j hj hjk) hbytes hj hj0
  have hchain : chain (slotBlock g s'.disk (inodeAt g s'.disk d) k) g.blockSize 0 = some es := by
    refine chain_iff.mpr (hes.congr fun x _ hx => ?_)
    have hbyte := ha.bytes (k * g.blockSize + x)
    rw [fileByte_slot hk12 (hself ▸ hc0) hx, (hdiv k x hx).1, (hdiv k x hx).2, if_pos rfl] at hbyte
    rw [slotBlock, slice_inside _ hx, hbyte]
  refine ⟨⟨ha.touched, fun j hj hj0 => ?_, fun a hab => ?_, fun hh j hj m hm hjm hj0 => ?_, fun j hj hj0 => ?_⟩,
    fun j hj hjk => slotEntries_congr (hne j hj hjk) (hsame j hj hjk), ?_⟩
  · by_cases hjk : j = k
    · rw [hjk, hchain]
      rfl
    rw [hne j hj hjk] at hj0
    rw [slotBlock, hne j hj hjk, (hsame j hj hjk hj0).block]
    exact hc j hj hj0
  · rw [ha.inode, slice_inside _ (by omega), zero_add, attachBlock_header _ _ hab]
  · have hjk : j ≠ k := by
      rintro rfl
      exact hc0 (hself.symm.trans hj0)
    rw [hne j hj hjk] at hj0
    -- an empty slot comes after the first one
    have hkj : k < j := by
      by_contra hle
      exact hfirst j (Nat.zero_le _) (by omega) hj0
    rw [hne m hm (by omega)]
    exact hh j hj m hm hjm hj0
  · refine hne j hj ?_
    rintro rfl
    exact hj0 hk0
  · rw [slotEntries, if_neg (hself ▸ hc0), hchain]
    rfl

section

variable (h : Consistent g (s.mounted g live)) (hn : NoFault s) (hd : live d)
include h hn hd

section

variable (hk : k < 12) (h0 : iBlock (inodeAt g s.disk d) k ≠ 0)
include hk h0

lemma writeSlot_spec (blk' : Mem) :
    let disk' := blit s.disk g.blockSize (iBlock (inodeAt g s.disk d) k * g.blockSize) blk'
    Touched g live {d} s { s with disk := disk' } ∧ inodeAt g disk' d = inodeAt g s.disk d ∧
      (∀ j < 12, j ≠ k → iBlock (inodeAt g s.disk d) j ≠ 0 →
        Same g s.disk disk' (iBlock (inodeAt g s.disk d) j)) := by
  intro disk'
  obtain ⟨hroles, hcons, hbytes, hinodes, hbits⟩ := h.writeData hd (reach_slot hk h0) blk'
  have hin : ∀ n, live n → inodeAt g disk' n = inodeAt g s.disk n := fun n hl => hinodes n (h.live n hl).2
  refine ⟨⟨⟨hn, ?_, rfl, rfl, fun n _ _ hr => hinodes n hr, fun n hl hne x => ?_,
    fun hv => (sameRoles_remount hin).inVolume (hroles.inVolume hv)⟩, hbits⟩, hin d hd,
    fun j hj hjk hj0 => ?_⟩
  · exact hcons.of_disk (sameRoles_remount hin) rfl
  · have hmount : fileByte g (Fs.mounted g { s with disk := disk' } live) n x = _ :=
      fileByte_remount (hin n hl) x
    exact hmount.trans ((hbytes n hl x).trans (if_neg fun hc => hne hc.1))
  -- the blocks of different slots are different
  refine same_writeBlock blk' fun he => hjk ?_
  have hrj := Consistent.file_role hd (reach_slot hj hj0)
  have hrk := Consistent.file_role hd (reach_slot hk h0)
  rw [he] at hrj
  exact pathOf_injective (Role.file.inj (h.unique _ _ _ hrj hrk)).2

lemma editSlot_spec (hc : DirChains g s.disk (inodeAt g s.disk d))
    {es' : List (Name × ℕ)} (hes : Chain blk' g.blockSize 0 es') :
    let disk' := blit s.disk g.blockSize (iBlock (inodeAt g s.disk d) k * g.blockSize) blk'
    DirEdited g live d s { s with disk := disk' } ∧ (∀ j < 12, j ≠ k → slotEntries g disk' (inodeAt g disk' d) j =
        slotEntries g s.disk (inodeAt g s.disk d) j) ∧
      slotEntries g disk' (inodeAt g disk' d) k = liveEntries es' := by
  intro disk'
  obtain ⟨htouched, hinode, hsame⟩ := writeSlot_spec h hn hd hk h0 blk'
  have hinode : inodeAt g disk' d = inodeAt g s.disk d := hinode
  have hblock : slotBlock g disk' (inodeAt g s.disk d) k = slice blk' 0 g.blockSize := slice_blit_self ..
  have hchain : chain (slotBlock g disk' (inodeAt g s.disk d) k) g.blockSize 0 = some es' := by
    rw [hblock, chain_iff]
    refine hes.congr fun x _ hx => ?_
    rw [slice_inside _ hx, zero_add]
  refine ⟨⟨htouched, fun j hj hj0 => ?_, fun a _ => ?_, fun hh => ?_, fun j _ _ => ?_⟩, fun j hj hjk => ?_, ?_⟩
  · have hj0 : iBlock (inodeAt g s.disk d) j ≠ 0 := hinode ▸ hj0
    change (chain (slotBlock g disk' (inodeAt g disk' d) j) g.blockSize 0).isSome = true
    rw [hinode]
    by_cases hjk : j = k
    · rw [hjk, hchain]
      rfl
    · rw [slotBlock, (hsame j hj hjk hj0).block]
      exact hc j hj hj0
  · change inodeAt g disk' d a = _
    rw [hinode]
  · change NoHoles (inodeAt g disk' d)
    rw [hinode]
    exact hh
  · change iBlock (inodeAt g disk' d) j = _
    rw [hinode]
  · rw [hinode]
    exact slotEntries_congr rfl fun hj0 => hsame j hj hjk hj0
  · rw [hinode, slotEntries, if_neg h0, hchain]
    rfl

end

lemma attach_spec (hk : k < 12)
    (hk0 : iBlock (inodeAt g s.disk d) k = 0) (blk : Mem) {s1 : Fs} (halloc : allocBlock g s = (c, s1))
    (hc0 : c ≠ 0) :
    let s2 : Fs := { s1 with disk := blit s1.disk g.blockSize (c * g.blockSize) blk }
    NoFault s1 ∧ Attached g live d k c blk s { s2 with
      disk := blit s2.disk 128 (inodeAddr g s2.disk d) (attachBlock g (inodeAt g s.disk d) k c) } := by
  intro s2
  have hheight : slotHeight k = 0 := by
    unfold slotHeight
    omega
  have hens : ensureSlot (newData g) s (inodeAt g s.disk d) k = (some c, setIBlock (inodeAt g s.disk d) k c, s1) := by
    simp [ensureSlot, hk0, newData, halloc, hc0]
  -- the block goes into the copy of the inode
  obtain ⟨r, inode', s1', hr, hn1, hcount, -, hgrown, hreach, -⟩ :=
    ensureSlot_spec (k := k) newData_newBlock (openView_inodeAt ▸ h) hn hd (by omega)
  rw [hens] at hr
  cases hr
  rw [openView_inodeAt] at hgrown
  have hpath := hreach c rfl
  rw [hheight, ← pathOf_direct (g := g) hk] at hpath
  -- its contents are written
  obtain ⟨hroles2, hcons2, hbytes2, hinodes2, hbits2⟩ := hgrown.consistent.writeData hd hpath blk
  have hin2 : ∀ n, RealGroup g (s.mounted g live) (inodeGroup g n) → inodeAt g s2.disk n = inodeAt g s.disk n :=
    fun n hr => (hinodes2 n ((hgrown.realGroup _).mpr hr)).trans (hgrown.inodes n hr)
  -- the inode is written back
  obtain ⟨hroles3, hcons3, hbytes3, hself, hinodes3, hbits3⟩ := commit_spec (s := s2) hcons2 hd
    (fun n hl _ j _ => congrArg (iBlock · j) (hin2 n (h.live n hl).2).symm)
    fun j _ => iBlock_attachBlock (g := g) (inodeAt g s.disk d) c j
  refine ⟨hn1, ⟨⟨hn1, hcons3, hgrown.count, hcount, fun n h0 hne hr => ?_, fun n hl hne x => ?_,
    fun hv => hroles3.inVolume (hroles2.inVolume (hgrown.inVolume hv))⟩, fun i j hi => ?_⟩, hself, fun x => ?_⟩
  · exact (hinodes3 n h0 hne ((hgrown.realGroup _).mpr hr)).trans (hin2 n hr)
  · refine (hbytes3 n hl x).trans ((hbytes2 n hl x).trans ?_)
    rw [if_neg fun hc => hne hc.1]
    exact hgrown.bytes n hl x
  · exact (hbits3 i j ((hgrown.realGroup i).mpr hi)).trans
      ((hbits2 i j ((hgrown.realGroup i).mpr hi)).trans (hgrown.inodeBits i j hi))
  refine (hbytes3 d hd x).trans ((hbytes2 d hd x).trans ?_)
  rw [hgrown.bytes d hd x]
  simp

section

variable (hc : DirChains g s.disk (inodeAt g s.disk d)) (hlen : name.length < 256)
include hc hlen

/-- `dir_remove_entry` finds nothing and changes nothing, or removes an entry with the name. -/
theorem dirRemoveEntry_spec : dirRemoveEntry g s d name = (false, s) ∨
      ∃ s' i, dirRemoveEntry g s d name = (true, s') ∧ i ≠ 0 ∧ DirEdited g live d s s' ∧
        inodeAt g s'.disk d = inodeAt g s.disk d ∧
        Inserted (entriesOf g s'.disk d) (name, i) (entriesOf g s.disk d) := by
  have hino := (h.live d hd).1
  have hstart : dirRemoveEntry g s d name = removeLoop g s (inodeAt g s.disk d) name 12 0 := by
    simp [dirRemoveEntry, take_length_mod hlen, readInode_eq h.inodesFit hn hino, request_eq hn]
  rw [hstart]
  have hloop := editLoop_cases (g := g) hn (removeInBlock · g.blockSize name 0) (inodeAt g s.disk d) 12 0
  rw [← removeLoop_eq] at hloop
  rcases hloop with hz | ⟨k, blk', hk, h0, hrem, he⟩
  · exact .inl hz
  obtain ⟨es, hes⟩ := isSome_iff_exists.mp (hc k (by omega) h0)
  obtain ⟨-, es', i, hi, hes', hins⟩ := removeInBlock_spec (chain_iff.mp hes) hrem
  obtain ⟨hedit, hother, hself⟩ := editSlot_spec h hn hd (by omega) h0 hc hes'
  refine .inr ⟨_, i, he, hi, hedit, (writeSlot_spec h hn hd (by omega) h0 blk').2.1, ?_⟩
  refine inserted_dirEntries (k := k) (by omega) (fun j hj hjk => (hother j hj hjk).symm) ?_
  rw [hself, slotEntries, if_neg h0, hes]
  exact hins

/-- `dir_add_entry` adds the entry, or fails and leaves the files alone. -/
theorem dirAddEntry_spec (hino : ino < 2 ^ 32) (h0 : ino ≠ 0) (ftype : ℕ) :
    (∃ s', dirAddEntry g s d name ino ftype = (false, s') ∧ Touched g live ∅ s s') ∨
      ∃ s', dirAddEntry g s d name ino ftype = (true, s') ∧ DirEdited g live d s s' ∧
        Inserted (entriesOf g s.disk d) (name, ino) (entriesOf g s'.disk d) := by
  have hd0 := (h.live d hd).1
  have hloop := editLoop_cases (g := g) hn (addInBlock · g.blockSize name ino ftype 0) (inodeAt g s.disk d) 12 0
  rw [← addLoop_eq] at hloop
  rcases hloop with hz | ⟨k, blk', hk, hk0, hadd, he⟩
  · have hstart : dirAddEntry g s d name ino ftype = addDirBlock g s d (inodeAt g s.disk d) name ino ftype := by
      simp [dirAddEntry, take_length_mod hlen, readInode_eq h.inodesFit hn hd0, request_eq hn, hz]
    rw [hstart]
    rcases allocBlock_spec h hn with hfail | ⟨c, s1, halloc, ha⟩
    · refine .inl ⟨s, ?_, .refl h hn⟩
      simp [addDirBlock, hfail]
    have hc0 := ha.spare.ne_zero
    have hc32 : c < 2 ^ 32 := lt_trans ha.spare.lt ha.consistent.blocksCount_lt
    cases hk : emptySlot (inodeAt g s.disk d) 12 0 with
    | some k =>
      obtain ⟨-, hk12, hk0, -⟩ := emptySlot_spec hk
      obtain ⟨hn1, hatt⟩ := attach_spec h hn hd (by omega) hk0 (newDirBlock g name ino ftype) halloc hc0
      obtain ⟨hedit, hother, hself⟩ := hatt.edited hc0 hc32 hc hk (chain_newDirBlock hlen hino)
      refine .inr ⟨_, ?_, hedit, ?_⟩
      · simp only [addDirBlock, halloc, if_neg hc0, hk, writeBlock_eq g hn1,
          writeInode_eq h.inodesFit (hn1.setDisk _) hd0]
      refine inserted_dirEntries (k := k) (by omega) hother ?_
      rw [hself, slotEntries, if_pos hk0, liveEntries_cons_live h0]
      exact ⟨[], [], rfl, rfl⟩
    | none =>
      -- the new block is given back
      have hfirst : g.firstDataBlock ≤ c := by
        have hsize := g.blockSize_cases
        rw [h.firstDataBlock]
        have hle : 1024 / g.blockSize ≤ 1 := by rcases hsize with hs | hs | hs <;> rw [hs] <;> decide
        omega
      obtain ⟨i, j, hj, rfl⟩ := exists_blockNumber h.blocksPerGroup_pos hfirst
      have hgrown1 := ha.grown h
      obtain ⟨hgrown2, hnone2⟩ := grown_writeSpare ha.consistent ha.spare.noRole
        (newDirBlock g name ino ftype)
      have hgrown3 := grown_unmarked hgrown2.consistent ha.spare.lt hnone2
      refine .inl ⟨_, ?_, ((hgrown1.trans hgrown2).trans hgrown3).touched h (fun m => ha.noFault m) ?_⟩
      · simp only [addDirBlock, halloc, if_neg hc0, hk, writeBlock_eq g ha.noFault,
          freeBlock_eq (ha.noFault.setDisk _) hj]
      · exact mark_inodesCount.trans ha.inodesCount
  · obtain ⟨es, hes⟩ := isSome_iff_exists.mp (hc k (by omega) hk0)
    obtain ⟨-, es', hes', hins⟩ := addInBlock_spec (chain_iff.mp hes) hlen hino h0 hadd
    obtain ⟨hedit, hother, hself⟩ := editSlot_spec h hn hd (by omega) hk0 hc hes'
    refine .inr ⟨_, ?_, hedit, inserted_dirEntries (k := k) (by omega) hother ?_⟩
    · simp [dirAddEntry, take_length_mod hlen, readInode_eq h.inodesFit hn hd0, request_eq hn, he]
    · rw [hself, slotEntries, if_neg hk0, hes]
      exact hins

end

end

end

end AetherOS.Ext2
