import AetherOS.Ext2Filesystem

/-!
# What the calls do to names

Each call of the driver changes the entries of one or two directories and the state of one
inode. A call that adds a name finds an inode that was not in use; a call that removes a
name drops a link of the inode it referred to. Everything else in use stays.
-/
namespace AetherOS.Ext2
open ByteMemory ByteBitmap PointerTree Option

section

variable {g : Geometry} {s s' : Fs} {d n : ℕ} {inode inode' : Mem}

lemma isDir_congr (h : ∀ a < 2, inode' a = inode a) : isDir inode' = isDir inode := by
  have hmode : iMode inode' = iMode inode := readLE_congr fun a _ ha => h a (by omega)
  rw [isDir, isDir, hmode]

lemma isReg_congr (h : ∀ a < 2, inode' a = inode a) : isReg inode' = isReg inode := by
  have hmode : iMode inode' = iMode inode := readLE_congr fun a _ ha => h a (by omega)
  rw [isReg, isReg, hmode]

lemma isDir_of_isReg (h : isReg inode = true) : isDir inode = false := by
  simp only [isDir, isReg, decide_eq_true_eq, decide_eq_false_iff_not] at h ⊢
  rw [h]
  decide

lemma IsDir.ne_file (h : IsDir g s d) (hn : isDir (inodeAt g s.disk n) = false) : d ≠ n := by
  rintro rfl
  rw [h.dir] at hn
  cases hn

lemma Target.keep (h : Target g s n) (hu : InUse g s' n)
    (hd : isDir (inodeAt g s'.disk n) = isDir (inodeAt g s.disk n))
    (hr : isReg (inodeAt g s'.disk n) = isReg (inodeAt g s.disk n)) : Target g s' n := by
  refine ⟨hu, ?_⟩
  rw [hd, hr]
  exact h.kind

lemma Target.keep_mode (h : Target g s n) (hu : InUse g s' n)
    (hm : ∀ a < 2, inodeAt g s'.disk n a = inodeAt g s.disk n a) : Target g s' n :=
  h.keep hu (isDir_congr hm) (isReg_congr hm)

end

/-- The directory `d` was changed, and nothing else in use. -/
structure Edited (g : Geometry) (d : ℕ) (s s' : Fs) : Prop where
  intact : Intact g s'
  inUse : InUse g s' = InUse g s
  unchanged : Unchanged g (fun m => InUse g s m ∧ m ≠ d) s s'
  inodes : ∀ m, m ≠ 0 → m ≤ sInodesCount s.sb → m ≠ d → inodeAt g s'.disk m = inodeAt g s.disk m
  header : ∀ a, a < 4 ∨ 8 ≤ a ∧ a < 28 → inodeAt g s'.disk d a = inodeAt g s.disk d a
  slots : ∀ k < 12, iBlock (inodeAt g s.disk d) k ≠ 0 → iBlock (inodeAt g s'.disk d) k = iBlock (inodeAt g s.disk d) k
  good : GoodDir g s'.disk d

/-- In the directory `d` the name is bound to `r` now, or not at all. -/
structure Rebound (g : Geometry) (d : ℕ) (name : Name) (r : Option ℕ) (s s' : Fs) : Prop
    extends Edited g d s s' where
  entries : ∀ e, e ∈ entriesOf g s'.disk d ↔ e.1 = name ∧ r = some e.2 ∨ e.1 ≠ name ∧ e ∈ entriesOf g s.disk d
  child : ∀ c, child g s'.disk d c = if c = name then r else Ext2.child g s.disk d c

/-- The list is `base`, with an entry for the name if it is bound to something. -/
def Binds (base : List (Name × ℕ)) (name : Name) : Option ℕ → List (Name × ℕ) → Prop
  | none, l => l = base
  | some i, l => Inserted base (name, i) l

section

variable {g : Geometry} {s s' : Fs} {d n ino ftype : ℕ} {name : Name} {live : ℕ → Prop} {r : Option ℕ}
  {base l : List (Name × ℕ)}

lemma Inserted.mem_iff {l' : List (Name × ℕ)} {e : Name × ℕ} (h : Inserted l e l') (x : Name × ℕ) :
    x ∈ l' ↔ x = e ∨ x ∈ l := by
  have he : Inserted l (e.1, e.2) l' := h
  rw [he.perm.mem_iff, List.mem_cons]

lemma Binds.lookup (h : Binds base name r l) (hnot : name ∉ base.map Prod.fst) (c : Name) :
    l.lookup c = if c = name then r else base.lookup c := by
  cases r with
  | none =>
    obtain rfl : l = base := h
    split_ifs with hc
    · rw [hc, lookup_eq_none]
      exact hnot
    · rfl
  | some i => exact Inserted.lookup h hnot c

lemma Binds.mem_iff (h : Binds base name r l) (e : Name × ℕ) : e ∈ l ↔ e.1 = name ∧ r = some e.2 ∨ e ∈ base := by
  cases r with
  | none =>
    obtain rfl : l = base := h
    simp
  | some i => rw [Inserted.mem_iff h, Prod.ext_iff, some.injEq, eq_comm (a := i)]

lemma Binds.nodup (h : Binds base name r l) (hnot : name ∉ base.map Prod.fst) :
    (l.map Prod.fst).Nodup ↔ (base.map Prod.fst).Nodup := by
  cases r with
  | none =>
    obtain rfl : l = base := h
    exact Iff.rfl
  | some i =>
    have h : Inserted base (name, i) l := h
    rw [h.nodup_iff]
    exact and_iff_right hnot

lemma Touched.unchanged {D : Set ℕ} (ht : Touched g (InUse g s) D s s') (h : Intact g s) :
    Unchanged g (fun m => InUse g s m ∧ m ∉ D) s s' :=
  ht.toKept.unchanged h.consistent

lemma DirEdited.rebound (he : DirEdited g (InUse g s) d s s') (h : Intact g s) (hd : GoodDir g s.disk d)
    (hnot : name ∉ base.map Prod.fst) {r₀ : Option ℕ} (hb : Binds base name r₀ (entriesOf g s.disk d))
    (hb' : Binds base name r (entriesOf g s'.disk d)) : Rebound g d name r s s' := by
  have hgood : GoodDir g s'.disk d :=
    ⟨he.chains, he.noHoles hd.noHoles, (hb'.nodup hnot).mpr ((hb.nodup hnot).mp hd.names)⟩
  have hbase : ∀ e, e ∈ base ↔ e.1 ≠ name ∧ e ∈ entriesOf g s.disk d := by
    intro e
    rw [hb.mem_iff]
    constructor
    · intro hm
      exact ⟨fun hc => hnot (hc ▸ List.mem_map_of_mem hm), .inr hm⟩
    · rintro ⟨hne, hm⟩
      exact hm.resolve_left fun hc => hne hc.1
  refine ⟨⟨h.touched he.touched, he.touched.inUse h.maps, he.touched.unchanged h, fun m h0 hle hm => ?_,
    he.header, he.slots, hgood⟩, fun e => ?_, fun c => ?_⟩
  · exact he.touched.inodes m h0 hm (h.real _ h0 hle).1
  · rw [hb'.mem_iff, hbase]
  rw [hgood.child, hb'.lookup hnot, hd.child, hb.lookup hnot]
  split_ifs
  · rfl
  · rfl

lemma removeLoop_false (hn : NoFault s) {inode : Mem} (hc : DirChains g s.disk inode) {m b : ℕ}
    (hb : b + m ≤ 12) (hr : removeLoop g s inode name m b = (false, s)) :
    searchSlots g s.disk inode name m b = none := by
  induction m generalizing b with
  | zero => rfl
  | succ m ih =>
    rw [removeLoop] at hr
    rw [searchSlots]
    by_cases h0 : iBlock inode b = 0
    · rw [if_pos h0]
    rw [if_neg h0, readBlock_eq g hn] at hr
    rw [if_neg h0]
    obtain ⟨es, hes⟩ := isSome_iff_exists.mp (hc b (by omega) h0)
    have hchain := chain_iff.mp hes
    cases hrem : removeInBlock (slotBlock g s.disk inode b) g.blockSize name 0 with
    | some blk =>
      rw [slotBlock] at hrem
      simp only [hrem] at hr
      cases hr
    | none =>
      have hnone := (removeInBlock_none hchain).mp hrem
      rw [slotBlock] at hrem
      simp only [hrem] at hr
      simp only [dirFindInBlock_eq hchain name, hnone, getD_none, ne_eq, not_true, if_false]
      exact ih (by omega) hr

section

variable (h : Intact g s) (hu : InUse g s d) (hd : GoodDir g s.disk d) (hlen : name.length < 256)
include h hu hd hlen

/-- A new name is added to a directory, or nothing in use changes. -/
theorem dirAddEntry_names (hino : ino < 2 ^ 32) (h0 : ino ≠ 0) (hfree : child g s.disk d name = none) (ftype : ℕ) :
    (∃ s', dirAddEntry g s d name ino ftype = (false, s') ∧ Intact g s' ∧ InUse g s' = InUse g s ∧
      Unchanged g (InUse g s) s s') ∨
    ∃ s', dirAddEntry g s d name ino ftype = (true, s') ∧ Rebound g d name (some ino) s s' := by
  rcases dirAddEntry_spec h.consistent h.noFault hu hd.chains hlen hino h0 ftype with
    ⟨s', he, ht⟩ | ⟨s', he, hedit, hins⟩
  · refine .inl ⟨s', he, h.touched ht, ht.inUse h.maps, ?_⟩
    exact (ht.unchanged h).mono fun m hm => ⟨hm, Set.notMem_empty m⟩
  have hnot : name ∉ (entriesOf g s.disk d).map Prod.fst := by
    rw [← lookup_eq_none, ← hd.child]
    exact hfree
  have hb : Binds (entriesOf g s.disk d) name none (entriesOf g s.disk d) := rfl
  exact .inr ⟨s', he, hedit.rebound h hd hnot hb hins⟩

/-- A name that is bound is removed; otherwise nothing happens. -/
theorem dirRemoveEntry_names : (child g s.disk d name = none ∧ dirRemoveEntry g s d name = (false, s)) ∨
    ∃ i s', child g s.disk d name = some i ∧ dirRemoveEntry g s d name = (true, s') ∧ Rebound g d name none s s' := by
  rcases dirRemoveEntry_spec h.consistent h.noFault hu hd.chains hlen with
    he | ⟨s', i, he, -, hedit, -, hins⟩
  · refine .inl ⟨?_, he⟩
    simp only [dirRemoveEntry, take_length_mod hlen, h.readInode_eq hu.ne_zero,
      request_eq h.noFault, if_true] at he
    exact removeLoop_false h.noFault hd.chains (by omega) he
  have hnot := (hins.nodup_iff.mp hd.names).1
  have hb : Binds (entriesOf g s'.disk d) name (some i) (entriesOf g s.disk d) := hins
  have hb' : Binds (entriesOf g s'.disk d) name none (entriesOf g s'.disk d) := rfl
  refine .inr ⟨i, s', ?_, he, hedit.rebound h hd hnot hb hb'⟩
  rw [hd.child, hins.lookup hnot, if_pos rfl]

end

end

/-- A link of inode `n` was dropped. With the last one the inode was emptied and given
back; otherwise its file is as it was. -/
structure LinkDropped (g : Geometry) (n : ℕ) (s s' : Fs) : Prop where
  intact : Intact g s'
  inodesCount : sInodesCount s'.sb = sInodesCount s.sb
  inUse : ∀ m, m ≠ n → (InUse g s' m ↔ InUse g s m)
  unchanged : Unchanged g (fun m => InUse g s m ∧ m ≠ n) s s'
  mode : ∀ a < 2, inodeAt g s'.disk n a = inodeAt g s.disk n a
  self : (iLinksCount (inodeAt g s.disk n) ≤ 1 ∧ (InUse g s' n ↔ n < 2) ∧
      ∀ k < 15, iBlock (inodeAt g s'.disk n) k = if k < 13 then 0 else iBlock (inodeAt g s.disk n) k) ∨
    (1 < iLinksCount (inodeAt g s.disk n) ∧ InUse g s' n ∧ SameFile g n s s')

section

variable {g : Geometry} {s s' : Fs} {n : ℕ} {inode : Mem} {name : Name}

lemma iBlock_setILinksCount (inode : Mem) (v k : ℕ) : iBlock (setILinksCount inode v) k = iBlock inode k :=
  readLE_outside _ (by omega)

/-- The inode with one link less. -/
def oneLess (inode : Mem) : Mem :=
  if 0 < iLinksCount inode then setILinksCount inode (iLinksCount inode - 1) else inode

lemma iLinksCount_oneLess (inode : Mem) : iLinksCount (oneLess inode) = iLinksCount inode - 1 := by
  have hlt : iLinksCount inode < 2 ^ 16 := readLE_lt _ 2 _
  rw [oneLess]
  split_ifs with hpos
  · rw [iLinksCount, setILinksCount, readLE_writeLE_same]
    exact Nat.mod_eq_of_lt (by omega)
  · omega

lemma iBlock_oneLess (inode : Mem) (k : ℕ) : iBlock (oneLess inode) k = iBlock inode k := by
  rw [oneLess]
  split_ifs
  · exact iBlock_setILinksCount _ _ k
  · rfl

lemma oneLess_header (inode : Mem) {a : ℕ} (ha : a < 2) : oneLess inode a = inode a := by
  rw [oneLess]
  split_ifs
  · exact writeLE_outside _ (by omega)
  · rfl

lemma Intact.release (h : Intact g s) (hu : InUse g s n)
    (hk : ∀ k < 15, iBlock inode k = iBlock (inodeAt g s.disk n) k) :
    ∃ inode' s', freeBlocks g s inode = (inode', freeAll g s (ownBlocks g s.disk inode)) ∧ Emptied inode inode' ∧
      writeInode g (freeAll g s (ownBlocks g s.disk inode)) n (setIBlocks (setISize inode' 0) 0) = (true, s') ∧
      Touched g (InUse g s) {n} s s' ∧
      (∀ k < 15, iBlock (inodeAt g s'.disk n) k = if k < 13 then 0 else iBlock (inodeAt g s.disk n) k) ∧
      ∀ a, a < 4 ∨ 8 ≤ a ∧ a < 28 → inodeAt g s'.disk n a = inode a := by
  obtain ⟨inode', s', he, hempty, hw, ht, hself⟩ := release_spec h.consistent h.noFault hu h.inVolume hk
  refine ⟨inode', s', he, hempty, hw, ht, fun k hk15 => ?_, fun a ha => ?_⟩
  · rw [hself, iBlock_slice hk15, iBlock, setIBlocks, readLE_outside _ (by omega), setISize,
      readLE_outside _ (by omega), ← hk k hk15, ← hempty.slots k, iBlock]
  · rw [hself, slice_inside _ (by omega), zero_add, setIBlocks, writeLE_outside _ (by omega), setISize,
      writeLE_outside _ (by omega), hempty.header a (by omega)]

lemma dropLink_last (hlinks : iLinksCount inode ≤ 1) {inode' : Mem} {s1 s2 : Fs}
    (hfree : freeBlocks g s (oneLess inode) = (inode', s1))
    (hw : writeInode g s1 n (setIBlocks (setISize inode' 0) 0) = (true, s2)) :
    dropLink g s n inode = freeInode g s2 n := by
  have hlast : iLinksCount (oneLess inode) = 0 := by
    rw [iLinksCount_oneLess]
    omega
  rw [oneLess] at hfree hlast
  simp [dropLink, if_pos hlast, hfree, hw]

theorem dropLink_spec (h : Intact g s) (hu : InUse g s n) :
    LinkDropped g n s (dropLink g s n (inodeAt g s.disk n)) := by
  have hlinks := iLinksCount_oneLess (inodeAt g s.disk n)
  have hslots : ∀ k < 15, iBlock (oneLess (inodeAt g s.disk n)) k = iBlock (inodeAt g s.disk n) k :=
    fun k _ => iBlock_oneLess _ k
  by_cases hlast : iLinksCount (inodeAt g s.disk n) ≤ 1
  · obtain ⟨inode', s1, hfree, -, hw, ht, hslots1, hheader1⟩ := h.release hu hslots
    rw [dropLink_last hlast hfree hw]
    have h1 := h.touched ht
    have hmode1 : ∀ a < 2, inodeAt g s1.disk n a = inodeAt g s.disk n a :=
      fun a ha => (hheader1 a (by omega)).trans (oneLess_header _ ha)
    have huse := ht.inUse h.maps
    by_cases h2 : 2 ≤ n
    · obtain ⟨hint, huse', hsame, hcount⟩ := h1.freeInode h2 (ht.inodesCount ▸ hu.le)
      rw [huse] at hsame
      refine ⟨hint, hcount.trans ht.inodesCount, fun m hm => ?_, ?_, fun a ha => ?_,
        Or.inl ⟨hlast, iff_of_false (fun hu' => ?_) (by omega), fun k hk => ?_⟩⟩
      · rw [huse' m, huse]
        exact and_iff_left hm
      · exact (ht.unchanged h).trans (hsame.mono fun m hm => hm.1)
      · rw [hsame.inodes n hu]
        exact hmode1 a ha
      · exact ((huse' n).mp hu').2 rfl
      · rw [hsame.inodes n hu, hslots1 k hk]
    · -- the first inodes are never given back
      have hkeep : freeInode g s1 n = s1 := if_pos (by omega)
      rw [hkeep]
      refine ⟨h1, ht.inodesCount, fun m _ => by rw [huse], ht.unchanged h, hmode1,
        Or.inl ⟨hlast, iff_of_true (huse ▸ hu) (by omega), hslots1⟩⟩
  · obtain ⟨s1, hw, ht, hself, hbytes⟩ := rewrite_touched h.consistent h.noFault hu hslots
    have hs' : dropLink g s n (inodeAt g s.disk n) = s1 := by
      have hmore : ¬iLinksCount (oneLess (inodeAt g s.disk n)) = 0 := by omega
      rw [oneLess] at hmore hw
      simp [dropLink, if_neg hmore, hw]
    rw [hs']
    have huse := ht.inUse h.maps
    refine ⟨h.touched ht, ht.inodesCount, fun m _ => by rw [huse], ht.unchanged h, fun a ha => ?_,
      Or.inr ⟨by omega, ?_, ?_, hbytes⟩⟩
    · rw [hself, slice_inside _ (by omega), zero_add, oneLess_header _ ha]
    · rw [huse]
      exact hu
    · intro k hk
      rw [hself, iBlock_slice hk, hslots k hk]

end

section

variable {g : Geometry} {s s' : Fs} {X : Set ℕ} {n : ℕ}

/-- A filesystem stays sound if the directories outside of `X` are unchanged and their
entries still refer to something, and the directories in `X` are checked. -/
theorem Sound.update (h : Sound g s) (hi : Intact g s')
    (hun : Unchanged g (fun m => InUse g s m ∧ m ∉ X) s s') (hres : InUse g s' 1) (hroot : IsDir g s' 2)
    (hold : ∀ m, InUse g s' m → m ∉ X → InUse g s m)
    (hkeep : ∀ d, IsDir g s d → d ∉ X → ∀ e ∈ entriesOf g s.disk d, Target g s' e.2)
    (hX : ∀ d ∈ X, IsDir g s' d → GoodDir g s'.disk d ∧ ∀ e ∈ entriesOf g s'.disk d, Target g s' e.2) :
    Sound g s' := by
  have hboth : ∀ d, IsDir g s' d → GoodDir g s'.disk d ∧ ∀ e ∈ entriesOf g s'.disk d, Target g s' e.2 := by
    intro d hd
    by_cases hdX : d ∈ X
    · exact hX d hdX hd
    have hu := hold d hd.inUse hdX
    have hd' : IsDir g s d := ⟨hu, by rw [← hun.inodes d ⟨hu, hdX⟩]; exact hd.dir⟩
    have hsame := hun.sameFile ⟨hu, hdX⟩
    refine ⟨hsame.goodDir (h.dirs d hd'), fun e he => hkeep d hd' hdX e ?_⟩
    rw [← hsame.entriesOf]
    exact he
  exact ⟨hi, hres, hroot, fun d hd => (hboth d hd).1, fun d hd => (hboth d hd).2⟩

/-- A filesystem stays sound if no type and no directory has changed. -/
lemma Sound.of_sameDirs (h : Sound g s) (hi : Intact g s') (huse : InUse g s' = InUse g s)
    (hkind : ∀ m, InUse g s m → isDir (inodeAt g s'.disk m) = isDir (inodeAt g s.disk m) ∧
      isReg (inodeAt g s'.disk m) = isReg (inodeAt g s.disk m))
    (hsame : ∀ d, IsDir g s d → SameFile g d s s') : Sound g s' := by
  have hdir : ∀ d, IsDir g s' d → IsDir g s d := by
    intro d hd
    have hu : InUse g s d := huse ▸ hd.inUse
    exact ⟨hu, (hkind d hu).1 ▸ hd.dir⟩
  refine ⟨hi, huse ▸ h.reserved, ⟨huse ▸ h.root.inUse, (hkind 2 h.root.inUse).1.trans h.root.dir⟩,
    fun d hd => (hsame d (hdir d hd)).goodDir (h.dirs d (hdir d hd)), fun d hd e he => ?_⟩
  rw [(hsame d (hdir d hd)).entriesOf] at he
  have ht := h.entries d (hdir d hd) e he
  exact ht.keep (huse ▸ ht.inUse) (hkind _ ht.inUse).1 (hkind _ ht.inUse).2

/-- Inode `n` was written with the same blocks and the same type. -/
structure Rewritten (g : Geometry) (n : ℕ) (inode : Mem) (s s' : Fs) : Prop where
  sound : Sound g s'
  inUse : InUse g s' = InUse g s
  unchanged : Unchanged g (fun m => InUse g s m ∧ m ≠ n) s s'
  inode : inodeAt g s'.disk n = slice inode 0 128
  sameFile : SameFile g n s s'

theorem Sound.rewriteInode (h : Sound g s) (hu : InUse g s n) {inode : Mem}
    (hk : ∀ k < 15, iBlock inode k = iBlock (inodeAt g s.disk n) k)
    (hd : isDir inode = isDir (inodeAt g s.disk n)) (hr : isReg inode = isReg (inodeAt g s.disk n)) :
    ∃ s', writeInode g s n inode = (true, s') ∧ Rewritten g n inode s s' := by
  obtain ⟨s', hw, ht, hself, hbytes⟩ := rewrite_touched h.consistent h.noFault hu hk
  have huse := ht.inUse h.maps
  have hun := ht.unchanged h.toIntact
  have hsame : SameFile g n s s' := by
    refine ⟨fun k hk15 => ?_, hbytes⟩
    rw [hself, iBlock_slice hk15, hk k hk15]
  have hslice : ∀ a < 2, inodeAt g s'.disk n a = inode a := by
    intro a ha
    rw [hself, slice_inside _ (by omega), zero_add]
  have hkind : ∀ m, InUse g s m → isDir (inodeAt g s'.disk m) = isDir (inodeAt g s.disk m) ∧
      isReg (inodeAt g s'.disk m) = isReg (inodeAt g s.disk m) := by
    intro m hm
    by_cases hmn : m = n
    · rw [hmn, isDir_congr hslice, isReg_congr hslice]
      exact ⟨hd, hr⟩
    · rw [hun.inodes m ⟨hm, hmn⟩]
      exact ⟨rfl, rfl⟩
  refine ⟨s', hw, h.of_sameDirs (h.toIntact.touched ht) huse hkind fun e he => ?_, huse, hun, hself, hsame⟩
  by_cases hen : e = n
  · exact hen ▸ hsame
  · exact hun.sameFile ⟨he.inUse, hen⟩

/-- The bytes and the blocks of file `n` may have changed, and nothing else in use. -/
structure FileChanged (g : Geometry) (n : ℕ) (s s' : Fs) : Prop where
  sound : Sound g s'
  inUse : InUse g s' = InUse g s
  unchanged : Unchanged g (fun m => InUse g s m ∧ m ≠ n) s s'
  header : ∀ a, a < 4 ∨ 8 ≤ a ∧ a < 28 → inodeAt g s'.disk n a = inodeAt g s.disk n a

lemma FileChanged.refl (h : Sound g s) : FileChanged g n s s :=
  ⟨h, rfl, .refl _ _, fun _ _ => rfl⟩

lemma Touched.fileChanged (ht : Touched g (InUse g s) {n} s s') (h : Sound g s)
    (hfile : isDir (inodeAt g s.disk n) = false)
    (hheader : ∀ a, a < 4 ∨ 8 ≤ a ∧ a < 28 → inodeAt g s'.disk n a = inodeAt g s.disk n a) :
    FileChanged g n s s' := by
  have huse := ht.inUse h.maps
  have hun := ht.unchanged h.toIntact
  have hmode : ∀ m, InUse g s m → ∀ a < 2, inodeAt g s'.disk m a = inodeAt g s.disk m a := by
    intro m hm a ha
    by_cases hmn : m = n
    · rw [hmn]
      exact hheader a (by omega)
    · rw [hun.inodes m ⟨hm, hmn⟩]
  refine ⟨h.of_sameDirs (h.toIntact.touched ht) huse (fun m hm => ?_) fun e he => ?_, huse, hun, hheader⟩
  · exact ⟨isDir_congr (hmode m hm), isReg_congr (hmode m hm)⟩
  · exact hun.sameFile ⟨he.inUse, he.ne_file hfile⟩

lemma Sound.ext2Write_spec (h : Sound g s) (hu : InUse g s n) (off : ℕ) {data : List UInt8} (hdata : data ≠ []) :
    ∃ w s', ext2Write g s n off data = (some w, s') ∧ w ≤ data.length ∧
      Written g s s' (InUse g s) n off (data.take w) :=
  Ext2.ext2Write_spec h.consistent h.noFault hu hdata

section

variable (h : Sound g s) (hu : InUse g s n) (hfile : isDir (inodeAt g s.disk n) = false)
include h hu hfile

/-- `ext2_write` changes one file. -/
theorem ext2Write_fileChanged
    (off : ℕ) (data : List UInt8) : ∃ r s', ext2Write g s n off data = (r, s') ∧ FileChanged g n s s' := by
  by_cases hdata : data = []
  · exact ⟨none, s, if_pos (.inr hdata), .refl h⟩
  obtain ⟨w, s', he, -, hw⟩ := h.ext2Write_spec hu off hdata
  exact ⟨some w, s', he, hw.touched.fileChanged h hfile hw.header⟩

/-- `ext2_truncate` changes one file. -/
theorem ext2Truncate_fileChanged : ∃ r s', ext2Truncate g s n = (r, s') ∧ FileChanged g n s s' := by
  by_cases h2 : n < 2
  · exact ⟨false, s, if_pos h2, .refl h⟩
  obtain ⟨inode', s', hfree, -, hw, ht, -, hheader⟩ := h.toIntact.release hu fun k _ => rfl
  refine ⟨true, s', ?_, ht.fileChanged h hfile hheader⟩
  rw [ext2Truncate, if_neg h2]
  simp [h.readInode_eq hu.ne_zero, hfree, hw]

end

end

section

variable {g : Geometry} {s s' s2 s5 : Fs} {d n m : ℕ} {ps : List Name} {c : Name} {inode : Mem}

lemma resolve_concat (disk : Mem) (ps : List Name) (c : Name) :
    resolve g disk (ps ++ [c]) = (resolve g disk ps).bind fun d => child g disk d c := walk_concat ps c 2

lemma resolve_child (hd : resolve g s.disk ps = some d) : resolve g s.disk (ps ++ [c]) = child g s.disk d c := by
  rw [resolve_concat, hd, bind_some]

lemma components_concat (hps : ∀ x ∈ ps, Component x) (hc : Component c) : ∀ x ∈ ps ++ [c], Component x := by
  intro x hx
  rcases List.mem_append.mp hx with hx | hx
  · exact hps x hx
  · rw [List.mem_singleton.mp hx]
    exact hc

lemma Sound.target (h : Sound g s) (hdir : IsDir g s d) (hn : child g s.disk d c = some n) : Target g s n := by
  rw [(h.dirs d hdir).child] at hn
  obtain ⟨l1, l2, hl, -⟩ := List.lookup_eq_some_iff.mp hn
  exact h.entries d hdir (c, n) (by rw [hl]; simp)

/-- A new inode `n` was put under the name `c` into the directory `d`. -/
structure Created (g : Geometry) (d : ℕ) (c : Name) (n : ℕ) (s s' : Fs) : Prop where
  ne_zero : n ≠ 0
  absent : child g s.disk d c = none
  fresh : ¬InUse g s n
  sound : Sound g s'
  inUse : ∀ m, InUse g s' m ↔ InUse g s m ∨ m = n
  unchanged : Unchanged g (fun m => InUse g s m ∧ m ≠ d) s s'
  header : ∀ a, a < 4 ∨ 8 ≤ a ∧ a < 26 → inodeAt g s'.disk d a = inodeAt g s.disk d a
  child : ∀ x, child g s'.disk d x = if x = c then some n else Ext2.child g s.disk d x

/-- Nothing in use has changed. -/
structure Failed (g : Geometry) (s s' : Fs) : Prop where
  sound : Sound g s'
  inUse : InUse g s' = InUse g s
  unchanged : Unchanged g (InUse g s) s s'

lemma Failed.refl (h : Sound g s) : Failed g s s := ⟨h, rfl, .refl _ _⟩

lemma Failed.of_intact (h : Sound g s) (hi : Intact g s') (hu : InUse g s' = InUse g s)
    (hun : Unchanged g (InUse g s) s s') : Failed g s s' := by
  refine ⟨h.of_sameDirs hi hu (fun m hm => ?_) fun d hd => hun.sameFile hd.inUse, hu, hun⟩
  rw [hun.inodes m hm]
  exact ⟨rfl, rfl⟩

lemma Sound.two_le (h : Sound g s) (h0 : n ≠ 0) (hfresh : ¬InUse g s n) : 2 ≤ n := by
  have h1 : n ≠ 1 := by
    rintro rfl
    exact hfresh h.reserved
  omega

lemma InUse.lt (hu : InUse g s n) : n < 2 ^ 32 := lt_of_le_of_lt hu.le (readLE_lt _ 4 _)

section

variable (hf : Fresh g n inode s s2)
include hf

lemma Fresh.failed {s3 : Fs} (h : Sound g s) (h3 : Intact g s3)
    (huse3 : InUse g s3 = InUse g s2) (hsame3 : Unchanged g (InUse g s) s2 s3) : Failed g s (freeInode g s3 n) := by
  have hn : InUse g s3 n := by
    rw [huse3, hf.inUse n]
    exact .inr rfl
  obtain ⟨hi, huse', hun, -⟩ := h3.freeInode (h.two_le hf.ne_zero hf.fresh) hn.le
  refine Failed.of_intact h hi (funext fun m => propext ?_)
    ((hf.unchanged.trans hsame3).trans (hun.mono fun m hm => ?_))
  · rw [huse' m, huse3, hf.inUse m]
    constructor
    · rintro ⟨hm | hm, hne⟩
      · exact hm
      · exact absurd hm hne
    · intro hm
      exact ⟨.inl hm, fun he => hf.fresh (he ▸ hm)⟩
  · rw [huse3, hf.inUse m]
    exact .inl hm

lemma Fresh.self : InUse g s2 n := (hf.inUse n).mpr (.inr rfl)

lemma Fresh.old (hm : InUse g s m) : InUse g s2 m :=
  (hf.inUse m).mpr (.inl hm)

lemma Fresh.ne (hm : InUse g s m) : m ≠ n := by
  rintro rfl
  exact hf.fresh hm

end

lemma iBlock_newInode (mode uid gid links k : ℕ) : iBlock (newInode mode uid gid links) k = 0 := by
  rw [newInode, iBlock, readLE_outside _ (by omega), readLE_outside _ (by omega),
    readLE_outside _ (by omega), readLE_outside _ (by omega)]
  rfl

lemma iMode_newInode {mode : ℕ} (hm : mode < 2 ^ 16) (uid gid links : ℕ) :
    iMode (slice (newInode mode uid gid links) 0 128) = mode := by
  rw [iMode, readLE_slice _ (by omega), newInode, readLE_outside _ (by omega),
    readLE_outside _ (by omega), readLE_outside _ (by omega), readLE_writeLE_same]
  exact Nat.mod_eq_of_lt hm

/-- A new inode that is put into a directory. Between the two steps only the new inode may
change. -/
lemma Rebound.created {s4 : Fs} (hadd : Rebound g d c (some n) s4 s5) (h : Sound g s)
    (hdir : IsDir g s d) (habsent : Ext2.child g s.disk d c = none) (hf : Fresh g n inode s s2)
    (huse : InUse g s4 = InUse g s2) (hmid : Unchanged g (InUse g s) s2 s4)
    (hkind : isDir (inodeAt g s5.disk n) = true ∨ isReg (inodeAt g s5.disk n) = true)
    (hnew : IsDir g s5 n → GoodDir g s5.disk n ∧ ∀ e ∈ entriesOf g s5.disk n, Target g s5 e.2) :
    Created g d c n s s5 := by
  have hold := hf.unchanged.trans hmid
  have huse5 : ∀ m, InUse g s5 m ↔ InUse g s m ∨ m = n := by
    intro m
    rw [hadd.inUse, huse, hf.inUse m]
  have hun : Unchanged g (fun m => InUse g s m ∧ m ≠ d) s s5 := by
    refine (hold.mono fun m hm => hm.1).trans (hadd.unchanged.mono fun m hm => ⟨?_, hm.2⟩)
    rw [huse]
    exact hf.old hm.1
  have hheader : ∀ a, a < 4 ∨ 8 ≤ a ∧ a < 28 → inodeAt g s5.disk d a = inodeAt g s.disk d a := by
    intro a ha
    rw [hadd.header a ha, hold.inodes d hdir.inUse]
  have hmode : ∀ m, InUse g s m → ∀ a < 2, inodeAt g s5.disk m a = inodeAt g s.disk m a := by
    intro m hm a ha
    by_cases hmd : m = d
    · rw [hmd]
      exact hheader a (by omega)
    · rw [hun.inodes m ⟨hm, hmd⟩]
  have htarget : ∀ m, Target g s m → Target g s5 m := fun m hm =>
    hm.keep_mode ((huse5 m).mpr (.inl hm.inUse)) (hmode m hm.inUse)
  have hentries := hold.sameFile hdir.inUse |>.entriesOf
  have hsound : Sound g s5 := by
    refine h.update (X := {d, n}) hadd.intact (hun.mono fun m hm => ⟨hm.1, fun he => hm.2 (.inl he)⟩)
      ((huse5 1).mpr (.inl h.reserved)) ⟨(huse5 2).mpr (.inl h.root.inUse), ?_⟩ (fun m hm hX => ?_)
      (fun e he _ x hx => htarget _ (h.entries e he x hx)) fun e he hed => ?_
    · rw [isDir_congr (hmode 2 h.root.inUse)]
      exact h.root.dir
    · exact ((huse5 m).mp hm).resolve_right fun hmn => hX (.inr hmn)
    rcases he with rfl | rfl
    · refine ⟨hadd.good, fun x hx => ?_⟩
      rcases (hadd.entries x).mp hx with ⟨-, hxn⟩ | ⟨-, hx⟩
      · rw [← some.inj hxn]
        exact ⟨(huse5 n).mpr (.inr rfl), hkind⟩
      · rw [hentries] at hx
        exact htarget _ (h.entries e hdir x hx)
    · exact hnew hed
  refine ⟨hf.ne_zero, habsent, hf.fresh, hsound, huse5, hun, fun a ha => hheader a (by omega), fun x => ?_⟩
  rw [hadd.child x, (hold.sameFile hdir.inUse).child]

lemma Created.rewrite {s6 : Fs} (hc : Created g d c n s s5) (hr : Rewritten g d inode s5 s6)
    (hheader : ∀ a < 26, inode a = inodeAt g s5.disk d a) : Created g d c n s s6 where
  __ := hc
  sound := hr.sound
  inUse m := by rw [hr.inUse, hc.inUse m]
  unchanged := hc.unchanged.trans (hr.unchanged.mono fun m hm => ⟨(hc.inUse m).mpr (.inl hm.1), hm.2⟩)
  header a ha := by rw [hr.inode, slice_inside _ (by omega), zero_add, hheader a (by omega), hc.header a ha]
  child x := by rw [hr.sameFile.child, hc.child x]

lemma goodDir_empty {disk : Mem} (hslots : ∀ k < 12, iBlock (inodeAt g disk n) k = 0) :
    GoodDir g disk n ∧ entriesOf g disk n = [] := by
  have hnil : entriesOf g disk n = [] := by
    rw [entriesOf, dirEntries, List.flatMap_eq_nil_iff]
    intro k hk
    rw [slotEntries, if_pos (hslots k (List.mem_range.mp hk))]
  refine ⟨⟨fun k hk h0 => absurd (hslots k hk) h0, fun j _ k hk _ _ => hslots k hk, ?_⟩, hnil⟩
  rw [hnil]
  exact List.nodup_nil

lemma addDots_spec (hf : Fresh g n inode s s2) (hd : InUse g s d) (hslots : ∀ k, iBlock inode k = 0) :
    (∃ s3, addDots g s2 n d = (false, s3) ∧ Intact g s3 ∧ InUse g s3 = InUse g s2 ∧ Unchanged g (InUse g s) s2 s3) ∨
    ∃ s3, addDots g s2 n d = (true, s3) ∧ Intact g s3 ∧ InUse g s3 = InUse g s2 ∧
      Unchanged g (InUse g s) s2 s3 ∧ GoodDir g s3.disk n ∧
      (∀ e ∈ entriesOf g s3.disk n, e.2 = n ∨ e.2 = d) ∧
      ∀ a < 2, inodeAt g s3.disk n a = inodeAt g s2.disk n a := by
  have hempty : ∀ k < 12, iBlock (inodeAt g s2.disk n) k = 0 := by
    intro k hk
    rw [hf.inode, iBlock_slice (by omega), hslots k]
  obtain ⟨hgood, hnil⟩ := goodDir_empty hempty
  have hnone : ∀ x, child g s2.disk n x = none := by
    intro x
    rw [hgood.child, hnil]
    rfl
  have hwiden : ∀ {s3 : Fs}, InUse g s3 = InUse g s2 → ∀ m, InUse g s m → InUse g s3 m ∧ m ≠ n := by
    intro s3 he m hm
    exact ⟨he ▸ hf.old hm, hf.ne hm⟩
  rcases dirAddEntry_names hf.intact hf.self hgood (show [46].length < 256 by decide) hf.self.lt hf.ne_zero
      (hnone [46]) 2 with ⟨s3, he, h3, huse3, hsame3⟩ | ⟨s3, he, hadd⟩
  · refine .inl ⟨s3, ?_, h3, huse3, hsame3.mono fun m hm => hf.old hm⟩
    simp [addDots, he]
  have hself3 : InUse g s3 n := hadd.inUse ▸ hf.self
  have hfree : child g s3.disk n [46, 46] = none := by rw [hadd.child, if_neg (by decide), hnone]
  have hun3 := hadd.unchanged.mono (Q := InUse g s) fun m hm => hwiden rfl m hm
  rcases dirAddEntry_names hadd.intact hself3 hadd.good (show [46, 46].length < 256 by decide) hd.lt hd.ne_zero
      hfree 2 with ⟨s4, he4, h4, huse4, hsame4⟩ | ⟨s4, he4, hadd4⟩
  · refine .inl ⟨s4, ?_, h4, huse4.trans hadd.inUse, hun3.trans (hsame4.mono fun m hm => ?_)⟩
    · simp [addDots, he, he4]
    · exact (hwiden hadd.inUse m hm).1
  refine .inr ⟨s4, ?_, hadd4.intact, hadd4.inUse.trans hadd.inUse,
    hun3.trans (hadd4.unchanged.mono fun m hm => hwiden hadd.inUse m hm), hadd4.good, fun e hmem => ?_,
    fun a ha => ?_⟩
  · simp [addDots, he, he4]
  · rcases (hadd4.entries e).mp hmem with ⟨-, hed⟩ | ⟨-, hmem⟩
    · exact .inr (some.inj hed).symm
    rcases (hadd.entries e).mp hmem with ⟨-, hen⟩ | ⟨-, hmem⟩
    · exact .inl (some.inj hen).symm
    · rw [hnil] at hmem
      cases hmem
  · rw [hadd4.header a (by omega), hadd.header a (by omega)]

/-- The name `c` of inode `n` was removed from the directory `d`. -/
structure Unlinked (g : Geometry) (d : ℕ) (c : Name) (n : ℕ) (s s' : Fs) : Prop where
  intact : Intact g s'
  inUse : ∀ m, m ≠ n → (InUse g s' m ↔ InUse g s m)
  unchanged : Unchanged g (fun m => InUse g s m ∧ m ≠ d ∧ m ≠ n) s s'
  mode : ∀ m, m = d ∨ m = n → ∀ a < 2, inodeAt g s'.disk m a = inodeAt g s.disk m a
  slots : ∀ k < 12, iBlock (inodeAt g s.disk d) k ≠ 0 → iBlock (inodeAt g s'.disk d) k = iBlock (inodeAt g s.disk d) k
  good : GoodDir g s'.disk d
  entries : ∀ e, e ∈ entriesOf g s'.disk d ↔ e ∈ entriesOf g s.disk d ∧ e.1 ≠ c
  child : ∀ x, child g s'.disk d x = if x = c then none else Ext2.child g s.disk d x
  self : (iLinksCount (inodeAt g s.disk n) ≤ 1 ∧ (InUse g s' n ↔ n < 2) ∧
      ∀ k < 15, iBlock (inodeAt g s'.disk n) k = if k < 13 then 0 else iBlock (inodeAt g s.disk n) k) ∨
    (1 < iLinksCount (inodeAt g s.disk n) ∧ InUse g s' n ∧ SameFile g n s s')

lemma Sound.lookupIno (h : Sound g s) (hp : ∀ x ∈ ps, Component x) :
    ext2LookupIno g s (pathString ps) = ((resolve g s.disk ps).getD 0, s) :=
  ext2LookupIno_pathString h.consistent.inodesFit h.noFault hp

lemma pathSplit_root : pathSplit (pathString []) = none := by decide

section

variable (h : Sound g s) (hps : ∀ x ∈ ps, Component x) (hc : Component c)
  (hd : resolve g s.disk ps = some d)
include h hps hc hd

/-- The first steps of `ext2_create` and `ext2_mkdir`: an existing name is refused. -/
lemma lookups_eq :
    pathSplit (pathString (ps ++ [c])) = some (pathString ps, c) ∧ ext2LookupIno g s (pathString ps) = (d, s) ∧
      ext2LookupIno g s (pathString (ps ++ [c])) = ((child g s.disk d c).getD 0, s) := by
  refine ⟨pathSplit_pathString ps hc, ?_, ?_⟩
  · rw [h.lookupIno hps, hd, getD_some]
  · rw [h.lookupIno (components_concat hps hc), resolve_child hd]

variable (hdir : IsDir g s d)
include hdir

/-- `ext2_create` makes a new empty file, or changes nothing in use. -/
theorem ext2Create_spec (uid gid : ℕ) :
    (∃ s', ext2Create g s (pathString (ps ++ [c])) uid gid = (0, s') ∧ Failed g s s') ∨
    ∃ n s', ext2Create g s (pathString (ps ++ [c])) uid gid = (n, s') ∧ Created g d c n s s' ∧
      inodeAt g s'.disk n = slice (newInode (0x8000 ||| 0o644) uid gid 1) 0 128 := by
  obtain ⟨hsplit, hparent, hpath⟩ := lookups_eq h hps hc hd
  have hd0 := hdir.inUse.ne_zero
  cases hchild : child g s.disk d c with
  | some m =>
    have hm0 := child_ne_zero hchild
    refine .inl ⟨s, ?_, .refl h⟩
    simp [ext2Create, hsplit, hparent, hd0, hpath, hchild, hm0]
  | none =>
    rcases h.toIntact.newInode fun k _ => iBlock_newInode (0x8000 ||| 0o644) uid gid 1 k with
      hz | ⟨n, s1, s2, ha, hw, hf⟩
    · refine .inl ⟨s, ?_, .refl h⟩
      simp [ext2Create, hsplit, hparent, hd0, hpath, hchild, hz]
    have hsame := hf.unchanged.sameFile hdir.inUse
    have hcall : ext2Create g s (pathString (ps ++ [c])) uid gid = (let a := dirAddEntry g s2 d c n 1
        if a.1 then (n, a.2) else (0, freeInode g a.2 n)) := by
      simp only [ext2Create, hsplit, hparent, if_neg hd0, hpath, hchild, getD_none, ne_eq, not_true,
        if_false, ha, hf.ne_zero, hw, if_true]
    rcases dirAddEntry_names hf.intact (hf.old hdir.inUse) (hsame.goodDir (h.dirs d hdir)) hc.lt
        hf.self.lt hf.ne_zero (hsame.child.trans hchild) 1 with ⟨s3, he, h3, huse3, hsame3⟩ | ⟨s3, he, hadd⟩
    · refine .inl ⟨freeInode g s3 n, ?_, ?_⟩
      · simp [hcall, he]
      · exact hf.failed h h3 huse3 (hsame3.mono fun m hm => hf.old hm)
    have hinode : inodeAt g s3.disk n = slice (newInode (0x8000 ||| 0o644) uid gid 1) 0 128 := by
      rw [hadd.unchanged.inodes n ⟨hf.self, (hf.ne hdir.inUse).symm⟩, hf.inode]
    refine .inr ⟨n, s3, ?_, ?_, ?_⟩
    · simp [hcall, he]
    · have hreg : isReg (inodeAt g s3.disk n) = true := by
        rw [hinode, isReg, iMode_newInode (by decide)]
        decide
      refine hadd.created h hdir hchild hf rfl (Unchanged.refl _ _) (.inr hreg) fun hn => ?_
      exact absurd rfl (hn.ne_file (isDir_of_isReg hreg))
    · exact hinode

/-- `ext2_mkdir` makes a new directory, or changes nothing in use. -/
theorem ext2Mkdir_spec (uid gid : ℕ) :
    (∃ s', ext2Mkdir g s (pathString (ps ++ [c])) uid gid = (0, s') ∧ Failed g s s') ∨
    ∃ n s', ext2Mkdir g s (pathString (ps ++ [c])) uid gid = (n, s') ∧ Created g d c n s s' ∧
      isDir (inodeAt g s'.disk n) = true := by
  obtain ⟨hsplit, hparent, hpath⟩ := lookups_eq h hps hc hd
  have hd0 := hdir.inUse.ne_zero
  cases hchild : child g s.disk d c with
  | some m =>
    have hm0 := child_ne_zero hchild
    refine .inl ⟨s, ?_, .refl h⟩
    simp [ext2Mkdir, hsplit, hparent, hd0, hpath, hchild, hm0]
  | none =>
    rcases h.toIntact.newInode fun k _ => iBlock_newInode (0x4000 ||| 0o755) uid gid 2 k with
      hz | ⟨n, s1, s2, ha, hw, hf⟩
    · refine .inl ⟨s, ?_, .refl h⟩
      simp [ext2Mkdir, hsplit, hparent, hd0, hpath, hchild, hz]
    have hstart : ext2Mkdir g s (pathString (ps ++ [c])) uid gid = (let dots := addDots g s2 n d
        if dots.1 then enterDir g dots.2 d c n else (0, freeInode g dots.2 n)) := by
      simp only [ext2Mkdir, hsplit, hparent, if_neg hd0, hpath, hchild, getD_none, ne_eq, not_true,
        if_false, ha, hf.ne_zero, hw, if_true]
    rw [hstart]
    rcases addDots_spec hf hdir.inUse fun k => iBlock_newInode _ _ _ _ k with
      ⟨s3, he3, h3, huse3, hsame3⟩ | ⟨s3, he3, h3, huse3, hsame3, hgood3, hentries3, hmode3⟩
    · refine .inl ⟨freeInode g s3 n, ?_, hf.failed h h3 huse3 hsame3⟩
      simp [he3]
    have hold := hf.unchanged.trans hsame3
    have hsame := hold.sameFile hdir.inUse
    have hself3 : InUse g s3 n := huse3 ▸ hf.self
    have hd3 : InUse g s3 d := huse3 ▸ hf.old hdir.inUse
    rcases dirAddEntry_names h3 hd3 (hsame.goodDir (h.dirs d hdir)) hc.lt hself3.lt hf.ne_zero
        (hsame.child.trans hchild) 2 with ⟨s4, he4, h4, huse4, hsame4⟩ | ⟨s4, he4, hadd⟩
    · refine .inl ⟨freeInode g s4 n, ?_, hf.failed h h4 (huse4.trans huse3) (hsame3.trans (hsame4.mono fun m hm => ?_))⟩
      · simp [he3, enterDir, he4]
      · exact huse3 ▸ hf.old hm
    -- the new directory is not touched any more
    have hn4 : inodeAt g s4.disk n = inodeAt g s3.disk n ∧ SameFile g n s3 s4 :=
      ⟨hadd.unchanged.inodes n ⟨hself3, (hf.ne hdir.inUse).symm⟩,
        hadd.unchanged.sameFile ⟨hself3, (hf.ne hdir.inUse).symm⟩⟩
    have hkind : isDir (inodeAt g s4.disk n) = true := by
      rw [hn4.1, isDir_congr hmode3, hf.inode, isDir, iMode_newInode (by decide)]
      decide
    have hmode : ∀ a < 2, inodeAt g s4.disk d a = inodeAt g s.disk d a := by
      intro a ha
      rw [hadd.header a (by omega), hold.inodes d hdir.inUse]
    have hcreated : Created g d c n s s4 := by
      refine hadd.created h hdir hchild hf huse3 hsame3 (.inl hkind) fun _ =>
        ⟨hn4.2.goodDir hgood3, fun e he => ?_⟩
      rw [hn4.2.entriesOf] at he
      rcases hentries3 e he with hen | hed
      · rw [hen]
        exact ⟨hadd.inUse ▸ hself3, .inl hkind⟩
      rw [hed]
      refine ⟨hadd.inUse ▸ hd3, .inl ?_⟩
      rw [isDir_congr hmode]
      exact hdir.dir
    have hout : ∀ a < 26, setILinksCount (inodeAt g s4.disk d) (iLinksCount (inodeAt g s4.disk d) + 1) a =
        inodeAt g s4.disk d a := fun a ha => writeLE_outside _ (by omega)
    obtain ⟨s5, hw5, hr⟩ := hcreated.sound.rewriteInode (hadd.inUse ▸ hd3)
      (fun k _ => iBlock_setILinksCount (inodeAt g s4.disk d) _ k)
      (isDir_congr fun a ha => hout a (by omega)) (isReg_congr fun a ha => hout a (by omega))
    refine .inr ⟨n, s5, ?_, hcreated.rewrite hr hout, ?_⟩
    · simp [he3, enterDir, he4, readInode_eq h.consistent.inodesFit hadd.intact.noFault hd0, hw5]
    · rw [hr.unchanged.inodes n ⟨hadd.inUse ▸ hself3, (hf.ne hdir.inUse).symm⟩]
      exact hkind

lemma ext2Unlink_eq (hn : child g s.disk d c = some n) :
    ext2Unlink g s (pathString (ps ++ [c])) = dirRemoveEntry g (dropLink g s n (inodeAt g s.disk n)) d c := by
  obtain ⟨hsplit, hparent, hpath⟩ := lookups_eq h hps hc hd
  have hn0 := child_ne_zero hn
  simp [ext2Unlink, hsplit, hparent, hpath, hn, hdir.inUse.ne_zero, hn0, h.readInode_eq hn0]

/-- `ext2_unlink` removes the name and drops a link. -/
theorem ext2Unlink_spec (hn : child g s.disk d c = some n) (hnd : n ≠ d) :
    ∃ s', ext2Unlink g s (pathString (ps ++ [c])) = (true, s') ∧ Unlinked g d c n s s' := by
  have hu := (h.target hdir hn).inUse
  rw [ext2Unlink_eq h hps hc hd hdir hn]
  have hdrop := dropLink_spec h.toIntact hu
  generalize dropLink g s n (inodeAt g s.disk n) = s1 at hdrop ⊢
  have hsame := hdrop.unchanged.sameFile ⟨hdir.inUse, hnd.symm⟩
  have hd1 : InUse g s1 d := (hdrop.inUse d hnd.symm).mpr hdir.inUse
  rcases dirRemoveEntry_names hdrop.intact hd1 (hsame.goodDir (h.dirs d hdir)) hc.lt with
    ⟨hnone, -⟩ | ⟨i, s', -, he, hrem⟩
  · rw [hsame.child, hn] at hnone
    cases hnone
  have hn1 : inodeAt g s'.disk n = inodeAt g s1.disk n :=
    hrem.inodes n hu.ne_zero (hdrop.inodesCount ▸ hu.le) hnd
  refine ⟨s', he, hrem.intact, fun m hm => ?_, ?_, fun m hm a ha => ?_, ?_, hrem.good, fun e => ?_, fun x => ?_, ?_⟩
  · rw [hrem.inUse, hdrop.inUse m hm]
  · refine (hdrop.unchanged.mono fun m hm => ⟨hm.1, hm.2.2⟩).trans (hrem.unchanged.mono fun m hm => ⟨?_, hm.2.1⟩)
    exact (hdrop.inUse m hm.2.2).mpr hm.1
  · rcases hm with rfl | rfl
    · rw [hrem.header a (by omega), hdrop.unchanged.inodes m ⟨hdir.inUse, hnd.symm⟩]
    · rw [hn1, hdrop.mode a ha]
  · intro k hk h0
    have hkeep := hsame.slots k (by omega)
    rw [← hkeep] at h0 ⊢
    exact hrem.slots k hk h0
  · rw [hrem.entries e, hsame.entriesOf, and_comm (a := e.1 ≠ c)]
    exact or_iff_right fun hc => by cases hc.2
  · rw [hrem.child x, hsame.child]
  rcases hdrop.self with ⟨hlinks, huse, hslots⟩ | ⟨hlinks, huse, hfile⟩
  · refine .inl ⟨hlinks, ?_, fun k hk => ?_⟩
    · rw [hrem.inUse, huse]
    · rw [hn1, hslots k hk]
  · refine .inr ⟨hlinks, hrem.inUse ▸ huse, ?_⟩
    exact hfile.trans (hrem.unchanged.sameFile ⟨huse, hnd⟩)

end

lemma Unlinked.child_self (h : Unlinked g d c n s s') (x : Name) :
    Ext2.child g s'.disk n x = none ∨ Ext2.child g s'.disk n x = Ext2.child g s.disk n x := by
  rcases h.self with ⟨-, -, hslots⟩ | ⟨-, -, hsame⟩
  · left
    rw [Ext2.child, searchSlots, if_pos ((hslots 0 (by omega)).trans (if_pos (by omega)))]
  · exact .inr hsame.child

/-- The link count of `n` is right if it says that the name `c` in `d` is the last one only
when it is. -/
def LastLink (g : Geometry) (s : Fs) (d : ℕ) (c : Name) (n : ℕ) : Prop :=
  iLinksCount (inodeAt g s.disk n) ≤ 1 → n ≠ 2 ∧ ∀ e, IsDir g s e → e ≠ n → ∀ x ∈ entriesOf g s.disk e,
    x.2 = n → e = d ∧ x.1 = c

/-- Where the link count is right, the filesystem stays sound. -/
theorem Unlinked.sound (hu : Unlinked g d c n s s') (h : Sound g s) (hdir : IsDir g s d) (hn : InUse g s n)
    (hnd : n ≠ d) (hlast : LastLink g s d c n) : Sound g s' := by
  have hmode : ∀ m, InUse g s m → ∀ a < 2, inodeAt g s'.disk m a = inodeAt g s.disk m a := by
    intro m hm a ha
    by_cases hmd : m = d ∨ m = n
    · exact hu.mode m hmd a ha
    · rw [hu.unchanged.inodes m ⟨hm, not_or.mp hmd⟩]
  -- only the inode itself may go out of use, and then nobody else refers to it
  have htarget : ∀ e, IsDir g s e → e ≠ n → ∀ x ∈ entriesOf g s.disk e, ¬(e = d ∧ x.1 = c) → Target g s' x.2 := by
    intro e he hen x hx hne
    have htgt := h.entries e he x hx
    refine htgt.keep_mode ?_ (hmode x.2 htgt.inUse)
    by_cases hxn : x.2 = n
    · rcases hu.self with ⟨hlinks, -, -⟩ | ⟨-, huse, -⟩
      · exact absurd ((hlast hlinks).2 e he hen x hx hxn) hne
      · rw [hxn]
        exact huse
    · exact (hu.inUse x.2 hxn).mpr htgt.inUse
  have hres : InUse g s' 1 := by
    by_cases h1 : 1 = n
    · subst h1
      rcases hu.self with ⟨-, huse, -⟩ | ⟨-, huse, -⟩
      · exact huse.mpr (by decide)
      · exact huse
    · exact (hu.inUse 1 h1).mpr h.reserved
  have hroot : InUse g s' 2 := by
    by_cases h2 : 2 = n
    · subst h2
      rcases hu.self with ⟨hlinks, -, -⟩ | ⟨-, huse, -⟩
      · exact absurd rfl (hlast hlinks).1
      · exact huse
    · exact (hu.inUse 2 h2).mpr h.root.inUse
  refine h.update (X := {d, n}) hu.intact (hu.unchanged.mono fun m hm => ⟨hm.1, not_or.mp hm.2⟩) hres
    ⟨hroot, ?_⟩ (fun m hm hX => (hu.inUse m fun hmn => hX (.inr hmn)).mp hm) (fun e he hX x hx => ?_)
    fun e he hed => ?_
  · rw [isDir_congr (hmode 2 h.root.inUse)]
    exact h.root.dir
  · obtain ⟨hed, hen⟩ := not_or.mp hX
    exact htarget e he hen x hx fun hc => hed hc.1
  rcases he with rfl | rfl
  · refine ⟨hu.good, fun x hx => ?_⟩
    obtain ⟨hx, hxc⟩ := (hu.entries x).mp hx
    exact htarget e hdir hnd.symm x hx fun hc => hxc hc.2
  rcases hu.self with ⟨-, -, hslots⟩ | ⟨hlinks, huse, hsame⟩
  · obtain ⟨hgood, hnil⟩ := goodDir_empty fun k hk => (hslots k (by omega)).trans (if_pos (by omega))
    refine ⟨hgood, fun x hx => ?_⟩
    rw [hnil] at hx
    cases hx
  have hdir' : IsDir g s e := ⟨hn, by rw [← isDir_congr (hmode e hn)]; exact hed.dir⟩
  refine ⟨hsame.goodDir (h.dirs e hdir'), fun x hx => ?_⟩
  rw [hsame.entriesOf] at hx
  have htgt := h.entries e hdir' x hx
  refine htgt.keep_mode ?_ (hmode x.2 htgt.inUse)
  by_cases hxe : x.2 = e
  · rw [hxe]
    exact huse
  · exact (hu.inUse x.2 hxe).mpr htgt.inUse

end

end AetherOS.Ext2
