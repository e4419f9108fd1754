import AetherOS.Ext2Renames

/-!
# What the calls leave behind

Whatever the calls of the filesystem do, it stays sound, provided that every name of their
paths is searched in a directory and that the links of a file which is removed are counted
right. For each call it is said which inode it takes and which it may give back.
-/
namespace AetherOS.Ext2
open ByteMemory ByteBitmap PointerTree List Option Nat

section

variable (g : Geometry)

/-- Every name of the path is searched in a directory. -/
def DirsOnly (s : Fs) (p : List Name) : Prop :=
  ∀ q c d, q ++ [c] <+: p → resolve g s.disk q = some d → isDir (inodeAt g s.disk d) = true

/-- The links of the inode at the path are counted right, and it is not its own parent. -/
def Removable (s : Fs) (p : List Name) : Prop :=
  ∀ ps c d n, p = ps ++ [c] → resolve g s.disk ps = some d → child g s.disk d c = some n →
    n ≠ d ∧ LastLink g s d c n

/-- Inode `n` was taken, or none if `n` is 0, and a directory may have changed. -/
structure Makes (n : ℕ) (s s' : Fs) : Prop where
  sound : Sound g s'
  fresh : ¬InUse g s n
  inUse : ∀ m, InUse g s' m ↔ InUse g s m ∨ n ≠ 0 ∧ m = n
  files : Unchanged g (fun m => InUse g s m ∧ isDir (inodeAt g s.disk m) = false) s s'

/-- No inode was taken, and none was given back apart from those in `X`. -/
structure Drops (X : ℕ → Prop) (s s' : Fs) : Prop where
  sound : Sound g s'
  old : ∀ m, InUse g s' m → InUse g s m
  kept : ∀ m, InUse g s m → ¬X m → InUse g s' m

end

section

variable {g : Geometry} {s s' : Fs} {d n : ℕ} {p ps : List Name} {c : Name}

lemma DirsOnly.init (hp : DirsOnly g s (p ++ [c])) : DirsOnly g s p :=
  fun q x d hq => hp q x d (hq.trans (prefix_append p [c]))

lemma DirsOnly.target (hp : DirsOnly g s p) (h : Sound g s) (hn : resolve g s.disk p = some n) : Target g s n := by
  induction p using List.reverseRecOn generalizing n with
  | nil =>
    obtain rfl : 2 = n := some.inj hn
    exact ⟨h.root.inUse, .inl h.root.dir⟩
  | append_singleton p c ih =>
    rw [resolve_concat] at hn
    obtain ⟨d, hd, hc⟩ := bind_eq_some_iff.mp hn
    exact h.target ⟨(ih hp.init hd).inUse, hp p c d (prefix_refl _) hd⟩ hc

lemma DirsOnly.parent (hp : DirsOnly g s (ps ++ [c])) (h : Sound g s) (hd : resolve g s.disk ps = some d) :
    IsDir g s d :=
  ⟨(hp.init.target h hd).inUse, hp ps c d (prefix_refl _) hd⟩

lemma Drops.refl (h : Sound g s) (X : ℕ → Prop) : Drops g X s s := ⟨h, fun _ hm => hm, fun _ hm _ => hm⟩

lemma Drops.of_inUse {X : ℕ → Prop} (h : Sound g s') (hu : InUse g s' = InUse g s) : Drops g X s s' :=
  ⟨h, fun _ hm => hu ▸ hm, fun _ hm _ => hu ▸ hm⟩

lemma not_inUse_zero : ¬InUse g s 0 := fun h => h.ne_zero rfl

lemma Failed.makes (h : Failed g s s') : Makes g 0 s s' :=
  ⟨h.sound, not_inUse_zero, fun m => by rw [h.inUse]; simp, h.unchanged.mono fun _ hm => hm.1⟩

lemma Created.makes (h : Created g d c n s s') (hdir : IsDir g s d) : Makes g n s s' := by
  refine ⟨h.sound, h.fresh, fun m => by rw [h.inUse m]; simp [h.ne_zero], h.unchanged.mono fun m hm => ⟨hm.1, ?_⟩⟩
  exact (hdir.ne_file hm.2).symm

end

/-! ## Modes and owners -/

def setIMode (inode : Mem) (v : ℕ) : Mem := writeLE inode 2 0 v
def setIUid (inode : Mem) (v : ℕ) : Mem := writeLE inode 2 2 v
def setIGid (inode : Mem) (v : ℕ) : Mem := writeLE inode 2 24 v

section

variable (g : Geometry)

def ext2Chmod (s : Fs) (path : Path) (mode : ℕ) : Bool × Fs :=
  let ino := ext2LookupIno g s path
  if ino.1 = 0 then (false, ino.2)
  else
    match readInode g ino.2 ino.1 with
    | (none, s) => (false, s)
    | (some inode, s) => writeInode g s ino.1 (setIMode inode ((iMode inode &&& 0xf000) ||| (mode &&& 0xfff)))

def ext2InodeChown (s : Fs) (ino uid gid : ℕ) : Bool × Fs :=
  match readInode g s ino with
  | (none, s) => (false, s)
  | (some inode, s) => writeInode g s ino (setIGid (setIUid inode uid) gid)

end

section

variable {g : Geometry} {s : Fs} {n : ℕ} {p : List Name} {inode : Mem}

lemma iBlock_setIMode (v k : ℕ) : iBlock (setIMode inode v) k = iBlock inode k :=
  readLE_outside _ (by omega)

lemma iBlock_setOwner (uid gid k : ℕ) : iBlock (setIGid (setIUid inode uid) gid) k = iBlock inode k := by
  rw [setIGid, iBlock, readLE_outside _ (by omega), setIUid, readLE_outside _ (by omega)]
  rfl

lemma iMode_setOwner (inode : Mem) (uid gid : ℕ) : iMode (setIGid (setIUid inode uid) gid) = iMode inode := by
  rw [setIGid, iMode, readLE_outside _ (by omega), setIUid, readLE_outside _ (by omega)]
  rfl

lemma type_chmod (inode : Mem) (mode : ℕ) :
    iMode (setIMode inode ((iMode inode &&& 0xf000) ||| (mode &&& 0xfff))) &&& 0xF000 = iMode inode &&& 0xF000 := by
  have hlt : (iMode inode &&& 0xf000) ||| (mode &&& 0xfff) < 2 ^ 16 :=
    or_lt_two_pow (lt_of_le_of_lt Nat.and_le_right (by decide))
      (lt_of_le_of_lt Nat.and_le_right (by decide))
  have hread : iMode (setIMode inode ((iMode inode &&& 0xf000) ||| (mode &&& 0xfff))) =
      (iMode inode &&& 0xf000) ||| (mode &&& 0xfff) := by
    rw [iMode, setIMode, readLE_writeLE_same]
    exact mod_eq_of_lt hlt
  have hmask : (0xfff : ℕ) &&& 0xF000 = 0 := by decide
  rw [hread, and_or_distrib_right, Nat.and_assoc, Nat.and_self, Nat.and_assoc, hmask, and_zero, or_zero]

theorem ext2Chmod_drops (h : Sound g s) (hp : ∀ x ∈ p, Component x) (hdirs : DirsOnly g s p) (mode : ℕ) :
    Drops g (fun _ => False) s (ext2Chmod g s (pathString p) mode).2 := by
  cases hn : resolve g s.disk p with
  | none =>
    simp only [ext2Chmod, h.lookupIno hp, hn, getD_none, if_true]
    exact .refl h _
  | some n =>
    have hu := (hdirs.target h hn).inUse
    have htype := type_chmod (inodeAt g s.disk n) mode
    obtain ⟨s', hw, hr⟩ := h.rewriteInode hu (fun k _ => iBlock_setIMode _ k) (congrArg (decide <| · = 0x4000) htype)
      (congrArg (decide <| · = 0x8000) htype)
    simp only [ext2Chmod, h.lookupIno hp, hn, getD_some, hu.ne_zero, if_false,
      h.readInode_eq hu.ne_zero, hw]
    exact Drops.of_inUse hr.sound hr.inUse

theorem ext2InodeChown_drops (h : Sound g s) (hu : InUse g s n) (uid gid : ℕ) :
    Drops g (fun _ => False) s (ext2InodeChown g s n uid gid).2 := by
  have hmode := iMode_setOwner (inodeAt g s.disk n) uid gid
  obtain ⟨s', hw, hr⟩ := h.rewriteInode hu (fun k _ => iBlock_setOwner uid gid k)
    (congrArg (fun m => decide (m &&& 0xF000 = 0x4000)) hmode)
    (congrArg (fun m => decide (m &&& 0xF000 = 0x8000)) hmode)
  simp only [ext2InodeChown, h.readInode_eq hu.ne_zero, hw]
  exact Drops.of_inUse hr.sound hr.inUse

end

section

variable {g : Geometry} {s : Fs} {n : ℕ}

lemma ext2Read_state (h : Sound g s) (hu : n ≠ 0) (off size : ℕ) : (ext2Read g s n off size).2 = s := by
  rw [ext2Read_takes h.consistent.inodesFit h.noFault hu]

lemma ext2FileSize_state (h : Sound g s) (hu : n ≠ 0) : (ext2FileSize g s n).2 = s := by
  rw [ext2FileSize, h.readInode_eq hu]

end

section

variable {g : Geometry} {s : Fs} {p : List Name} (h : Sound g s) (hp : ∀ x ∈ p, Component x) (hdirs : DirsOnly g s p)
include h hp hdirs

/-- A call that makes an inode does nothing without a parent, and does its work in a directory. -/
lemma makes_of_parent {f : Path → ℕ × Fs} {Q : ℕ → Fs → Prop} (hroot : f (pathString []) = (0, s))
    (hnone : ∀ ps c, (∀ x ∈ ps, Component x) → Component c → resolve g s.disk ps = none →
      f (pathString (ps ++ [c])) = (0, s))
    (hsome : ∀ ps c d, (∀ x ∈ ps, Component x) → Component c → resolve g s.disk ps = some d → IsDir g s d →
      (∃ s', f (pathString (ps ++ [c])) = (0, s') ∧ Failed g s s') ∨
      ∃ n s', f (pathString (ps ++ [c])) = (n, s') ∧ Created g d c n s s' ∧ Q n s') :
    ∃ n s', f (pathString p) = (n, s') ∧ Makes g n s s' ∧ (n = 0 → Failed g s s') := by
  have hsame : Makes g 0 s s ∧ (0 = 0 → Failed g s s) := ⟨(Failed.refl h).makes, fun _ => .refl h⟩
  rcases eq_nil_or_concat' p with rfl | ⟨ps, c, rfl⟩
  · exact ⟨0, s, hroot, hsame⟩
  have hps : ∀ x ∈ ps, Component x := fun x hx => hp x (mem_append_left _ hx)
  have hc : Component c := hp c (by simp)
  cases hd : resolve g s.disk ps with
  | none => exact ⟨0, s, hnone ps c hps hc hd, hsame⟩
  | some d =>
    rcases hsome ps c d hps hc hd (hdirs.parent h hd) with ⟨s', he, hf⟩ | ⟨n, s', he, hmade, -⟩
    · exact ⟨0, s', he, hf.makes, fun _ => hf⟩
    · exact ⟨n, s', he, hmade.makes (hdirs.parent h hd), fun h0 => absurd h0 hmade.ne_zero⟩

theorem ext2Create_makes (uid gid : ℕ) :
    ∃ n s', ext2Create g s (pathString p) uid gid = (n, s') ∧ Makes g n s s' ∧ (n = 0 → Failed g s s') := by
  refine makes_of_parent (f := fun p => ext2Create g s p uid gid) h hp hdirs ?_ ?_ fun ps c d hps hc hd hdir =>
    ext2Create_spec h hps hc hd hdir uid gid
  · simp only [ext2Create, pathSplit_root]
  · intro ps c hps hc hd
    simp [ext2Create, pathSplit_pathString ps hc, h.lookupIno hps, hd]

theorem ext2Mkdir_makes (uid gid : ℕ) :
    ∃ n s', ext2Mkdir g s (pathString p) uid gid = (n, s') ∧ Makes g n s s' ∧ (n = 0 → Failed g s s') := by
  refine makes_of_parent (f := fun p => ext2Mkdir g s p uid gid) h hp hdirs ?_ ?_ fun ps c d hps hc hd hdir =>
    ext2Mkdir_spec h hps hc hd hdir uid gid
  · simp only [ext2Mkdir, pathSplit_root]
  · intro ps c hps hc hd
    simp [ext2Mkdir, pathSplit_pathString ps hc, h.lookupIno hps, hd]

end

variable {g : Geometry} {s s1 s' : Fs} {d d1 d2 n : ℕ} {p old new : List Name} {c c1 c2 : Name}

/-- The inode has one link left at most. -/
def LastOne (g : Geometry) (s : Fs) (n : ℕ) : Prop := iLinksCount (inodeAt g s.disk n) ≤ 1

lemma Unlinked.drops (hu : Unlinked g d c n s s') (h : Sound g s) (hdir : IsDir g s d)
    (hn : Ext2.child g s.disk d c = some n) (hnd : n ≠ d) (hlast : LastLink g s d c n) :
    Drops g (fun m => m = n ∧ LastOne g s m) s s' := by
  have huse := (h.target hdir hn).inUse
  refine ⟨hu.sound h hdir huse hnd hlast, fun m hm => ?_, fun m hm hX => ?_⟩
  · by_cases hmn : m = n
    · rw [hmn]
      exact huse
    · exact (hu.inUse m hmn).mp hm
  by_cases hmn : m = n
  · subst hmn
    rcases hu.self with ⟨hlinks, -, -⟩ | ⟨-, hself, -⟩
    · exact absurd ⟨rfl, hlinks⟩ hX
    · exact hself
  · exact (hu.inUse m hmn).mpr hm

theorem ext2Unlink_drops (h : Sound g s) (hp : ∀ x ∈ p, Component x) (hdirs : DirsOnly g s p) (hr : Removable g s p) :
    Drops g (fun m => resolve g s.disk p = some m ∧ LastOne g s m) s (ext2Unlink g s (pathString p)).2 := by
  rcases eq_nil_or_concat' p with rfl | ⟨ps, c, rfl⟩
  · simp only [ext2Unlink, pathSplit_root]
    exact .refl h _
  have hps : ∀ x ∈ ps, Component x := fun x hx => hp x (mem_append_left _ hx)
  have hc : Component c := hp c (by simp)
  cases hn : resolve g s.disk (ps ++ [c]) with
  | none =>
    simp only [ext2Unlink, pathSplit_pathString ps hc, h.lookupIno hps, h.lookupIno hp, hn, getD_none,
      or_true, if_true]
    exact .refl h _
  | some n =>
    obtain ⟨d, hd, hn⟩ := bind_eq_some_iff.mp ((resolve_concat s.disk ps c).symm.trans hn)
    have hdir := hdirs.parent h hd
    obtain ⟨hnd, hlast⟩ := hr ps c d n rfl hd hn
    obtain ⟨s', he, hu⟩ := ext2Unlink_spec h hps hc hd hdir hn hnd
    have hdrops := hu.drops h hdir hn hnd hlast
    rw [he]
    exact ⟨hdrops.sound, hdrops.old, fun m hm hX => hdrops.kept m hm fun hc => hX ⟨by rw [hc.1], hc.2⟩⟩

/-- A move keeps the filesystem sound. -/
theorem Moved.sound (hm : Moved g d1 c1 d2 c2 n s s') (h : Sound g s) (hdir2 : IsDir g s d2) (hn : Target g s n) :
    Sound g s' := by
  have htarget : ∀ m, Target g s m → Target g s' m := fun m ht =>
    ht.keep_mode (hm.inUse ▸ ht.inUse) (hm.mode m ht.inUse)
  have hdirs : ∀ m, IsDir g s' m → IsDir g s m := by
    intro m hd
    have hu : InUse g s m := hm.inUse ▸ hd.inUse
    refine ⟨hu, ?_⟩
    rw [← isDir_congr (hm.mode m hu)]
    exact hd.dir
  refine ⟨hm.intact, hm.inUse ▸ h.reserved, ⟨hm.inUse ▸ h.root.inUse, ?_⟩, fun m hd => ?_, fun m hd e he => ?_⟩
  · rw [isDir_congr (hm.mode 2 h.root.inUse)]
    exact h.root.dir
  · exact hm.good m (hdirs m hd).inUse (h.dirs m (hdirs m hd))
  apply htarget
  rcases hm.entries m (hdirs m hd).inUse e he with he | he | he
  · exact h.entries m (hdirs m hd) e he
  · rw [he]
    exact hn
  · rw [he]
    exact ⟨hdir2.inUse, .inl hdir2.dir⟩

lemma ext2Rename_stuck (h : Sound g s) (hold : ∀ x ∈ old, Component x) (hnew : ∀ x ∈ new, Component x)
    (hno : ∀ ps c1 qs c2 d1 d2, old = ps ++ [c1] → new = qs ++ [c2] → resolve g s.disk ps = some d1 →
      resolve g s.disk qs ≠ some d2) : (ext2Rename g s (pathString old) (pathString new)).2 = s := by
  simp only [ext2Rename, h.lookupIno hold, h.lookupIno hnew]
  split_ifs
  · rfl
  · rfl
  rcases eq_nil_or_concat' old with rfl | ⟨ps, c1, hps⟩
  · rw [pathSplit_root]
  rcases eq_nil_or_concat' new with rfl | ⟨qs, c2, hqs⟩
  · rw [pathSplit_root]
    split
    next hc => cases hc
    · rfl
  subst hps hqs
  rw [pathSplit_pathString ps (hold c1 (by simp)), pathSplit_pathString qs (hnew c2 (by simp))]
  simp only [h.lookupIno fun x hx => hold x (mem_append_left _ hx),
    h.lookupIno fun x hx => hnew x (mem_append_left _ hx)]
  cases hd1 : resolve g s.disk ps with
  | none => simp
  | some d1 =>
    cases hd2 : resolve g s.disk qs with
    | none => simp
    | some d2 => exact absurd hd2 (hno ps c1 qs c2 d1 d2 rfl rfl hd1)

lemma Cleared.mode (hc : Cleared g d c n s s1) {m : ℕ} (hu : InUse g s m) {a : ℕ} (ha : a < 2) :
    inodeAt g s1.disk m a = inodeAt g s.disk m a := by
  rcases hc with ⟨-, rfl⟩ | ⟨n', -, -, -, hun⟩
  · rfl
  · exact hun.mode_of hu ha

lemma Cleared.drops (hc : Cleared g d c n s s1) (h : Sound g s) (hdir : IsDir g s d)
    (hlast : ∀ n', child g s.disk d c = some n' → LastLink g s d c n') :
    Drops g (fun m => child g s.disk d c = some m ∧ m ≠ n ∧ LastOne g s m) s s1 := by
  rcases hc with ⟨-, rfl⟩ | ⟨n', hn', hne, hfile, hun⟩
  · exact .refl h _
  have hdrops := hun.drops h hdir hn' (hdir.ne_file hfile).symm (hlast n' hn')
  refine ⟨hdrops.sound, hdrops.old, fun m hm hX => hdrops.kept m hm fun hc => hX ⟨?_, ?_, hc.2⟩⟩
  · rw [hn', hc.1]
  · rw [hc.1]
    exact hne

theorem ext2Rename_drops (h : Sound g s) (hold : ∀ x ∈ old, Component x) (hnew : ∀ x ∈ new, Component x)
    (hdirs1 : DirsOnly g s old) (hdirs2 : DirsOnly g s new) (hr : Removable g s new) :
    Drops g (fun m => resolve g s.disk new = some m ∧ resolve g s.disk old ≠ some m ∧ LastOne g s m) s
      (ext2Rename g s (pathString old) (pathString new)).2 := by
  by_cases hno : ∃ ps c1 qs c2 d1 d2, old = ps ++ [c1] ∧ new = qs ++ [c2] ∧ resolve g s.disk ps = some d1 ∧
      resolve g s.disk qs = some d2
  · obtain ⟨ps, c1, qs, c2, d1, d2, rfl, rfl, hd1, hd2⟩ := hno
    have hdir1 := hdirs1.parent h hd1
    have hdir2 := hdirs2.parent h hd2
    have hspec := ext2Rename_spec h (fun x hx => hold x (mem_append_left _ hx)) (hold c1 (by simp))
      (fun x hx => hnew x (mem_append_left _ hx)) (hnew c2 (by simp)) hd1 hdir1 hd2 hdir2
    generalize ext2Rename g s (pathString (ps ++ [c1])) (pathString (qs ++ [c2])) = r at hspec ⊢
    rw [resolve_child hd1, resolve_child hd2]
    have hlast : ∀ n', child g s.disk d2 c2 = some n' → LastLink g s d2 c2 n' :=
      fun n' hn' => (hr qs c2 d2 n' rfl hd2 hn').2
    -- what is lost when the destination is cleared away is lost
    have hcleared : ∀ {n s1}, child g s.disk d1 c1 = some n → Cleared g d2 c2 n s s1 → Drops g
        (fun m => child g s.disk d2 c2 = some m ∧ child g s.disk d1 c1 ≠ some m ∧ LastOne g s m) s s1 := by
      intro n s1 hn hc
      have hdrops := hc.drops h hdir2 hlast
      refine ⟨hdrops.sound, hdrops.old, fun m hm hX => hdrops.kept m hm fun ⟨hm2, hmn, hone⟩ => hX ⟨hm2, ?_, hone⟩⟩
      rw [hn]
      exact fun he => hmn (some.inj he).symm
    cases hspec with
    | missing hn | same hn hsame | refused hn hn' hne hd' => exact .refl h _
    | failed hn hc hi huse hsame =>
      have hdrops := hcleared hn hc
      have hf := Failed.of_intact hdrops.sound hi huse hsame
      exact ⟨hf.sound, fun m hm => hdrops.old m (huse ▸ hm), fun m hm hX => huse ▸ hdrops.kept m hm hX⟩
    | moved hn hc hm =>
      rename_i n s1 s2
      have hdrops := hcleared hn hc
      have hsrc := h.target hdir1 hn
      have hn1 : Target g s1 n := by
        refine hsrc.keep_mode (hdrops.kept n hsrc.inUse fun hX => hX.2.1 hn) fun a ha => hc.mode hsrc.inUse ha
      have hd1 : IsDir g s1 d2 := by
        refine ⟨hdrops.kept d2 hdir2.inUse fun hX => ?_, ?_⟩
        · exact (hr qs c2 d2 d2 rfl hd2 hX.1).1 rfl
        · rw [isDir_congr fun a ha => hc.mode hdir2.inUse ha]
          exact hdir2.dir
      refine ⟨hm.sound hdrops.sound hd1 hn1, fun m hu => hdrops.old m (hm.inUse ▸ hu), fun m hu hX => ?_⟩
      exact hm.inUse ▸ hdrops.kept m hu hX
  · rw [ext2Rename_stuck h hold hnew fun ps c1 qs c2 d1 d2 ho hn hd1 hd2 =>
      hno ⟨ps, c1, qs, c2, d1, d2, ho, hn, hd1, hd2⟩]
    exact .refl h _

end AetherOS.Ext2
