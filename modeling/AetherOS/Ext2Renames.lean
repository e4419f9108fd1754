import AetherOS.Ext2Namespace

/-!
# Renaming

`ext2_rename` removes a file at the destination, adds the new entry, removes the old one, and
sets the entry ".." of a directory that has got another parent. What it does to the
directories is put together from what the steps do to their entries.
-/
namespace AetherOS.Ext2
open ByteMemory ByteBitmap PointerTree Function Option

section

variable {g : Geometry} {s s' : Fs} {d n m target : ℕ} {name c : Name} {r : Option ℕ} {inode : Mem}

section

variable (h : Edited g d s s') (hu : InUse g s m)
include h hu

lemma Edited.goodDir (hm : GoodDir g s.disk m) : GoodDir g s'.disk m := by
  by_cases hmd : m = d
  · rw [hmd]
    exact h.good
  · exact (h.unchanged.sameFile ⟨hu, hmd⟩).goodDir hm

lemma Edited.mode {a : ℕ} (ha : a < 2) : inodeAt g s'.disk m a = inodeAt g s.disk m a := by
  by_cases hmd : m = d
  · rw [hmd]
    exact h.header a (by omega)
  · rw [h.unchanged.inodes m ⟨hu, hmd⟩]

lemma Edited.slots_of {k : ℕ} (hk : k < 12)
    (h0 : iBlock (inodeAt g s.disk m) k ≠ 0) : iBlock (inodeAt g s'.disk m) k = iBlock (inodeAt g s.disk m) k := by
  by_cases hmd : m = d
  · subst hmd
    exact h.slots k hk h0
  · rw [h.unchanged.inodes m ⟨hu, hmd⟩]

end

lemma Rebound.child_of (h : Rebound g d name r s s') (hu : InUse g s m) (c : Name) :
    Ext2.child g s'.disk m c = if m = d ∧ c = name then r else Ext2.child g s.disk m c := by
  by_cases hmd : m = d
  · subst hmd
    rw [h.child c]
    simp
  · rw [if_neg fun hc => hmd hc.1]
    exact (h.unchanged.sameFile ⟨hu, hmd⟩).child

lemma Rebound.entries_of (h : Rebound g d name r s s') (hu : InUse g s m) {e : Name × ℕ}
    (he : e ∈ entriesOf g s'.disk m) : e ∈ entriesOf g s.disk m ∨ r = some e.2 := by
  by_cases hmd : m = d
  · subst hmd
    rcases (h.entries e).mp he with ⟨-, hr⟩ | ⟨-, hm⟩
    · exact .inr hr
    · exact .inl hm
  · rw [(h.unchanged.sameFile ⟨hu, hmd⟩).entriesOf] at he
    exact .inl he

lemma fixDotDot_eq (s : Fs) (inode : Mem) (target m b : ℕ) : fixDotDot g s inode target m b =
    (editLoop g (retargetInBlock · g.blockSize [46, 46] target 0) s inode m b).2 := by
  induction m generalizing s b with
  | zero => rfl
  | succ m ih =>
    simp only [fixDotDot, editLoop, ih]
    by_cases h0 : iBlock inode b = 0
    · rw [if_pos h0, if_pos h0]
    rw [if_neg h0, if_neg h0]
    rcases readBlock g s (iBlock inode b) with ⟨_ | blk, s1⟩
    · rfl
    dsimp only
    cases retargetInBlock blk g.blockSize [46, 46] target 0 with
    | none | some blk' => rfl

/-- One slot of a directory binds a name to another inode: so does the directory. -/
lemma binds_dirEntries {disk disk' inode' : Mem} {k i : ℕ} {l1 l2 : List (Name × ℕ)} (hk : k < 12)
    (hf : ∀ j < 12, j ≠ k → slotEntries g disk' inode' j = slotEntries g disk inode j)
    (h : slotEntries g disk inode k = l1 ++ (name, i) :: l2)
    (h' : slotEntries g disk' inode' k = l1 ++ (name, target) :: l2) :
    ∃ base, Binds base name (some i) (dirEntries g disk inode) ∧
      Binds base name (some target) (dirEntries g disk' inode') := by
  have hmem := List.mem_range.mpr hk
  refine ⟨(List.range 12).flatMap (update (slotEntries g disk inode) k (l1 ++ l2)), ?_, ?_⟩
  · refine inserted_flatMap List.nodup_range hmem (fun j _ hj => ?_) ?_
    · rw [update_of_ne hj]
    · rw [update_self]
      exact ⟨l1, l2, rfl, h⟩
  refine inserted_flatMap List.nodup_range hmem (fun j hj12 hj => ?_) ?_
  · rw [update_of_ne hj]
    exact hf j (List.mem_range.mp hj12) hj
  · rw [update_self]
    exact ⟨l1, l2, rfl, h'⟩

/-- The entry ".." refers to the new parent, if there is one. The copy of the inode may be
from a time when the directory had fewer blocks. -/
theorem fixDotDot_names (h : Intact g s) (hu : InUse g s d) (hd : GoodDir g s.disk d) (h0 : target ≠ 0)
    (ht : target < 2 ^ 32) (hslots : ∀ k < 12, iBlock inode k ≠ 0 → iBlock inode k = iBlock (inodeAt g s.disk d) k) :
    fixDotDot g s inode target 12 0 = s ∨ Rebound g d [46, 46] (some target) s (fixDotDot g s inode target 12 0) := by
  rw [fixDotDot_eq]
  rcases editLoop_cases (g := g) h.noFault (retargetInBlock · g.blockSize [46, 46] target 0) inode 12 0 with
    hz | ⟨k, blk', hk, hk0, hre, he⟩
  · rw [hz]
    exact .inl rfl
  right
  have hk12 : k < 12 := by omega
  have hslot := hslots k hk12 hk0
  rw [slotBlock, hslot] at hre
  rw [hslot] at hk0 he
  obtain ⟨es, hes⟩ := isSome_iff_exists.mp (hd.chains k hk12 hk0)
  obtain ⟨-, es1, es2, i, hi, rfl, hes'⟩ := retargetInBlock_spec (chain_iff.mp hes) ht hre
  obtain ⟨hedit, hother, hself⟩ := editSlot_spec h.consistent h.noFault hu hk12 hk0 hd.chains hes'
  rw [he]
  have hold : slotEntries g s.disk (inodeAt g s.disk d) k =
      liveEntries es1 ++ ([46, 46], i) :: liveEntries es2 := by
    rw [slotEntries, if_neg hk0, hes, getD_some, liveEntries_append, liveEntries_cons_live hi]
  rw [liveEntries_append, liveEntries_cons_live h0] at hself
  obtain ⟨base, hb, hb'⟩ := binds_dirEntries hk12 hother hold hself
  have hins := hb
  exact hedit.rebound h hd (hins.nodup_iff.mp hd.names).1 hb hb'

end

/-- The entry `c1` of `d1` for inode `n` was moved to the name `c2` in `d2`. -/
structure Moved (g : Geometry) (d1 : ℕ) (c1 : Name) (d2 : ℕ) (c2 : Name) (n : ℕ) (s s' : Fs) : Prop where
  intact : Intact g s'
  inUse : InUse g s' = InUse g s
  unchanged : Unchanged g (fun m => InUse g s m ∧ m ≠ d1 ∧ m ≠ d2 ∧ ¬(m = n ∧ isDir (inodeAt g s.disk n) = true)) s s'
  mode : ∀ m, InUse g s m → ∀ a < 2, inodeAt g s'.disk m a = inodeAt g s.disk m a
  good : ∀ m, InUse g s m → GoodDir g s.disk m → GoodDir g s'.disk m
  entries : ∀ m, InUse g s m → ∀ e ∈ entriesOf g s'.disk m, e ∈ entriesOf g s.disk m ∨ e.2 = n ∨ e.2 = d2
  child : ∀ m x, InUse g s m → x ≠ [46, 46] → child g s'.disk m x =
    if m = d1 ∧ x = c1 then none else if m = d2 ∧ x = c2 then some n else Ext2.child g s.disk m x

section

variable {g : Geometry} {s s1 s2 s3 s' : Fs} {d1 d2 n : ℕ} {c1 c2 : Name} {inode : Mem}

lemma moved_of_rebound (hadd : Rebound g d2 c2 (some n) s s1) (hrem : Rebound g d1 c1 none s1 s2) :
    Moved g d1 c1 d2 c2 n s s2 where
  intact := hrem.intact
  inUse := hrem.inUse.trans hadd.inUse
  unchanged := (hadd.unchanged.mono fun m hm => ⟨hm.1, hm.2.2.1⟩).trans
    (hrem.unchanged.mono fun m hm => ⟨hadd.inUse ▸ hm.1, hm.2.1⟩)
  mode m hm a ha := (hrem.mode (hadd.inUse ▸ hm) ha).trans (hadd.mode hm ha)
  good m hm hgood := hrem.goodDir (hadd.inUse ▸ hm) (hadd.goodDir hm hgood)
  entries m hm e he := by
    rcases hrem.entries_of (hadd.inUse ▸ hm) he with he | he
    · rcases hadd.entries_of hm he with he | he
      · exact .inl he
      · exact .inr (.inl (some.inj he).symm)
    · cases he
  child m x hm _ := by rw [hrem.child_of (hadd.inUse ▸ hm), hadd.child_of hm]

lemma Moved.retarget (h : Moved g d1 c1 d2 c2 n s s2) (hdir : isDir (inodeAt g s.disk n) = true)
    (hre : Rebound g n [46, 46] (some d2) s2 s3) : Moved g d1 c1 d2 c2 n s s3 where
  intact := hre.intact
  inUse := hre.inUse.trans h.inUse
  unchanged := h.unchanged.trans (hre.unchanged.mono fun m hm =>
    ⟨h.inUse ▸ hm.1, fun he => hm.2.2.2 ⟨he, hdir⟩⟩)
  mode m hm a ha := (hre.mode (h.inUse ▸ hm) ha).trans (h.mode m hm a ha)
  good m hm hgood := hre.goodDir (h.inUse ▸ hm) (h.good m hm hgood)
  entries m hm e he := by
    rcases hre.entries_of (h.inUse ▸ hm) he with he | he
    · exact h.entries m hm e he
    · exact .inr (.inr (some.inj he).symm)
  child m x hm hx := by rw [hre.child_of (h.inUse ▸ hm), if_neg fun hc => hx hc.2, h.child m x hm hx]

/-- The last part of `ext2_rename` moves the entry, or changes nothing in use. -/
theorem moveEntry_spec (h : Intact g s) (hu1 : InUse g s d1) (hg1 : GoodDir g s.disk d1) (hu2 : InUse g s d2)
    (hg2 : GoodDir g s.disk d2) (hun : InUse g s n)
    (hgn : isDir (inodeAt g s.disk n) = true → GoodDir g s.disk n) (hc1 : c1.length < 256)
    (hc2 : c2.length < 256) (hsrc : child g s.disk d1 c1 = some n) (hfree : child g s.disk d2 c2 = none)
    (hkind : isDir inode = isDir (inodeAt g s.disk n))
    (hslots : ∀ k < 12, iBlock inode k ≠ 0 → iBlock (inodeAt g s.disk n) k = iBlock inode k) :
    (∃ s', moveEntry g s n inode d1 c1 d2 c2 = (false, s') ∧ Intact g s' ∧ InUse g s' = InUse g s ∧
      Unchanged g (InUse g s) s s') ∨
    ∃ s', moveEntry g s n inode d1 c1 d2 c2 = (true, s') ∧ Moved g d1 c1 d2 c2 n s s' := by
  rcases dirAddEntry_names h hu2 hg2 hc2 hun.lt hun.ne_zero hfree (if isDir inode then 2 else 1) with
    ⟨s1, he1, h1, huse1, hsame1⟩ | ⟨s1, he1, hadd⟩
  · refine .inl ⟨s1, ?_, h1, huse1, hsame1⟩
    simp [moveEntry, he1]
  have hu1' : InUse g s1 d1 := hadd.inUse ▸ hu1
  have hsrc1 : child g s1.disk d1 c1 = some n := by
    rw [hadd.child_of hu1, if_neg, hsrc]
    rintro ⟨rfl, rfl⟩
    rw [hsrc] at hfree
    cases hfree
  rcases dirRemoveEntry_names hadd.intact hu1' (hadd.goodDir hu1 hg1) hc1 with ⟨hnone, -⟩ | ⟨i, s2, -, he2, hrem⟩
  · rw [hsrc1] at hnone
    cases hnone
  have hmoved := moved_of_rebound hadd hrem
  by_cases hfix : (if isDir inode then 2 else 1) = 2 ∧ d1 ≠ d2
  · have hdir : isDir (inodeAt g s.disk n) = true := by
      rw [← hkind]
      by_contra hf
      rw [if_neg hf] at hfix
      exact absurd hfix.1 (by decide)
    have hcall : moveEntry g s n inode d1 c1 d2 c2 = (true, fixDotDot g s2 inode d2 12 0) := by
      simp only [moveEntry, he1, if_true, he2, if_pos hfix, request_eq hrem.intact.noFault]
    have hkeep : ∀ k < 12, iBlock inode k ≠ 0 → iBlock inode k = iBlock (inodeAt g s2.disk n) k := by
      intro k hk h0
      have h1 := hslots k hk h0
      have h2 := hadd.slots_of hun hk (h1 ▸ h0)
      rw [hrem.slots_of (hadd.inUse ▸ hun) hk (h2 ▸ h1 ▸ h0), h2, h1]
    rcases fixDotDot_names hmoved.intact (hmoved.inUse ▸ hun) (hmoved.good n hun (hgn hdir)) hu2.ne_zero hu2.lt
        hkeep with hz | hre
    · exact .inr ⟨s2, by rw [hcall, hz], hmoved⟩
    · exact .inr ⟨_, hcall, hmoved.retarget hdir hre⟩
  · refine .inr ⟨s2, ?_, hmoved⟩
    simp only [moveEntry, he1, if_true, he2, if_neg hfix]

end

/-- A file at the destination was removed, if there was one. -/
def Cleared (g : Geometry) (d : ℕ) (c : Name) (n : ℕ) (s s1 : Fs) : Prop :=
  child g s.disk d c = none ∧ s1 = s ∨ ∃ n', child g s.disk d c = some n' ∧ n' ≠ n ∧
    isDir (inodeAt g s.disk n') = false ∧ Unlinked g d c n' s s1

section

variable {g : Geometry} {s s1 s' : Fs} {d d1 d2 n m : ℕ} {ps qs : List Name} {c c1 c2 : Name}

section

variable (h : Unlinked g d c n s s')
include h

section

variable (hu : InUse g s m)
include hu

lemma Unlinked.goodDir (hmn : m ≠ n) (hm : GoodDir g s.disk m) : GoodDir g s'.disk m := by
  by_cases hmd : m = d
  · rw [hmd]
    exact h.good
  · exact (h.unchanged.sameFile ⟨hu, hmd, hmn⟩).goodDir hm

lemma Unlinked.child_of (hmn : m ≠ n) (x : Name) :
    Ext2.child g s'.disk m x = if m = d ∧ x = c then none else Ext2.child g s.disk m x := by
  by_cases hmd : m = d
  · subst hmd
    rw [h.child x]
    simp
  · rw [if_neg fun hc => hmd hc.1]
    exact (h.unchanged.sameFile ⟨hu, hmd, hmn⟩).child

lemma Unlinked.mode_of {a : ℕ} (ha : a < 2) : inodeAt g s'.disk m a = inodeAt g s.disk m a := by
  by_cases hm : m = d ∨ m = n
  · exact h.mode m hm a ha
  · rw [h.unchanged.inodes m ⟨hu, not_or.mp hm⟩]

lemma Unlinked.slots_of (hmn : m ≠ n) {k : ℕ} (hk : k < 12)
    (h0 : iBlock (inodeAt g s.disk m) k ≠ 0) : iBlock (inodeAt g s'.disk m) k = iBlock (inodeAt g s.disk m) k := by
  by_cases hmd : m = d
  · subst hmd
    exact h.slots k hk h0
  · rw [h.unchanged.inodes m ⟨hu, hmd, hmn⟩]

end

end

lemma clearDst_spec (h : Sound g s) (hqs : ∀ x ∈ qs, Component x) (hc : Component c)
    (hd : resolve g s.disk qs = some d) (hdir : IsDir g s d) :
    (child g s.disk d c = none ∧ clearDst g s (pathString (qs ++ [c])) = (true, s)) ∨
    ∃ n, child g s.disk d c = some n ∧
      ((isDir (inodeAt g s.disk n) = true ∧ clearDst g s (pathString (qs ++ [c])) = (false, s)) ∨
        isDir (inodeAt g s.disk n) = false ∧
          ∃ s', clearDst g s (pathString (qs ++ [c])) = (true, s') ∧ Unlinked g d c n s s') := by
  obtain ⟨-, -, hpath⟩ := lookups_eq h hqs hc hd
  cases hn : child g s.disk d c with
  | none =>
    refine .inl ⟨rfl, ?_⟩
    simp [clearDst, hpath, hn]
  | some n =>
    have hn0 := child_ne_zero hn
    refine .inr ⟨n, rfl, ?_⟩
    cases hfile : isDir (inodeAt g s.disk n) with
    | true =>
      refine .inl ⟨rfl, ?_⟩
      simp [clearDst, hpath, hn, hn0, h.readInode_eq hn0, hfile]
    | false =>
      refine .inr ⟨rfl, ?_⟩
      have hnd := (hdir.ne_file hfile).symm
      obtain ⟨s', he, hu⟩ := ext2Unlink_spec h hqs hc hd hdir hn hnd
      refine ⟨s', ?_, hu⟩
      simp [clearDst, hpath, hn, hn0, h.readInode_eq hn0, hfile, he]

/-- What `ext2_rename` does for two names in directories. -/
inductive RenameResult (g : Geometry) (d1 : ℕ) (c1 : Name) (d2 : ℕ) (c2 : Name) (s : Fs) : Bool × Fs → Prop
  | missing : child g s.disk d1 c1 = none → RenameResult g d1 c1 d2 c2 s (false, s)
  | same {n : ℕ} : child g s.disk d1 c1 = some n → child g s.disk d2 c2 = some n →
      RenameResult g d1 c1 d2 c2 s (true, s)
  | refused {n n' : ℕ} : child g s.disk d1 c1 = some n → child g s.disk d2 c2 = some n' → n' ≠ n →
      isDir (inodeAt g s.disk n') = true → RenameResult g d1 c1 d2 c2 s (false, s)
  | failed {n : ℕ} {s1 s2 : Fs} : child g s.disk d1 c1 = some n → Cleared g d2 c2 n s s1 → Intact g s2 →
      InUse g s2 = InUse g s1 → Unchanged g (InUse g s1) s1 s2 → RenameResult g d1 c1 d2 c2 s (false, s2)
  | moved {n : ℕ} {s1 s2 : Fs} : child g s.disk d1 c1 = some n → Cleared g d2 c2 n s s1 →
      Moved g d1 c1 d2 c2 n s1 s2 → RenameResult g d1 c1 d2 c2 s (true, s2)

theorem ext2Rename_spec (h : Sound g s) (hps : ∀ x ∈ ps, Component x) (hc1 : Component c1)
    (hqs : ∀ x ∈ qs, Component x) (hc2 : Component c2) (hd1 : resolve g s.disk ps = some d1)
    (hdir1 : IsDir g s d1) (hd2 : resolve g s.disk qs = some d2) (hdir2 : IsDir g s d2) :
    RenameResult g d1 c1 d2 c2 s (ext2Rename g s (pathString (ps ++ [c1])) (pathString (qs ++ [c2]))) := by
  obtain ⟨hsplit1, hparent1, hpath1⟩ := lookups_eq h hps hc1 hd1
  obtain ⟨hsplit2, hparent2, hpath2⟩ := lookups_eq h hqs hc2 hd2
  have h10 := hdir1.inUse.ne_zero
  have h20 := hdir2.inUse.ne_zero
  cases hn : child g s.disk d1 c1 with
  | none =>
    have hcall : ext2Rename g s (pathString (ps ++ [c1])) (pathString (qs ++ [c2])) = (false, s) := by
      simp [ext2Rename, hpath1, hn]
    rw [hcall]
    exact .missing hn
  | some n =>
    have hn0 := child_ne_zero hn
    have htarget := h.target hdir1 hn
    by_cases hsame : child g s.disk d2 c2 = some n
    · have hcall : ext2Rename g s (pathString (ps ++ [c1])) (pathString (qs ++ [c2])) = (true, s) := by
        simp [ext2Rename, hpath1, hn, hn0, hpath2, hsame]
      rw [hcall]
      exact .same hn hsame
    have hother : ¬((child g s.disk d2 c2).getD 0 ≠ 0 ∧ (child g s.disk d2 c2).getD 0 = n) := by
      rintro ⟨-, he⟩
      cases hd : child g s.disk d2 c2 with
      | none =>
        rw [hd] at he
        exact hn0 he.symm
      | some n' =>
        rw [hd] at he hsame
        exact hsame (congrArg some he)
    have hcall : ext2Rename g s (pathString (ps ++ [c1])) (pathString (qs ++ [c2])) =
        (let cleared := clearDst g s (pathString (qs ++ [c2]))
        if cleared.1 then moveEntry g cleared.2 n (inodeAt g s.disk n) d1 c1 d2 c2 else (false, cleared.2)) := by
      simp [ext2Rename, hpath1, hn, hn0, hpath2, hother, hsplit1, hsplit2, hparent1, hparent2, h10, h20,
        h.readInode_eq hn0]
    rw [hcall]
    rcases clearDst_spec h hqs hc2 hd2 hdir2 with ⟨hfree, he⟩ | ⟨n', hn', ⟨hd', he⟩ | ⟨hfile, s1, he, hun⟩⟩
    · simp only [he, if_true]
      rcases moveEntry_spec h.toIntact hdir1.inUse (h.dirs d1 hdir1) hdir2.inUse (h.dirs d2 hdir2) htarget.inUse
          (fun hd => h.dirs n ⟨htarget.inUse, hd⟩) hc1.lt hc2.lt hn hfree rfl (fun k _ _ => rfl) with
        ⟨s2, he2, h2, huse2, hsame2⟩ | ⟨s2, he2, hm⟩
      · rw [he2]
        exact .failed hn (.inl ⟨hfree, rfl⟩) h2 huse2 hsame2
      · rw [he2]
        exact .moved hn (.inl ⟨hfree, rfl⟩) hm
    · simp only [he, Bool.false_eq_true, if_false]
      refine .refused hn hn' ?_ hd'
      rintro rfl
      exact hsame hn'
    simp only [he, if_true]
    have hne : n' ≠ n := by
      rintro rfl
      exact hsame hn'
    have hdirs : ∀ m, IsDir g s m → m ≠ n' := fun m hm => hm.ne_file hfile
    have hkind := isDir_congr fun a ha => hun.mode_of htarget.inUse ha
    have huse : ∀ m, m ≠ n' → InUse g s m → InUse g s1 m := fun m hm hu => (hun.inUse m hm).mpr hu
    have hsrc : child g s1.disk d1 c1 = some n := by
      rw [hun.child_of hdir1.inUse (hdirs d1 hdir1), if_neg, hn]
      rintro ⟨rfl, rfl⟩
      exact hsame hn
    have hfree : child g s1.disk d2 c2 = none := by
      rw [hun.child_of hdir2.inUse (hdirs d2 hdir2), if_pos ⟨rfl, rfl⟩]
    have hgn : isDir (inodeAt g s1.disk n) = true → GoodDir g s1.disk n := by
      intro hd
      rw [hkind] at hd
      exact hun.goodDir htarget.inUse hne.symm (h.dirs n ⟨htarget.inUse, hd⟩)
    rcases moveEntry_spec hun.intact (huse d1 (hdirs d1 hdir1) hdir1.inUse)
        (hun.goodDir hdir1.inUse (hdirs d1 hdir1) (h.dirs d1 hdir1)) (huse d2 (hdirs d2 hdir2) hdir2.inUse)
        (hun.goodDir hdir2.inUse (hdirs d2 hdir2) (h.dirs d2 hdir2)) (huse n hne.symm htarget.inUse) hgn hc1.lt
        hc2.lt hsrc hfree hkind.symm (fun k hk h0 => hun.slots_of htarget.inUse hne.symm hk h0) with
      ⟨s2, he2, h2, huse2, hsame2⟩ | ⟨s2, he2, hm⟩
    · rw [he2]
      exact .failed hn (.inr ⟨n', hn', hne, hfile, hun⟩) h2 huse2 hsame2
    · rw [he2]
      exact .moved hn (.inr ⟨n', hn', hne, hfile, hun⟩) hm

end

end AetherOS.Ext2
