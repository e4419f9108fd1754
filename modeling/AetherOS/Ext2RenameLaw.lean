import AetherOS.Ext2Renames
import AetherOS.Ext2NameLaws

/-!
# The law of renaming

A rename hangs a part of the tree of directories into another place. `ext2_rename` does not
ask whether the new place is inside of that part: then the part is cut off from the root. And
it leaves both names where they are the names of one file.
-/
namespace AetherOS.Ext2
open ByteMemory ByteBitmap PointerTree List Option

section

variable (g : Geometry)

/-- The inode has a place below the root. -/
def Rooted (s : Fs) (m : ℕ) : Prop := ∃ q, (∀ c ∈ q, Component c) ∧ place g s.disk q = some m

/-- The path is that of the root, or that of a name in a directory. -/
def InTree (s : Fs) (p : List Name) : Prop :=
  ∀ ps c, p = ps ++ [c] → ∃ d, place g s.disk ps = some d ∧ isDir (inodeAt g s.disk d) = true

/-- The inode is found at the new path and not at the old one, and all inodes are still below
the root, apart from a file that was replaced. -/
structure RenameLaw (s s' : Fs) (old new : List Name) : Prop where
  found : lookup g s' new = lookup g s old
  gone : old ≠ new → lookup g s' old = none
  kept : ∀ m, Rooted g s m → lookup g s new ≠ some m → Rooted g s' m

end

section

variable {g : Geometry} {s s' : Fs} {disk : Mem} {d n m : ℕ} {p ps : List Name} {c : Name}

lemma entryOf_eq_some :
    entryOf g disk d c = some n ↔ isDir (inodeAt g disk d) = true ∧ child g disk d c = some n := by
  rw [entryOf]
  split_ifs with hdir <;> simp [hdir]

lemma place_concat (disk : Mem) (ps : List Name) (c : Name) :
    place g disk (ps ++ [c]) = (place g disk ps).bind fun d => entryOf g disk d c := walk_concat ps c 2

lemma place_entry (hd : place g disk ps = some d) : place g disk (ps ++ [c]) = entryOf g disk d c := by
  rw [place_concat, hd, bind_some]

lemma Sound.parent (h : Sound g s) (hp : place g s.disk (ps ++ [c]) = some n) :
    ∃ d, place g s.disk ps = some d ∧ IsDir g s d ∧ child g s.disk d c = some n := by
  rw [place_concat] at hp
  obtain ⟨d, hd, hn⟩ := bind_eq_some_iff.mp hp
  obtain ⟨hdir, hchild⟩ := entryOf_eq_some.mp hn
  exact ⟨d, hd, ⟨(h.place_target hd).inUse, hdir⟩, hchild⟩

lemma resolve_of_place (hp : place g disk p = some n) : resolve g disk p = some n := by
  induction p using List.reverseRecOn generalizing n with
  | nil => exact hp
  | append_singleton p c ih =>
    rw [place_concat] at hp
    obtain ⟨d, hd, hn⟩ := bind_eq_some_iff.mp hp
    rw [resolve_concat, ih hd]
    exact (entryOf_eq_some.mp hn).2

lemma inTree_concat (hd : place g s.disk ps = some d) (hdir : isDir (inodeAt g s.disk d) = true) (c : Name) :
    InTree g s (ps ++ [c]) := by
  intro qs c' heq
  obtain ⟨rfl, -⟩ := append_inj' heq rfl
  exact ⟨d, hd, hdir⟩

/-- Renaming from or to the path of the root succeeds only where nothing is to be done. -/
lemma ext2Rename_root {old new : List Name} (h : Sound g s) (hold : ∀ x ∈ old, Component x)
    (hnew : ∀ x ∈ new, Component x) (hroot : old = [] ∨ new = [])
    (he : ext2Rename g s (pathString old) (pathString new) = (true, s')) :
    s' = s ∧ resolve g s.disk old = some 2 ∧ resolve g s.disk new = some 2 := by
  simp only [ext2Rename, h.lookupIno hold, h.lookupIno hnew] at he
  have hsome : ∀ {o : Option ℕ}, o.getD 0 ≠ 0 → ∃ n, o = some n := by
    intro o ho
    cases o with
    | none => exact absurd rfl ho
    | some n => exact ⟨n, rfl⟩
  split_ifs at he with h0 hsame
  · cases he
  · -- both paths lead to one inode, and that is the root
    obtain ⟨n, hn⟩ := hsome h0
    obtain ⟨n', hn'⟩ := hsome hsame.1
    have heq : n' = n := by
      rw [hn, hn'] at hsame
      exact hsame.2
    have hn2 : n = 2 := by
      rcases hroot with rfl | rfl
      · exact (some.inj hn).symm
      · exact heq.symm.trans (some.inj hn').symm
    exact ⟨(congrArg Prod.snd he).symm, by rw [hn, hn2], by rw [hn', heq, hn2]⟩
  exfalso
  rcases hroot with rfl | rfl
  · rw [pathSplit_root] at he
    cases he
  rw [pathSplit_root] at he
  split at he
  next hc => cases hc
  · cases he

end

/-- A rename moved the entry `c1` of `d1` for inode `n` to the name `c2` in `d2`, where no
other directory was; `d1` and `d2` are the directories at `ps` and `qs`. -/
structure Renaming (g : Geometry) (ps : List Name) (c1 : Name) (qs : List Name) (c2 : Name) (d1 d2 n : ℕ)
    (s s' : Fs) : Prop where
  old : ∀ x ∈ ps ++ [c1], Component x
  new : ∀ x ∈ qs ++ [c2], Component x
  oldParent : place g s.disk ps = some d1
  newParent : place g s.disk qs = some d2
  oldDir : IsDir g s d1
  newDir : IsDir g s d2
  source : child g s.disk d1 c1 = some n
  target : ∀ n', child g s.disk d2 c2 = some n' → n' ≠ n ∧ isDir (inodeAt g s.disk n') = false
  intact : Intact g s'
  dirs : ∀ m, IsDir g s m → isDir (inodeAt g s'.disk m) = true
  child : ∀ m x, IsDir g s m → Component x → child g s'.disk m x =
    if m = d1 ∧ x = c1 then none else if m = d2 ∧ x = c2 then some n else Ext2.child g s.disk m x

section

variable {g : Geometry} {s s1 s' : Fs} {d d1 d2 n m : ℕ} {ps qs q r : List Name} {c1 c2 x : Name}

lemma Cleared.dir (hc : Cleared g d2 c2 n s s1) (hm : IsDir g s m) (x : Name) :
    InUse g s1 m ∧ isDir (inodeAt g s1.disk m) = true ∧
      (¬(m = d2 ∧ x = c2) → child g s1.disk m x = child g s.disk m x) := by
  rcases hc with ⟨-, rfl⟩ | ⟨n', -, -, hfile, hun⟩
  · exact ⟨hm.inUse, hm.dir, fun _ => rfl⟩
  have hmn := hm.ne_file hfile
  refine ⟨(hun.inUse m hmn).mpr hm.inUse, ?_, fun hne => ?_⟩
  · rw [isDir_congr fun a ha => hun.mode_of hm.inUse ha]
    exact hm.dir
  · rw [hun.child_of hm.inUse hmn, if_neg hne]

lemma Moved.renaming (hmoved : Moved g d1 c1 d2 c2 n s1 s') (hc : Cleared g d2 c2 n s s1)
    (hold : ∀ x ∈ ps ++ [c1], Component x) (hnew : ∀ x ∈ qs ++ [c2], Component x)
    (hd1 : place g s.disk ps = some d1) (hd2 : place g s.disk qs = some d2) (hdir1 : IsDir g s d1)
    (hdir2 : IsDir g s d2) (hn : Ext2.child g s.disk d1 c1 = some n) : Renaming g ps c1 qs c2 d1 d2 n s s' := by
  refine ⟨hold, hnew, hd1, hd2, hdir1, hdir2, hn, fun n' hn' => ?_, hmoved.intact, fun m hm => ?_,
    fun m x hm hx => ?_⟩
  · rcases hc with ⟨hfree, -⟩ | ⟨n'', hn'', hne, hfile, -⟩
    · rw [hn'] at hfree
      cases hfree
    · obtain rfl := some.inj (hn'.symm.trans hn'')
      exact ⟨hne, hfile⟩
  · obtain ⟨huse, hdir, -⟩ := hc.dir hm c1
    rw [isDir_congr fun a ha => hmoved.mode m huse a ha]
    exact hdir
  obtain ⟨huse, -, hchild⟩ := hc.dir hm x
  rw [hmoved.child m x huse hx.notDotDot]
  split_ifs with h1 h2
  · rfl
  · rfl
  · exact hchild h2

namespace Renaming

section

variable (hr : Renaming g ps c1 qs c2 d1 d2 n s s') (h : FileTree g s)
include hr h

lemma entry (hq : ∀ y ∈ q ++ [x], Component y)
    (hd : place g s.disk q = some d) (hdir : IsDir g s d) (hm : Ext2.child g s.disk d x = some m)
    (hold : q ++ [x] ≠ ps ++ [c1]) (hnew : q ++ [x] ≠ qs ++ [c2]) : entryOf g s'.disk d x = some m := by
  have hqc : ∀ y ∈ q, Component y := fun y hy => hq y (mem_append_left _ hy)
  have hpsc : ∀ y ∈ ps, Component y := fun y hy => hr.old y (mem_append_left _ hy)
  have hqsc : ∀ y ∈ qs, Component y := fun y hy => hr.new y (mem_append_left _ hy)
  refine entryOf_eq_some.mpr ⟨hr.dirs d hdir, ?_⟩
  rw [hr.child d x hdir (hq x (by simp)), if_neg, if_neg, hm]
  · rintro ⟨rfl, rfl⟩
    exact hnew (by rw [h.tree q qs d hqc hqsc hd hr.newParent hdir.dir])
  · rintro ⟨rfl, rfl⟩
    exact hold (by rw [h.tree q ps d hqc hpsc hd hr.oldParent hdir.dir])

lemma stays (hq : ∀ y ∈ q, Component y)
    (hm : place g s.disk q = some m) (hold : ¬ps ++ [c1] <+: q) (hnew : ¬qs ++ [c2] <+: q) :
    place g s'.disk q = some m := by
  induction q using List.reverseRecOn generalizing m with
  | nil => exact hm
  | append_singleton q x ih =>
    obtain ⟨d, hd, hdir, hchild⟩ := h.toSound.parent hm
    have hpre : q <+: q ++ [x] := prefix_append q [x]
    have hd' := ih (fun y hy => hq y (mem_append_left _ hy)) hd (fun hp => hold (hp.trans hpre))
      fun hp => hnew (hp.trans hpre)
    rw [place_entry hd']
    refine hr.entry h hq hd hdir hchild ?_ ?_
    · exact fun he => hold (he ▸ prefix_refl _)
    · exact fun he => hnew (he ▸ prefix_refl _)

end

lemma not_prefix_parent (ps : List Name) (c : Name) : ¬ps ++ [c] <+: ps := by
  intro hp
  have hlen := hp.length_le
  rw [length_append, length_singleton] at hlen
  omega

section

variable (hr : Renaming g ps c1 qs c2 d1 d2 n s s') (h : FileTree g s)
include hr h

section

variable (hout : ¬ps ++ [c1] <+: qs)
include hout

lemma newParent_stays : place g s'.disk qs = some d2 :=
  hr.stays h (fun y hy => hr.new y (mem_append_left _ hy)) hr.newParent hout (not_prefix_parent qs c2)

lemma moved : place g s'.disk (qs ++ [c2]) = some n := by
  rw [place_entry (hr.newParent_stays h hout)]
  refine entryOf_eq_some.mpr ⟨hr.dirs d2 hr.newDir, ?_⟩
  rw [hr.child d2 c2 hr.newDir (hr.new c2 (by simp)), if_neg, if_pos ⟨rfl, rfl⟩]
  rintro ⟨rfl, rfl⟩
  exact (hr.target n hr.source).1 rfl

lemma below_moved (hq : ∀ y ∈ ps ++ [c1] ++ r, Component y) (hm : place g s.disk (ps ++ [c1] ++ r) = some m) :
    place g s'.disk (qs ++ [c2] ++ r) = some m := by
  induction r using List.reverseRecOn generalizing m with
  | nil =>
    rw [append_nil] at hm ⊢
    have hn : place g s.disk (ps ++ [c1]) = some n := by
      rw [place_entry hr.oldParent]
      exact entryOf_eq_some.mpr ⟨hr.oldDir.dir, hr.source⟩
    rw [hr.moved h hout, ← hn, hm]
  | append_singleton r x ih =>
    rw [← append_assoc] at hq hm ⊢
    obtain ⟨d, hd, hdir, hchild⟩ := h.toSound.parent hm
    have hd' := ih (fun y hy => hq y (mem_append_left _ hy)) hd
    rw [place_entry hd']
    refine hr.entry h hq hd hdir hchild ?_ ?_
    · intro he
      have hlen := congrArg List.length he
      simp at hlen
    -- the new place is not below the old path
    intro he
    obtain ⟨he, -⟩ := append_inj' he rfl
    exact hout (he ▸ prefix_append _ r)

end

lemma replaced (hm : place g s.disk (qs ++ [c2] ++ r) = some m) : r = [] ∧ Ext2.child g s.disk d2 c2 = some m := by
  induction r using List.reverseRecOn generalizing m with
  | nil =>
    rw [append_nil, place_entry hr.newParent] at hm
    exact ⟨rfl, (entryOf_eq_some.mp hm).2⟩
  | append_singleton r x ih =>
    rw [← append_assoc] at hm
    obtain ⟨d, hd, hdir, -⟩ := h.toSound.parent hm
    exact absurd rfl (hdir.ne_file (hr.target d (ih hd).2).2)

lemma gone : resolve g s'.disk (ps ++ [c1]) = none := by
  have hnew : ¬qs ++ [c2] <+: ps := by
    rintro ⟨r, hps⟩
    have hd1 := hr.oldParent
    rw [← hps] at hd1
    exact hr.oldDir.ne_file (hr.target d1 (hr.replaced h hd1).2).2 rfl
  have hd1 : place g s'.disk ps = some d1 := hr.stays h (fun y hy => hr.old y (mem_append_left _ hy))
    hr.oldParent (not_prefix_parent ps c1) hnew
  rw [resolve_child (resolve_of_place hd1), hr.child d1 c1 hr.oldDir (hr.old c1 (by simp)), if_pos ⟨rfl, rfl⟩]

/-- Every inode below the root stays there, apart from the file that is replaced. -/
lemma rooted (hout : ¬ps ++ [c1] <+: qs)
    (hm : Rooted g s m) (hne : Ext2.child g s.disk d2 c2 ≠ some m) : Rooted g s' m := by
  obtain ⟨q, hq, hm⟩ := hm
  by_cases hold : ps ++ [c1] <+: q
  · obtain ⟨r, rfl⟩ := hold
    refine ⟨qs ++ [c2] ++ r, fun y hy => ?_, hr.below_moved h hout hq hm⟩
    rcases mem_append.mp hy with hy | hy
    · exact hr.new y hy
    · exact hq y (mem_append_right _ hy)
  · refine ⟨q, hq, hr.stays h hq hm hold ?_⟩
    rintro ⟨r, rfl⟩
    exact hne (hr.replaced h hm).2

lemma lookup_old : lookup g s (ps ++ [c1]) = some n := by
  rw [h.lookup_eq hr.old, resolve_child (resolve_of_place hr.oldParent), hr.source]

lemma lookup_new : lookup g s (qs ++ [c2]) = Ext2.child g s.disk d2 c2 := by
  rw [h.lookup_eq hr.new, resolve_child (resolve_of_place hr.newParent)]

/-- The law holds unless the new place is inside of what is moved. -/
theorem law_iff : RenameLaw g s s' (ps ++ [c1]) (qs ++ [c2]) ↔ ¬ps ++ [c1] <+: qs := by
  have hgone := hr.gone h
  constructor
  · rintro hlaw ⟨r, hqs⟩
    -- the old path is the first part of the new one, and leads nowhere
    have hfound := hlaw.found
    rw [hr.lookup_old h, hr.intact.lookup_eq hr.new, ← hqs, append_assoc, resolve, walk_append, ← resolve, hgone]
      at hfound
    cases hfound
  intro hout
  refine ⟨?_, fun _ => ?_, fun m hm hne => ?_⟩
  · rw [hr.intact.lookup_eq hr.new, resolve_of_place (hr.moved h hout), hr.lookup_old h]
  · rw [hr.intact.lookup_eq hr.old, hgone]
  · rw [hr.lookup_new h] at hne
    exact hr.rooted h hout hm hne

end

end Renaming

end

section

variable {g : Geometry} {s s' : Fs} {old new : List Name} {n : ℕ}

lemma renameLaw_same_iff (hold : lookup g s old = some n) (hnew : lookup g s new = some n) :
    RenameLaw g s s old new ↔ old = new := by
  constructor
  · intro hlaw
    by_contra hne
    rw [hlaw.gone hne] at hold
    cases hold
  · rintro rfl
    exact ⟨rfl, fun hne => absurd rfl hne, fun m hm _ => hm⟩

lemma ext2Rename_cases (h : FileTree g s) (hold : ∀ x ∈ old, Component x) (hnew : ∀ x ∈ new, Component x)
    (hin : InTree g s old) (hin' : InTree g s new)
    (he : ext2Rename g s (pathString old) (pathString new) = (true, s')) :
    (s' = s ∧ ∃ n, lookup g s old = some n ∧ lookup g s new = some n) ∨
      ∃ ps c1 qs c2 d1 d2 n, old = ps ++ [c1] ∧ new = qs ++ [c2] ∧ Renaming g ps c1 qs c2 d1 d2 n s s' := by
  rw [h.lookup_eq hold, h.lookup_eq hnew]
  rcases eq_nil_or_concat' old with hnil | ⟨ps, c1, hps⟩
  · obtain ⟨hs, ho, hn⟩ := ext2Rename_root h.toSound hold hnew (.inl hnil) he
    exact .inl ⟨hs, 2, ho, hn⟩
  rcases eq_nil_or_concat' new with hnil | ⟨qs, c2, hqs⟩
  · obtain ⟨hs, ho, hn⟩ := ext2Rename_root h.toSound hold hnew (.inr hnil) he
    exact .inl ⟨hs, 2, ho, hn⟩
  obtain ⟨d1, hd1, hdir1⟩ := hin ps c1 hps
  obtain ⟨d2, hd2, hdir2⟩ := hin' qs c2 hqs
  have hd1' : IsDir g s d1 := ⟨(h.place_target hd1).inUse, hdir1⟩
  have hd2' : IsDir g s d2 := ⟨(h.place_target hd2).inUse, hdir2⟩
  subst hps hqs
  have hspec := ext2Rename_spec h.toSound (fun x hx => hold x (mem_append_left _ hx)) (hold c1 (by simp))
    (fun x hx => hnew x (mem_append_left _ hx)) (hnew c2 (by simp)) (resolve_of_place hd1) hd1'
    (resolve_of_place hd2) hd2'
  rw [he] at hspec
  cases hspec with
  | same hn hsame =>
    rename_i n
    refine .inl ⟨rfl, n, ?_, ?_⟩
    · rw [resolve_child (resolve_of_place hd1), hn]
    · rw [resolve_child (resolve_of_place hd2), hsame]
  | moved hn hcleared hmoved =>
    exact .inr ⟨ps, c1, qs, c2, d1, d2, _, rfl, rfl, hmoved.renaming hcleared hold hnew hd1 hd2 hd1' hd2' hn⟩

end

/-- A volume with an empty directory `a` in its root directory: inode 3, whose block is 7. -/
def subdirVolume : Fs where
  disk := image [(2048, [3, 0, 0, 0, 4, 0, 0, 0, 5, 0, 0, 0, 8, 0, 5, 0, 2]), (3072, [0x7f, 0x80]), (4096, [7]),
    (5248, [0xed, 0x41, 0, 0, 0, 4]), (5274, [3, 0, 2]), (5288, [6]),
    (5376, [0xed, 0x41, 0, 0, 0, 4]), (5402, [2, 0, 2]), (5416, [7]),
    (6144, [2, 0, 0, 0, 12, 0, 1, 2, 46, 0, 0, 0, 2, 0, 0, 0, 12, 0, 2, 2, 46, 46, 0, 0,
      3, 0, 0, 0, 0xe8, 3, 1, 2, 97]),
    (7168, [3, 0, 0, 0, 12, 0, 1, 2, 46, 0, 0, 0, 2, 0, 0, 0, 0xf4, 3, 2, 2, 46, 46])]
  sb := image [(0, [8, 0, 0, 0, 16, 0, 0, 0, 0, 0, 0, 0, 8, 0, 0, 0, 5])]
  outcomes _ := true

end AetherOS.Ext2
