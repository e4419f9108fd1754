import AetherOS.Ext2Namespace
import AetherOS.Ext2SoundCheck

/-!
# The laws of names

The directories of a volume form a tree of names. `ext2_lookup` follows it, but it also
searches files like directories: where the bytes of a file look like an entry, a path leads
through the file. As long as no path does, a new file is one new leaf of the tree, and the
removal of a file takes one leaf away.
-/
namespace AetherOS.Ext2
open ByteMemory ByteBitmap PointerTree List Option

/-- A normalized path of at most `limit` bytes. -/
@[mk_iff] structure Normalized (limit : ℕ) (cs : List Name) : Prop where
  components : ∀ c ∈ cs, Component c
  length : (pathString cs).length ≤ limit

instance (limit : ℕ) (cs : List Name) : Decidable (Normalized limit cs) :=
  decidable_of_iff' _ (normalized_iff limit cs)

section

variable (g : Geometry)

/-- What an entry of a directory refers to; other inodes have no entries. -/
def entryOf (disk : Mem) (n : ℕ) (name : Name) : Option ℕ :=
  if isDir (inodeAt g disk n) then child g disk n name else none

/-- The inode at a place in the tree of directories. -/
def place (disk : Mem) (cs : List Name) : Option ℕ := walk (fun _ => entryOf g disk) 0 2 cs

/-- A sound filesystem in which no directory is at two places. -/
structure FileTree (s : Fs) : Prop extends Sound g s where
  tree : ∀ p q d, (∀ c ∈ p, Component c) → (∀ c ∈ q, Component c) → place g s.disk p = some d →
    place g s.disk q = some d → isDir (inodeAt g s.disk d) = true → p = q

/-- What `ext2_lookup` returns for a path. -/
def lookup (s : Fs) (p : List Name) : Option ℕ := (ext2Lookup g s (pathString p)).1

/-- The path is that of a name in a directory. -/
def ParentIsDir (s : Fs) (p : List Name) : Prop :=
  ∃ ps c d, p = ps ++ [c] ∧ lookup g s ps = some d ∧ IsDir g s d

/-- A new file is found at its path, it was at no path before, and the other paths lead
where they led. -/
def CreateLaw (s : Fs) (limit : ℕ) (p : List Name) : Prop :=
  ∀ uid gid n s', ext2Create g s (pathString p) uid gid = (n, s') → n ≠ 0 →
    lookup g s' p = some n ∧ (∀ q, Normalized limit q → lookup g s q ≠ some n) ∧
    ∀ q, Normalized limit q → q ≠ p → lookup g s' q = lookup g s q

/-- A removed file is not found any more, and the other paths lead where they led. -/
def UnlinkLaw (s : Fs) (limit : ℕ) (p : List Name) : Prop :=
  ∀ n s', lookup g s p = some n → isReg (inodeAt g s.disk n) = true → ext2Unlink g s (pathString p) = (true, s') →
    lookup g s' p = none ∧ ∀ q, Normalized limit q → q ≠ p → lookup g s' q = lookup g s q

/-- Both laws hold for every path that the calls accept, and for the other paths of at most
`limit` bytes. -/
def NamespaceLaw (s : Fs) (limit : ℕ) : Prop :=
  ∀ p, Normalized 255 p → ParentIsDir g s p → CreateLaw g s limit p ∧ UnlinkLaw g s limit p

/-- A path leads on from directories only. -/
def ThroughDirs (s : Fs) (limit : ℕ) : Prop :=
  ∀ p c n, Normalized limit (p ++ [c]) → lookup g s p = some n → lookup g s (p ++ [c]) ≠ none →
    isDir (inodeAt g s.disk n) = true

end

section

variable {g : Geometry} {s s' : Fs} {limit d n : ℕ} {p q ps : List Name} {c : Name}

lemma length_pathString_concat (p : List Name) (c : Name) :
    (pathString p).length ≤ (pathString (p ++ [c])).length := by
  rw [pathString_concat, length_append, length_cons, pathString]
  split_ifs
  · rw [length_singleton]
    omega
  · omega

lemma Normalized.init (h : Normalized limit (p ++ [c])) : Normalized limit p :=
  ⟨fun x hx => h.components x (mem_append_left _ hx), (length_pathString_concat p c).trans h.length⟩

lemma Normalized.mono {limit' : ℕ} (h : Normalized limit p) (hle : limit ≤ limit') : Normalized limit' p :=
  ⟨h.components, h.length.trans hle⟩

lemma Intact.lookup_eq (h : Intact g s) (hp : ∀ x ∈ p, Component x) : lookup g s p = resolve g s.disk p := by
  rw [lookup, ext2Lookup_pathString h.consistent.inodesFit h.noFault hp]

lemma Sound.place_target (h : Sound g s) (hp : place g s.disk p = some n) : Target g s n := by
  induction p using List.reverseRecOn generalizing n with
  | nil =>
    obtain rfl : 2 = n := some.inj hp
    exact ⟨h.root.inUse, .inl h.root.dir⟩
  | append_singleton p c ih =>
    rw [place, walk_concat] at hp
    obtain ⟨d, hd, hn⟩ := bind_eq_some_iff.mp hp
    rw [entryOf] at hn
    split_ifs at hn with hdir
    exact h.target ⟨(ih hd).inUse, hdir⟩ hn

lemma resolve_eq_place (hdirs : ∀ q c n, q ++ [c] <+: p → resolve g s.disk q = some n → child g s.disk n c ≠ none →
      isDir (inodeAt g s.disk n) = true) : resolve g s.disk p = place g s.disk p := by
  induction p using List.reverseRecOn with
  | nil => rfl
  | append_singleton p c ih =>
    have hp : resolve g s.disk p = place g s.disk p :=
      ih fun q x n hq => hdirs q x n (hq.trans (prefix_append p [c]))
    rw [resolve_concat, place, walk_concat, hp, ← place]
    cases hd : place g s.disk p with
    | none => rfl
    | some d =>
      rw [bind_some, bind_some, entryOf]
      split_ifs with hdir
      · rfl
      · by_contra hne
        exact hdir (hdirs p c d (prefix_refl _) (hp.trans hd) hne)

lemma ThroughDirs.dir (ht : ThroughDirs g s limit) (h : Intact g s) (hp : Normalized limit (p ++ [c]))
    (hn : resolve g s.disk p = some n) (hc : child g s.disk n c ≠ none) : isDir (inodeAt g s.disk n) = true := by
  refine ht p c n hp ?_ ?_
  · rw [h.lookup_eq hp.init.components, hn]
  · rw [h.lookup_eq hp.components, resolve_child hn]
    exact hc

lemma Normalized.of_prefix (hp : Normalized limit p) (hq : q <+: p) : Normalized limit q := by
  obtain ⟨r, rfl⟩ := hq
  induction r using List.reverseRecOn with
  | nil =>
    rw [append_nil] at hp
    exact hp
  | append_singleton r c ih =>
    rw [← append_assoc] at hp
    exact ih hp.init

lemma ThroughDirs.resolve_eq (ht : ThroughDirs g s limit) (h : Intact g s) (hp : Normalized limit p) :
    resolve g s.disk p = place g s.disk p :=
  resolve_eq_place fun _ _ _ hq => ht.dir h (hp.of_prefix hq)

lemma ThroughDirs.inUse (ht : ThroughDirs g s limit) (h : Sound g s) (hp : Normalized limit p)
    (hn : resolve g s.disk p = some n) : InUse g s n := by
  rw [ht.resolve_eq h.toIntact hp] at hn
  exact (h.place_target hn).inUse

end

section

variable {g : Geometry} {s s' : Fs} {limit d n : ℕ} {p ps q : List Name} {c : Name}

section

variable (h : FileTree g s) (ht : ThroughDirs g s limit) (hq : Normalized limit q) (hdir : IsDir g s d)
include h ht hq hdir

lemma FileTree.only_path (hp : Normalized limit p) (hpd : resolve g s.disk p = some d)
    (hqd : resolve g s.disk q = some d) : q = p := by
  rw [ht.resolve_eq h.toIntact hp] at hpd
  rw [ht.resolve_eq h.toIntact hq] at hqd
  exact h.tree q p d hq.components hp.components hqd hpd hdir.dir

variable (hps : Normalized limit (ps ++ [c])) (hd : resolve g s.disk ps = some d)
include hps hd

lemma Created.resolve (hc : Created g d c n s s') (hempty : ∀ k < 15, iBlock (inodeAt g s'.disk n) k = 0) :
    resolve g s'.disk q = if q = ps ++ [c] then some n else Ext2.resolve g s.disk q := by
  refine walk_replace (P := Normalized limit) (fun q j hq => hq.init) hd hc.absent (hc.child c |>.trans (if_pos rfl))
    (fun m j hm => by cases hm) (fun m j hm _ => ?_) (fun q m j hq hm hne => ?_) q hq
  · cases hm
    rw [Ext2.child, searchSlots, if_pos (hempty 0 (by omega))]
  have hm' : Ext2.resolve g s.disk q = some m := hm
  by_cases hmd : m = d
  · subst hmd
    have hqp := h.only_path ht hq.init hdir hps.init hd hm'
    rw [hc.child j, if_neg fun hj => hne ⟨hqp, hj⟩]
  · exact (hc.unchanged.sameFile ⟨ht.inUse h.toSound hq.init hm', hmd⟩).child

lemma Unlinked.resolve (hu : Unlinked g d c n s s') (hn : Ext2.child g s.disk d c = some n)
    (hreg : isDir (inodeAt g s.disk n) = false) :
    resolve g s'.disk q = if q = ps ++ [c] then none else Ext2.resolve g s.disk q := by
  -- nothing is found in the file
  have hleaf : ∀ q j, Normalized limit (q ++ [j]) → Ext2.resolve g s.disk q = some n →
      Ext2.child g s.disk n j = none := by
    intro q j hq hqn
    by_contra hne
    rw [ht.dir h.toIntact hq hqn hne] at hreg
    cases hreg
  refine walk_replace (P := Normalized limit) (fun q j hq => hq.init) hd hn (hu.child c |>.trans (if_pos rfl))
    (fun m j hm hj => ?_) (fun m j hm => by cases hm) (fun q m j hq hm hne => ?_) q hq
  · cases hm
    exact hleaf (ps ++ [c]) j hj (by rw [resolve_child hd, hn])
  have hm' : Ext2.resolve g s.disk q = some m := hm
  by_cases hmd : m = d
  · subst hmd
    have hqp := h.only_path ht hq.init hdir hps.init hd hm'
    rw [hu.child j, if_neg fun hj => hne ⟨hqp, hj⟩]
  by_cases hmn : m = n
  · subst hmn
    rw [hleaf q j hq hm']
    rcases hu.child_self j with hz | hz
    · exact hz
    · rw [hz, hleaf q j hq hm']
  · exact (hu.unchanged.sameFile ⟨ht.inUse h.toSound hq.init hm', hmd, hmn⟩).child

end

section

variable (h : FileTree g s) (ht : ThroughDirs g s limit) (hp : Normalized limit p) (hparent : ParentIsDir g s p)
include h ht hp hparent

theorem createLaw_of_throughDirs : CreateLaw g s limit p := by
  obtain ⟨ps, c, d, rfl, hd, hdir⟩ := hparent
  rw [h.lookup_eq hp.init.components] at hd
  intro uid gid n s' he hn0
  rcases ext2Create_spec h.toSound hp.init.components (hp.components c (by simp)) hd hdir uid gid with
    ⟨s1, he1, -⟩ | ⟨n1, s1, he1, hc, hinode⟩
  · obtain ⟨rfl, -⟩ := Prod.mk.inj (he1.symm.trans he)
    exact absurd rfl hn0
  obtain ⟨rfl, rfl⟩ := Prod.mk.inj (he1.symm.trans he)
  have hempty : ∀ k < 15, iBlock (inodeAt g s1.disk n1) k = 0 := by
    intro k hk
    rw [hinode, iBlock_slice hk, iBlock_newInode]
  have hafter : ∀ q, Normalized limit q → lookup g s1 q = if q = ps ++ [c] then some n1 else lookup g s q := by
    intro q hq
    rw [hc.sound.lookup_eq hq.components, hc.resolve h ht hq hdir hp hd hempty, h.lookup_eq hq.components]
  refine ⟨?_, fun q hq hqn => ?_, fun q hq hne => ?_⟩
  · rw [hafter _ hp, if_pos rfl]
  · rw [h.lookup_eq hq.components] at hqn
    exact hc.fresh (ht.inUse h.toSound hq hqn)
  · rw [hafter q hq, if_neg hne]

theorem unlinkLaw_of_throughDirs : UnlinkLaw g s limit p := by
  obtain ⟨ps, c, d, rfl, hd, hdir⟩ := hparent
  rw [h.lookup_eq hp.init.components] at hd
  intro n s' hn hreg he
  rw [h.lookup_eq hp.components, resolve_child hd] at hn
  have hfile := isDir_of_isReg hreg
  have hnd := (hdir.ne_file hfile).symm
  obtain ⟨s1, he1, hu⟩ := ext2Unlink_spec h.toSound hp.init.components (hp.components c (by simp)) hd hdir hn hnd
  obtain ⟨-, rfl⟩ := Prod.mk.inj (he1.symm.trans he)
  have hafter : ∀ q, Normalized limit q → lookup g s1 q = if q = ps ++ [c] then none else lookup g s q := by
    intro q hq
    rw [hu.intact.lookup_eq hq.components, hu.resolve h ht hq hdir hp hd hn hfile, h.lookup_eq hq.components]
  refine ⟨?_, fun q hq hne => ?_⟩
  · rw [hafter _ hp, if_pos rfl]
  · rw [hafter q hq, if_neg hne]

end

/-- Where a path leads on from a file, the removal of the file changes two paths. -/
theorem throughDirs_of_unlinkLaw (h : Sound g s)
    (hlaw : ∀ p, Normalized limit p → ParentIsDir g s p → UnlinkLaw g s limit p) : ThroughDirs g s limit := by
  intro p
  -- below the shortest such path there is a contradiction, so the paths before it are places
  induction hlen : p.length using Nat.strong_induction_on generalizing p with
  | _ len ih =>
    intro c n hpc hn hc
    have hbefore : ∀ q x m, q ++ [x] <+: p → resolve g s.disk q = some m → child g s.disk m x ≠ none →
        isDir (inodeAt g s.disk m) = true := by
      intro q x m hq hm hx
      have hqx := hpc.init.of_prefix hq
      have hlt : q.length < len := by
        have := hq.length_le
        rw [length_append, length_singleton] at this
        omega
      refine ih q.length hlt q rfl x m hqx ?_ ?_
      · rw [h.lookup_eq hqx.init.components, hm]
      · rw [h.lookup_eq hqx.components, resolve_child hm]
        exact hx
    rw [h.lookup_eq hpc.init.components] at hn
    have hplace := resolve_eq_place hbefore
    have htarget := h.place_target (hplace ▸ hn)
    rcases htarget.kind with hdir | hreg
    · exact hdir
    exfalso
    rcases eq_nil_or_concat' p with rfl | ⟨q, x, rfl⟩
    · obtain rfl : 2 = n := some.inj hn
      exact absurd rfl (h.root.ne_file (isDir_of_isReg hreg))
    have hqx := hpc.init
    obtain ⟨d, hd, hx⟩ := bind_eq_some_iff.mp ((resolve_concat s.disk q x).symm.trans hn)
    have hdir : IsDir g s d := by
      refine ⟨?_, hbefore q x d (prefix_refl _) hd (by rw [hx]; simp)⟩
      rw [resolve_eq_place fun r y m hr => hbefore r y m (hr.trans (prefix_append q [x]))] at hd
      exact (h.place_target hd).inUse
    have hnd := (hdir.ne_file (isDir_of_isReg hreg)).symm
    obtain ⟨s', he, hu⟩ := ext2Unlink_spec h hqx.init.components (hqx.components x (by simp)) hd hdir hx hnd
    have hparent : ParentIsDir g s (q ++ [x]) :=
      ⟨q, x, d, rfl, by rw [h.lookup_eq hqx.init.components, hd], hdir⟩
    obtain ⟨hgone, hother⟩ := hlaw _ hqx hparent n s' (by rw [h.lookup_eq hqx.components, hn]) hreg he
    rw [hu.intact.lookup_eq hqx.components] at hgone
    have hsame := hother (q ++ [x] ++ [c]) hpc (by simp)
    rw [hu.intact.lookup_eq hpc.components, resolve_concat, hgone, bind_none] at hsame
    exact hc hsame.symm

end

section

variable {g : Geometry} {s : Fs} {inos : List ℕ} {n : ℕ} {p : List Name} {c : Name}

/-- The directories that entries under proper names refer to. -/
def dirRefs (g : Geometry) (s : Fs) (inos : List ℕ) : List (ℕ × Name × ℕ) :=
  (inos.filter fun d => isDir (inodeAt g s.disk d)).flatMap fun d =>
    ((entriesOf g s.disk d).filter fun e => Component e.1 ∧ isDir (inodeAt g s.disk e.2)).map (d, ·)

lemma mem_dirRefs {d : ℕ} (h : Sound g s) (huse : InUse g s = (· ∈ inos)) (hdir : IsDir g s d)
    (hc : Component c) (hn : child g s.disk d c = some n) (hdn : isDir (inodeAt g s.disk n) = true) :
    (d, c, n) ∈ dirRefs g s inos := by
  have hmem : d ∈ inos := by
    have := hdir.inUse
    rw [huse] at this
    exact this
  rw [(h.dirs d hdir).child] at hn
  obtain ⟨l1, l2, hl, -⟩ := lookup_eq_some_iff.mp hn
  refine mem_flatMap.mpr ⟨d, mem_filter.mpr ⟨hmem, hdir.dir⟩, mem_map_of_mem ?_⟩
  refine mem_filter.mpr ⟨by rw [hl]; simp, decide_eq_true ⟨hc, hdn⟩⟩

/-- The entries that lead from directories to directories. -/
def dirEntry (g : Geometry) (disk : Mem) (n : ℕ) (c : Name) : Option ℕ :=
  if Component c then (entryOf g disk n c).filter fun m => isDir (inodeAt g disk m) else none

lemma of_dirEntry {m : ℕ} (h : dirEntry g s.disk n c = some m) :
    Component c ∧ entryOf g s.disk n c = some m ∧ isDir (inodeAt g s.disk m) = true := by
  rw [dirEntry] at h
  split_ifs at h with hc
  obtain ⟨he, hdir⟩ := filter_eq_some_iff.mp h
  exact ⟨hc, he, hdir⟩

lemma place_of_walk (h : walk (fun _ => dirEntry g s.disk) 0 2 p = some n) : place g s.disk p = some n := by
  induction p using List.reverseRecOn generalizing n with
  | nil => exact h
  | append_singleton p c ih =>
    rw [walk_concat] at h
    obtain ⟨d, hd, hn⟩ := bind_eq_some_iff.mp h
    rw [place, walk_concat, ← place, ih hd]
    exact (of_dirEntry hn).2.1

lemma walk_dirEntry (hp : ∀ c ∈ p, Component c) (hn : place g s.disk p = some n)
    (hdir : isDir (inodeAt g s.disk n) = true) : walk (fun _ => dirEntry g s.disk) 0 2 p = some n := by
  induction p using List.reverseRecOn generalizing n with
  | nil => exact hn
  | append_singleton p c ih =>
    rw [place, walk_concat] at hn
    obtain ⟨d, hd, hn⟩ := bind_eq_some_iff.mp hn
    have hdd : isDir (inodeAt g s.disk d) = true := by
      rw [entryOf] at hn
      split_ifs at hn with hdd
      exact hdd
    rw [walk_concat, ih (fun x hx => hp x (mem_append_left _ hx)) hd hdd, bind_some, dirEntry,
      if_pos (hp c (by simp)), hn, filter_some, if_pos hdir]

/-- A sound filesystem is a tree if no directory but the root is referred to twice, and the
root not at all. -/
theorem SoundChecked.fileTree (h : SoundChecked g s inos) (hn : NoFault s)
    (hrefs : (2 :: (dirRefs g s inos).map fun r => r.2.2).Nodup) : FileTree g s := by
  have hsound := h.sound hn
  obtain ⟨hroot, hnodup⟩ := nodup_cons.mp hrefs
  have hstep : ∀ p d c m, walk (fun _ => dirEntry g s.disk) 0 2 p = some d → dirEntry g s.disk d c = some m →
      (d, c, m) ∈ dirRefs g s inos := by
    intro p d c m hp hm
    obtain ⟨hc, he, hdm⟩ := of_dirEntry hm
    rw [entryOf] at he
    split_ifs at he with hdd
    exact mem_dirRefs hsound h.bits.inUse ⟨(hsound.place_target (place_of_walk hp)).inUse, hdd⟩ hc he hdm
  refine ⟨hsound, fun p q d hp hq hpd hqd hdir => ?_⟩
  have hsharing : NoSharing (fun _ => dirEntry g s.disk) 2 (max p.length q.length) := by
    refine noSharing_of_unique (fun p n c _ hp hc => ?_) fun p q m n c x d _ _ hp hq hm hn => ?_
    · exact hroot (mem_map.mpr ⟨_, hstep p n c 2 hp hc, rfl⟩)
    have := inj_on_of_nodup_map hnodup (hstep p m c d hp hm) (hstep q n x d hq hn) rfl
    simp only [Prod.mk.injEq] at this
    exact ⟨this.1, this.2.1⟩
  exact hsharing p q d (le_max_left _ _) (le_max_right _ _) (walk_dirEntry hp hpd hdir) (walk_dirEntry hq hqd hdir)

end

section

variable {g : Geometry} {s : Fs} {limit : ℕ}

lemma Sound.throughDirs (h : Sound g s)
    (hfiles : ∀ n c, InUse g s n → isDir (inodeAt g s.disk n) = false → child g s.disk n c = none) :
    ThroughDirs g s limit := by
  intro p c n hp hn hne
  rw [h.lookup_eq hp.init.components] at hn
  rw [h.lookup_eq hp.components, resolve_child hn] at hne
  have hinUse : ∀ p n, resolve g s.disk p = some n → InUse g s n := by
    intro p
    induction p using List.reverseRecOn with
    | nil =>
      intro n hn
      obtain rfl : 2 = n := some.inj hn
      exact h.root.inUse
    | append_singleton p c ih =>
      intro n hn
      obtain ⟨d, hd, hc⟩ := bind_eq_some_iff.mp ((resolve_concat s.disk p c).symm.trans hn)
      have hdir : isDir (inodeAt g s.disk d) = true := by
        by_contra hf
        rw [hfiles d c (ih d hd) (Bool.not_eq_true _ ▸ hf)] at hc
        cases hc
      exact (h.target ⟨ih d hd, hdir⟩ hc).inUse
  by_contra hf
  exact hne (hfiles n c (hinUse p n hn) (Bool.not_eq_true _ ▸ hf))

lemma child_none_of_invalid {n : ℕ} (hv : direntValid (slotBlock g s.disk (inodeAt g s.disk n) 0) 0 g.blockSize = false)
    (h1 : iBlock (inodeAt g s.disk n) 1 = 0) (c : Name) : child g s.disk n c = none := by
  have hfind : dirFindInBlock (slotBlock g s.disk (inodeAt g s.disk n) 0) g.blockSize c 0 = 0 := by
    rw [dirFindInBlock, dif_neg]
    rw [hv]
    simp
  rw [child, searchSlots]
  split_ifs with h0
  · rfl
  · simp only [hfind, ne_eq, not_true, if_false]
    rw [searchSlots, if_pos h1]

end

/-- A volume with a file `f` in its root directory: inode 3, whose block 7 holds the bytes. -/
def fileVolume (bytes : List UInt8) : Fs where
  disk := image [(2048, [3, 0, 0, 0, 4, 0, 0, 0, 5, 0, 0, 0, 8, 0, 5, 0]), (3072, [0x7f, 0x80]), (4096, [7]),
    (5248, [0xed, 0x41, 0, 0, 0, 4]), (5274, [2, 0, 2]), (5288, [6]),
    (5376, [0xa4, 0x81, 0, 0, UInt8.ofNat bytes.length]), (5402, [1, 0, 2]), (5416, [7]),
    (6144, [2, 0, 0, 0, 12, 0, 1, 2, 46, 0, 0, 0, 2, 0, 0, 0, 12, 0, 2, 2, 46, 46, 0, 0,
      3, 0, 0, 0, 0xe8, 3, 1, 1, 102]), (7168, bytes)]
  sb := image [(0, [8, 0, 0, 0, 16, 0, 0, 0, 0, 0, 0, 0, 8, 0, 0, 0, 5])]
  outcomes _ := true

/-- Bytes that look like an entry `c` for inode 3. -/
def forgedEntry : List UInt8 := [3, 0, 0, 0, 0, 4, 1, 1, 99]

/-- What is evaluated for such a volume. -/
abbrev FileVolumeChecked (bytes : List UInt8) : Prop :=
  SoundChecked smallGeometry (fileVolume bytes) [1, 2, 3] ∧
    (2 :: (dirRefs smallGeometry (fileVolume bytes) [1, 2, 3]).map fun r => r.2.2).Nodup

lemma checked_text : FileVolumeChecked [104, 105] := by decide +kernel

lemma fileTree_text : FileTree smallGeometry (fileVolume [104, 105]) :=
  checked_text.1.fileTree (fun _ => rfl) checked_text.2

lemma inUse_fileVolume : InUse smallGeometry (fileVolume [104, 105]) 3 := by
  rw [checked_text.1.bits.inUse]
  decide

lemma fileTree_forged : FileTree smallGeometry (fileVolume forgedEntry) := by
  have hc : FileVolumeChecked forgedEntry := by decide +kernel
  exact hc.1.fileTree (fun _ => rfl) hc.2

/-- In a filesystem whose directories form a tree, creating and removing files obeys the laws
of names exactly where paths lead on from directories only. -/
theorem namespace_law (g : Geometry) (s : Fs) (h : FileTree g s) :
    (NamespaceLaw g s 255 ↔ ThroughDirs g s 255) ∧
      ∀ limit, 255 ≤ limit → ThroughDirs g s limit → NamespaceLaw g s limit := by
  have hlaws : ∀ limit, 255 ≤ limit → ThroughDirs g s limit → NamespaceLaw g s limit := by
    intro limit hle ht p hp hparent
    exact ⟨createLaw_of_throughDirs h ht (hp.mono hle) hparent, unlinkLaw_of_throughDirs h ht (hp.mono hle) hparent⟩
  refine ⟨⟨fun hlaw => ?_, hlaws 255 (le_refl _)⟩, hlaws⟩
  exact throughDirs_of_unlinkLaw h.toSound fun p hp hparent => (hlaw p hp hparent).2

/-- The file `f` holds text. -/
theorem namespace_law_text : FileTree smallGeometry (fileVolume [104, 105]) ∧
    ThroughDirs smallGeometry (fileVolume [104, 105]) 255 ∧
    NamespaceLaw smallGeometry (fileVolume [104, 105]) 255 := by
  have hdirs : ThroughDirs smallGeometry (fileVolume [104, 105]) 255 := by
    refine fileTree_text.throughDirs fun n c hu hfile => ?_
    have hmem : n ∈ [1, 2, 3] := by
      rw [checked_text.1.bits.inUse] at hu
      exact hu
    revert hfile
    simp only [mem_cons, not_mem_nil, or_false] at hmem
    rcases hmem with rfl | rfl | rfl
    · intro _
      exact child_none_of_invalid (by decide +kernel) (by decide +kernel) c
    · intro hfile
      rw [fileTree_text.root.dir] at hfile
      cases hfile
    · intro _
      exact child_none_of_invalid (by decide +kernel) (by decide +kernel) c
  exact ⟨fileTree_text, hdirs, (namespace_law _ _ fileTree_text).1.mpr hdirs⟩

/-- The file `f` holds bytes that look like an entry: its removal changes where the path
`/f/c` leads. -/
theorem unlink_changes_path_through_file : FileTree smallGeometry (fileVolume forgedEntry) ∧
    Normalized 255 [[102]] ∧ ParentIsDir smallGeometry (fileVolume forgedEntry) [[102]] ∧
    lookup smallGeometry (fileVolume forgedEntry) [[102]] = some 3 ∧
    isReg (inodeAt smallGeometry (fileVolume forgedEntry).disk 3) = true ∧
    Normalized 255 [[102], [99]] ∧
    lookup smallGeometry (fileVolume forgedEntry) [[102], [99]] = some 3 ∧
    ∃ s', ext2Unlink smallGeometry (fileVolume forgedEntry) (pathString [[102]]) = (true, s') ∧
      lookup smallGeometry s' [[102], [99]] = none := by
  have hok : (ext2Unlink smallGeometry (fileVolume forgedEntry) (pathString [[102]])).1 = true := by decide +kernel
  refine ⟨fileTree_forged, by decide, ⟨[], [102], 2, rfl, by decide +kernel, fileTree_forged.root⟩,
    by decide +kernel, by decide +kernel, by decide, by decide +kernel, _, Prod.ext hok rfl, by decide +kernel⟩

end AetherOS.Ext2
