import AetherOS.Ext2Directories

/-!
# A directory is a map

Calls of `dir_add_entry` and `dir_remove_entry` on one directory, in any order, are calls
on a map from names to inodes. The search by `dir_find_in_block` reads the map.
-/
namespace AetherOS.Ext2
open ByteMemory ByteBitmap Runs Function List

section

variable {l l' : List (Name × ℕ)} {name : Name} {i : ℕ}

lemma Inserted.perm (h : Inserted l (name, i) l') : l'.Perm ((name, i) :: l) := by
  obtain ⟨l1, l2, rfl, rfl⟩ := h
  exact perm_middle

lemma Inserted.nodup_iff (h : Inserted l (name, i) l') :
    (l'.map Prod.fst).Nodup ↔ name ∉ l.map Prod.fst ∧ (l.map Prod.fst).Nodup := by
  rw [(h.perm.map Prod.fst).nodup_iff, map_cons, nodup_cons]

lemma lookup_eq_none (n : Name) : l.lookup n = none ↔ n ∉ l.map Prod.fst := by
  rw [lookup_eq_none_iff]
  constructor
  · intro h hmem
    obtain ⟨e, he, rfl⟩ := mem_map.mp hmem
    simpa using h e he
  intro h e he
  refine bne_iff_ne.mpr ?_
  rintro rfl
  exact h (mem_map_of_mem he)

lemma Inserted.lookup (h : Inserted l (name, i) l') (hnot : name ∉ l.map Prod.fst) (n : Name) :
    l'.lookup n = if n = name then some i else l.lookup n := by
  obtain ⟨l1, l2, rfl, rfl⟩ := h
  rw [map_append, mem_append, not_or] at hnot
  rw [lookup_append, lookup_append, lookup_cons]
  by_cases hn : n = name
  · subst hn
    rw [if_pos rfl, (lookup_eq_none n).mpr hnot.1, beq_self_eq_true]
    rfl
  · rw [if_neg hn, beq_false_of_ne hn]

end

inductive DirCall where
  | add (name : Name) (ino ftype : ℕ)
  | remove (name : Name)

/-- What a call does to the map, given whether it succeeds. -/
def mapStep (m : Name → Option ℕ) : DirCall × Bool → (Name → Option ℕ) → Prop
  | (.add name ino _, true), m' => m name = none ∧ m' = update m name (some ino)
  | (.remove name, true), m' => m name ≠ none ∧ m' = update m name none
  | (_, false), m' => m' = m

/-- The bindings of directory `d`, as the search finds them. -/
def bindings (g : Geometry) (d : ℕ) (s : Fs) (name : Name) : Option ℕ :=
  dirFind g s.disk (inodeAt g s.disk d) name

/-- A call with its result. An entry is added with an inode and a name that is not there. -/
def dirStep (g : Geometry) (d : ℕ) (s : Fs) : DirCall × Bool → Fs → Prop
  | (.add name ino ftype, ok), s' =>
    0 < name.length ∧ name.length ≤ 254 ∧ ino ≠ 0 ∧ ino < 2 ^ 32 ∧ bindings g d s name = none ∧
      dirAddEntry g s d name ino ftype = (ok, s')
  | (.remove name, ok), s' => 0 < name.length ∧ name.length ≤ 254 ∧ dirRemoveEntry g s d name = (ok, s')

/-- A directory of a consistent volume: its blocks are chains of valid records, and its live
names are distinct. -/
structure Directory (g : Geometry) (live : ℕ → Prop) (d : ℕ) (s : Fs) : Prop where
  noFault : NoFault s
  consistent : Consistent g (s.mounted g live)
  live : live d
  chains : DirChains g s.disk (inodeAt g s.disk d)
  names : ((entriesOf g s.disk d).map Prod.fst).Nodup

section

variable {g : Geometry} {live : ℕ → Prop} {d : ℕ} {s s' : Fs}

lemma Directory.bindings (h : Directory g live d s) (name : Name) :
    bindings g d s name = (entriesOf g s.disk d).lookup name :=
  dirFind_eq h.chains

lemma DirEdited.directory (he : DirEdited g live d s s') (hd : Directory g live d s)
    (hnames : ((entriesOf g s'.disk d).map Prod.fst).Nodup) : Directory g live d s' :=
  ⟨he.touched.noFault, he.touched.consistent, hd.live, he.chains, hnames⟩

lemma Touched.directory (ht : Touched g live ∅ s s') (hd : Directory g live d s) :
    Directory g live d s' ∧ Ext2.bindings g d s' = Ext2.bindings g d s := by
  obtain ⟨h0, hreal⟩ := hd.consistent.live d hd.live
  have hi := ht.inodes d h0 (Set.notMem_empty d) hreal
  obtain ⟨hentries, hchains⟩ := entriesOf_congr hi (ht.bytes d hd.live (Set.notMem_empty d))
  have hd' : Directory g live d s' := by
    refine ⟨ht.noFault, ht.consistent, hd.live, hchains hd.chains, ?_⟩
    rw [hentries]
    exact hd.names
  refine ⟨hd', funext fun name => ?_⟩
  rw [hd'.bindings, hd.bindings, hentries]

/-- A call on the directory is a call on the map. -/
theorem dirStep_mapStep {a : DirCall × Bool} (hd : Directory g live d s) (hs : dirStep g d s a s') :
    Directory g live d s' ∧ mapStep (bindings g d s) a (bindings g d s') := by
  obtain ⟨call, ok⟩ := a
  cases call with
  | add name ino ftype =>
    obtain ⟨-, hlen, h0, hino, hfree, he⟩ := hs
    have hlen : name.length < 256 := by omega
    rcases dirAddEntry_spec hd.consistent hd.noFault hd.live hd.chains hlen hino h0 ftype with
      ⟨s1, hs1, ht⟩ | ⟨s1, hs1, hedit, hins⟩
    · obtain ⟨rfl, rfl⟩ := Prod.mk.inj (hs1.symm.trans he)
      exact ht.directory hd
    obtain ⟨rfl, rfl⟩ := Prod.mk.inj (hs1.symm.trans he)
    have hnot : name ∉ (entriesOf g s.disk d).map Prod.fst := by
      rw [← lookup_eq_none, ← hd.bindings]
      exact hfree
    have hd' := hedit.directory hd (hins.nodup_iff.mpr ⟨hnot, hd.names⟩)
    refine ⟨hd', hfree, funext fun n => ?_⟩
    rw [hd'.bindings, hins.lookup hnot, update_apply, hd.bindings]
  | remove name =>
    obtain ⟨-, hlen, he⟩ := hs
    have hlen : name.length < 256 := by omega
    rcases dirRemoveEntry_spec hd.consistent hd.noFault hd.live hd.chains hlen with
      hz | ⟨s1, i, hs1, -, hedit, -, hins⟩
    · obtain ⟨rfl, rfl⟩ := Prod.mk.inj (hz.symm.trans he)
      exact ⟨hd, rfl⟩
    obtain ⟨rfl, rfl⟩ := Prod.mk.inj (hs1.symm.trans he)
    obtain ⟨hnot, hnames⟩ := hins.nodup_iff.mp hd.names
    have hd' := hedit.directory hd hnames
    have hbound : ∀ n, bindings g d s n = if n = name then some i else bindings g d s1 n := by
      intro n
      rw [hd.bindings, hins.lookup hnot, hd'.bindings]
    refine ⟨hd', ?_, funext fun n => ?_⟩
    · rw [hbound name, if_pos rfl]
      simp
    rw [update_apply]
    by_cases hn : n = name
    · rw [if_pos hn, hn, hd'.bindings, (lookup_eq_none name).mpr hnot]
    · rw [if_neg hn, hbound n, if_neg hn]

end

/-- A volume with an empty root directory: inode 2, whose block 6 holds `.` and `..`. -/
def rootVolume : Fs where
  disk := image [(2048, [3, 0, 0, 0, 4, 0, 0, 0, 5, 0, 0, 0, 9, 0, 6, 0]), (3072, [0x3f, 0x80]), (4096, [3]),
    (5248, [0xed, 0x41, 0, 0, 0, 4]), (5274, [2, 0, 2]), (5288, [6]),
    (6144, [2, 0, 0, 0, 12, 0, 1, 2, 46, 0, 0, 0, 2, 0, 0, 0, 0xf4, 3, 2, 2, 46, 46])]
  sb := image [(0, [8, 0, 0, 0, 16, 0, 0, 0, 0, 0, 0, 0, 9, 0, 0, 0, 6])]
  outcomes _ := true

lemma directory_rootVolume : Directory smallGeometry (· ∈ [2]) 2 rootVolume where
  noFault _ := rfl
  consistent := by
    have hchecked : Checked smallGeometry (rootVolume.mounted smallGeometry (· ∈ [2])) [2] := by
      decide +kernel
    exact hchecked.consistent rfl
  live := mem_singleton.mpr rfl
  chains := by decide +kernel
  names := by decide +kernel

end AetherOS.Ext2
