import AetherOS.Vfs

/-!
# Open files and later files

An entry of the table of open files is the number of an inode. As long as no inode is given
back while an entry refers to it, a write through the entry reaches the file that was opened.
When the name of an open file is removed, its inode is free and the next file that is created
gets it: writes through the entry go to the new file.
-/
namespace AetherOS.Vfs
open Ext2 Proc Runs Function

/-- The state, with the times at which the inodes in use were taken and the slots in use were
opened. -/
structure VfsRun where
  state : State
  clock : ℕ
  born : ℕ → ℕ
  opened : Fin vfsMaxOpen → ℕ

/-- A call. An inode that was not in use before is that of a new file. -/
structure VfsStep (g : Geometry) (s : VfsRun) (c : VfsCall) (s' : VfsRun) : Prop where
  state : s'.state = s.state.call g c
  clock : s'.clock = s.clock + 1
  newFile : ∀ n, ¬InUse g s.state.fs n → InUse g s'.state.fs n → s'.born n = s'.clock
  oldFile : ∀ n, InUse g s.state.fs n → s'.born n = s.born n
  newSlot : ∀ i, (s.state.files i).inUse = false → (s'.state.files i).inUse = true → s'.opened i = s'.clock
  oldSlot : ∀ i, (s.state.files i).inUse = true → s'.opened i = s.opened i

/-- A sound filesystem, and no open files. -/
structure VfsStart (g : Geometry) (s : VfsRun) : Prop where
  sound : Sound g s.state.fs
  files : ∀ i, (s.state.files i).inUse = false
  clock : s.clock = 0
  born : ∀ n, s.born n = 0

/-- A write through an open file leaves the files alone that were created after it was
opened. -/
def Isolated (g : Geometry) (s : VfsRun) : Prop :=
  ∀ (i : Fin vfsMaxOpen) data n, (s.state.files i).inUse = true → InUse g s.state.fs n → s.opened i < s.born n →
    Unchanged g (· = n) s.state.fs (vfsWrite g s.state i.val data).2.fs

section

variable (g : Geometry)

/-- The path fits into the buffers of ext2, and its names are searched in directories. -/
structure Proper (s : State) (cwd path : CString) : Prop where
  length : (vfsResolve cwd path).length ≤ 255
  dirs : DirsOnly g s.fs (resolvedNames cwd path)

/-- No slot refers to the inode. -/
def NotOpen (s : State) (n : ℕ) : Prop := ∀ i, (s.files i).inUse = true → (s.files i).inode ≠ n

/-- Directories are not written or truncated, links are counted right where a name is removed,
and no file loses its last name while it is open. -/
def Careful (s : State) : VfsCall → Prop
  | .open cwd path => Proper g s cwd path
  | .openEx cwd path flags _ _ => Proper g s cwd path ∧ (flags &&& 0x200 ≠ 0 →
      ∀ n, resolve g s.fs.disk (resolvedNames cwd path) = some n → isDir (inodeAt g s.fs.disk n) = false)
  | .creat cwd path _ _ => Proper g s cwd path
  | .mkdir cwd path _ _ => Proper g s cwd path
  | .unlink cwd path => Proper g s cwd path ∧ Removable g s.fs (resolvedNames cwd path) ∧
      ∀ n, resolve g s.fs.disk (resolvedNames cwd path) = some n → LastOne g s.fs n → NotOpen s n
  | .rename cwd old new => Proper g s cwd old ∧ Proper g s cwd new ∧ Removable g s.fs (resolvedNames cwd new) ∧
      ∀ n, resolve g s.fs.disk (resolvedNames cwd new) = some n →
        resolve g s.fs.disk (resolvedNames cwd old) ≠ some n → LastOne g s.fs n → NotOpen s n
  | .chmod cwd path _ => Proper g s cwd path
  | .chown cwd path _ _ => Proper g s cwd path
  | .read _ _ => True
  | .write fd _ => ∀ i, openFile s fd = some i → isDir (inodeAt g s.fs.disk (s.files i).inode) = false
  | .close _ => True

/-- The filesystem is sound and the inodes of open files are in use. -/
structure Steady (s : State) : Prop where
  sound : Sound g s.fs
  inUse : ∀ i, (s.files i).inUse = true → InUse g s.fs (s.files i).inode

/-- What a call does to the open files: those that were open refer to the same inodes. -/
structure Effect (s s' : State) : Prop where
  steady : Steady g s'
  same : ∀ i, (s'.files i).inUse = true → (s.files i).inUse = true → (s'.files i).inode = (s.files i).inode

end

section

variable {g : Geometry} {s s' : State} {fs : Fs} {n : ℕ} {i : Fin vfsMaxOpen} {cwd path : CString} {flags : UInt32}
  {fd : ℤ}

lemma Proper.components (h : Proper g s cwd path) : ∀ x ∈ resolvedNames cwd path, Component x :=
  (normalized_resolved h.length).components

/-- The slots stay as they are, apart from offsets. -/
def SameSlots (s s' : State) : Prop :=
  ∀ i, (s'.files i).inUse = (s.files i).inUse ∧ (s'.files i).inode = (s.files i).inode

lemma sameSlots_setOffset (s : State) (fs : Fs) (i : Fin vfsMaxOpen) (off : ℕ) :
    SameSlots s ⟨fs, update s.files i { s.files i with offset := off }⟩ := by
  intro j
  dsimp only
  exact update_cases j ⟨rfl, rfl⟩ fun _ => ⟨rfl, rfl⟩

lemma sameSlots_vfsWrite (fd : ℤ) (data : List UInt8) : SameSlots s (vfsWrite g s fd data).2 := by
  rw [vfsWrite]
  cases hi : openFile s fd with
  | none => exact fun _ => ⟨rfl, rfl⟩
  | some i =>
    simp only
    split
    · exact fun _ => ⟨rfl, rfl⟩
    · exact sameSlots_setOffset s _ i _

lemma sameSlots_vfsRead (fd : ℤ) (size : ℕ) : SameSlots s (vfsRead g s fd size).2 := by
  rw [vfsRead]
  cases hi : openFile s fd with
  | none => exact fun _ => ⟨rfl, rfl⟩
  | some i =>
    simp only
    split
    · exact fun _ => ⟨rfl, rfl⟩
    · exact sameSlots_setOffset s _ i _

section

variable (h : Steady g s)
include h

lemma Steady.lookup (hp : Proper g s cwd path) :
    ext2Lookup g s.fs (vfsResolve cwd path) = (resolve g s.fs.disk (resolvedNames cwd path), s.fs) :=
  ext2Lookup_pathString h.sound.consistent.inodesFit h.sound.noFault hp.components

lemma Steady.setFs (hfs : Sound g fs)
    (hkept : ∀ i, (s.files i).inUse = true → InUse g s.fs (s.files i).inode → InUse g fs (s.files i).inode) :
    Effect g s { s with fs := fs } :=
  ⟨⟨hfs, fun i hi => hkept i hi (h.inUse i hi)⟩, fun _ _ _ => rfl⟩

lemma Steady.drops {X : ℕ → Prop} (hd : Drops g X s.fs fs) (hX : ∀ n, X n → NotOpen s n) :
    Effect g s { s with fs := fs } :=
  h.setFs hd.sound fun i hi hu => hd.kept _ hu fun hx => hX _ hx i hi rfl

lemma Steady.makes (hm : Makes g n s.fs fs) : Effect g s { s with fs := fs } :=
  h.setFs hm.sound fun _ _ hu => (hm.inUse _).mpr (.inl hu)

omit h in
lemma Effect.openSlot {files : Fin vfsMaxOpen → VfsFile} (h : Effect g s { s with fs := fs }) (hn : InUse g fs n)
    (hslot : vfsOpenSlot s.files n 0 = (some i, files)) : Effect g s ⟨fs, files⟩ := by
  obtain ⟨hfree, rfl⟩ := vfsOpenSlot_eq hslot
  refine ⟨⟨h.steady.sound, fun j => ?_⟩, fun j => ?_⟩ <;> dsimp only
  · exact update_cases j (fun _ => hn) fun _ => h.steady.inUse j
  · exact update_cases j (fun _ hold => by simp [hfree] at hold) fun _ _ _ => rfl

omit h in
lemma Effect.sameSlots {s'' : State} (h : Effect g s s') (hs : SameSlots s' s'') (hfs : s''.fs = s'.fs) :
    Effect g s s'' := by
  refine ⟨⟨hfs ▸ h.steady.sound, fun j hj => ?_⟩, fun j hj hold => ?_⟩
  · rw [(hs j).1] at hj
    rw [hfs, (hs j).2]
    exact h.steady.inUse j hj
  · rw [(hs j).1] at hj
    rw [(hs j).2]
    exact h.same j hj hold

lemma Steady.refl : Effect g s s := ⟨h, fun _ _ _ => rfl⟩

lemma Steady.vfsOpen (hp : Proper g s cwd path) : Effect g s (vfsOpen g s (vfsResolve cwd path)).2 := by
  simp only [Vfs.vfsOpen, h.lookup hp]
  cases hn : resolve g s.fs.disk (resolvedNames cwd path) with
  | none => exact h.refl
  | some n =>
    simp only
    split
    · exact h.refl
    next i files hslot => exact Effect.openSlot h.refl (hp.dirs.target h.sound hn).inUse hslot

omit h in
lemma openFile_self {i : Fin vfsMaxOpen} (h : (s.files i).inUse = true) : openFile s i.val = some i := by
  have hsome : (openFile s i.val).isSome = true := by
    rw [openFile, List.find?_isSome]
    exact ⟨i, List.mem_finRange i, by simp [h]⟩
  obtain ⟨j, hj⟩ := Option.isSome_iff_exists.mp hsome
  have hfound := List.find?_some hj
  simp only [Bool.and_eq_true, decide_eq_true_eq] at hfound
  rw [hj, show j = i from Fin.ext (by omega)]

omit h in
lemma openFile_inUse (h : openFile s fd = some i) : (s.files i).inUse = true := by
  have hi := List.find?_some h
  simp only [Bool.and_eq_true] at hi
  exact hi.2

lemma Steady.vfsWrite_fileChanged (data : List UInt8) (hi : openFile s fd = some i)
    (hdir : isDir (inodeAt g s.fs.disk (s.files i).inode) = false) :
    FileChanged g (s.files i).inode s.fs (vfsWrite g s fd data).2.fs := by
  obtain ⟨r, fs, he, hc⟩ := ext2Write_fileChanged h.sound (h.inUse i (openFile_inUse hi)) hdir (s.files i).offset data
  simp only [Vfs.vfsWrite, hi, he]
  cases r with
  | none | some k => exact hc

lemma Steady.vfsWrite (data : List UInt8)
    (hfile : ∀ i, openFile s fd = some i → isDir (inodeAt g s.fs.disk (s.files i).inode) = false) :
    Effect g s (vfsWrite g s fd data).2 := by
  cases hi : openFile s fd with
  | none =>
    rw [Vfs.vfsWrite, hi]
    exact h.refl
  | some i =>
    have hc := h.vfsWrite_fileChanged data hi (hfile i hi)
    exact (h.setFs hc.sound fun _ _ hu => hc.inUse ▸ hu).sameSlots (sameSlots_vfsWrite fd data) rfl

lemma Steady.vfsRead_fs (fd : ℤ) (size : ℕ) : (vfsRead g s fd size).2.fs = s.fs := by
  rw [Vfs.vfsRead]
  cases hi : openFile s fd with
  | none => rfl
  | some i =>
    have hstate := ext2Read_state h.sound (h.inUse i (openFile_inUse hi)).ne_zero (s.files i).offset size
    rcases he : ext2Read g s.fs (s.files i).inode (s.files i).offset size with ⟨r, fs⟩
    rw [he] at hstate
    simp only [he]
    cases r with
    | none | some bytes => exact hstate

lemma Steady.vfsRead (size : ℕ) : Effect g s (vfsRead g s fd size).2 :=
  h.refl.sameSlots (sameSlots_vfsRead fd size) (h.vfsRead_fs fd size)

lemma Steady.vfsClose (fd : ℤ) : Effect g s (vfsCloseFile s fd) := by
  have hfile : ∀ i, (Proc.vfsClose s.files fd i).inode = (s.files i).inode ∧
      ((Proc.vfsClose s.files fd i).inUse = true → (s.files i).inUse = true) := by
    intro i
    rw [Proc.vfsClose]
    split
    · exact ⟨rfl, fun hc => Bool.noConfusion hc⟩
    · exact ⟨rfl, id⟩
  refine ⟨⟨h.sound, fun i hi => ?_⟩, fun i _ _ => (hfile i).1⟩
  rw [vfsCloseFile, (hfile i).1]
  exact h.inUse i ((hfile i).2 hi)

/-- What `vfs_open_ex` does before it looks for a slot: there is no file to open, it makes one, or it
takes the file at the path. -/
lemma Steady.prepare_cases {r : Option ℕ} {uid gid : ℕ} (hp : Proper g s cwd path)
    (he : prepare g s.fs (vfsResolve cwd path) flags uid gid = (r, fs)) :
    (r = none ∧ Failed g s.fs fs) ∨ (∃ n, r = some n ∧ n ≠ 0 ∧ flags &&& 0x40 ≠ 0 ∧ Makes g n s.fs fs) ∨
    ∃ n, r = some n ∧ resolve g s.fs.disk (resolvedNames cwd path) = some n ∧ InUse g s.fs n ∧
      fs = if flags &&& 0x200 ≠ 0 then (ext2Truncate g s.fs n).2 else s.fs := by
  simp only [prepare, h.lookup hp] at he
  cases hn : resolve g s.fs.disk (resolvedNames cwd path) with
  | none =>
    obtain ⟨m, fs', hc, hm, hfailed⟩ := ext2Create_makes h.sound hp.components hp.dirs uid gid
    simp only [hn, vfsResolve, hc] at he
    split_ifs at he with hflag h0
    · cases he
      exact .inl ⟨rfl, .refl h.sound⟩
    · cases he
      exact .inl ⟨rfl, hfailed h0⟩
    · cases he
      exact .inr (.inl ⟨m, rfl, h0, hflag, hm⟩)
  | some m =>
    have hu := (hp.dirs.target h.sound hn).inUse
    simp only [hn] at he
    split_ifs at he with hflag
    · cases he
      exact .inr (.inr ⟨m, rfl, rfl, hu, (if_pos hflag).symm⟩)
    · cases he
      exact .inr (.inr ⟨m, rfl, rfl, hu, (if_neg hflag).symm⟩)

omit h in
lemma Effect.appendOffset (h : Effect g s s') (hi : (s'.files i).inUse = true) (flags : UInt32) :
    Effect g s (appendOffset g s' i flags) := by
  rw [Vfs.appendOffset]
  split
  · have hstate := ext2FileSize_state h.steady.sound (h.steady.inUse i hi).ne_zero
    simp only [hstate]
    exact h.sameSlots (sameSlots_setOffset s' _ i _) rfl
  · exact h

section

variable (hp : Proper g s cwd path) (htrunc : flags &&& 0x200 ≠ 0 → ∀ n, resolve g s.fs.disk
  (resolvedNames cwd path) = some n → isDir (inodeAt g s.fs.disk n) = false)
include hp htrunc

lemma Steady.prepare {r : Option ℕ} {uid gid : ℕ}
    (he : prepare g s.fs (vfsResolve cwd path) flags uid gid = (r, fs)) :
    Effect g s { s with fs := fs } ∧ ∀ n, r = some n → InUse g fs n := by
  rcases h.prepare_cases hp he with ⟨rfl, hf⟩ | ⟨m, rfl, h0, -, hm⟩ | ⟨m, rfl, hn, hu, rfl⟩
  · exact ⟨h.makes hf.makes, fun n hc => by cases hc⟩
  · refine ⟨h.makes hm, fun n hn => ?_⟩
    cases hn
    exact (hm.inUse m).mpr (.inr ⟨h0, rfl⟩)
  split_ifs with hflag
  · obtain ⟨r, fs', ht, hc⟩ := ext2Truncate_fileChanged h.sound hu (htrunc hflag m hn)
    rw [ht]
    refine ⟨h.setFs hc.sound fun _ _ hk => hc.inUse ▸ hk, fun n hn => ?_⟩
    cases hn
    exact hc.inUse ▸ hu
  · refine ⟨h.refl, fun n hn => ?_⟩
    cases hn
    exact hu

lemma Steady.vfsOpenEx (uid gid : ℕ) : Effect g s (vfsOpenEx g s (vfsResolve cwd path) flags uid gid).2 := by
  rw [Vfs.vfsOpenEx]
  rcases he : Vfs.prepare g s.fs (vfsResolve cwd path) flags uid gid with ⟨r, fs⟩
  obtain ⟨heff, huse⟩ := h.prepare hp htrunc he
  cases r with
  | none => exact heff
  | some n =>
    simp only
    split
    · exact heff
    next i files hslot =>
      refine (heff.openSlot (huse n rfl) hslot).appendOffset ?_ flags
      rw [(vfsOpenSlot_eq hslot).2]
      simp

end

/-- Every careful call. -/
theorem Steady.call {c : VfsCall} (hc : Careful g s c) : Effect g s (s.call g c) := by
  cases c with
  | «open» cwd path => exact h.vfsOpen hc
  | openEx cwd path flags uid gid => exact h.vfsOpenEx hc.1 hc.2 uid gid
  | creat cwd path uid gid =>
    have hp : Proper g s cwd path := hc
    obtain ⟨n, fs, he, hm, -⟩ := ext2Create_makes h.sound hp.components hp.dirs uid gid
    simp only [State.call, vfsCreat, vfsResolve, he]
    exact h.makes hm
  | mkdir cwd path uid gid =>
    have hp : Proper g s cwd path := hc
    obtain ⟨n, fs, he, hm, -⟩ := ext2Mkdir_makes h.sound hp.components hp.dirs uid gid
    simp only [State.call, vfsMkdir, vfsResolve, he]
    exact h.makes hm
  | unlink cwd path =>
    obtain ⟨hp, hr, hopen⟩ := hc
    exact h.drops (ext2Unlink_drops h.sound hp.components hp.dirs hr) fun n hn => hopen n hn.1 hn.2
  | rename cwd old new =>
    obtain ⟨hp, hp', hr, hopen⟩ := hc
    exact h.drops (ext2Rename_drops h.sound hp.components hp'.components hp.dirs hp'.dirs hr)
      fun n hn => hopen n hn.1 hn.2.1 hn.2.2
  | chmod cwd path mode =>
    have hp : Proper g s cwd path := hc
    exact h.drops (ext2Chmod_drops h.sound hp.components hp.dirs mode) fun n hn => hn.elim
  | chown cwd path uid gid =>
    have hp : Proper g s cwd path := hc
    simp only [State.call, vfsChown, h.lookup hp]
    cases hn : resolve g s.fs.disk (resolvedNames cwd path) with
    | none => exact h.refl
    | some n =>
      exact h.drops (ext2InodeChown_drops h.sound (hp.dirs.target h.sound hn).inUse uid gid) fun n hn => hn.elim
  | read fd size => exact h.vfsRead size
  | write fd data => exact h.vfsWrite data hc
  | close fd => exact h.vfsClose fd

end

end

section

variable {g : Geometry} {s s' : VfsRun}

/-- The file of an open slot is not younger than the slot. -/
structure RunInv (g : Geometry) (s : VfsRun) : Prop where
  steady : Steady g s.state
  older : ∀ i, (s.state.files i).inUse = true → s.born (s.state.files i).inode ≤ s.opened i
  past : ∀ n, InUse g s.state.fs n → s.born n ≤ s.clock

lemma VfsStart.inv (h : VfsStart g s) : RunInv g s := by
  refine ⟨⟨h.sound, fun i hi => ?_⟩, fun i hi => ?_, fun n _ => ?_⟩
  · rw [h.files i] at hi
    cases hi
  · rw [h.files i] at hi
    cases hi
  · rw [h.born n]
    exact Nat.zero_le _

theorem RunInv.step {c : VfsCall} (h : RunInv g s) (hs : VfsStep g s c s') (hc : Careful g s.state c) :
    RunInv g s' := by
  have heff : Effect g s.state s'.state := hs.state ▸ h.steady.call hc
  have hpast : ∀ n, InUse g s'.state.fs n → s'.born n ≤ s'.clock := by
    intro n hn
    by_cases hold : InUse g s.state.fs n
    · rw [hs.oldFile n hold, hs.clock]
      exact (h.past n hold).trans (Nat.le_succ _)
    · rw [hs.newFile n hold hn]
  refine ⟨heff.steady, fun i hi => ?_, hpast⟩
  by_cases hold : (s.state.files i).inUse = true
  · rw [heff.same i hi hold, hs.oldFile _ (h.steady.inUse i hold), hs.oldSlot i hold]
    exact h.older i hold
  · rw [hs.newSlot i (Bool.not_eq_true _ ▸ hold) hi]
    exact hpast _ (heff.steady.inUse i hi)

/-- A write reaches the file of its slot only. -/
theorem RunInv.isolated (h : RunInv g s) : Isolated g s := by
  intro i data n hi hn hlater
  have hne : n ≠ (s.state.files i).inode := by
    rintro rfl
    exact absurd (h.older i hi) (Nat.not_le.mpr hlater)
  have hu := h.steady.inUse i hi
  rw [vfsWrite, openFile_self hi]
  by_cases hdata : data = []
  · have he : ext2Write g s.state.fs (s.state.files i).inode (s.state.files i).offset data = (none, s.state.fs) :=
      if_pos (.inr hdata)
    simp only [he]
    exact .refl _ _
  obtain ⟨w, fs, he, -, hw⟩ := h.steady.sound.ext2Write_spec hu (s.state.files i).offset hdata
  simp only [he]
  refine (hw.touched.unchanged h.steady.sound.toIntact).mono ?_
  rintro m rfl
  exact ⟨hn, hne⟩

/-- In every run of careful calls. -/
theorem isolated_of_careful (hr : Reachable (fun s c s' => VfsStep g s c s' ∧ Careful g s.state c) (VfsStart g) s) :
    Isolated g s := by
  have hinv : RunInv g s :=
    hr.invariant (fun _ hs => hs.inv) fun _ _ _ h hs => h.step hs.1 hs.2
  exact hinv.isolated

lemma exists_vfsStep (g : Geometry) (s : VfsRun) (c : VfsCall) : ∃ s', VfsStep g s c s' := by
  classical
  refine ⟨⟨s.state.call g c, s.clock + 1, fun n => if InUse g s.state.fs n then s.born n else s.clock + 1,
    fun i => if (s.state.files i).inUse = true then s.opened i else s.clock + 1⟩, rfl, rfl, fun n hn _ => if_neg hn,
    fun n hn => if_pos hn, fun i hi _ => if_neg ?_, fun i hi => if_pos hi⟩
  rw [hi]
  decide

lemma dirsOnly_name {fs : Fs} (h : Sound g fs) (c : Name) : DirsOnly g fs [c] := by
  intro q x d hq hd
  have hlen := hq.length_le
  rw [List.length_append, List.length_singleton, List.length_singleton] at hlen
  obtain rfl : q = [] := List.length_eq_zero_iff.mp (by omega)
  obtain rfl : 2 = d := Option.some.inj hd
  exact h.root.dir

lemma Proper.of_name {s : State} {cwd path : CString} {c : Name} (h : Sound g s.fs)
    (hn : resolvedNames cwd path = [c]) (hc : (pathString [c]).length ≤ 255) : Proper g s cwd path := by
  refine ⟨by rw [vfsResolve, hn]; exact hc, ?_⟩
  rw [hn]
  exact dirsOnly_name h c

end

/-- The volume with the file `f`, and no open files. -/
def textRun : VfsRun := ⟨⟨fileVolume [104, 105], fun _ => ⟨false, 0, 0⟩⟩, 0, fun _ => 0, fun _ => 0⟩

def rootPath : CString := ⟨[47], by decide⟩
def pathF : CString := ⟨[47, 102], by decide⟩
def pathG : CString := ⟨[47, 103], by decide⟩

lemma proper_pathF {s : State} (h : Sound smallGeometry s.fs) : Proper smallGeometry s rootPath pathF :=
  .of_name (c := [102]) h (by decide +kernel) (by decide)

lemma proper_pathG {s : State} (h : Sound smallGeometry s.fs) : Proper smallGeometry s rootPath pathG :=
  .of_name (c := [103]) h (by decide +kernel) (by decide)

lemma textRun_start : VfsStart smallGeometry textRun := ⟨fileTree_text.toSound, fun _ => rfl, rfl, fun _ => rfl⟩

/-- Whatever sequence of careful calls is made, the filesystem stays sound and every open file
refers to an inode in use. -/
theorem steady_of_careful {g : Geometry} {s : State} (hr : Reachable (fun s c s' => Careful g s c ∧ s' = s.call g c)
    (fun s => Sound g s.fs ∧ ∀ i, (s.files i).inUse = false) s) : Steady g s := by
  refine hr.invariant ?_ ?_
  · exact fun s h => ⟨h.1, fun i hi => absurd hi (by rw [h.2 i]; decide)⟩
  · rintro s c s' h ⟨hc, rfl⟩
    exact (h.call hc).steady

theorem steady_after_creat : Steady smallGeometry (textRun.state.call smallGeometry (.creat rootPath pathG 0 0)) := by
  have hc : Careful smallGeometry textRun.state (.creat rootPath pathG 0 0) := proper_pathG fileTree_text.toSound
  exact steady_of_careful ⟨textRun.state, [_], ⟨fileTree_text.toSound, fun _ => rfl⟩, .cons ⟨hc, rfl⟩ (.nil _)⟩

/-- The file `f` is opened, and then the file `g` is created. -/
theorem isolated_two_files : ∃ s, Run (VfsStep smallGeometry) textRun
    [.open rootPath pathF, .creat rootPath pathG 0 0] s ∧ Isolated smallGeometry s := by
  have hopen : Careful smallGeometry textRun.state (.open rootPath pathF) := proper_pathF fileTree_text.toSound
  obtain ⟨s1, h1⟩ := exists_vfsStep smallGeometry textRun (.open rootPath pathF)
  have hinv := textRun_start.inv.step h1 hopen
  have hcreat : Careful smallGeometry s1.state (.creat rootPath pathG 0 0) := proper_pathG hinv.steady.sound
  obtain ⟨s2, h2⟩ := exists_vfsStep smallGeometry s1 (.creat rootPath pathG 0 0)
  exact ⟨s2, .cons h1 (.cons h2 (.nil s2)), isolated_of_careful
    ⟨textRun, _, textRun_start, .cons ⟨h1, hopen⟩ (.cons ⟨h2, hcreat⟩ (.nil s2))⟩⟩

/-- The file `f` is opened and removed, and the file `g` gets its inode: what is written
through the slot of `f` becomes the contents of `g`. -/
theorem write_reaches_later_file : ∃ s, Run (VfsStep smallGeometry) textRun
    [.open rootPath pathF, .unlink rootPath pathF, .creat rootPath pathG 0 0] s ∧
    lookup smallGeometry s.state.fs [[103]] = some 3 ∧ ¬Isolated smallGeometry s := by
  obtain ⟨s1, h1⟩ := exists_vfsStep smallGeometry textRun (.open rootPath pathF)
  obtain ⟨s2, h2⟩ := exists_vfsStep smallGeometry s1 (.unlink rootPath pathF)
  obtain ⟨s3, h3⟩ := exists_vfsStep smallGeometry s2 (.creat rootPath pathG 0 0)
  have hopen1 : (s1.state.files 0).inUse = true := by
    rw [h1.state]
    decide +kernel
  have hopen2 : (s2.state.files 0).inUse = true := by
    rw [h2.state, h1.state]
    decide +kernel
  have hend : (s3.state.files 0).inUse = true ∧ lookup smallGeometry s3.state.fs [[103]] = some 3 := by
    rw [h3.state, h2.state, h1.state]
    decide +kernel
  have hopened : s3.opened 0 = 1 := by
    rw [h3.oldSlot 0 hopen2, h2.oldSlot 0 hopen1, h1.newSlot 0 rfl hopen1, h1.clock]
    rfl
  have hfree : ¬InUse smallGeometry s2.state.fs 3 := by
    intro hu
    have hbit := hu.bit
    rw [h2.state, h1.state] at hbit
    revert hbit
    decide +kernel
  have hused : InUse smallGeometry s3.state.fs 3 := by
    rw [h3.state, h2.state, h1.state]
    exact ⟨by decide, by decide +kernel, by decide +kernel⟩
  have hborn : s3.born 3 = 3 := by
    rw [h3.newFile 3 hfree hused, h3.clock, h2.clock, h1.clock]
    rfl
  refine ⟨s3, .cons h1 (.cons h2 (.cons h3 (.nil s3))), hend.2, fun hiso => ?_⟩
  have hsame := (hiso 0 [1] 3 hend.1 hused (by rw [hopened, hborn]; decide)).inodes 3 rfl
  -- the size of the new file was 0 and is 1
  have hsize := congrArg iSize hsame
  rw [h3.state, h2.state, h1.state] at hsize
  revert hsize
  decide +kernel

end AetherOS.Vfs
