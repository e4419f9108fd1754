import AetherOS.FileProtection

/-!
# Opening a file in two sections

`sys_open` resolves its path twice: once for the permission check, in `vfs_file_stat`, and
once to open the file, in `vfs_open_ex`. The lock of the filesystem is released in between, so
the calls of other processes may come between the two.
-/
namespace AetherOS.Vfs
open Ext2 Proc Runs Security Function Option

/-- An open that has passed its check: the path, the flags, and the inode whose permissions
were checked, if there was one. -/
structure Pending where
  path : Path
  flags : UInt32
  checked : Option ℕ
  deriving DecidableEq

/-- An open that returned a descriptor: whether the file was there, the inode that was
checked and the inode that the descriptor refers to. -/
structure Opened where
  existing : Bool
  checked : Option ℕ
  inode : Option ℕ
  deriving DecidableEq

section

variable (g : Geometry)

/-- The first section: the permission check. -/
def checkOpen (cred : Cred) (path : Path) (flags : UInt32) (s : State) : Option Pending × State :=
  let stat := vfsFileStat g s path
  let checked := if stat.1.isSome then (ext2Lookup g s.fs path).1 else none
  (if granted? cred flags stat.1 then some ⟨path, flags, checked⟩ else none, stat.2)

/-- The second section and the allocation of a descriptor. -/
def finishOpen (cred : Cred) (q : Pending) (s : Session) : ℤ × Session :=
  match vfsOpenEx g s.vfs q.path q.flags cred.euid.toNat cred.egid.toNat with
  | (vfd, vfs) =>
    if vfd < 0 then (-2, { s with vfs := vfs })
    else
      match fdAlloc s.fds vfd with
      | (none, _) => (-24, { s with vfs := vfsCloseFile vfs vfd })
      | (some fd, fds) => (fd.val, ⟨vfs, fds⟩)

lemma sysOpen_eq (cred : Cred) (cwd path : CString) (flags : UInt32) (s : Session) :
    sysOpen g cred cwd path flags s =
      match checkOpen g cred (vfsResolve cwd path) flags s.vfs with
      | (none, vfs) => (-13, { s with vfs := vfs })
      | (some q, vfs) => finishOpen g cred q { s with vfs := vfs } := by
  simp only [sysOpen, checkOpen]
  by_cases hok : granted? cred flags (vfsFileStat g s.vfs (vfsResolve cwd path)).1 = true
  · simp only [if_pos hok]
    rfl
  · simp [if_neg hok]

/-- The opening process with its open under way, and the opens that are done. -/
structure RaceState where
  session : Session
  pending : Option Pending
  done : List Opened

/-- A section of the opening process, or a call of another one. -/
inductive RaceEvent where
  | check (cwd path : CString) (flags : UInt32)
  | finish
  | other (c : VfsCall)

/-- The inode that a descriptor refers to. -/
def descriptorInode (s : Session) (fd : ℤ) : Option ℕ :=
  (openFile s.vfs (fdToVfs s.fds fd)).map fun i => (s.vfs.files i).inode

/-- An open that returned a descriptor. -/
def openedBy (q : Pending) (s : State) (r : ℤ × Session) : Opened :=
  ⟨(ext2Lookup g s.fs q.path).1.isSome, q.checked, descriptorInode r.2 r.1⟩

def raceStep (cred : Cred) (s : RaceState) : RaceEvent → RaceState → Prop
  | .check cwd path flags, s' => s.pending = none ∧
      s' = { s with
        session := { s.session with vfs := (checkOpen g cred (vfsResolve cwd path) flags s.session.vfs).2 }
        pending := (checkOpen g cred (vfsResolve cwd path) flags s.session.vfs).1 }
  | .finish, s' => ∃ q, s.pending = some q ∧
      s' =
        { session := (finishOpen g cred q s.session).2
          pending := none
          done := s.done ++ (if 0 ≤ (finishOpen g cred q s.session).1 then
            [openedBy g q s.session.vfs (finishOpen g cred q s.session)] else []) }
  | .other c, s' => s' = { s with session := { s.session with vfs := s.session.vfs.call g c } }

/-- A path for the buffers of `ext2_lookup` and `path_split`: its names have at most 255 bytes,
and its last slash is among the first 256. -/
def FitsBuffers (cwd path : CString) : Prop :=
  (∀ c ∈ resolvedNames cwd path, c.length ≤ 255) ∧ lastSlash (vfsResolve cwd path) 0 0 ≤ 255

def CallFits : VfsCall → Prop
  | .open cwd path | .openEx cwd path _ _ _ | .creat cwd path _ _ | .mkdir cwd path _ _
  | .unlink cwd path | .chmod cwd path _ | .chown cwd path _ _ => FitsBuffers cwd path
  | .rename cwd old new => FitsBuffers cwd old ∧ FitsBuffers cwd new
  | .read _ _ | .write _ _ | .close _ => True

/-- The paths fit, the device does not fail while a path is checked, and no call of another
process changes the inode at the path of an open that is under way. -/
def Undisturbed (s : RaceState) : RaceEvent → Prop
  | .check cwd path _ => g.InodesFit ∧ NoFault s.session.vfs.fs ∧ FitsBuffers cwd path
  | .finish => True
  | .other c => CallFits c ∧ ∀ q ∈ s.pending,
      (ext2Lookup g (s.session.vfs.call g c).fs q.path).1 = (ext2Lookup g s.session.vfs.fs q.path).1

end

/-- Every open of a file that was there checked the inode it opened. -/
def ChecksWhatItOpens (s : RaceState) : Prop :=
  ∀ o ∈ s.done, o.existing = true → ∃ n, o.checked = some n ∧ o.inode = some n

section

variable {g : Geometry} {s : Fs}

/-- On a device that does not fail a lookup changes nothing, and finds no inode 0. -/
lemma lookupLoop_state (hfit : g.InodesFit) (hn : NoFault s) (n : ℕ) (p : Path) (h0 : n ≠ 0) :
    (lookupLoop g s n p).2 = s ∧ (lookupLoop g s n p).1 ≠ some 0 := by
  induction hlen : p.length using Nat.strong_induction_on generalizing n p with
  | _ len ih =>
    rw [lookupLoop]
    split_ifs with hp
    · exact ⟨rfl, fun h => h0 (some.inj h)⟩
    have hlt : ((p.dropWhile (· ≠ 47)).drop 1).length < len := hlen ▸ length_next_lt hp
    simp only [readInode_eq hfit hn h0, searchLoop_eq hn]
    split_ifs with hname hfound
    · exact ih _ hlt n _ h0 rfl
    · exact ⟨rfl, fun h => by cases h⟩
    · exact ih _ hlt _ _ hfound rfl

lemma ext2Lookup_state (hfit : g.InodesFit) (hn : NoFault s) (path : Path) :
    (ext2Lookup g s path).2 = s ∧ (ext2Lookup g s path).1 ≠ some 0 := by
  rw [ext2Lookup]
  split_ifs
  · exact lookupLoop_state hfit hn 2 _ (by decide)
  · exact ⟨rfl, fun h => by cases h⟩

end

section

variable {g : Geometry} {cred : Cred} {s s' : RaceState} {t : State} {q : Pending} {n : ℕ} {path : Path}
  {flags : UInt32}

lemma checkOpen_pending (h : q ∈ (checkOpen g cred path flags t).1) :
    q.path = path ∧
      q.checked = if (vfsFileStat g t path).1.isSome then (ext2Lookup g t.fs path).1 else none := by
  simp only [checkOpen, mem_def] at h
  split at h
  · cases h
    exact ⟨rfl, rfl⟩
  · cases h

lemma checkOpen_spec (hfit : g.InodesFit) (hn : NoFault t.fs) (path : Path) (flags : UInt32) :
    (checkOpen g cred path flags t).2 = t ∧
      ∀ q ∈ (checkOpen g cred path flags t).1, q.path = path ∧ q.checked = (ext2Lookup g t.fs path).1 := by
  obtain ⟨hstate, hzero⟩ := ext2Lookup_state hfit hn path
  have hstat : (vfsFileStat g t path).2 = t ∧
      ((vfsFileStat g t path).1.isSome = true ∨ (ext2Lookup g t.fs path).1 = none) := by
    rcases hl : ext2Lookup g t.fs path with ⟨found, fs⟩
    rw [hl] at hstate hzero
    obtain rfl : fs = t.fs := hstate
    rw [vfsFileStat, hl]
    cases found with
    | none => exact ⟨rfl, .inr rfl⟩
    | some n =>
      have h0 : n ≠ 0 := fun h => hzero (congrArg some h)
      simp only [ext2InodeStat, readInode_eq hfit hn h0]
      exact ⟨trivial, .inl rfl⟩
  refine ⟨hstat.1, fun q hq => ?_⟩
  obtain ⟨hpath, hchecked⟩ := checkOpen_pending hq
  refine ⟨hpath, hchecked.trans ?_⟩
  rcases hstat.2 with hsome | hnone
  · rw [if_pos hsome]
  · rw [hnone, ite_self]

lemma fdToVfs_update (t : FdTable) (fd : Fin maxFds) (vfd : ℤ) :
    fdToVfs (update t fd ⟨true, .file, vfd⟩) fd.val = vfd := by simp [fdToVfs, fdType, fdId, fdEntry]

lemma vfsOpenEx_found {t' : State} {uid gid : ℕ} {vfd : ℤ}
    (h : vfsOpenEx g t path flags uid gid = (vfd, t')) (hvfd : 0 ≤ vfd) (hn : (ext2Lookup g t.fs path).1 = some n) :
    ∃ i, openFile t' vfd = some i ∧ (t'.files i).inode = n := by
  obtain ⟨fs, hprep⟩ : ∃ fs, prepare g t.fs path flags uid gid = (some n, fs) := by
    rcases hl : ext2Lookup g t.fs path with ⟨found, fs⟩
    rw [hl] at hn
    obtain rfl : found = some n := hn
    rw [prepare, hl]
    simp only
    split <;> exact ⟨_, rfl⟩
  rw [vfsOpenEx, hprep] at h
  simp only at h
  split at h
  · obtain ⟨rfl, -⟩ := Prod.mk.inj h
    omega
  rename_i i files hslot
  cases h
  obtain ⟨-, rfl⟩ := vfsOpenSlot_eq hslot
  -- the offset at the end of the file leaves the slot in use and its inode
  let file := (appendOffset g ⟨fs, update t.files i ⟨true, n, 0⟩⟩ i flags).files i
  have hfile : file.inUse = true ∧ file.inode = n := by
    unfold file
    rw [appendOffset]
    split
    · simp [update_self]
    · simp
  exact ⟨i, openFile_self hfile.1, hfile.2⟩

lemma finishOpen_found {x : Session} (hfd : 0 ≤ (finishOpen g cred q x).1)
    (hn : (ext2Lookup g x.vfs.fs q.path).1 = some n) :
    descriptorInode (finishOpen g cred q x).2 (finishOpen g cred q x).1 = some n := by
  rcases ho : vfsOpenEx g x.vfs q.path q.flags cred.euid.toNat cred.egid.toNat with ⟨vfd, vfs⟩
  simp only [finishOpen, ho] at hfd ⊢
  split at hfd
  · omega
  rename_i hvfd
  rw [if_neg hvfd]
  split at hfd
  · omega
  rename_i fd fds halloc
  obtain ⟨i, hi, hinode⟩ := vfsOpenEx_found ho (by omega) hn
  have htable : fdToVfs fds fd.val = vfd := by
    obtain ⟨-, rfl⟩ := fdAllocFrom_eq halloc
    exact fdToVfs_update x.fds fd vfd
  simp [descriptorInode, htable, hi, hinode]

/-- An open under way has checked the inode that is at its path. -/
structure RaceInv (g : Geometry) (s : RaceState) : Prop where
  pending : ∀ q ∈ s.pending, q.checked = (ext2Lookup g s.session.vfs.fs q.path).1
  done : ChecksWhatItOpens s

theorem RaceInv.step {e : RaceEvent} (h : RaceInv g s) (hs : raceStep g cred s e s') (hu : Undisturbed g s e) :
    RaceInv g s' := by
  cases e with
  | check cwd path flags =>
    obtain ⟨-, rfl⟩ := hs
    obtain ⟨hstate, hchecked⟩ := @checkOpen_spec g cred s.session.vfs hu.1 hu.2.1 (vfsResolve cwd path) flags
    refine ⟨fun q hq => ?_, h.done⟩
    obtain ⟨hpath, hq⟩ := hchecked q hq
    simp [hstate, hpath, hq]
  | finish =>
    obtain ⟨q, hq, rfl⟩ := hs
    refine ⟨fun q hq => (not_mem_none q hq).elim, fun o ho hexisting => ?_⟩
    rcases List.mem_append.mp ho with ho | ho
    · exact h.done o ho hexisting
    split at ho
    next hfd =>
      obtain rfl := List.mem_singleton.mp ho
      obtain ⟨n, hn⟩ := isSome_iff_exists.mp hexisting
      exact ⟨n, (h.pending q hq).trans hn, finishOpen_found hfd hn⟩
    · cases ho
  | other c =>
    obtain rfl := hs
    refine ⟨fun q hq => ?_, h.done⟩
    rw [h.pending q hq]
    exact (hu.2 q hq).symm

end

/-- As long as no other process changes the inode at the path of an open between its check and
its end, every open checks the file that it opens. -/
theorem open_checks_what_it_opens {g : Geometry} {cred : Cred} {x : Session} {es : List RaceEvent} {s : RaceState}
    (hrun : Run (fun s e s' => raceStep g cred s e s' ∧ Undisturbed g s e) ⟨x, none, []⟩ es s) :
    ChecksWhatItOpens s := by
  have hstart : RaceInv g ⟨x, none, []⟩ :=
    ⟨fun q hq => (not_mem_none q hq).elim, fun o ho => (List.not_mem_nil ho).elim⟩
  exact (hrun.invariant (fun _ _ _ hinv hs => hinv.step hs.1 hs.2) hstart).done

/-- The user has a file `g` beside the file `f` of the superuser. -/
def twoOwners : Session :=
  { textSession.session with vfs := textSession.session.vfs.call smallGeometry (.creat rootPath pathG 1 1) }

/-- The check of an open of `g` for writing. -/
def afterCheck : RaceState := ⟨twoOwners, some ⟨[47, 103], 2, some 4⟩, []⟩

def pathH : CString := ⟨[47, 104], by decide⟩

lemma noFault_twoOwners : NoFault twoOwners.vfs.fs := by
  have hproper : Proper smallGeometry textSession.session.vfs rootPath pathG := proper_pathG textRun_start.sound
  exact (textSession_start.steady.call (c := .creat rootPath pathG 1 1) hproper).steady.sound.noFault

lemma check_twoOwners : raceStep smallGeometry userCred ⟨twoOwners, none, []⟩ (.check rootPath pathG 2) afterCheck := by
  have hfit : smallGeometry.InodesFit := textSession_start.steady.sound.consistent.inodesFit
  have hcheck : checkOpen smallGeometry userCred (vfsResolve rootPath pathG) 2 twoOwners.vfs =
      (some ⟨[47, 103], 2, some 4⟩, twoOwners.vfs) :=
    Prod.ext (by decide +kernel) (checkOpen_spec hfit noFault_twoOwners _ _).1
  refine ⟨rfl, ?_⟩
  rw [hcheck]
  rfl

/-- Another file is created while an open is under way. -/
theorem open_checks_beside_creat : ∃ s, Run (fun s e s' => raceStep smallGeometry userCred s e s' ∧
      Undisturbed smallGeometry s e) ⟨twoOwners, none, []⟩
      [.check rootPath pathG 2, .other (.creat rootPath pathH 0 0), .finish] s ∧
    s.done = [⟨true, some 4, some 4⟩] ∧ ChecksWhatItOpens s := by
  have hfit : smallGeometry.InodesFit := textSession_start.steady.sound.consistent.inodesFit
  have hrun : Run (fun s e s' => raceStep smallGeometry userCred s e s' ∧ Undisturbed smallGeometry s e)
      ⟨twoOwners, none, []⟩ [.check rootPath pathG 2, .other (.creat rootPath pathH 0 0), .finish] _ :=
    .cons ⟨check_twoOwners, hfit, noFault_twoOwners, by decide +kernel, by decide +kernel⟩ (.cons
      ⟨rfl, ⟨by decide +kernel, by decide +kernel⟩, fun q hq => by
        cases hq
        decide +kernel⟩ (.cons
      ⟨⟨_, rfl, rfl⟩, trivial⟩ (.nil _)))
  exact ⟨_, hrun, by decide +kernel, open_checks_what_it_opens hrun⟩

/-- Between the check of `g` and the open the file `f` is renamed to `g`: the user checks the
file that they own, and opens the one of the superuser for writing. -/
theorem open_renamed_between : ∃ s, Run (raceStep smallGeometry userCred) ⟨twoOwners, none, []⟩
      [.check rootPath pathG 2, .other (.rename rootPath pathF pathG), .finish] s ∧
    s.done = [⟨true, some 4, some 3⟩] ∧ Protected smallGeometry userCred twoOwners.vfs.fs 3 := by
  refine ⟨_, .cons check_twoOwners (.cons rfl (.cons ⟨_, rfl, rfl⟩ (.nil _))), by decide +kernel, ?_⟩
  exact ⟨⟨by decide, by decide +kernel, by decide +kernel⟩, by decide +kernel, by decide +kernel⟩

end AetherOS.Vfs
