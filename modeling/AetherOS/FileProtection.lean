import AetherOS.Credentials
import AetherOS.DescriptorDispatch
import AetherOS.VfsRuns

/-!
# Files without write permission

`sys_open` compares the access mode in its flags with the permissions of the file. What comes
later is not compared with anything: `vfs_open_ex` truncates whatever the access mode is, and
`sys_write` does not know how a file was opened. A file is safe from a process that may not
write it as long as the process asks for write access before it truncates or writes.
-/
namespace AetherOS.Vfs
open Ext2 Proc Runs Security Function

section

variable (g : Geometry)

def vfsFileStat (s : State) (path : Path) : Option (ℕ × ℕ × ℕ) × State :=
  match ext2Lookup g s.fs path with
  | (none, fs) => (none, { s with fs := fs })
  | (some ino, fs) =>
    let r := ext2InodeStat g fs ino
    (r.1, { s with fs := r.2 })

/-- What `sys_open` asks for: 4 is read, 2 write. -/
def accessOf (flags : UInt32) : UInt8 :=
  if flags &&& 3 = 1 then 2 else if flags &&& 3 = 2 then 6 else 4

/-- The access to a file that exists is granted. -/
def granted? (cred : Cred) (flags : UInt32) : Option (ℕ × ℕ × ℕ) → Bool
  | none => true
  | some (mode, uid, gid) =>
    credCheck cred (UInt32.ofNat uid) (UInt32.ofNat gid) (UInt16.ofNat mode) (accessOf flags)

/-- The filesystem and the descriptors of a process. -/
structure Session where
  vfs : State
  fds : FdTable

def sysOpen (cred : Cred) (cwd path : CString) (flags : UInt32) (s : Session) : ℤ × Session :=
  let stat := vfsFileStat g s.vfs (vfsResolve cwd path)
  if granted? cred flags stat.1 then
    match vfsOpenEx g stat.2 (vfsResolve cwd path) flags cred.euid.toNat cred.egid.toNat with
    | (vfd, vfs) =>
      if vfd < 0 then (-2, { s with vfs := vfs })
      else
        match fdAlloc s.fds vfd with
        | (none, _) => (-24, { s with vfs := vfsCloseFile vfs vfd })
        | (some fd, fds) => (fd.val, ⟨vfs, fds⟩)
  else (-13, { s with vfs := stat.2 })

/-- The loop of `sys_write` for a file; `copied` says which parts can be copied from the caller. -/
def writeFile (copied : ℕ → Bool) (vfd : ℤ) (s : State) (done : ℕ) (data : List UInt8) : ℤ × State :=
  if _h : data = [] then (done, s)
  else if !copied done then (if done ≠ 0 then done else -14, s)
  else
    let r := vfsWrite g s vfd (data.take kbufSize)
    if r.1 < 0 then (if done ≠ 0 then done else r.1, r.2)
    else writeFile copied vfd r.2 (done + (data.take kbufSize).length) (data.drop kbufSize)
termination_by data.length
decreasing_by
  have hpos := List.length_pos_iff.mpr _h
  rw [List.length_drop, kbufSize]
  omega

/-- Other sinks have no part in the filesystem; their answers are not modelled. -/
def sysWrite (copied : ℕ → Bool) (fd : UInt64) (data : List UInt8) (s : Session) : Option ℤ × Session :=
  match writeSink (some s.fds) fd with
  | none => (some (-9), s)
  | some (.file vfd) =>
    let r := writeFile g copied vfd s.vfs 0 data
    (some r.1, { s with vfs := r.2 })
  | some _ => (none, s)

/-- The loop of `sys_read` for a file. -/
def readFile (copied : ℕ → Bool) (vfd : ℤ) (s : State) (done count : ℕ) : ℤ × State :=
  if _h : count = 0 then (done, s)
  else
    match vfsRead g s vfd (min count kbufSize) with
    | (none, s) => (done, s)
    | (some bytes, s) =>
      if bytes.length = 0 then (done, s)
      else if !copied done then (if done ≠ 0 then done else -14, s)
      else if bytes.length < min count kbufSize then (done + bytes.length, s)
      else readFile copied vfd s (done + bytes.length) (count - min count kbufSize)
termination_by count
decreasing_by
  rw [kbufSize]
  omega

def sysRead (copied : ℕ → Bool) (fd : UInt64) (count : ℕ) (s : Session) : Option ℤ × Session :=
  if count = 0 then (some 0, s)
  else
    match readSource (some s.fds) fd with
    | none => (some (-9), s)
    | some (.file vfd) =>
      let r := readFile g copied vfd s.vfs 0 count
      (some r.1, { s with vfs := r.2 })
    | some _ => (none, s)

/-- Descriptors of sockets and pipes have no slot in the table of files. -/
def sysClose (fd : UInt64) (s : Session) : ℤ × Session :=
  match fdType s.fds (cInt fd) with
  | .socket | .pipeRead | .pipeWrite => (0, { s with fds := fdFree s.fds (cInt fd) })
  | _ =>
    if fdToVfs s.fds (cInt fd) < 0 then (-9, s)
    else (0, ⟨vfsCloseFile s.vfs (fdToVfs s.fds (cInt fd)), fdFree s.fds (cInt fd)⟩)

/-- The calls of the process. A range outside of the memory of the user is refused before
anything is read or written; such calls are left out. -/
inductive FileCall where
  | open (cwd path : CString) (flags : UInt32)
  | read (copied : ℕ → Bool) (fd : UInt64) (count : ℕ)
  | write (copied : ℕ → Bool) (fd : UInt64) (data : List UInt8)
  | close (fd : UInt64)

def Session.call (cred : Cred) (s : Session) : FileCall → Session
  | .open cwd path flags => (sysOpen g cred cwd path flags s).2
  | .read copied fd count => (sysRead g copied fd count s).2
  | .write copied fd data => (sysWrite g copied fd data s).2
  | .close fd => (sysClose fd s).2

end

/-- The flags ask for write access. -/
def asksWrite (flags : UInt32) : Bool := flags &&& 3 = 1 || flags &&& 3 = 2

def FileCall.asksWrite : FileCall → Bool
  | .open _ _ flags => Vfs.asksWrite flags
  | _ => false

/-- The process, and the slots that it has opened with write access. -/
structure FileRun where
  session : Session
  writable : Fin vfsMaxOpen → Bool

structure FileStep (g : Geometry) (cred : Cred) (s : FileRun) (c : FileCall) (s' : FileRun) : Prop where
  session : s'.session = s.session.call g cred c
  opened : ∀ i, (s.session.vfs.files i).inUse = false → (s'.session.vfs.files i).inUse = true →
    s'.writable i = c.asksWrite
  kept : ∀ i, (s.session.vfs.files i).inUse = true → s'.writable i = s.writable i

/-- The process has opened no file yet; other processes may have. -/
structure FileStart (g : Geometry) (s : FileRun) : Prop where
  steady : Steady g s.session.vfs
  writable : ∀ i, s.writable i = false

/-- The process may not write the file. -/
structure Protected (g : Geometry) (cred : Cred) (fs : Fs) (n : ℕ) : Prop where
  inUse : InUse g fs n
  file : isDir (inodeAt g fs.disk n) = false
  denied : credCheck cred (UInt32.ofNat (iUid (inodeAt g fs.disk n))) (UInt32.ofNat (iGid (inodeAt g fs.disk n)))
    (UInt16.ofNat (iMode (inodeAt g fs.disk n))) 2 = false

/-- Truncation and writes are asked for when the file is opened, and directories are not
written. -/
def Honest (g : Geometry) (s : FileRun) : FileCall → Prop
  | .open cwd path flags => Proper g s.session.vfs cwd path ∧ (flags &&& 0x200 ≠ 0 → asksWrite flags = true ∧
      ∀ n, resolve g s.session.vfs.fs.disk (resolvedNames cwd path) = some n →
        isDir (inodeAt g s.session.vfs.fs.disk n) = false)
  | .write _ fd _ => ∀ vfd i, writeSink (some s.session.fds) fd = some (.file vfd) →
      openFile s.session.vfs vfd = some i → s.writable i = true ∧
        isDir (inodeAt g s.session.vfs.fs.disk (s.session.vfs.files i).inode) = false
  | _ => True

/-- A call that leaves inode `n` alone. -/
structure Spares (g : Geometry) (n : ℕ) (s s' : State) : Prop extends Effect g s s' where
  unchanged : Unchanged g (· = n) s.fs s'.fs
  inUse : InUse g s.fs n → InUse g s'.fs n

section

variable {g : Geometry} {s s' s'' : State} {fs : Fs} {n gid uid : ℕ} {i : Fin vfsMaxOpen}
  {cwd path : CString} {fd : ℤ} {r : Option ℕ} {flags : UInt32}

lemma Spares.refl (h : Steady g s) (n : ℕ) : Spares g n s s :=
  ⟨h.refl, .refl _ _, id⟩

lemma Spares.of_effect (h : Effect g s s') (hfs : s'.fs = s.fs) (n : ℕ) : Spares g n s s' :=
  ⟨h, hfs ▸ Unchanged.refl _ _, fun hn => hfs ▸ hn⟩

lemma spares_vfsRead (h : Steady g s) (fd : ℤ) (size n : ℕ) : Spares g n s (vfsRead g s fd size).2 :=
  .of_effect (h.vfsRead size) (h.vfsRead_fs fd size) n

lemma spares_vfsWrite (h : Steady g s) (data : List UInt8) (hn : InUse g s.fs n)
    (hfile : ∀ i, openFile s fd = some i →
      isDir (inodeAt g s.fs.disk (s.files i).inode) = false ∧ (s.files i).inode ≠ n) :
    Spares g n s (vfsWrite g s fd data).2 := by
  have heff := h.vfsWrite data fun i hi => (hfile i hi).1
  cases hi : openFile s fd with
  | none => exact .of_effect heff (by rw [vfsWrite, hi]) n
  | some i =>
    have hc := h.vfsWrite_fileChanged data hi (hfile i hi).1
    refine ⟨heff, hc.unchanged.mono ?_, fun hu => hc.inUse ▸ hu⟩
    rintro m rfl
    exact ⟨hn, (hfile i hi).2.symm⟩

lemma SameSlots.openFile (h : SameSlots s s') (fd : ℤ) : openFile s' fd = openFile s fd := by
  simp [Vfs.openFile, fun i => (h i).1]

lemma SameSlots.trans (h : SameSlots s s') (h' : SameSlots s' s'') : SameSlots s s'' :=
  fun i => ⟨(h' i).1.trans (h i).1, (h' i).2.trans (h i).2⟩

lemma Spares.trans (h : Spares g n s s') (h' : Spares g n s' s'') (hsame : SameSlots s s') : Spares g n s s'' := by
  refine ⟨⟨h'.steady, fun i hi ha => ?_⟩, h.unchanged.trans h'.unchanged, fun hu => h'.inUse (h.inUse hu)⟩
  rw [h'.same i hi ((hsame i).1.trans ha), (hsame i).2]

lemma isDir_vfsWrite (h : Steady g s) (data : List UInt8) (hi : openFile s fd = some i)
    (hdir : isDir (inodeAt g s.fs.disk (s.files i).inode) = false) :
    isDir (inodeAt g (vfsWrite g s fd data).2.fs.disk (s.files i).inode) = false := by
  rw [isDir_congr fun a ha => (h.vfsWrite_fileChanged data hi hdir).header a (.inl (by omega))]
  exact hdir

lemma spares_self (h : Steady g s) (n : ℕ) : Spares g n s s ∧ SameSlots s s := ⟨.refl h n, fun _ => ⟨rfl, rfl⟩⟩

lemma spares_writeFile (copied : ℕ → Bool) {vfd : ℤ} (h : Steady g s) (hn : InUse g s.fs n) (done : ℕ)
    (data : List UInt8) (hfile : ∀ i, openFile s vfd = some i →
      isDir (inodeAt g s.fs.disk (s.files i).inode) = false ∧ (s.files i).inode ≠ n) :
    Spares g n s (writeFile g copied vfd s done data).2 ∧ SameSlots s (writeFile g copied vfd s done data).2 := by
  induction hlen : data.length using Nat.strong_induction_on generalizing s done data with
  | _ len ih =>
    rw [writeFile]
    split
    · exact spares_self h n
    rename_i hdata
    have hstep := spares_vfsWrite h (data.take kbufSize) hn hfile
    have hslots := sameSlots_vfsWrite (g := g) (s := s) vfd (data.take kbufSize)
    split
    · exact spares_self h n
    simp only
    split
    · exact ⟨hstep, hslots⟩
    have hlt : (data.drop kbufSize).length < len := by
      have hpos := List.length_pos_iff.mpr hdata
      rw [List.length_drop, kbufSize]
      omega
    have hrest := ih _ hlt hstep.steady (hstep.inUse hn) (done + (data.take kbufSize).length)
      (data.drop kbufSize) (fun i hi => ?_) rfl
    · exact ⟨hstep.trans hrest.1 hslots, hslots.trans hrest.2⟩
    rw [hslots.openFile] at hi
    rw [(hslots i).2]
    exact ⟨isDir_vfsWrite h _ hi (hfile i hi).1, (hfile i hi).2⟩

lemma spares_readFile (copied : ℕ → Bool) (vfd : ℤ) (h : Steady g s) (n done count : ℕ) :
    Spares g n s (readFile g copied vfd s done count).2 ∧ SameSlots s (readFile g copied vfd s done count).2 := by
  induction count using Nat.strong_induction_on generalizing s done with
  | _ count ih =>
    rw [readFile]
    split
    · exact spares_self h n
    rename_i hcount
    have hstep := spares_vfsRead h vfd (min count kbufSize) n
    have hslots := sameSlots_vfsRead (g := g) (s := s) vfd (min count kbufSize)
    split
    next s' he =>
      rw [he] at hstep hslots
      exact ⟨hstep, hslots⟩
    rename_i bytes s' he
    rw [he] at hstep hslots
    split_ifs
    · exact ⟨hstep, hslots⟩
    · exact ⟨hstep, hslots⟩
    · exact ⟨hstep, hslots⟩
    · exact ⟨hstep, hslots⟩
    have hlt : count - min count kbufSize < count := by
      rw [kbufSize]
      omega
    have hrest := ih _ hlt hstep.steady (done + bytes.length)
    exact ⟨hstep.trans hrest.1 hslots, hslots.trans hrest.2⟩

lemma vfsCloseFile_slot (hi : ((vfsCloseFile s fd).files i).inUse = true) :
    (s.files i).inUse = true ∧ ((vfsCloseFile s fd).files i).inode = (s.files i).inode := by
  simp only [vfsCloseFile, vfsClose] at hi ⊢
  split at hi
  · cases hi
  next hne => exact ⟨hi, by rw [if_neg hne]⟩

section

variable (h : Steady g s) (hp : Proper g s cwd path)
include h hp

/-- The inode that is opened with write access is not `n`, if `n` is not truncated and the
inode at the path is not `n`. -/
lemma spares_prepare (hn : InUse g s.fs n) (hfile : isDir (inodeAt g s.fs.disk n) = false)
    (htrunc : flags &&& 0x200 ≠ 0 → ∀ m, resolve g s.fs.disk (resolvedNames cwd path) = some m →
      isDir (inodeAt g s.fs.disk m) = false ∧ m ≠ n)
    (he : prepare g s.fs (vfsResolve cwd path) flags uid gid = (r, fs)) :
    Unchanged g (· = n) s.fs fs ∧ InUse g fs n ∧
      (resolve g s.fs.disk (resolvedNames cwd path) ≠ some n → r ≠ some n) := by
  rcases h.prepare_cases hp he with ⟨rfl, hf⟩ | ⟨k, rfl, -, -, hmade⟩ | ⟨m, rfl, hm, hu, rfl⟩
  · exact ⟨hf.unchanged.mono fun m hm => hm ▸ hn, hf.inUse ▸ hn, fun _ hc => by cases hc⟩
  · refine ⟨hmade.files.mono ?_, (hmade.inUse n).mpr (.inl hn), fun _ hc => ?_⟩
    · rintro m rfl
      exact ⟨hn, hfile⟩
    · cases hc
      exact hmade.fresh hn
  rw [hm]
  split_ifs with hflag
  · obtain ⟨hdir, hmn⟩ := htrunc hflag m hm
    obtain ⟨r, fs', ht, hc⟩ := ext2Truncate_fileChanged h.sound hu hdir
    rw [ht]
    refine ⟨hc.unchanged.mono ?_, hc.inUse ▸ hn, id⟩
    rintro k rfl
    exact ⟨hn, hmn.symm⟩
  · exact ⟨.refl _ _, hn, id⟩

lemma vfsOpenEx_slot (htrunc : flags &&& 0x200 ≠ 0 → ∀ m, resolve g s.fs.disk (resolvedNames cwd path) = some m →
      isDir (inodeAt g s.fs.disk m) = false) (he : prepare g s.fs (vfsResolve cwd path) flags uid gid = (r, fs)) :
    (vfsOpenEx g s (vfsResolve cwd path) flags uid gid).2.fs = fs ∧
      ∀ i, (s.files i).inUse = false → ((vfsOpenEx g s (vfsResolve cwd path) flags uid gid).2.files i).inUse = true →
        r = some ((vfsOpenEx g s (vfsResolve cwd path) flags uid gid).2.files i).inode := by
  obtain ⟨heff, huse⟩ := h.prepare hp htrunc he
  have hfree : ∀ i, (s.files i).inUse = false → (s.files i).inUse = true → r = some (s.files i).inode := by
    intro i h0 h1
    rw [h0] at h1
    cases h1
  rw [vfsOpenEx, he]
  cases r with
  | none => exact ⟨rfl, hfree⟩
  | some m =>
    simp only
    split
    · exact ⟨rfl, hfree⟩
    rename_i j files hslot
    obtain ⟨-, rfl⟩ := vfsOpenSlot_eq hslot
    have hm0 := (huse m rfl).ne_zero
    have hnew : ∀ k i, (s.files i).inUse = false → (update s.files j ⟨true, m, k⟩ i).inUse = true →
        some m = some (update s.files j ⟨true, m, k⟩ i).inode := by
      intro k i h0
      exact update_cases i (fun _ => rfl) fun _ h1 => by simp [h0] at h1
    rw [appendOffset]
    split
    · simp only [update_self, update_idem, ext2FileSize_state heff.steady.sound hm0, true_and]
      exact hnew _
    · exact ⟨rfl, hnew 0⟩

lemma vfsFileStat_eq : vfsFileStat g s (vfsResolve cwd path) =
      ((resolve g s.fs.disk (resolvedNames cwd path)).map fun m => (iMode (inodeAt g s.fs.disk m),
        iUid (inodeAt g s.fs.disk m), iGid (inodeAt g s.fs.disk m)), s) := by
  rw [vfsFileStat, h.lookup hp]
  cases hm : resolve g s.fs.disk (resolvedNames cwd path) with
  | none => rfl
  | some m =>
    have hm0 := (hp.dirs.target h.sound hm).inUse.ne_zero
    simp [ext2InodeStat, h.sound.readInode_eq hm0]

end

lemma credCheck_write {uid gid : UInt32} {mode : UInt16} (hw : asksWrite flags = true)
    (hc : credCheck cred uid gid mode (accessOf flags) = true) : credCheck cred uid gid mode 2 = true := by
  have hboth : ∀ bits : UInt8, (bits &&& 6 == 6) = true → (bits &&& 2 == 2) = true := by
    intro bits hb
    have heq : bits &&& 6 = 6 := by simpa using hb
    have hsub : bits &&& 2 = (bits &&& 6) &&& 2 := by
      rw [UInt8.and_assoc]
      rfl
    rw [hsub, heq]
    rfl
  rw [accessOf] at hc
  split_ifs at hc with h1 h2
  · exact hc
  · unfold credCheck at hc ⊢
    by_cases h0 : cred.euid = 0
    · rw [if_pos h0]
    · rw [if_neg h0] at hc ⊢
      exact hboth _ hc
  · simp [asksWrite, h1, h2] at hw

variable {cred : Cred} {x : Session}

/-- `sys_open` leaves alone a file that the process may not write, as long as it asks for write
access when it truncates; with write access it does not open the file. -/
lemma spares_sysOpen (h : Steady g x.vfs) (hn : Protected g cred x.vfs.fs n) (hp : Proper g x.vfs cwd path)
    (htrunc : flags &&& 0x200 ≠ 0 → asksWrite flags = true ∧
      ∀ m, resolve g x.vfs.fs.disk (resolvedNames cwd path) = some m → isDir (inodeAt g x.vfs.fs.disk m) = false) :
    Spares g n x.vfs (sysOpen g cred cwd path flags x).2.vfs ∧
      ∀ i, (x.vfs.files i).inUse = false → ((sysOpen g cred cwd path flags x).2.vfs.files i).inUse = true →
        asksWrite flags = true → ((sysOpen g cred cwd path flags x).2.vfs.files i).inode ≠ n := by
  rw [sysOpen, vfsFileStat_eq h hp]
  simp only
  split
  next hgranted =>
    have hother : asksWrite flags = true → resolve g x.vfs.fs.disk (resolvedNames cwd path) ≠ some n := by
      intro hw hm
      rw [hm] at hgranted
      exact Bool.false_ne_true (hn.denied.symm.trans (credCheck_write hw hgranted))
    have hdir : flags &&& 0x200 ≠ 0 → ∀ m, resolve g x.vfs.fs.disk (resolvedNames cwd path) = some m →
        isDir (inodeAt g x.vfs.fs.disk m) = false := fun hf => (htrunc hf).2
    rcases hprep : prepare g x.vfs.fs (vfsResolve cwd path) flags cred.euid.toNat cred.egid.toNat with ⟨r, fs⟩
    obtain ⟨hsame, huse, hr⟩ := spares_prepare h hp hn.inUse hn.file
      (fun hf m hm => ⟨hdir hf m hm, fun he => hother (htrunc hf).1 (he ▸ hm)⟩) hprep
    obtain ⟨hfs, hslot⟩ := vfsOpenEx_slot h hp hdir hprep
    have heff := h.vfsOpenEx hp hdir cred.euid.toNat cred.egid.toNat
    rcases ho : vfsOpenEx g x.vfs (vfsResolve cwd path) flags cred.euid.toNat cred.egid.toNat with ⟨vfd, vfs⟩
    rw [ho] at hfs hslot heff
    obtain rfl : vfs.fs = fs := hfs
    have hspares : Spares g n x.vfs vfs := ⟨heff, hsame, fun _ => huse⟩
    have hnew : ∀ i, (x.vfs.files i).inUse = false → (vfs.files i).inUse = true → asksWrite flags = true →
        (vfs.files i).inode ≠ n := by
      intro i h0 h1 hw he
      have hri : r = some (vfs.files i).inode := hslot i h0 h1
      exact hr (hother hw) (he ▸ hri)
    simp only
    split
    · exact ⟨hspares, hnew⟩
    split
    · -- no descriptor is left, and the slot is given back
      refine ⟨⟨⟨(hspares.steady.vfsClose vfd).steady, fun i hi hold => ?_⟩, hsame, fun _ => huse⟩,
        fun i h0 h1 hw => ?_⟩
      · obtain ⟨ho, hino⟩ := vfsCloseFile_slot hi
        exact hino.trans (hspares.same i ho hold)
      · obtain ⟨ho, hino⟩ := vfsCloseFile_slot h1
        exact hino ▸ hnew i h0 ho hw
    · exact ⟨hspares, hnew⟩
  · refine ⟨.refl h n, fun i h0 h1 => ?_⟩
    exact absurd (h0.symm.trans h1) Bool.false_ne_true

lemma spares_sysWrite (copied : ℕ → Bool) {fd : UInt64} (h : Steady g x.vfs) (hn : InUse g x.vfs.fs n)
    (data : List UInt8) (hfile : ∀ vfd i, writeSink (some x.fds) fd = some (.file vfd) → openFile x.vfs vfd = some i →
      isDir (inodeAt g x.vfs.fs.disk (x.vfs.files i).inode) = false ∧ (x.vfs.files i).inode ≠ n) :
    Spares g n x.vfs (sysWrite g copied fd data x).2.vfs ∧ SameSlots x.vfs (sysWrite g copied fd data x).2.vfs := by
  rw [sysWrite]
  split
  · exact spares_self h n
  next vfd hsink => exact spares_writeFile copied h hn 0 data (hfile vfd · hsink)
  · exact spares_self h n

lemma spares_sysRead (copied : ℕ → Bool) (fd : UInt64) (h : Steady g x.vfs) (n count : ℕ) :
    Spares g n x.vfs (sysRead g copied fd count x).2.vfs ∧ SameSlots x.vfs (sysRead g copied fd count x).2.vfs := by
  rw [sysRead]
  split
  · exact spares_self h n
  split
  · exact spares_self h n
  next vfd _ => exact spares_readFile copied vfd h n 0 count
  · exact spares_self h n

lemma spares_sysClose (fd : UInt64) (h : Steady g x.vfs) (n : ℕ) :
    Spares g n x.vfs (sysClose fd x).2.vfs ∧
      ∀ i, ((sysClose fd x).2.vfs.files i).inUse = true → (x.vfs.files i).inUse = true := by
  rw [sysClose]
  split
  · exact ⟨.refl h n, fun _ => id⟩
  · exact ⟨.refl h n, fun _ => id⟩
  · exact ⟨.refl h n, fun _ => id⟩
  split
  · exact ⟨.refl h n, fun _ => id⟩
  · exact ⟨Spares.of_effect (h.vfsClose _) rfl n, fun i hi => (vfsCloseFile_slot hi).1⟩

end

/-- The file is as it was, and no slot that the process may write through refers to it. -/
structure Guarded (g : Geometry) (n : ℕ) (fs : Fs) (s : FileRun) : Prop where
  steady : Steady g s.session.vfs
  inUse : InUse g s.session.vfs.fs n
  same : Unchanged g (· = n) fs s.session.vfs.fs
  slots : ∀ i, (s.session.vfs.files i).inUse = true → s.writable i = true → (s.session.vfs.files i).inode ≠ n

variable {g : Geometry} {cred : Cred} {n : ℕ} {fs : Fs} {s s' : FileRun} {c : FileCall}

section

variable (h : Guarded g n fs s)
include h

lemma Guarded.inode :
    inodeAt g s.session.vfs.fs.disk n = inodeAt g fs.disk n := h.same.inodes n rfl

lemma Guarded.spares (hs : FileStep g cred s c s') (hspares : Spares g n s.session.vfs s'.session.vfs)
    (hnew : ∀ i, (s.session.vfs.files i).inUse = false → (s'.session.vfs.files i).inUse = true →
      c.asksWrite = true → (s'.session.vfs.files i).inode ≠ n) : Guarded g n fs s' := by
  refine ⟨hspares.steady, hspares.inUse h.inUse, h.same.trans hspares.unchanged, fun i hi hw => ?_⟩
  by_cases hold : (s.session.vfs.files i).inUse = true
  · rw [hspares.same i hi hold]
    rw [hs.kept i hold] at hw
    exact h.slots i hold hw
  have hold' : (s.session.vfs.files i).inUse = false := Bool.not_eq_true _ ▸ hold
  rw [hs.opened i hold' hi] at hw
  exact hnew i hold' hi hw

lemma Guarded.protected (hn : Protected g cred fs n) : Protected g cred s.session.vfs.fs n := by
  refine ⟨h.inUse, ?_, ?_⟩
  · rw [h.inode]
    exact hn.file
  · rw [h.inode]
    exact hn.denied

theorem Guarded.step (hn : Protected g cred fs n)
    (hs : FileStep g cred s c s') (hc : Honest g s c) : Guarded g n fs s' := by
  -- a call that opens no file
  have hkeeps (hspares : Spares g n s.session.vfs (s.session.call g cred c).vfs)
      (hold : ∀ i, ((s.session.call g cred c).vfs.files i).inUse = true → (s.session.vfs.files i).inUse = true) :
      Guarded g n fs s' := by
    rw [← hs.session] at hspares hold
    exact h.spares hs hspares fun i h0 h1 _ => absurd (h0.symm.trans (hold i h1)) Bool.false_ne_true
  cases c with
  | «open» cwd path flags =>
    obtain ⟨hspares, hnew⟩ := spares_sysOpen h.steady (h.protected hn) hc.1 hc.2
    exact h.spares hs (hs.session ▸ hspares) (hs.session ▸ hnew)
  | read copied fd count =>
    obtain ⟨hspares, hslots⟩ := spares_sysRead copied fd h.steady n count
    exact hkeeps hspares fun i hi => (hslots i).1.symm.trans hi
  | write copied fd data =>
    obtain ⟨hspares, hslots⟩ := spares_sysWrite copied h.steady h.inUse data fun vfd i hsink hi =>
      ⟨(hc vfd i hsink hi).2, h.slots i (openFile_inUse hi) (hc vfd i hsink hi).1⟩
    exact hkeeps hspares fun i hi => (hslots i).1.symm.trans hi
  | close fd =>
    obtain ⟨hspares, hold⟩ := spares_sysClose fd h.steady n
    exact hkeeps hspares hold

end

lemma exists_fileStep (g : Geometry) (cred : Cred) (s : FileRun) (c : FileCall) : ∃ s', FileStep g cred s c s' := by
  refine ⟨⟨s.session.call g cred c, fun i => if (s.session.vfs.files i).inUse then s.writable i else c.asksWrite⟩,
    rfl, fun i hi _ => ?_, fun i hi => if_pos hi⟩
  simp [hi]

/-- A process without privileges, and the volume with the file `f` that its owner alone may
write. -/
def userCred : Cred := ⟨1, 1, 1, 1, 1, 1⟩
def textSession : FileRun := ⟨⟨textRun.state, fun _ => closedFd⟩, fun _ => false⟩

lemma textSession_start : FileStart smallGeometry textSession := by
  refine ⟨⟨textRun_start.sound, fun i hi => ?_⟩, fun _ => rfl⟩
  rw [show (textSession.session.vfs.files i).inUse = false from rfl] at hi
  cases hi

lemma protected_text : Protected smallGeometry userCred textSession.session.vfs.fs 3 :=
  ⟨⟨by decide, by decide +kernel, by decide +kernel⟩, by decide +kernel, by decide +kernel⟩

/-- A file that the process may not write is the same after every run of the process in which
truncation and writes are asked for when a file is opened. -/
theorem unchanged_of_honest (hs : FileStart g s) (hn : Protected g cred s.session.vfs.fs n) {cs : List FileCall}
    (hr : Run (fun s c s' => FileStep g cred s c s' ∧ Honest g s c) s cs s') :
    Unchanged g (· = n) s.session.vfs.fs s'.session.vfs.fs := by
  have hstart : Guarded g n s.session.vfs.fs s := by
    refine ⟨hs.steady, hn.inUse, .refl _ _, fun i _ hw => ?_⟩
    rw [hs.writable i] at hw
    cases hw
  exact (hr.invariant (fun _ _ _ h hstep => h.step hn hstep.1 hstep.2) hstart).same

/-- The process reads `f`, and writes a file `g` of its own. -/
theorem unchanged_beside_own_file : ∃ s', Run (FileStep smallGeometry userCred) textSession
    [.open rootPath pathF 0, .open rootPath pathG 0x41, .read (fun _ => true) 3 2, .write (fun _ => true) 4 [1]] s' ∧
    Unchanged smallGeometry (· = 3) textSession.session.vfs.fs s'.session.vfs.fs := by
  have hopen : Honest smallGeometry textSession (.open rootPath pathF 0) :=
    ⟨proper_pathF textRun_start.sound, fun hc => absurd rfl hc⟩
  obtain ⟨s1, h1⟩ := exists_fileStep smallGeometry userCred textSession (.open rootPath pathF 0)
  have hsteady : Steady smallGeometry s1.session.vfs := by
    rw [h1.session]
    exact (spares_sysOpen textSession_start.steady protected_text hopen.1 hopen.2).1.steady
  have hcreat : Honest smallGeometry s1 (.open rootPath pathG 0x41) := ⟨proper_pathG hsteady.sound, fun hc => absurd rfl hc⟩
  obtain ⟨s2, h2⟩ := exists_fileStep smallGeometry userCred s1 (.open rootPath pathG 0x41)
  obtain ⟨s3, h3⟩ := exists_fileStep smallGeometry userCred s2 (.read (fun _ => true) 3 2)
  obtain ⟨s4, h4⟩ := exists_fileStep smallGeometry userCred s3 (.write (fun _ => true) 4 [1])
  have hfree : (s1.session.vfs.files 1).inUse = false := by
    rw [h1.session]
    decide +kernel
  have hopened : (s2.session.vfs.files 1).inUse = true := by
    rw [h2.session, h1.session]
    decide +kernel
  have hwritable : s3.writable 1 = true := by
    rw [h3.kept 1 hopened, h2.opened 1 hfree hopened]
    rfl
  have hends : writeSink (some s3.session.fds) 4 = some (.file 1) ∧ openFile s3.session.vfs 1 = some 1 ∧
      isDir (inodeAt smallGeometry s3.session.vfs.fs.disk (s3.session.vfs.files 1).inode) = false := by
    rw [h3.session, h2.session, h1.session]
    decide +kernel
  obtain ⟨hsink, hslot, hfile⟩ := hends
  have hwrite : Honest smallGeometry s3 (.write (fun _ => true) 4 [1]) := by
    intro vfd i hs hi
    rw [hsink] at hs
    cases hs
    rw [hslot] at hi
    cases hi
    exact ⟨hwritable, hfile⟩
  exact ⟨s4, .cons h1 (.cons h2 (.cons h3 (.cons h4 (.nil s4)))), unchanged_of_honest textSession_start protected_text
    (.cons ⟨h1, hopen⟩ (.cons ⟨h2, hcreat⟩ (.cons ⟨h3, trivial⟩ (.cons ⟨h4, hwrite⟩ (.nil s4)))))⟩

/-- The process opens `f` for reading and writes a byte through the descriptor; or it opens `f`
for reading and empties it. -/
theorem read_only_descriptor_writes : Protected smallGeometry userCred textSession.session.vfs.fs 3 ∧
    (∃ s', Run (FileStep smallGeometry userCred) textSession
      [.open rootPath pathF 0, .write (fun _ => true) 3 [1]] s' ∧
      ¬Unchanged smallGeometry (· = 3) textSession.session.vfs.fs s'.session.vfs.fs) ∧
    ∃ s', Run (FileStep smallGeometry userCred) textSession [.open rootPath pathF 0x200] s' ∧
      ¬Unchanged smallGeometry (· = 3) textSession.session.vfs.fs s'.session.vfs.fs := by
  refine ⟨protected_text, ?_, ?_⟩
  · obtain ⟨s1, h1⟩ := exists_fileStep smallGeometry userCred textSession (.open rootPath pathF 0)
    obtain ⟨s2, h2⟩ := exists_fileStep smallGeometry userCred s1 (.write (fun _ => true) 3 [1])
    refine ⟨s2, .cons h1 (.cons h2 (.nil s2)), fun hsame => ?_⟩
    have hbyte := hsame.bytes 3 rfl 0
    rw [h2.session, h1.session] at hbyte
    revert hbyte
    decide +kernel
  obtain ⟨s1, h1⟩ := exists_fileStep smallGeometry userCred textSession (.open rootPath pathF 0x200)
  refine ⟨s1, .cons h1 (.nil s1), fun hsame => ?_⟩
  have hsize := congrArg iSize (hsame.inodes 3 rfl)
  rw [h1.session] at hsize
  revert hsize
  decide +kernel

end AetherOS.Vfs
