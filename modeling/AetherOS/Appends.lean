import AetherOS.FileProtection

/-!
# Appending to one file through several descriptors

With `O_APPEND` a descriptor starts at the end that the file has when it is opened. From then on it
counts its own writes: what other descriptors append does not move it. Appends come out
whole as long as every write starts at the end of the file.
-/
namespace AetherOS.Vfs
open Ext2 Proc Runs List

/-- The bytes of a file up to its size. -/
def content (g : Geometry) (fs : Fs) (n : ℕ) : List UInt8 :=
  (List.range (iSize (inodeAt g fs.disk n))).map (byteAt g fs n)

/-- The state, and what was written so far: the slots and the records, in order. -/
structure AppendRun where
  state : State
  records : List (Fin vfsMaxOpen × List UInt8)

/-- The calls on the file `n`: it is opened with `O_APPEND` and without `O_TRUNC`, a slot is
closed, or a record is written in full through a slot of the file. -/
def AppendStep (g : Geometry) (n : ℕ) (r : AppendRun) : VfsCall → AppendRun → Prop
  | .openEx cwd path flags uid gid, r' => Proper g r.state cwd path ∧
      resolve g r.state.fs.disk (resolvedNames cwd path) = some n ∧ flags &&& 0x400 ≠ 0 ∧ flags &&& 0x200 = 0 ∧
      r' = { r with state := r.state.call g (.openEx cwd path flags uid gid) }
  | .close fd, r' => r' = { r with state := r.state.call g (.close fd) }
  | .write fd data, r' => ∃ i, openFile r.state fd = some i ∧ (r.state.files i).inode = n ∧
      (vfsWrite g r.state fd data).1 = data.length ∧
      r' = ⟨r.state.call g (.write fd data), r.records ++ [(i, data)]⟩
  | _, _ => False

/-- A record is written where the file ends, and the file stays below 4 GiB. -/
def AtEnd (g : Geometry) (n : ℕ) (r : AppendRun) : VfsCall → Prop
  | .write fd data => ∀ i, openFile r.state fd = some i →
      (r.state.files i).offset = iSize (inodeAt g r.state.fs.disk n) ∧
        iSize (inodeAt g r.state.fs.disk n) + data.length < 2 ^ 32
  | _ => True

/-- A sound volume with the file `n`; slots may be open. -/
structure AppendStart (g : Geometry) (n : ℕ) (r : AppendRun) : Prop where
  steady : Steady g r.state
  inUse : InUse g r.state.fs n
  file : isDir (inodeAt g r.state.fs.disk n) = false
  records : r.records = []

section

variable {g : Geometry} {s s' : Fs} {n : ℕ} {data : List UInt8}

lemma content_length (g : Geometry) (s : Fs) (n : ℕ) : (content g s n).length = iSize (inodeAt g s.disk n) := by
  simp [content]

lemma content_of_written {live : ℕ → Prop} (h : Written g s s' live n (iSize (inodeAt g s.disk n)) data)
    (hdata : data ≠ []) (hfit : iSize (inodeAt g s.disk n) + data.length < 2 ^ 32) :
    content g s' n = content g s n ++ data := by
  have hsize : iSize (inodeAt g s'.disk n) = iSize (inodeAt g s.disk n) + data.length := by
    rw [h.size hfit hdata]
    omega
  apply ext_getElem
  · rw [length_append, content_length, content_length, hsize]
  intro x hx hx'
  rw [content_length, hsize] at hx
  have hbyte := h.bytes hfit x
  rw [← byteAt_eq, ← byteAt_eq] at hbyte
  simp only [Vfs.content, getElem_map, getElem_range, hbyte]
  by_cases hlt : x < iSize (inodeAt g s.disk n)
  · rw [if_neg (by omega), getElem_append_left (by simpa using hlt)]
    simp
  rw [if_pos ⟨by omega, hx⟩, getElem_append_right (by simpa using hlt)]
  simp only [length_map, length_range]
  exact getD_eq_getElem _ _ (by omega)

end

section

variable {g : Geometry} {s : State} {n : ℕ} {i : Fin vfsMaxOpen} {cwd path : CString} {r r' : AppendRun}

/-- Opening a file that exists, without truncating it, leaves the volume as it is. -/
lemma vfsOpenEx_fs {flags : UInt32} (h : Steady g s) (hp : Proper g s cwd path)
    (hn : resolve g s.fs.disk (resolvedNames cwd path) = some n) (htrunc : flags &&& 0x200 = 0) (uid gid : ℕ) :
    (vfsOpenEx g s (vfsResolve cwd path) flags uid gid).2.fs = s.fs := by
  have hprep : prepare g s.fs (vfsResolve cwd path) flags uid gid = (some n, s.fs) := by
    simp [prepare, h.lookup hp, hn, htrunc]
  have hu := (hp.dirs.target h.sound hn).inUse
  rw [vfsOpenEx, hprep]
  simp only
  split
  · rfl
  rename_i i files hslot
  rw [appendOffset]
  split
  · have hino : (files i).inode = n := by
      rw [(vfsOpenSlot_eq hslot).2]
      simp
    simp only [hino]
    exact ext2FileSize_state h.sound hu.ne_zero
  · rfl

lemma vfsWrite_appends {fd : ℤ} {data : List UInt8} (h : Steady g s) (hu : InUse g s.fs n)
    (hi : openFile s fd = some i) (hino : (s.files i).inode = n) (hfull : (vfsWrite g s fd data).1 = data.length)
    (hoff : (s.files i).offset = iSize (inodeAt g s.fs.disk n))
    (hfit : iSize (inodeAt g s.fs.disk n) + data.length < 2 ^ 32) :
    content g (vfsWrite g s fd data).2.fs n = content g s.fs n ++ data := by
  have hdata : data ≠ [] := by
    rintro rfl
    rw [vfsWrite, hi] at hfull
    simp [ext2Write] at hfull
  obtain ⟨w, fs, he, -, hw⟩ := h.sound.ext2Write_spec hu (iSize (inodeAt g s.fs.disk n)) hdata
  have hstate : vfsWrite g s fd data = ((w : ℤ), ⟨fs, advance s.files i w⟩) := by
    rw [vfsWrite, hi]
    simp only [hino, hoff, he]
  rw [hstate] at hfull ⊢
  have hwl : w = data.length := Int.ofNat.inj hfull
  rw [hwl, take_length] at hw
  exact content_of_written hw hdata hfit

/-- What holds after every step. -/
structure AppendInv (g : Geometry) (n : ℕ) (first : List UInt8) (r : AppendRun) : Prop where
  steady : Steady g r.state
  inUse : InUse g r.state.fs n
  file : isDir (inodeAt g r.state.fs.disk n) = false
  content : content g r.state.fs n = first ++ (r.records.map Prod.snd).flatten

lemma AppendInv.step {first : List UInt8} {c : VfsCall} (h : AppendInv g n first r) (hs : AppendStep g n r c r')
    (hend : AtEnd g n r c) : AppendInv g n first r' := by
  cases c with
  | openEx cwd path flags uid gid =>
    obtain ⟨hp, hn, -, htrunc, rfl⟩ := hs
    have hfs := vfsOpenEx_fs h.steady hp hn htrunc uid gid
    have heff := h.steady.vfsOpenEx hp (fun hc => absurd htrunc hc) uid gid
    refine ⟨heff.steady, ?_, ?_, ?_⟩
    · simp only [State.call, hfs]
      exact h.inUse
    · simp only [State.call, hfs]
      exact h.file
    · simp only [State.call, hfs]
      exact h.content
  | close fd =>
    obtain rfl := hs
    exact ⟨(h.steady.vfsClose fd).steady, h.inUse, h.file, h.content⟩
  | write fd data =>
    obtain ⟨i, hi, hino, hfull, rfl⟩ := hs
    obtain ⟨hoff, hfit⟩ := hend i hi
    have hfile : ∀ j, openFile r.state fd = some j →
        isDir (inodeAt g r.state.fs.disk (r.state.files j).inode) = false := by
      intro j hj
      obtain rfl : i = j := Option.some.inj (hi.symm.trans hj)
      rw [hino]
      exact h.file
    have hdir := isDir_vfsWrite h.steady data hi (hfile i hi)
    rw [hino] at hdir
    have hcontent := vfsWrite_appends h.steady h.inUse hi hino hfull hoff hfit
    obtain ⟨x, fs, he, hc⟩ := ext2Write_fileChanged h.steady.sound h.inUse h.file (r.state.files i).offset data
    have hfs : (vfsWrite g r.state fd data).2.fs = fs := by
      rw [vfsWrite, hi]
      simp only [hino, he]
      cases x <;> rfl
    refine ⟨(h.steady.vfsWrite data hfile).steady, ?_, hdir, ?_⟩
    · simp only [State.call, hfs, hc.inUse]
      exact h.inUse
    · simp only [State.call, map_append, flatten_append, map_cons, map_nil, flatten_cons, flatten_nil, append_nil]
      rw [hcontent, h.content, append_assoc]
  | _ => exact hs.elim

end

variable {s : State} {fd : ℤ} {i : Fin vfsMaxOpen} {data : List UInt8}

/-- In every run whose writes all start at the end of the file, the file is what it was,
followed by the records in the order in which they were written, each of them whole. -/
theorem appends_whole {g : Geometry} {n : ℕ} {r r' : AppendRun} {cs : List VfsCall} (h : AppendStart g n r)
    (hrun : Run (fun r c r' => AppendStep g n r c r' ∧ AtEnd g n r c) r cs r') :
    content g r'.state.fs n = content g r.state.fs n ++ (r'.records.map Prod.snd).flatten := by
  have hinv : AppendInv g n (content g r.state.fs n) r' := by
    refine hrun.invariant (fun s c t hs hst => hs.step hst.1 hst.2) ?_
    refine ⟨h.steady, h.inUse, h.file, ?_⟩
    rw [h.records]
    simp
  exact hinv.content

/-- `f` is opened for appending. -/
def openF : VfsCall := .openEx rootPath pathF 0x401 0 0

/-- The states of a run that opens `f` twice and then writes through both slots. -/
def twoOpens : State := (textRun.state.call smallGeometry openF).call smallGeometry openF

lemma appendStart_text : AppendStart smallGeometry 3 ⟨textRun.state, []⟩ :=
  ⟨⟨fileTree_text.toSound, fun i hi => by cases hi⟩,
    ⟨by decide, by decide +kernel, by decide +kernel⟩, by decide +kernel, rfl⟩

lemma appendStep_openF (hfs : s.fs = textRun.state.fs) (records : List (Fin vfsMaxOpen × List UInt8)) :
    AppendStep smallGeometry 3 ⟨s, records⟩ openF ⟨s.call smallGeometry openF, records⟩ := by
  have hf : resolvedNames rootPath pathF = [[102]] := by decide +kernel
  have hres : resolve smallGeometry textRun.state.fs.disk [[102]] = some 3 := by decide +kernel
  refine ⟨proper_pathF (hfs ▸ fileTree_text.toSound), ?_, by decide, by decide, rfl⟩
  rw [hf, hfs]
  exact hres

lemma appendStep_write (hi : openFile s fd = some i)
    (hino : (s.files i).inode = 3) (hfull : (vfsWrite smallGeometry s fd data).1 = data.length)
    (records : List (Fin vfsMaxOpen × List UInt8)) : AppendStep smallGeometry 3 ⟨s, records⟩ (.write fd data)
      ⟨s.call smallGeometry (.write fd data), records ++ [(i, data)]⟩ :=
  ⟨i, hi, hino, hfull, rfl⟩

lemma atEnd_write (hi : openFile s fd = some i)
    (hoff : (s.files i).offset = iSize (inodeAt smallGeometry s.fs.disk 3))
    (hfit : iSize (inodeAt smallGeometry s.fs.disk 3) + data.length < 2 ^ 32)
    (records : List (Fin vfsMaxOpen × List UInt8)) : AtEnd smallGeometry 3 ⟨s, records⟩ (.write fd data) := by
  intro j hj
  obtain rfl : i = j := Option.some.inj (hi.symm.trans hj)
  exact ⟨hoff, hfit⟩

/-- Two records through one descriptor. -/
theorem appends_whole_text : ∃ r, Run (fun r c r' => AppendStep smallGeometry 3 r c r' ∧ AtEnd smallGeometry 3 r c)
    ⟨textRun.state, []⟩ [openF, .write 0 [97], .write 0 [98]] r ∧
    content smallGeometry r.state.fs 3 = [104, 105, 97, 98] := by
  have hfirst : content smallGeometry textRun.state.fs 3 = [104, 105] := by decide +kernel
  have h1 : openFile (textRun.state.call smallGeometry openF) 0 = some 0 := by decide +kernel
  have h2 : openFile ((textRun.state.call smallGeometry openF).call smallGeometry (.write 0 [97])) 0 = some 0 := by
    decide +kernel
  have hrun : Run (fun r c r' => AppendStep smallGeometry 3 r c r' ∧ AtEnd smallGeometry 3 r c)
      ⟨textRun.state, []⟩ [openF, .write 0 [97], .write 0 [98]] _ :=
    .cons ⟨appendStep_openF rfl [], trivial⟩ (.cons
      ⟨appendStep_write h1 (by decide +kernel) (by decide +kernel) [],
        atEnd_write h1 (by decide +kernel) (by decide +kernel) []⟩ (.cons
      ⟨appendStep_write h2 (by decide +kernel) (by decide +kernel) _,
        atEnd_write h2 (by decide +kernel) (by decide +kernel) _⟩ (.nil _)))
  refine ⟨_, hrun, ?_⟩
  rw [appends_whole appendStart_text hrun, hfirst]
  rfl

/-- Two descriptors are opened before either is written: both writes return their full
length, and the second record lies over the first. -/
theorem append_overwritten : ∃ r, Run (AppendStep smallGeometry 3) ⟨textRun.state, []⟩
    [openF, openF, .write 0 [97], .write 1 [98]] r ∧ r.records = [(0, [97]), (1, [98])] ∧
    content smallGeometry textRun.state.fs 3 = [104, 105] ∧
    content smallGeometry r.state.fs 3 = [104, 105, 98] := by
  have hfs : (textRun.state.call smallGeometry openF).fs = textRun.state.fs := by
    obtain ⟨hp, hn, -, htrunc, -⟩ := appendStep_openF (s := textRun.state) rfl []
    exact vfsOpenEx_fs appendStart_text.steady hp hn htrunc 0 0
  have h1 : openFile twoOpens 0 = some 0 := by decide +kernel
  have h2 : openFile (twoOpens.call smallGeometry (.write 0 [97])) 1 = some 1 := by decide +kernel
  refine ⟨_, .cons (appendStep_openF rfl []) (.cons (appendStep_openF hfs []) (.cons
    (appendStep_write h1 (by decide +kernel) (by decide +kernel) []) (.cons
    (appendStep_write h2 (by decide +kernel) (by decide +kernel) _) (.nil _)))), rfl, by decide +kernel, ?_⟩
  decide +kernel

end AetherOS.Vfs
