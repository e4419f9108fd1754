import AetherOS.Ext2Calls
import AetherOS.DescriptorOwners
import AetherOS.Ext2NameLaws

/-!
# The table of open files

`vfs.c` makes an absolute path of the path it is given, calls ext2, and keeps a table of 16
open files. An entry of the table is the number of an inode and an offset: nothing marks the
inode as open.
-/
namespace AetherOS.Vfs
open Ext2 Proc List

/-- The bytes of a string before its end. -/
abbrev CString := { p : Path // 0 ∉ p }

section

/-- The length of the output so far. -/
def outLength (out : List Name) : ℕ := (out.flatMap (47 :: ·)).length

/-- The components of the string, in the order in which they go to the output. -/
def resolveLoop (tmp : Path) (out : List Name) : List Name :=
  if _h : tmp = [] then out
  else if tmp.head? = some 47 then resolveLoop tmp.tail out
  else
    let comp := tmp.takeWhile (· ≠ 47)
    let rest := (tmp.dropWhile (· ≠ 47)).drop 1
    if comp = [46] then resolveLoop rest out
    else if comp = [46, 46] then resolveLoop rest out.dropLast
    else if 512 ≤ outLength out + comp.length + 1 then out
    else resolveLoop rest (out ++ [comp])
termination_by tmp.length
decreasing_by
  · rw [length_tail]
    have hpos := length_pos_iff.mpr _h
    omega
  all_goals exact length_next_lt _h

/-- The path before it is normalized, in a buffer of 512 bytes. -/
def absolute (cwd path : CString) : Path :=
  if path.val.head? = some 47 then path.val.take 511
  else
    let tmp := cwd.val.take 511
    let tmp := if (tmp = [] ∨ tmp.getLast? ≠ some 47) ∧ tmp.length < 511 then tmp ++ [47] else tmp
    tmp ++ path.val.take (511 - tmp.length)

def resolvedNames (cwd path : CString) : List Name := resolveLoop (absolute cwd path) []

def vfsResolve (cwd path : CString) : Path := pathString (resolvedNames cwd path)

/-- A component of the output. -/
structure Clean (c : Name) : Prop where
  ne_nil : c ≠ []
  noSlash : 47 ∉ c
  noEnd : 0 ∉ c
  notDot : c ≠ [46]
  notDotDot : c ≠ [46, 46]

lemma resolveLoop_clean (tmp : Path) (out : List Name) (htmp : 0 ∉ tmp) (hout : ∀ c ∈ out, Clean c) :
    ∀ c ∈ resolveLoop tmp out, Clean c := by
  have hrest : ∀ {t : Path}, 0 ∉ t → 0 ∉ (t.dropWhile (· ≠ 47)).drop 1 := fun ht h0 =>
    ht ((dropWhile_sublist _).subset (mem_of_mem_drop h0))
  fun_induction resolveLoop tmp out with
  | case1 out => exact hout
  | case2 tmp out hne hhead ih => exact ih (fun h0 => htmp (mem_of_mem_tail h0)) hout
  | case3 tmp out hne hhead comp rest hdot ih => exact ih (hrest htmp) hout
  | case4 tmp out hne hhead comp rest hdot hdots ih =>
    exact ih (hrest htmp) fun c hc => hout c (mem_of_mem_dropLast hc)
  | case5 => exact hout
  | case6 tmp out hne hhead comp rest hdot hdots hfull ih =>
    refine ih (hrest htmp) fun c hc => ?_
    rcases mem_append.mp hc with hc | hc
    · exact hout c hc
    obtain rfl := mem_singleton.mp hc
    refine ⟨?_, ?_, fun h0 => htmp ((takeWhile_sublist _).subset h0), hdot, hdots⟩
    · cases tmp with
      | nil => exact absurd rfl hne
      | cons b tmp =>
        have hb : b ≠ 47 := fun hb => hhead (by rw [hb]; rfl)
        simp [comp, hb]
    · intro h47
      have hall := all_takeWhile (l := tmp) (p := (· ≠ 47))
      rw [all_eq_true] at hall
      simpa using hall 47 h47

lemma absolute_noEnd (cwd path : CString) : 0 ∉ absolute cwd path := by
  have hpath : ∀ k, 0 ∉ path.val.take k := fun k h0 => path.property (mem_of_mem_take h0)
  have hcwd : ∀ k, 0 ∉ cwd.val.take k := fun k h0 => cwd.property (mem_of_mem_take h0)
  rw [absolute]
  split
  · exact hpath 511
  intro h0
  rcases mem_append.mp h0 with h0 | h0
  · split at h0
    · rcases mem_append.mp h0 with h0 | h0
      · exact hcwd 511 h0
      · simp at h0
    · exact hcwd 511 h0
  · exact hpath _ h0

/-- A resolved path that fits into the buffers of ext2 is normalized. -/
theorem normalized_resolved {cwd path : CString} (hlen : (vfsResolve cwd path).length ≤ 255) :
    Normalized 255 (resolvedNames cwd path) := by
  refine ⟨fun c hc => ?_, hlen⟩
  have hclean := resolveLoop_clean _ [] (absolute_noEnd cwd path) (by simp) c hc
  refine ⟨length_pos_iff.mpr hclean.ne_nil, ?_, hclean.noSlash, hclean.noEnd, hclean.notDot, hclean.notDotDot⟩
  -- the component and its slash are a part of the path
  have hne : resolvedNames cwd path ≠ [] := ne_nil_of_mem hc
  have hpart : (47 :: c).length ≤ (vfsResolve cwd path).length := by
    rw [vfsResolve, pathString, if_neg hne]
    obtain ⟨l1, l2, hl⟩ := append_of_mem hc
    rw [hl, flatMap_append, flatMap_cons]
    simp only [length_append]
    omega
  rw [length_cons] at hpart
  omega

end

/-- The filesystem and the open files. -/
structure State where
  fs : Fs
  files : Fin vfsMaxOpen → VfsFile

variable (g : Geometry)

def vfsOpen (s : State) (path : Path) : ℤ × State :=
  match ext2Lookup g s.fs path with
  | (none, fs) => (-1, { s with fs := fs })
  | (some ino, fs) =>
    match vfsOpenSlot s.files ino 0 with
    | (none, _) => (-1, { s with fs := fs })
    | (some i, files) => (i.val, ⟨fs, files⟩)

/-- The inode that `vfs_open_ex` opens: it is made or truncated as the flags say. -/
def prepare (fs : Fs) (path : Path) (flags : UInt32) (uid gid : ℕ) : Option ℕ × Fs :=
  match ext2Lookup g fs path with
  | (none, fs) =>
    if flags &&& 0x40 = 0 then (none, fs)
    else
      let made := ext2Create g fs path uid gid
      (if made.1 = 0 then none else some made.1, made.2)
  | (some ino, fs) => if flags &&& 0x200 ≠ 0 then (some ino, (ext2Truncate g fs ino).2) else (some ino, fs)

/-- With `O_APPEND` the offset is the size of the file. -/
def appendOffset (s : State) (i : Fin vfsMaxOpen) (flags : UInt32) : State :=
  if flags &&& 0x400 ≠ 0 then
    let size := ext2FileSize g s.fs (s.files i).inode
    ⟨size.2, Function.update s.files i { s.files i with offset := size.1 }⟩
  else s

def vfsOpenEx (s : State) (path : Path) (flags : UInt32) (uid gid : ℕ) : ℤ × State :=
  match prepare g s.fs path flags uid gid with
  | (none, fs) => (-1, { s with fs := fs })
  | (some ino, fs) =>
    match vfsOpenSlot s.files ino 0 with
    | (none, _) => (-1, { s with fs := fs })
    | (some i, files) => (i.val, appendOffset g ⟨fs, files⟩ i flags)

def vfsCreat (s : State) (path : Path) (uid gid : ℕ) : ℤ × State :=
  let made := ext2Create g s.fs path uid gid
  (if made.1 = 0 then -1 else 0, { s with fs := made.2 })

def vfsMkdir (s : State) (path : Path) (uid gid : ℕ) : ℤ × State :=
  let made := ext2Mkdir g s.fs path uid gid
  (if made.1 = 0 then -1 else 0, { s with fs := made.2 })

def vfsUnlink (s : State) (path : Path) : ℤ × State :=
  let r := ext2Unlink g s.fs path
  (if r.1 then 0 else -1, { s with fs := r.2 })

def vfsRename (s : State) (old new : Path) : ℤ × State :=
  let r := ext2Rename g s.fs old new
  (if r.1 then 0 else -1, { s with fs := r.2 })

def vfsChmod (s : State) (path : Path) (mode : ℕ) : ℤ × State :=
  let r := ext2Chmod g s.fs path mode
  (if r.1 then 0 else -1, { s with fs := r.2 })

def vfsChown (s : State) (path : Path) (uid gid : ℕ) : ℤ × State :=
  match ext2Lookup g s.fs path with
  | (none, fs) => (-1, { s with fs := fs })
  | (some ino, fs) =>
    let r := ext2InodeChown g fs ino uid gid
    (if r.1 then 0 else -1, { s with fs := r.2 })

/-- The slot of an open file. -/
def openFile (s : State) (fd : ℤ) : Option (Fin vfsMaxOpen) :=
  (List.finRange vfsMaxOpen).find? fun i => decide ((i.val : ℤ) = fd) && (s.files i).inUse

def advance (files : Fin vfsMaxOpen → VfsFile) (i : Fin vfsMaxOpen) (n : ℕ) : Fin vfsMaxOpen → VfsFile :=
  Function.update files i { files i with offset := ((files i).offset + n) % 2 ^ 64 }

def vfsWrite (s : State) (fd : ℤ) (data : List UInt8) : ℤ × State :=
  match openFile s fd with
  | none => (-1, s)
  | some i =>
    match ext2Write g s.fs (s.files i).inode (s.files i).offset data with
    | (none, fs) => (-1, { s with fs := fs })
    | (some n, fs) => (n, ⟨fs, advance s.files i n⟩)

def vfsRead (s : State) (fd : ℤ) (size : ℕ) : Option (List UInt8) × State :=
  match openFile s fd with
  | none => (none, s)
  | some i =>
    match ext2Read g s.fs (s.files i).inode (s.files i).offset size with
    | (none, fs) => (none, { s with fs := fs })
    | (some bytes, fs) => (some bytes, ⟨fs, advance s.files i bytes.length⟩)

def vfsCloseFile (s : State) (fd : ℤ) : State := { s with files := vfsClose s.files fd }

/-- The calls that change a file, an entry or the table, with the working directory and the identity of the caller. -/
inductive VfsCall where
  | open (cwd path : CString)
  | openEx (cwd path : CString) (flags : UInt32) (uid gid : ℕ)
  | creat (cwd path : CString) (uid gid : ℕ)
  | mkdir (cwd path : CString) (uid gid : ℕ)
  | unlink (cwd path : CString)
  | rename (cwd old new : CString)
  | chmod (cwd path : CString) (mode : ℕ)
  | chown (cwd path : CString) (uid gid : ℕ)
  | read (fd : ℤ) (size : ℕ)
  | write (fd : ℤ) (data : List UInt8)
  | close (fd : ℤ)

def State.call (s : State) : VfsCall → State
  | .open cwd path => (vfsOpen g s (vfsResolve cwd path)).2
  | .openEx cwd path flags uid gid => (vfsOpenEx g s (vfsResolve cwd path) flags uid gid).2
  | .creat cwd path uid gid => (vfsCreat g s (vfsResolve cwd path) uid gid).2
  | .mkdir cwd path uid gid => (vfsMkdir g s (vfsResolve cwd path) uid gid).2
  | .unlink cwd path => (vfsUnlink g s (vfsResolve cwd path)).2
  | .rename cwd old new => (vfsRename g s (vfsResolve cwd old) (vfsResolve cwd new)).2
  | .chmod cwd path mode => (vfsChmod g s (vfsResolve cwd path) mode).2
  | .chown cwd path uid gid => (vfsChown g s (vfsResolve cwd path) uid gid).2
  | .read fd size => (vfsRead g s fd size).2
  | .write fd data => (vfsWrite g s fd data).2
  | .close fd => vfsCloseFile s fd

end AetherOS.Vfs
