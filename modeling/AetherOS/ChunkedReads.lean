import AetherOS.FileProtection

/-!
# Reading a file in chunks

`sys_read` passes a file through a buffer of 512 bytes: it calls `ext2_read` again and again, at
offsets that have nothing to do with the blocks, until a chunk is short. What arrives is what one
call for all the bytes returns, since both take the bytes that are found, one after another.
-/
namespace AetherOS.Vfs
open Ext2 Proc ByteMemory Function

/-- The bytes that the loop copies to the caller when every copy succeeds. -/
def readFileBytes (g : Geometry) (vfd : ℤ) (s : State) (count : ℕ) : List UInt8 :=
  if _h : count = 0 then []
  else
    match vfsRead g s vfd (min count kbufSize) with
    | (none, _) => []
    | (some bytes, s) =>
      if bytes.length < min count kbufSize then bytes
      else bytes ++ readFileBytes g vfd s (count - min count kbufSize)
termination_by count
decreasing_by
  rw [kbufSize]
  omega

/-- The byte of a file, where `ext2_read` finds one within the size. -/
def sizedByte (g : Geometry) (fs : Fs) (ino x : ℕ) : Option UInt8 :=
  if x < iSize (inodeAt g fs.disk ino) then foundByte g fs (inodeAt g fs.disk ino) x else none

section

variable {g : Geometry} {s : State} {vfd : ℤ} {i : Fin vfsMaxOpen}

lemma ext2Read_eq {fs : Fs} {ino : ℕ} (hfit : g.InodesFit) (hn : NoFault fs) (hino : ino ≠ 0) (off size : ℕ) :
    ext2Read g fs ino off size = (some (takeSome (sizedByte g fs ino) off size), fs) := by
  rw [ext2Read_takes hfit hn hino, ← takeSome_before]
  rfl

/-- Moving the offset of a file opens and closes nothing. -/
lemma openFile_advance (h : openFile s vfd = some i) (n : ℕ) :
    openFile ⟨s.fs, update s.files i { s.files i with offset := n }⟩ vfd = some i := by
  rw [← h]
  unfold openFile
  congr 1
  funext j
  by_cases hj : j = i
  · simp only [hj, update_self]
  · simp only [update_of_ne hj]

variable (hfit : g.InodesFit) (hn : NoFault s.fs) (hopen : openFile s vfd = some i) (hino : (s.files i).inode ≠ 0)
include hfit hn hopen hino

lemma vfsRead_eq {size : ℕ} (hsum : (s.files i).offset + size < 2 ^ 64) {bytes : List UInt8}
    (hbytes : bytes = takeSome (sizedByte g s.fs (s.files i).inode) (s.files i).offset size) :
    vfsRead g s vfd size = (some bytes,
      ⟨s.fs, update s.files i { s.files i with offset := (s.files i).offset + bytes.length }⟩) := by
  have hlen := length_takeSome (sizedByte g s.fs (s.files i).inode) (s.files i).offset size
  rw [vfsRead, hopen]
  simp only [ext2Read_eq hfit hn hino, ← hbytes, advance]
  rw [Nat.mod_eq_of_lt (by rw [hbytes]; omega)]

/-- The loop, from any offset on. -/
lemma readFile_eq (done count : ℕ) (hsum : (s.files i).offset + count < 2 ^ 64) {bytes : List UInt8}
    (hbytes : bytes = takeSome (sizedByte g s.fs (s.files i).inode) (s.files i).offset count) :
    readFile g (fun _ => true) vfd s done count = (((done + bytes.length : ℕ) : ℤ),
      ⟨s.fs, update s.files i { s.files i with offset := (s.files i).offset + bytes.length }⟩) ∧
    readFileBytes g vfd s count = bytes := by
  induction count using Nat.strong_induction_on generalizing s done bytes with
  | _ count ih =>
    rw [readFile, readFileBytes]
    by_cases h0 : count = 0
    · subst h0
      subst hbytes
      simp [takeSome]
    let byte := sizedByte g s.fs (s.files i).inode
    have hsplit := takeSome_add byte (s.files i).offset (min count kbufSize)
      (count - min count kbufSize)
    rw [Nat.add_sub_of_le (Nat.min_le_left ..), ← hbytes] at hsplit
    obtain ⟨chunk, hchunk⟩ : ∃ l, l = takeSome byte (s.files i).offset
      (min count kbufSize) := ⟨_, rfl⟩
    have hle := length_takeSome byte (s.files i).offset (min count kbufSize)
    have hpos : 0 < min count kbufSize := by
      rw [kbufSize]
      omega
    have hread := vfsRead_eq hfit hn hopen hino (by omega) hchunk
    rw [← hchunk] at hsplit hle
    simp only [dif_neg h0, hread]
    by_cases hfull : chunk.length = min count kbufSize
    · have hrest : bytes = chunk ++ takeSome byte ((s.files i).offset + chunk.length)
          (count - min count kbufSize) := by
        rw [hsplit, if_pos hfull, hfull]
      have hnext := ih (count - min count kbufSize) (by omega) (s := ⟨s.fs, update s.files i
        { s.files i with offset := (s.files i).offset + chunk.length }⟩) hn (openFile_advance hopen _)
        (by simpa using hino) (done + chunk.length) (by simp only [update_self]; omega) rfl
      simp only [update_self, update_idem] at hnext
      rw [if_neg (by omega), if_neg (by simp), if_neg (by omega), if_neg (by omega), hnext.1, hnext.2, hrest,
        List.length_append, ← Nat.add_assoc, ← Nat.add_assoc]
      exact ⟨rfl, rfl⟩
    · rw [if_neg hfull] at hsplit
      rw [if_pos (by omega : chunk.length < min count kbufSize), if_pos (by omega : chunk.length < min count kbufSize),
        hsplit]
      split
      next hz => simp [hz]
      · simp

end

/-- On every volume without device errors, for every file, offset and count: `sys_read` returns
the number of bytes that one `ext2_read` returns, copies the same bytes and moves the offset by
that number. -/
theorem sysRead_eq_ext2Read (g : Geometry) (s : Session) (fd : UInt64) (vfd : ℤ) (i : Fin vfsMaxOpen) (count : ℕ)
    (hfit : g.InodesFit) (hn : NoFault s.vfs.fs) (hsource : readSource (some s.fds) fd = some (.file vfd))
    (hopen : openFile s.vfs vfd = some i) (hino : (s.vfs.files i).inode ≠ 0)
    (hoff : (s.vfs.files i).offset < 2 ^ 32) (hcount : count < 2 ^ 32) :
    ∃ bytes, ext2Read g s.vfs.fs (s.vfs.files i).inode (s.vfs.files i).offset count = (some bytes, s.vfs.fs) ∧
      readFileBytes g vfd s.vfs count = bytes ∧
      sysRead g (fun _ => true) fd count s = (some (bytes.length : ℤ), { s with vfs := ⟨s.vfs.fs,
        update s.vfs.files i { s.vfs.files i with offset := (s.vfs.files i).offset + bytes.length }⟩ }) := by
  obtain ⟨hloop, hcopied⟩ := readFile_eq hfit hn hopen hino 0 count (by omega) rfl
  refine ⟨_, ext2Read_eq hfit hn hino _ _, hcopied, ?_⟩
  rw [sysRead]
  split
  next h0 =>
    subst h0
    simp [takeSome]
  · simp only [hsource, hloop, Nat.zero_add]

/-- Every descriptor refers to the text. -/
def openText : Session := ⟨⟨textRun.state.fs, fun _ => ⟨true, 3, 0⟩⟩, fun _ => ⟨true, .file, 0⟩⟩

theorem sysRead_eq_ext2Read_text : ∃ bytes, ext2Read smallGeometry openText.vfs.fs 3 0 600 =
    (some bytes, openText.vfs.fs) ∧ readFileBytes smallGeometry 0 openText.vfs 600 = bytes ∧
      (sysRead smallGeometry (fun _ => true) 3 600 openText).1 = some (bytes.length : ℤ) := by
  obtain ⟨bytes, hone, hcopied, hcall⟩ := sysRead_eq_ext2Read smallGeometry openText 3 0 0 600 ⟨by decide, by decide⟩
    textSession_start.steady.sound.noFault rfl rfl (by decide) (by decide) (by decide)
  exact ⟨bytes, hone, hcopied, congrArg Prod.fst hcall⟩

end AetherOS.Vfs
