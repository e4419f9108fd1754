import AetherOS.Ext2RoundTrip

/-!
# Reading files with holes

A data block that a file does not have is read as zeros. Where a block of block numbers is
missing, `ext2_read` stops, and what it returns is shorter than what was asked for.
-/
namespace AetherOS.Ext2
open ByteMemory PointerTree

/-- The number of bytes that `ext2_read` is to return. -/
def readLength (s : Fs) (g : Geometry) (ino off n : ℕ) : ℕ := min n (iSize (inodeAt g s.disk ino) - off)

section

variable {g : Geometry} {s : Fs} {live : ℕ → Prop} {ino idx : ℕ}

/-- Where a block of block numbers is missing the result is short. -/
theorem takeSome_short (hn : NoFault s) (off len : ℕ) {x : ℕ} (hmax : x / g.blockSize < maxBlocks g) (hx : off ≤ x)
    (hx' : x < off + len) (hno : ¬TablesPresent g (s.mounted g live) ino (x / g.blockSize)) :
    (takeSome (foundByte g s (inodeAt g s.disk ino)) off len).length < len := by
  obtain ⟨-, hfind⟩ | ⟨htab, -⟩ := findBlock_cases live ino hn hmax
  · obtain ⟨i, rfl⟩ := Nat.exists_eq_add_of_le hx
    have hle := length_takeSome_le (f := foundByte g s (inodeAt g s.disk ino)) (n := len) (by rw [foundByte, hfind])
    omega
  · exact absurd htab hno

end

/-- On every volume whose inodes lie within blocks, for every inode, every offset
and every length that stay below the triply indirect block: `ext2_read` returns all the bytes
up to the end of the file, zeros where no block is mapped, exactly if no block of block numbers
is missing in the range. -/
theorem ext2Read_sparse_iff (g : Geometry) (s : Fs) (live : ℕ → Prop) (ino off n : ℕ) (hfit : g.InodesFit)
    (hn : NoFault s) (hino : ino ≠ 0)
    (hmax : off + readLength s g ino off n ≤ maxBlocks g * g.blockSize) :
    ext2Read g s ino off n = (some ((List.range (readLength s g ino off n)).map fun i =>
        fileByte g (s.mounted g live) ino (off + i)), s) ↔
      ∀ x, off ≤ x → x < off + readLength s g ino off n →
        TablesPresent g (s.mounted g live) ino (x / g.blockSize) := by
  have hblocks : ∀ x, off ≤ x → x < off + readLength s g ino off n → x / g.blockSize < maxBlocks g := by
    intro x _ hx
    exact Nat.div_lt_of_lt_mul (by rw [mul_comm]; omega)
  rw [ext2Read_takes hfit hn hino, ← readLength]
  constructor
  · intro h x hx hx'
    by_contra hno
    have hlt := takeSome_short hn off _ (hblocks x hx hx') hx hx' hno
    rw [Option.some.inj (Prod.mk.inj h).1] at hlt
    simp at hlt
  · intro h
    rw [takeSome_tables hn off _ fun x hx hx' => ⟨hblocks x hx hx', h x hx hx'⟩]

/-- A file of which only a block behind the doubly indirect block was written. -/
def sparseVolume : Fs := (ext2Write smallGeometry smallVolume 3 274432 [1]).2

lemma sparseVolume_sound : Consistent smallGeometry (sparseVolume.mounted smallGeometry (· = 3)) ∧
    NoFault sparseVolume := by
  obtain ⟨w, s', he, -, hw⟩ : ∃ w s', ext2Write smallGeometry smallVolume 3 274432 [1] = (some w, s') ∧
      w ≤ 1 ∧ Written smallGeometry smallVolume s' (· = 3) 3 274432 ([1].take w) :=
    ext2Write_spec consistent_smallVolume (fun _ => rfl) rfl (by decide)
  rw [sparseVolume, he]
  exact ⟨hw.consistent, hw.noFault⟩

/-- The two bytes at the start are zeros. -/
theorem ext2Read_sparse_start : (ext2Read smallGeometry sparseVolume 3 0 2).1 = some [0, 0] := by
  have hlen : readLength sparseVolume smallGeometry 3 0 2 = 2 := by decide +kernel
  have htables : ∀ x, 0 ≤ x → x < 0 + readLength sparseVolume smallGeometry 3 0 2 →
      TablesPresent smallGeometry (sparseVolume.mounted smallGeometry (· = 3)) 3 (x / smallGeometry.blockSize) := by
    intro x _ hx
    have hsize : smallGeometry.blockSize = 1024 := rfl
    have hlt : x < smallGeometry.blockSize := by omega
    rw [Nat.div_eq_of_lt hlt]
    rfl
  have hread := (ext2Read_sparse_iff smallGeometry sparseVolume (· = 3) 3 0 2 ⟨by decide, by decide⟩
    sparseVolume_sound.2 (by decide) (by rw [hlen]; decide)).mpr htables
  rw [hread, hlen]
  decide +kernel

/-- The indirect block is missing: nothing is returned for the byte at the start of its range,
which is within the file. -/
theorem ext2Read_stops_at_missing_table :
    Consistent smallGeometry (sparseVolume.mounted smallGeometry (· = 3)) ∧ NoFault sparseVolume ∧
      iSize (inodeAt smallGeometry sparseVolume.disk 3) = 274433 ∧
      (ext2Read smallGeometry sparseVolume 3 12288 1).1 = some [] :=
  ⟨sparseVolume_sound.1, sparseVolume_sound.2, by decide +kernel, by decide +kernel⟩

end AetherOS.Ext2
