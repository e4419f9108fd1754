import AetherOS.Ext2Filesystem

/-!
# Checking a filesystem

Whether a volume whose inodes in use are listed is a sound filesystem can be evaluated: its
blocks are checked as a volume, and its directories entry by entry.
-/
namespace AetherOS.Ext2
open ByteMemory ByteBitmap PointerTree

section

variable (g : Geometry) (s : Fs)

/-- The bitmaps of the inodes have the size of the groups and say which inodes are in use. -/
@[mk_iff] structure BitsChecked (inos : List ℕ) : Prop where
  size : g.inodesPerGroup ≤ 8 * g.blockSize
  groups : ∀ i < sInodesCount s.sb, i * g.inodesPerGroup < sInodesCount s.sb →
    RealGroup g (s.mounted g fun _ => True) i ∧ ∀ j < g.inodesPerGroup, inodeBit g s.disk i j = false →
      i * g.inodesPerGroup + j < sInodesCount s.sb
  used : ∀ n ∈ inos, n ≠ 0 ∧ n ≤ sInodesCount s.sb
  bits : ∀ n < sInodesCount s.sb,
    inodeBit g s.disk (inodeGroup g (n + 1)) (inodeIndex g (n + 1)) = decide (n + 1 ∈ inos)

/-- What is evaluated for a directory. -/
@[mk_iff] structure DirChecked (inos : List ℕ) (d : ℕ) : Prop where
  chains : DirChains g s.disk (inodeAt g s.disk d)
  noHoles : NoHoles (inodeAt g s.disk d)
  names : ((entriesOf g s.disk d).map Prod.fst).Nodup
  entries : ∀ e ∈ entriesOf g s.disk d, e.2 ∈ inos ∧
    (isDir (inodeAt g s.disk e.2) = true ∨ isReg (inodeAt g s.disk e.2) = true)

instance (inos : List ℕ) : Decidable (BitsChecked g s inos) :=
  decidable_of_iff' _ (bitsChecked_iff g s inos)

instance (inos : List ℕ) (d : ℕ) : Decidable (DirChecked g s inos d) :=
  decidable_of_iff' _ (dirChecked_iff g s inos d)

/-- What is evaluated for a filesystem whose inodes in use are `inos`. -/
@[mk_iff] structure SoundChecked (inos : List ℕ) : Prop where
  volume : Checked g (s.mounted g (· ∈ inos)) inos
  inVolume : ∀ r ∈ inos.flatMap (fileRoles g (s.mounted g (· ∈ inos))), r.1 < sBlocksCount s.sb
  bits : BitsChecked g s inos
  reserved : 1 ∈ inos
  root : 2 ∈ inos ∧ isDir (inodeAt g s.disk 2) = true
  dirs : ∀ d ∈ inos, isDir (inodeAt g s.disk d) = true → DirChecked g s inos d

instance (inos : List ℕ) : Decidable (SoundChecked g s inos) :=
  decidable_of_iff' _ (soundChecked_iff g s inos)

end

section

variable {g : Geometry} {s : Fs} {inos : List ℕ}

lemma BitsChecked.inUse (h : BitsChecked g s inos) : InUse g s = (· ∈ inos) := by
  have hbit : ∀ n, n ≠ 0 → n ≤ sInodesCount s.sb →
      inodeBit g s.disk (inodeGroup g n) (inodeIndex g n) = decide (n ∈ inos) := by
    intro n h0 hle
    obtain ⟨m, rfl⟩ := Nat.exists_eq_succ_of_ne_zero h0
    exact h.bits m hle
  funext n
  apply propext
  constructor
  · rintro ⟨h0, hle, hset⟩
    rw [hbit n h0 hle] at hset
    exact of_decide_eq_true hset
  intro hn
  obtain ⟨h0, hle⟩ := h.used n hn
  exact ⟨h0, hle, (hbit n h0 hle).trans (decide_eq_true hn)⟩

lemma BitsChecked.inodeMaps (h : BitsChecked g s inos) (hpos : 0 < g.inodesPerGroup) : InodeMaps g s := by
  have hlt : ∀ i, i * g.inodesPerGroup < sInodesCount s.sb → i < sInodesCount s.sb := by
    intro i hi
    have := Nat.le_mul_of_pos_right i hpos
    omega
  exact ⟨fun i hi => (h.groups i (hlt i hi) hi).1, h.size, fun i j hi => (h.groups i (hlt i hi) hi).2 j⟩

/-- A filesystem that passes the check is sound. -/
theorem SoundChecked.sound (h : SoundChecked g s inos) (hn : NoFault s) : Sound g s := by
  have huse := h.bits.inUse
  have hmem : ∀ n, InUse g s n ↔ n ∈ inos := fun n => by rw [huse]
  have hcons : Consistent g (s.mounted g (· ∈ inos)) := h.volume.consistent rfl
  refine ⟨⟨hn, h.bits.inodeMaps hcons.inodesPerGroup_pos, ?_, ?_⟩, (hmem 1).mpr h.reserved,
    ⟨(hmem 2).mpr h.root.1, h.root.2⟩, fun d hd => ?_, fun d hd e he => ?_⟩
  · rw [huse]
    exact hcons
  · rw [huse]
    intro n p t b hl hb
    exact h.inVolume (b, .file n p) (List.mem_flatMap.mpr ⟨n, hl, mem_fileRoles hb⟩)
  · have hdir := h.dirs d ((hmem d).mp hd.inUse) hd.dir
    exact ⟨hdir.chains, hdir.noHoles, hdir.names⟩
  · obtain ⟨hin, hkind⟩ := (h.dirs d ((hmem d).mp hd.inUse) hd.dir).entries e he
    exact ⟨(hmem _).mpr hin, hkind⟩

end

end AetherOS.Ext2
