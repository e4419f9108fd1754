import AetherOS.Ext2RoundTrip
import AetherOS.Ext2Books

/-!
# What an operation leaves alone

The operations on files and directories work on one or two inodes. Everything else on the
volume stays: the other inodes in use and the bytes of their files. The bitmaps of the
inodes change only when inodes are taken and given back.
-/
namespace AetherOS.Ext2
open ByteMemory ByteBitmap PointerTree

/-- Only the inodes in `D`, their files, the free blocks and the records of what is free are
different. -/
structure Kept (g : Geometry) (live : ℕ → Prop) (D : Set ℕ) (s s' : Fs) : Prop where
  noFault : NoFault s'
  consistent : Consistent g (s'.mounted g live)
  count : sBlocksCount s'.sb = sBlocksCount s.sb
  inodesCount : sInodesCount s'.sb = sInodesCount s.sb
  inodes : ∀ n, n ≠ 0 → n ∉ D → RealGroup g (s.mounted g live) (inodeGroup g n) →
    inodeAt g s'.disk n = inodeAt g s.disk n
  bytes : ∀ n, live n → n ∉ D → ∀ x,
    fileByte g (s'.mounted g live) n x = fileByte g (s.mounted g live) n x
  inVolume : InVolume g (s.mounted g live) → InVolume g (s'.mounted g live)

/-- The same, and no inode was taken or given back. -/
structure Touched (g : Geometry) (live : ℕ → Prop) (D : Set ℕ) (s s' : Fs) : Prop
    extends Kept g live D s s' where
  inodeBits : ∀ i j, RealGroup g (s.mounted g live) i → inodeBit g s'.disk i j = inodeBit g s.disk i j

section

variable {g : Geometry} {live live' : ℕ → Prop} {D D' : Set ℕ} {s s' s'' : Fs} {n : ℕ}

lemma Touched.refl (h : Consistent g (s.mounted g live)) (hn : NoFault s) : Touched g live D s s :=
  ⟨⟨hn, h, rfl, rfl, fun _ _ _ _ => rfl, fun _ _ _ _ => rfl, id⟩, fun _ _ _ => rfl⟩

lemma Kept.realGroup (h : Kept g live D s s') (i : ℕ) :
    RealGroup g (s'.mounted g live) i ↔ RealGroup g (s.mounted g live) i := by
  change _ < sBlocksCount s'.sb ↔ _ < sBlocksCount s.sb
  rw [h.count]

lemma fileByte_remount (hin : inodeAt g s'.disk n = inodeAt g s.disk n) (x : ℕ) :
    fileByte g (s'.mounted g live) n x = fileByte g (s'.view (diskSlots g s.disk) live) n x := by
  refine fileByte_congr ?_ fun _ b _ => .refl _ b
  apply reach_congr
  · intro k _
    simp only [Fs.mounted, Fs.view]
    rw [diskSlots, diskSlots, hin]
  · intro _ _ b _
    exact .refl _ b

lemma Grown.touched (hg : Grown g (s.mounted g live) (s'.view (diskSlots g s.disk) live))
    (h : Consistent g (s.mounted g live)) (hn : NoFault s')
    (hcount : sInodesCount s'.sb = sInodesCount s.sb) : Touched g live ∅ s s' where
  noFault := hn
  consistent := by
    have hin : ∀ n, live n → inodeAt g s'.disk n = inodeAt g s.disk n :=
      fun n hl => hg.inodes n (h.live n hl).2
    exact hg.consistent.of_disk (sameRoles_remount hin) rfl
  count := hg.count
  inodesCount := hcount
  inodeBits := hg.inodeBits
  inodes n _ _ hr := hg.inodes n hr
  bytes n hl _ x := (fileByte_remount (hg.inodes n (h.live n hl).2) x).trans (hg.bytes n hl x)
  inVolume hv := (sameRoles_remount fun n hl => hg.inodes n (h.live n hl).2).inVolume (hg.inVolume hv)

lemma Written.touched {ino off : ℕ} {data : List UInt8} (h : Written g s s' live ino off data) :
    Touched g live {ino} s s' :=
  { h with bytes := h.others }

end

section

variable {g : Geometry} {s : Fs} {slots : ℕ → ℕ → ℕ} {live : ℕ → Prop} {c i j : ℕ}

lemma grown_writeSpare (h : Consistent g (s.view slots live))
    (hnone : ∀ r, ¬HasRole g (s.view slots live) c r) (buf : Mem) :
    let s' : Fs := { s with disk := blit s.disk g.blockSize (c * g.blockSize) buf }
    Grown g (s.view slots live) (s'.view slots live) ∧ ∀ r, ¬HasRole g (s'.view slots live) c r := by
  intro s'
  obtain ⟨hroles, hcons, -⟩ := h.write (c := c) (blit s.disk g.blockSize (c * g.blockSize) buf)
    (fun b hb => same_writeBlock buf hb) (hnone _) (fun _ => hnone _)
    fun n p m hn hp => hnone _ (Consistent.file_role hn hp)
  refine ⟨hroles.grown h hcons fun b r hb _ _ _ => same_writeBlock buf ?_,
    fun r hr => hnone r ((hroles.hasRole c r).mp hr)⟩
  rintro rfl
  exact hnone r hb

lemma grown_unmarked (h : Consistent g (s.view slots live)) (hlt : blockNumber g i j < sBlocksCount s.sb)
    (hnone : ∀ r, ¬HasRole g (s.view slots live) (blockNumber g i j) r) :
    Grown g (s.view slots live) ((unmarked g .block s i j).view slots live) := by
  have hreal : RealGroup g (s.view slots live) i := .of_number hlt
  obtain ⟨hroles, hcons⟩ := unmarked_consistent h hlt hnone
  refine hroles.grown h hcons fun b r hb hs hd hbm => ?_
  exact (mark_recorded hreal).same h hb (hbm i) hd hs

end

end AetherOS.Ext2
