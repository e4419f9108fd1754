import AetherOS.ElfSpaces

/-!
# What a program finds in its space

Every page of the space shows the last segment that has a part in it. A segment whose pages are
its own is shown as its header describes it; where a later segment has taken the place of a
page, the bytes of the earlier one are gone.
-/
namespace AetherOS.Elf
open Mem PointerTree List Option Nat

/-- The byte at an address of a space. -/
def userByte (words : ℕ → ℕ) (cr3 virt : ℕ) : Option ℕ :=
  (lookup words cr3 (path virt)).map fun x => byteAt words ((x.1 &&& pageMask) + virt % 2 ^ (12 + 9 * x.2))

/-- Every entry on the way allows writes. -/
def writableAt (words : ℕ → ℕ) : ℕ → List ℕ → Bool
  | _, [] => true
  | t, i :: rest =>
    decide (words (t + 8 * i) &&& pagePresent ≠ 0 ∧ words (t + 8 * i) &&& pageWritable ≠ 0) &&
      (decide (words (t + 8 * i) &&& pageLarge ≠ 0) || writableAt words (words (t + 8 * i) &&& pageMask) rest)

/-- Byte `i` of a segment. -/
def describedByte (image : List UInt8) (ph : Elf64Phdr) (i : ℕ) : ℕ :=
  if i < ph.pFilesz then (image.getD (ph.pOffset + i) 0).toNat else 0

/-- The space holds the segments as their headers describe them, and an empty stack. -/
structure Described (image : List UInt8) (segs : List Elf64Phdr) (words : ℕ → ℕ) (cr3 : ℕ) : Prop where
  bytes : ∀ ph ∈ segs, ∀ i < ph.pMemsz, userByte words cr3 (ph.pVaddr + i) = some (describedByte image ph i)
  writable : ∀ ph ∈ segs, ph.pFlags &&& pfW ≠ 0 → ∀ i < ph.pMemsz, writableAt words cr3 (path (ph.pVaddr + i)) = true
  stack : ∀ i < userStackPages * pageSize, userByte words cr3 (userStackBase + i) = some 0 ∧
    writableAt words cr3 (path (userStackBase + i)) = true

/-- Segments of disjoint ranges of bytes beside the stack. -/
structure Separate (segs : List Elf64Phdr) : Prop where
  filesz : ∀ ph ∈ segs, ph.pFilesz ≤ ph.pMemsz
  disjoint : segs.Pairwise fun a b => a.pVaddr + a.pMemsz ≤ b.pVaddr ∨ b.pVaddr + b.pMemsz ≤ a.pVaddr
  stack : ∀ ph ∈ segs, ph.pVaddr + ph.pMemsz ≤ userStackBase ∨ userStackTop ≤ ph.pVaddr

/-- The last segment that has a part in a page. -/
def holder (segs : List Elf64Phdr) (v : ℕ) : Option Elf64Phdr := segs.reverse.find? fun ph => v ∈ segmentPages ph

/-- Where a later segment takes the place of a page, the earlier one has no bytes other than
zero there, and needs no write access that the later one lacks. -/
def Harmless (image : List UInt8) (segs : List Elf64Phdr) : Prop :=
  ∀ ph ∈ segs, ∀ v ∈ segmentPages ph, ∀ last, holder segs v = some last → last ≠ ph →
    (∀ i < ph.pFilesz, (ph.pVaddr + i) / pageSize = v → image.getD (ph.pOffset + i) 0 = 0) ∧
      (ph.pFlags &&& pfW ≠ 0 → last.pFlags &&& pfW ≠ 0)

/-- The byte at an address in the pages of a segment. -/
def segmentByte (image : List UInt8) (ph : Elf64Phdr) (a : ℕ) : ℕ :=
  if ph.pVaddr ≤ a ∧ a < ph.pVaddr + ph.pFilesz then (image.getD (ph.pOffset + (a - ph.pVaddr)) 0).toNat else 0

section

variable {s0 : Vmm} {pml4 virt pt v : ℕ} {r : SpaceRun} {placed : List Placement} {x : Placement}
  {image : List UInt8} {segs : List Elf64Phdr} {ph last : Elf64Phdr} {size : ℕ}

lemma path_of_page (virt : ℕ) : path (virt / 2 ^ 12 * 2 ^ 12) = path virt := (path_inj _ _).mpr (by omega)

lemma Loading.byte_shown (h : Loading s0 pml4 placed r) (hx : newest placed (virt / 2 ^ 12) = some x) :
    userByte r.vmm.words pml4 virt = some (x.byte (virt % 2 ^ 12)) := by
  obtain ⟨-, hpage⟩ := newest_mem hx
  obtain ⟨phys, hlookup, hbytes⟩ := h.shows _ x hx
  rw [hpage, path_of_page] at hlookup
  have hbyte := hbytes (virt % 2 ^ 12) (mod_lt _ (by decide))
  rw [userByte, hlookup]
  exact congrArg some hbyte

lemma writableAt_walk {words : ℕ → ℕ} {s : Vmm} (hwords : s.words = words) (hwr : WritableTables 256 pml4 s)
    {p q rest : List ℕ} {t u : ℕ} (ht : walk (child 256 words) 0 pml4 q = some t)
    (hu : walk (child 256 words) q.length t p = some u) (hlen : q.length + p.length ≤ 3) :
    writableAt words t (p ++ rest) = writableAt words u rest := by
  subst hwords
  induction p generalizing q t with
  | nil =>
    cases hu
    rfl
  | cons i p ih =>
    obtain ⟨c, hc, hw⟩ := bind_eq_some_iff.mp hu
    obtain ⟨hi, hpres, hlarge, rfl⟩ := child_inv hc
    simp only [length_cons] at hlen
    have hl : s.words (t + 8 * i) &&& pageLarge = 0 := hlarge.resolve_left (by omega)
    have hwrite := hwr q t i (by omega) ht hi hpres
    have hnext : walk (child 256 s.words) 0 pml4 (q ++ [i]) = some (s.words (t + 8 * i) &&& pageMask) := by
      rw [walk_concat, ht]
      exact hc
    have hlen' : (q ++ [i]).length + p.length ≤ 3 := by
      simp only [length_append, length_singleton]
      omega
    have hrest := ih hlen' hnext (by simpa using hw)
    rw [cons_append, writableAt, hrest, decide_eq_true ⟨hpres, hwrite⟩, hl]
    simp

lemma pageEntry_writable (phys flags : ℕ) : pageEntry phys flags &&& pageWritable = flags &&& pageWritable := by
  have hmask : pageMask &&& pageWritable = 0 := by decide
  have hpres : pagePresent &&& pageWritable = 0 := by decide
  rw [pageEntry, and_or_distrib_right, and_or_distrib_right, hpres, or_zero, Nat.and_assoc, hmask, and_zero, zero_or]

lemma Loading.writable_shown (h : Loading s0 pml4 placed r) (hx : newest placed (virt / 2 ^ 12) = some x) :
    writableAt r.vmm.words pml4 (path virt) = true ↔ x.flags &&& pageWritable ≠ 0 := by
  obtain ⟨hmem, hpage⟩ := newest_mem hx
  obtain ⟨phys, hlookup, -⟩ := h.shows _ x hx
  obtain ⟨pt, hpt⟩ := h.reached x hmem
  rw [← path_of_page, ← hpage]
  have hpath : path (x.page * 2 ^ 12) = tablePath (x.page * 2 ^ 12) ++ [ptIndex (x.page * 2 ^ 12)] := rfl
  rw [hpath, lookup_walk (by simp) (le_refl 3) hpt, Mem.lookup] at hlookup
  rw [hpath, writableAt_walk rfl h.writable (q := []) rfl hpt (le_refl 3)]
  split at hlookup
  · cases hlookup
  rename_i hpres
  rw [if_pos (.inl rfl)] at hlookup
  have hentry := (Prod.mk.inj (some.inj hlookup)).1
  simp only [writableAt, Bool.or_true, Bool.and_true, decide_eq_true_eq]
  rw [hentry, pageEntry_writable]
  exact and_iff_right (hentry ▸ hpres)

/-! ## The last segment in a page -/

lemma newest_append (new old : List Placement) (v : ℕ) :
    newest (new ++ old) v = (newest new v).or (newest old v) := find?_append

lemma newest_eq_none (h : v ∉ placed.map Placement.page) : newest placed v = none := by
  refine find?_eq_none.mpr fun y hy hpage => h ?_
  exact mem_map.mpr ⟨y, hy, of_decide_eq_true hpage⟩

lemma newest_eq_some (hx : x ∈ placed) (honly : ∀ y ∈ placed, y.page = x.page → y = x) :
    newest placed x.page = some x := by
  cases hn : newest placed x.page with
  | none =>
    have hno := find?_eq_none.mp hn x hx
    simp at hno
  | some y =>
    obtain ⟨hy, hpage⟩ := newest_mem hn
    rw [honly y hy hpage]

lemma newest_jobs (image : List UInt8) (job : ℕ → Job) (base n : ℕ) (hjob : ∀ p, (job p).page = base + p) {p : ℕ}
    (hp : p < n) :
    newest ((((List.range n).map job).map (Job.placement image)).reverse) (base + p) =
      some ((job p).placement image) := by
  have hmem : (job p).placement image ∈ (((List.range n).map job).map (Job.placement image)).reverse :=
    mem_reverse.mpr (mem_map_of_mem (mem_map_of_mem (mem_range.mpr hp)))
  have honly : ∀ y ∈ (((List.range n).map job).map (Job.placement image)).reverse,
      y.page = ((job p).placement image).page → y = (job p).placement image := by
    intro y hy hpage
    obtain ⟨j, hj, rfl⟩ := mem_map.mp (mem_reverse.mp hy)
    obtain ⟨q, -, rfl⟩ := mem_map.mp hj
    simp only [Job.placement, hjob] at hpage
    rw [show q = p by omega]
  have hnewest := newest_eq_some hmem honly
  rwa [show ((job p).placement image).page = base + p from hjob p] at hnewest

lemma segmentJobs_page (image : List UInt8) (ph : Elf64Phdr) :
    (((segmentJobs ph).map (Job.placement image)).reverse.map Placement.page) = (segmentPages ph).reverse := by
  rw [map_reverse, List.map_map, segmentJobs, segmentPages, List.map_map]
  rfl

lemma newest_holder (h : holder segs v = some last) :
    newest (((segs.flatMap segmentJobs).map (Job.placement image)).reverse) v =
      some ((segmentJob last (v - vbase last / pageSize)).placement image) := by
  induction segs using List.reverseRecOn with
  | nil => cases h
  | append_singleton segs ph ih =>
    rw [holder, reverse_append, reverse_singleton, singleton_append, find?_cons] at h
    rw [flatMap_append, map_append, reverse_append, newest_append, flatMap_singleton]
    by_cases hv : v ∈ segmentPages ph
    · rw [decide_eq_true hv] at h
      obtain rfl := some.inj h
      obtain ⟨p, hp, rfl⟩ := mem_map.mp hv
      have hjobs := newest_jobs image (segmentJob ph) (vbase ph / pageSize) (npages ph) (fun _ => rfl)
        (mem_range.mp hp)
      rw [segmentJobs, hjobs, some_or, Nat.add_sub_cancel_left]
    rw [decide_eq_false hv] at h
    have hnone : newest (((segmentJobs ph).map (Job.placement image)).reverse) v = none := by
      refine newest_eq_none ?_
      rw [segmentJobs_page, mem_reverse]
      exact hv
    rw [hnone, none_or]
    exact ih h

lemma exists_holder (hph : ph ∈ segs) (hv : v ∈ segmentPages ph) : ∃ last, holder segs v = some last := by
  refine isSome_iff_exists.mp (find?_isSome.mpr ⟨ph, mem_reverse.mpr hph, ?_⟩)
  exact decide_eq_true hv

lemma holder_mem (h : holder segs v = some last) : last ∈ segs ∧ v ∈ segmentPages last := by
  have hv := find?_some h
  exact ⟨mem_reverse.mp (mem_of_find?_eq_some h), by simpa using hv⟩

/-! ## Bytes and pages of a segment -/

lemma Loadable.mem_pages (h : Loadable size ph) :
    v ∈ segmentPages ph ↔ ph.pVaddr / 4096 ≤ v ∧ v * 4096 < ph.pVaddr + ph.pMemsz := by
  have hmemsz := h.memsz
  simp only [segmentPages, List.mem_map, mem_range, h.npages, h.vbase, pageSize]
  constructor
  · rintro ⟨p, hp, rfl⟩
    omega
  · intro hv
    exact ⟨v - ph.pVaddr / 4096, by omega, by omega⟩

lemma Loadable.byte (h : Loadable size ph) {a : ℕ} (ha : a / 4096 ∈ segmentPages ph) :
    ((segmentJob ph (a / 4096 - Elf.vbase ph / pageSize)).placement image).byte (a % 4096) =
      segmentByte image ph a := by
  obtain ⟨p, hp⟩ := Nat.exists_eq_add_of_le (h.mem_pages.mp ha).1
  have hpage : a / 4096 - Elf.vbase ph / pageSize = p := by
    simp only [h.vbase, pageSize]
    omega
  rw [hpage]
  simp only [Job.placement, segmentJob, segmentByte, pageOff, copied, h.vbase, pageSize]
  by_cases hin : ph.pVaddr ≤ a ∧ a < ph.pVaddr + ph.pFilesz
  · rw [if_pos hin]
    by_cases hp0 : p = 0
    · subst hp0
      rw [if_pos rfl, if_pos (by omega)]
      congr 2
      omega
    rw [if_neg hp0, if_pos (by omega)]
    congr 2
    omega
  · rw [if_neg hin]
    by_cases hp0 : p = 0
    · subst hp0
      rw [if_pos rfl, if_neg (by omega)]
    · rw [if_neg hp0, if_neg (by omega)]

lemma segmentFlags_writable (ph : Elf64Phdr) : segmentFlags ph &&& pageWritable ≠ 0 ↔ ph.pFlags &&& pfW ≠ 0 := by
  rw [segmentFlags]
  split
  next hw => exact iff_of_true (by decide) hw
  next hw => exact iff_of_false (by decide) hw

lemma mem_stackPages : v ∈ stackPages ↔ userStackBase ≤ v * 4096 ∧ v * 4096 < userStackTop := by
  simp only [stackPages, List.mem_map, mem_range, userStackBase, userStackTop, userStackPages, pageSize]
  constructor
  · rintro ⟨p, hp, rfl⟩
    omega
  · intro hv
    exact ⟨v - 0x7fffffffc, by omega, by omega⟩

end

variable {s : Vmm} {pml4 : ℕ} {r : SpaceRun} {image : List UInt8} {eh : Elf64Ehdr} {ph : Elf64Phdr} {i : ℕ}

lemma loadable_of_mem (h : ph ∈ segments image eh) : Loadable image.length ph := by
  obtain ⟨i, -, hi⟩ := mem_filterMap.mp h
  exact accepted_segment hi

lemma Separate.segmentByte_other {last : Elf64Phdr} (hsep : Separate (segments image eh))
    (hph : ph ∈ segments image eh) (hlast : last ∈ segments image eh) (hne : last ≠ ph) (hi : i < ph.pMemsz) :
    segmentByte image last (ph.pVaddr + i) = 0 := by
  have hsymm : Std.Symm fun a b : Elf64Phdr =>
      a.pVaddr + a.pMemsz ≤ b.pVaddr ∨ b.pVaddr + b.pMemsz ≤ a.pVaddr := ⟨fun _ _ h => h.symm⟩
  have hapart := hsep.disjoint.forall hlast hph hne
  have hfilesz := hsep.filesz last hlast
  rw [segmentByte, if_neg (by omega)]

lemma segmentByte_self (ph : Elf64Phdr) (i : ℕ) : segmentByte image ph (ph.pVaddr + i) = describedByte image ph i := by
  simp only [segmentByte, describedByte, Nat.add_sub_cancel_left]
  by_cases hi : i < ph.pFilesz
  · rw [if_pos hi, if_pos (by omega)]
  · rw [if_neg hi, if_neg (by omega)]

section

variable (h : Loading s pml4 (programPlacements image eh) r)
include h

/-- What the space shows at an address of a segment: the last segment in its page. -/
lemma Loading.shown (hsep : Separate (segments image eh)) (hph : ph ∈ segments image eh) (hi : i < ph.pMemsz) :
    ∃ last, holder (segments image eh) ((ph.pVaddr + i) / 4096) = some last ∧
      userByte r.vmm.words pml4 (ph.pVaddr + i) = some (segmentByte image last (ph.pVaddr + i)) ∧
      (writableAt r.vmm.words pml4 (path (ph.pVaddr + i)) = true ↔ last.pFlags &&& pfW ≠ 0) := by
  have hload := loadable_of_mem hph
  have htop := hload.top
  have hpage : (ph.pVaddr + i) / 4096 ∈ segmentPages ph := hload.mem_pages.mpr (by omega)
  have hbeside : (ph.pVaddr + i) / 4096 ∉ stackPages := by
    intro hstack
    have hbase := (mem_stackPages.mp hstack).1
    rcases hsep.stack ph hph with hlow | hhigh
    · omega
    · omega
  obtain ⟨last, hlast⟩ := exists_holder hph hpage
  have hnewest : newest (programPlacements image eh) ((ph.pVaddr + i) / 2 ^ 12) =
      some ((segmentJob last ((ph.pVaddr + i) / 4096 - vbase last / pageSize)).placement image) := by
    rw [programPlacements, programJobs, map_append, reverse_append, newest_append, newest_eq_none, none_or]
    · exact newest_holder hlast
    · rw [map_reverse, List.map_map, mem_reverse, stackJobs, List.map_map]
      exact hbeside
  refine ⟨last, hlast, ?_, ?_⟩
  · obtain ⟨hmem, hv⟩ := holder_mem hlast
    rw [h.byte_shown hnewest]
    exact congrArg some ((loadable_of_mem hmem).byte hv)
  · rw [h.writable_shown hnewest]
    exact segmentFlags_writable last

lemma Loading.stack (hi : i < userStackPages * pageSize) : userByte r.vmm.words pml4 (userStackBase + i) = some 0 ∧
      writableAt r.vmm.words pml4 (path (userStackBase + i)) = true := by
  have hp : i / 4096 < userStackPages := by
    simp only [userStackPages, pageSize] at hi ⊢
    omega
  have hjobs := newest_jobs image stackJob (userStackBase / pageSize) userStackPages (fun _ => rfl) hp
  have hnewest : newest (programPlacements image eh) ((userStackBase + i) / 2 ^ 12) =
      some ((stackJob (i / 4096)).placement image) := by
    rw [programPlacements, programJobs, map_append, reverse_append, newest_append, stackJobs,
      show (userStackBase + i) / 2 ^ 12 = userStackBase / pageSize + i / 4096 by
        simp only [userStackBase, userStackTop, userStackPages, pageSize]; omega, hjobs, some_or]
  refine ⟨?_, (h.writable_shown hnewest).mpr (by simp only [stackJob, Job.placement]; decide)⟩
  have hnothing : ¬((stackJob (i / 4096)).off ≤ (userStackBase + i) % 2 ^ 12 ∧
      (userStackBase + i) % 2 ^ 12 < (stackJob (i / 4096)).off + (stackJob (i / 4096)).len) := by
    simp only [stackJob]
    omega
  rw [h.byte_shown hnewest, Job.placement]
  simp only [if_neg hnothing]

theorem Loading.described_iff (hsep : Separate (segments image eh)) :
    Described image (segments image eh) r.vmm.words pml4 ↔ Harmless image (segments image eh) := by
  constructor
  · intro hd ph hph v hv last hlast hne
    obtain ⟨hmem, -⟩ := holder_mem hlast
    have hload := loadable_of_mem hph
    refine ⟨fun i hi hpage => ?_, fun hw => ?_⟩
    · have hi' : i < ph.pMemsz := lt_of_lt_of_le hi (hsep.filesz ph hph)
      obtain ⟨last', hlast', hbyte, -⟩ := h.shown hsep hph hi'
      rw [show (ph.pVaddr + i) / 4096 = v from hpage, hlast] at hlast'
      cases hlast'
      rw [hd.bytes ph hph i hi', hsep.segmentByte_other hph hmem hne hi', describedByte, if_pos hi] at hbyte
      exact UInt8.toNat_inj.mp (some.inj hbyte)
    -- a byte of the segment in the page
    obtain ⟨hlow, hhigh⟩ := hload.mem_pages.mp hv
    obtain ⟨i, hi, hpage⟩ : ∃ i < ph.pMemsz, (ph.pVaddr + i) / 4096 = v := by
      refine ⟨v * 4096 - ph.pVaddr, by have := hload.memsz; omega, ?_⟩
      omega
    obtain ⟨last', hlast', -, hwrite⟩ := h.shown hsep hph hi
    rw [hpage, hlast] at hlast'
    cases hlast'
    exact hwrite.mp (hd.writable ph hph hw i hi)
  · intro hharm
    refine ⟨fun ph hph i hi => ?_, fun ph hph hw i hi => ?_, fun i hi => h.stack hi⟩
    · obtain ⟨last, hlast, hbyte, -⟩ := h.shown hsep hph hi
      rw [hbyte]
      by_cases hne : last = ph
      · rw [hne, segmentByte_self]
      obtain ⟨hmem, -⟩ := holder_mem hlast
      have hpage : (ph.pVaddr + i) / 4096 ∈ segmentPages ph := (loadable_of_mem hph).mem_pages.mpr (by omega)
      rw [hsep.segmentByte_other hph hmem hne hi, describedByte]
      split
      next hif =>
        rw [(hharm ph hph _ hpage last hlast hne).1 i hif rfl]
        rfl
      · rfl
    · obtain ⟨last, hlast, -, hwrite⟩ := h.shown hsep hph hi
      rw [hwrite]
      by_cases hne : last = ph
      · rw [hne]
        exact hw
      · have hpage : (ph.pVaddr + i) / 4096 ∈ segmentPages ph := (loadable_of_mem hph).mem_pages.mpr (by omega)
        exact (hharm ph hph _ hpage last hlast hne).2 hw

end

lemma loading_of_elfLoad {out : ElfLoadResult} {t : Loader} (hs : Ready s)
    (hload : elfLoad image s = .ok (.ok out, t)) :
    ∃ r, r.vmm = t.vmm ∧ Loading s out.cr3 (programPlacements image (header image)) r := by
  rcases elfLoad_cases hs image with ⟨-, m, trace, heq, -⟩ | ⟨-, vmm, m, -, heq⟩ |
    ⟨-, root, vmm, res, t', added, -, -, heq, -, -, hloaded⟩
  · cases (Prod.mk.inj (Except.ok.inj (hload.symm.trans heq))).1
  · cases (Prod.mk.inj (Except.ok.inj (hload.symm.trans heq))).1
  obtain ⟨rfl, rfl⟩ := Prod.mk.inj (Except.ok.inj (hload.symm.trans heq))
  obtain ⟨rfl, -, hr⟩ := hloaded
  exact hr

/-- An image whose segments are separate is loaded as it describes itself, as long as a segment
that loses a page to a later one has nothing in it. -/
theorem elfLoad_described_iff {out : ElfLoadResult} {t : Loader} (hs : Ready s)
    (hload : elfLoad image s = .ok (.ok out, t)) (hsep : Separate (segments image (header image))) :
    Described image (segments image (header image)) t.vmm.words out.cr3 ↔
      Harmless image (segments image (header image)) := by
  obtain ⟨r, hr, hloading⟩ := loading_of_elfLoad hs hload
  rw [← hr]
  exact hloading.described_iff hsep

/-- Enough pages are free on the machine of `emptyTables` for an image whose headers pass. -/
lemma elfLoad_ok (image : List UInt8) (hok : HeaderOk image)
    (hgood : ∀ i < (header image).ePhnum, Accepted image (header image) i)
    (hneed : need (programPages image (header image)) ≤ 20) :
    ∃ out t, elfLoad image emptyTables = .ok (.ok out, t) := by
  have hroot : (vmmSpaceCreate emptyTables).toOption.map Prod.fst = some 0x2000 := by decide +kernel
  rcases elfLoad_cases ready_emptyTables image with ⟨hno, -⟩ | ⟨-, vmm, m, hcreate, -⟩ |
    ⟨-, root, vmm, res, t, added, -, -, heq, -, -, hloaded⟩
  · exact absurd hok hno
  · rw [hcreate] at hroot
    cases hroot
  cases res with
  | error m =>
    refine absurd ⟨hgood, ?_⟩ hloaded.2
    rw [placed_page, need_reverse]
    exact le_trans hneed card_emptyTables
  | ok out => exact ⟨out, t, heq⟩

/-- A program of one segment. -/
theorem elfLoad_described_oneSegment : ∃ out t, elfLoad oneSegment emptyTables = .ok (.ok out, t) ∧
    Described oneSegment (segments oneSegment (header oneSegment)) t.vmm.words out.cr3 := by
  have hnum : (header oneSegment).ePhnum = 1 := by decide +kernel
  have hsegs : segments oneSegment (header oneSegment) = [⟨1, 5, 120, 0x400000, 1, 1⟩] := by decide +kernel
  obtain ⟨out, t, hload⟩ := elfLoad_ok oneSegment ⟨by decide +kernel, by decide +kernel⟩
    (fun i hi => by
      obtain rfl : i = 0 := by omega
      exact ⟨by decide +kernel, by decide +kernel⟩) (by decide +kernel)
  have hsep : Separate (segments oneSegment (header oneSegment)) := by
    rw [hsegs]
    exact ⟨by decide, by decide, by decide⟩
  refine ⟨out, t, hload, (elfLoad_described_iff ready_emptyTables hload hsep).mpr ?_⟩
  intro ph hph v hv last hlast hne
  rw [hsegs] at hph hlast
  have hmem := (holder_mem hlast).1
  exact absurd ((mem_singleton.mp hmem).trans (mem_singleton.mp hph).symm) hne

/-- Two segments in one page: the byte of the first one is gone. -/
theorem elfLoad_loses_byte : ∃ out t, elfLoad twoSegments emptyTables = .ok (.ok out, t) ∧
    Separate (segments twoSegments (header twoSegments)) ∧
    (⟨1, 5, 176, 0x400000, 1, 1⟩ : Elf64Phdr) ∈ segments twoSegments (header twoSegments) ∧
    twoSegments.getD 176 0 = 0x90 ∧ userByte t.vmm.words out.cr3 0x400000 = some 0 := by
  have hnum : (header twoSegments).ePhnum = 2 := by decide +kernel
  have hsegs : segments twoSegments (header twoSegments) =
      [⟨1, 5, 176, 0x400000, 1, 1⟩, ⟨1, 6, 177, 0x400800, 1, 1⟩] := by decide +kernel
  obtain ⟨out, t, hload⟩ := elfLoad_ok twoSegments ⟨by decide +kernel, by decide +kernel⟩
    (fun i hi => by
      obtain rfl | rfl : i = 0 ∨ i = 1 := by omega
      · exact ⟨by decide +kernel, by decide +kernel⟩
      · exact ⟨by decide +kernel, by decide +kernel⟩) (by decide +kernel)
  have hsep : Separate (segments twoSegments (header twoSegments)) := by
    rw [hsegs]
    exact ⟨by decide, by decide, by decide⟩
  have hmem : (⟨1, 5, 176, 0x400000, 1, 1⟩ : Elf64Phdr) ∈ segments twoSegments (header twoSegments) := by
    rw [hsegs]
    exact mem_cons_self
  refine ⟨out, t, hload, hsep, hmem, by decide +kernel, ?_⟩
  obtain ⟨r, hr, hloading⟩ := loading_of_elfLoad ready_emptyTables hload
  obtain ⟨last, hlast, hbyte, -⟩ := hloading.shown hsep hmem Nat.one_pos
  rw [hsegs, show holder [⟨1, 5, 176, 0x400000, 1, 1⟩, ⟨1, 6, 177, 0x400800, 1, 1⟩] ((0x400000 + 0) / 4096) =
    some ⟨1, 6, 177, 0x400800, 1, 1⟩ by decide +kernel] at hlast
  cases hlast
  rw [← hr]
  exact hbyte

end AetherOS.Elf
