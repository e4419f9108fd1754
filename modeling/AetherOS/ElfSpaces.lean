import AetherOS.ElfLoading

/-!
# The space of a program

Whatever the image, `elf_load` stays in the image, in pages that were free and in the user
half of the new space. It gives back no page when it fails after the space was made, and it
loses a page when two segments share one.
-/
namespace AetherOS.Elf
open Mem PointerTree List

section

/-- The bytes of a field. -/
def field (n v : ℕ) : List UInt8 := (List.range n).map fun i => UInt8.ofNat (v / 256 ^ i)

/-- An ELF header that is followed by its program headers. -/
def ehdrBytes (phnum : ℕ) : List UInt8 :=
  [0x7f, 69, 76, 70, 2] ++ List.replicate 11 0 ++ field 2 2 ++ field 2 62 ++ field 4 1 ++ field 8 0x400000 ++
    field 8 64 ++ List.replicate 14 0 ++ field 2 56 ++ field 2 phnum ++ List.replicate 6 0

def phdrBytes (flags offset vaddr filesz memsz : ℕ) : List UInt8 :=
  field 4 1 ++ field 4 flags ++ field 8 offset ++ field 8 vaddr ++ field 8 0 ++ field 8 filesz ++ field 8 memsz ++
    field 8 4096

/-- The program header is missing. -/
def truncatedProgram : List UInt8 := ehdrBytes 1

/-- A program of one byte. -/
def oneSegment : List UInt8 := ehdrBytes 1 ++ phdrBytes 5 120 0x400000 1 1 ++ [0x90]

/-- Two segments of one byte in one page. -/
def twoSegments : List UInt8 :=
  ehdrBytes 2 ++ phdrBytes 5 176 0x400000 1 1 ++ phdrBytes 6 177 0x400800 1 1 ++ [0x90, 0x55]

lemma ready_emptyTables : Ready emptyTables := ⟨⟨1, rfl, by decide, by decide⟩, le_refl _⟩

lemma card_emptyTables : 20 ≤ (clearPages emptyTables.pmm).card := by
  have hfree : ∀ k ∈ Finset.Ico 2 22, bitmapTest emptyTables.pmm k = false := by decide
  calc 20 = (Finset.Ico 2 22).card := by simp
    _ ≤ (clearPages emptyTables.pmm).card := by
      refine Finset.card_le_card fun k hk => mem_clearPages.mpr ⟨?_, hfree k hk⟩
      rw [Finset.mem_Ico] at hk
      simp only [maxPages]
      omega

end

section

variable {s : Vmm}

/-- For every image `elf_load` returns. It reads in the image only, writes in pages that were
free, each of its 4096 bytes at most, and maps page-aligned addresses of the user half only. No
page that was in use has changed, and the kernel half of a root that was made is the kernel's. -/
theorem elfLoad_confined (hs : Ready s) (image : List UInt8) :
    ∃ res t, elfLoad image s = .ok (res, t) ∧ (∀ a ∈ t.trace, (∃ cr3, a = .create cr3) ∨ Confined image.length s a) ∧
      (∀ x, bitmapTest s.pmm (x / pageSize) = true → t.vmm.words x = s.words x) ∧
      ∀ cr3, .create cr3 ∈ t.trace → ∀ i, 256 ≤ i → i < 512 →
        t.vmm.words (cr3 + 8 * i) = s.words (s.activePml4Phys + 8 * i) := by
  rcases elfLoad_cases hs image with ⟨-, m, trace, heq, hconf⟩ | ⟨hok, vmm, m, hcreate, heq⟩ |
    ⟨hok, root, vmm, res, t, added, -, -, heq, htrace, hconf, hloaded⟩
  · exact ⟨_, _, heq, fun a ha => .inr (hconf a ha), fun _ _ => rfl, fun cr3 hc => (hconf _ hc).elim⟩
  · refine ⟨_, _, heq, fun a ha => ?_, fun x hx => ?_, fun cr3 hc => ?_⟩
    · obtain rfl := Finset.mem_singleton.mp ha
      exact .inr (by simpa [Confined] using hok.1)
    · rcases vmmSpaceCreate_cases hs.active hs.directMap with ⟨h, -⟩ | ⟨k, v, h, -, hnew⟩
      · obtain ⟨-, rfl⟩ := Prod.mk.inj (Except.ok.inj (hcreate.symm.trans h))
        rfl
      · obtain ⟨-, rfl⟩ := Prod.mk.inj (Except.ok.inj (hcreate.symm.trans h))
        exact hnew.kept x hx
    · cases Finset.mem_singleton.mp hc
  obtain ⟨r, hr, hstage⟩ : ∃ r, r.vmm = t.vmm ∧ Stage s root r := by
    cases res with
    | error m => exact hloaded.1
    | ok out =>
      obtain ⟨-, -, r, hr, hload⟩ := hloaded
      exact ⟨r, hr, hload.toStage⟩
  refine ⟨res, t, heq, fun a ha => ?_, fun x hx => hr ▸ hstage.kept x hx, fun cr3 hc i hi hi' => ?_⟩
  · rw [htrace] at ha
    simp only [cons_append, nil_append, mem_cons] at ha
    rcases ha with rfl | rfl | ha
    · exact .inr (by simpa [Confined] using hok.1)
    · exact .inl ⟨root, rfl⟩
    · exact .inr (hconf a ha)
  rw [htrace] at hc
  simp only [cons_append, nil_append, mem_cons, Access.create.injEq, reduceCtorEq, false_or] at hc
  rcases hc with rfl | hc
  · exact hr ▸ hstage.upper i hi hi'
  · exact (hconf _ hc).elim

theorem elfLoad_confined_oneSegment : Ready emptyTables ∧ ∃ res t, elfLoad oneSegment emptyTables = .ok (res, t) ∧
    ∀ a ∈ t.trace, (∃ cr3, a = .create cr3) ∨ Confined oneSegment.length emptyTables a := by
  obtain ⟨res, t, heq, hconf, -⟩ := elfLoad_confined ready_emptyTables oneSegment
  exact ⟨ready_emptyTables, res, t, heq, hconf⟩

end

/-! ## Pages -/

def segmentPages (ph : Elf64Phdr) : List ℕ := (List.range (npages ph)).map (vbase ph / pageSize + ·)
def stackPages : List ℕ := (List.range userStackPages).map (userStackBase / pageSize + ·)

/-- The pages of the segments and of the stack. -/
def programPages (image : List UInt8) (eh : Elf64Ehdr) : List ℕ :=
  (segments image eh).flatMap segmentPages ++ stackPages

/-- If `elf_load` fails, the free pages are as before, and if not, they are after the end of the
space. -/
def Conserves (image : List UInt8) (s : Vmm) : Prop :=
  ∃ res t, elfLoad image s = .ok (res, t) ∧ match res with
    | .error _ => clearPages t.vmm.pmm = clearPages s.pmm
    | .ok out => ∃ s', vmmSpaceDestroy t.vmm out.cr3 = .ok s' ∧ clearPages s'.pmm = clearPages s.pmm

lemma exists_ok_iff {ε α β : Type} {x : Except ε (α × β)} {a : α} {b : β} {P : α → β → Prop} (h : x = .ok (a, b)) :
    (∃ a' b', x = .ok (a', b') ∧ P a' b') ↔ P a b := by
  subst h
  simp

variable {s : Vmm} {pml4 : ℕ} {r : SpaceRun} {placed : List Placement} {image : List UInt8} {eh : Elf64Ehdr}

lemma programJobs_page : (programJobs image eh).map Job.page = programPages image eh := by
  simp only [programJobs, programPages, map_append, map_flatMap, segmentJobs, stackJobs, stackPages, map_map]
  rfl

lemma placed_page : (programPlacements image eh).map Placement.page = (programPages image eh).reverse := by
  rw [programPlacements, map_reverse, map_map, ← programJobs_page]
  rfl

lemma need_reverse (pages : List ℕ) : need pages.reverse = need pages := by
  simp only [need, length_reverse, toFinset_reverse]

lemma Stage.holds_iff (h : Stage s pml4 r) (k : ℕ) :
    Holds pml4 r (k * pageSize) ↔ ownedBySpace pml4 r (k * pageSize) ∨ k * pageSize ∈ r.owned := by
  constructor
  · rintro (⟨q, hq, hw⟩ | hm)
    · by_cases hq0 : q = []
      · subst hq0
        exact .inl (.inl (Option.some.inj hw).symm)
      · exact .inl (.inr (.inl ⟨k, rfl, (h.tables k).mpr ⟨q, hq0, hq, hw⟩⟩))
    rcases mem_append.mp hm with hm | hm
    · exact .inr hm
    · obtain ⟨x, hx, he⟩ := mem_map.mp hm
      exact .inl (.inr (.inr ⟨x, hx, he⟩))
  · rintro ((hroot | ⟨j, hj, ht⟩ | ⟨x, hx, he⟩) | hm)
    · exact .inl ⟨[], by simp, congrArg some hroot.symm⟩
    · obtain ⟨q, -, hq, hw⟩ := (h.tables j).mp ht
      exact .inl ⟨q, hq, hw.trans (congrArg some hj.symm)⟩
    · exact .inr (mem_append_right _ (he ▸ mem_map_of_mem hx))
    · exact .inr (mem_append_left _ hm)

lemma SpaceInv.not_owned (h : SpaceInv pml4 r) {a : ℕ} (ha : a ∈ r.owned) : ¬ownedBySpace pml4 r a := by
  have hmem : a ∈ r.owned ++ r.mapped.map Prod.snd := mem_append_left _ ha
  rintro (rfl | ⟨k, rfl, hk⟩ | ⟨x, hx, rfl⟩)
  · exact h.apart a hmem [] (by simp) rfl
  · obtain ⟨q, -, hq, hw⟩ := (h.tables k).mp hk
    exact h.apart _ hmem q hq hw
  · exact h.nodup.disjoint ha (mem_map_of_mem hx)

/-- The end of the space brings the free pages back exactly when no page was taken out of it. -/
lemma Stage.destroy_iff (h : Stage s pml4 r) :
    (∃ s', vmmSpaceDestroy r.vmm pml4 = .ok s' ∧ clearPages s'.pmm = clearPages s.pmm) ↔ r.owned = [] := by
  obtain ⟨pages, v, hdestroy, hfree, -, hmem, hbits⟩ := h.toSpaceInv.destroy
  have hused : ∀ k, bitmapTest v.pmm k = true ↔ bitmapTest s.pmm k = true ∨ k * pageSize ∈ r.owned := by
    intro k
    rw [hbits k, Bool.and_eq_true, decide_eq_true_eq, hmem, h.bits k, h.holds_iff k]
    constructor
    · rintro ⟨hs | hown | hm, hno⟩
      · exact .inl hs
      · exact absurd hown hno
      · exact .inr hm
    rintro (hs | hm)
    · refine ⟨.inl hs, fun hown => ?_⟩
      have hfresh := h.fresh k ((h.holds_iff k).mpr (.inl hown))
      rw [hs] at hfresh
      cases hfresh
    · exact ⟨.inr (.inr hm), SpaceInv.not_owned h.toSpaceInv hm⟩
  constructor
  · rintro ⟨s', hs', hclear⟩
    obtain rfl := Except.ok.inj (hfree.symm.trans (hdestroy.symm.trans hs'))
    by_contra hne
    obtain ⟨a, ha⟩ := exists_mem_of_ne_nil _ hne
    obtain ⟨k, rfl, hk, -⟩ := h.used a (mem_append_left _ ha)
    have hfresh := h.fresh k ((h.holds_iff k).mpr (.inr ha))
    have hmem' := mem_clearPages.mpr ⟨hk, hfresh⟩
    rw [← hclear] at hmem'
    have hnow := (hused k).mpr (.inr ha)
    rw [(mem_clearPages.mp hmem').2] at hnow
    cases hnow
  · intro hnil
    refine ⟨v, hdestroy.trans hfree, Finset.ext fun k => ?_⟩
    have hsame : bitmapTest v.pmm k = bitmapTest s.pmm k := by
      rw [Bool.eq_iff_iff, hused k, hnil]
      simp
    rw [mem_clearPages, mem_clearPages, hsame]

lemma Stage.clearPages_ne (h : Stage s pml4 r) : clearPages r.vmm.pmm ≠ clearPages s.pmm := by
  intro hclear
  obtain ⟨k, hk, hlt, hu⟩ := h.tree.used [] pml4 (by simp) rfl
  have hmem := mem_clearPages.mpr ⟨hlt, h.fresh k (.inl ⟨[], by simp, congrArg some hk⟩)⟩
  rw [← hclear, mem_clearPages, hu] at hmem
  cases hmem.2

/-- `elf_load` conserves the pages when it refuses the header or finds no page for a root, and
else only when it succeeds and no two segments, and no segment and the stack, share a page. -/
theorem elfLoad_conserves_iff (hs : Ready s) (image : List UInt8) :
    Conserves image s ↔ ¬HeaderOk image ∨ clearPages s.pmm = ∅ ∨
      ((pmmAllocPage s.pmm).1 ≠ 0 ∧ (∀ i < (header image).ePhnum, Accepted image (header image) i) ∧
        (programPages image (header image)).Nodup ∧
        need (programPages image (header image)) ≤ (clearPages s.pmm).card) := by
  rcases elfLoad_cases hs image with ⟨hno, m, trace, heq, -⟩ | ⟨hok, vmm, m, hcreate, heq⟩ |
    ⟨hok, root, vmm, res, t, added, hcreate, h0, heq, -, -, hloaded⟩
  · exact ⟨fun _ => .inl hno, fun _ => ⟨_, _, heq, rfl⟩⟩
  · have hcons : Conserves image s ↔ clearPages vmm.pmm = clearPages s.pmm := exists_ok_iff heq
    rw [hcons]
    rcases vmmSpaceCreate_cases hs.active hs.directMap with ⟨h, hall⟩ | ⟨k, v, h, halloc, hnew⟩
    · obtain ⟨-, rfl⟩ := Prod.mk.inj (Except.ok.inj (hcreate.symm.trans h))
      refine iff_of_true rfl (.inr (.inl (Finset.eq_empty_iff_forall_notMem.mpr fun k hk => ?_)))
      obtain ⟨hlt, hfree⟩ := mem_clearPages.mp hk
      rw [hall k hlt] at hfree
      cases hfree
    -- page 0 was free: it is taken for a failure
    obtain ⟨hzero, rfl⟩ := Prod.mk.inj (Except.ok.inj (hcreate.symm.trans h))
    have hmem : k ∈ clearPages s.pmm := mem_clearPages.mpr ⟨hnew.lt, hnew.free⟩
    refine iff_of_false (fun hclear => ?_) ?_
    · rw [← hclear, mem_clearPages, hnew.bits] at hmem
      simp at hmem
    rintro (hno | hempty | ⟨hne, -⟩)
    · exact hno hok
    · rw [hempty] at hmem
      cases hmem
    · exact hne (halloc.trans hzero.symm)
  · obtain ⟨k, hk, hfirst⟩ : ∃ k, k ∈ clearPages s.pmm ∧ (pmmAllocPage s.pmm).1 ≠ 0 := by
      obtain ⟨k, -, halloc, hnew⟩ := vmmSpaceCreate_spec hs.active hs.directMap hcreate h0
      exact ⟨k, mem_clearPages.mpr ⟨hnew.lt, hnew.free⟩, halloc.trans_ne h0⟩
    have hne : clearPages s.pmm ≠ ∅ := Finset.ne_empty_of_mem hk
    cases res with
    | error m =>
      obtain ⟨⟨r, hr, hstage⟩, hfail⟩ := hloaded
      rw [placed_page, need_reverse] at hfail
      have hcons : Conserves image s ↔ clearPages t.vmm.pmm = clearPages s.pmm := exists_ok_iff heq
      rw [hcons]
      refine iff_of_false (hr ▸ hstage.clearPages_ne) ?_
      rintro (hno | hempty | ⟨-, hgood, -, hneed⟩)
      · exact hno hok
      · exact hne hempty
      · exact hfail ⟨hgood, hneed⟩
    | ok out =>
      obtain ⟨rfl, hgood, r, hr, hload⟩ := hloaded
      have hneed := hload.need_le
      have howned := hload.owned_eq_nil_iff
      rw [placed_page, need_reverse] at hneed
      rw [placed_page, nodup_reverse] at howned
      have hcons : Conserves image s ↔ r.owned = [] := by
        rw [← hload.toStage.destroy_iff, hr]
        exact exists_ok_iff heq
      rw [hcons, howned]
      constructor
      · exact fun hnodup => .inr (.inr ⟨hfirst, hgood, hnodup, hneed⟩)
      rintro (hno | hempty | ⟨-, -, hnodup, -⟩)
      · exact absurd hok hno
      · exact absurd hempty hne
      · exact hnodup

/-- The program is loaded and its space is destroyed. -/
theorem elfLoad_conserves_oneSegment : Conserves oneSegment emptyTables := by
  have hpages : programPages oneSegment (header oneSegment) =
      [0x400, 0x7fffffffc, 0x7fffffffd, 0x7fffffffe, 0x7ffffffff] := by decide +kernel
  refine (elfLoad_conserves_iff ready_emptyTables oneSegment).mpr (.inr (.inr ⟨by decide +kernel, ?_, ?_, ?_⟩))
  · intro i hi
    have hnum : (header oneSegment).ePhnum = 1 := by decide +kernel
    obtain rfl : i = 0 := by omega
    exact ⟨by decide +kernel, by decide +kernel⟩
  · rw [hpages]
    decide
  refine le_trans ?_ card_emptyTables
  rw [hpages]
  decide +kernel

/-- The root is not given back. -/
theorem elfLoad_loses_root : Ready emptyTables ∧ ∃ m t, elfLoad truncatedProgram emptyTables = .ok (.error m, t) ∧
    clearPages t.vmm.pmm ≠ clearPages emptyTables.pmm := by
  have hok : HeaderOk truncatedProgram := ⟨by decide +kernel, by decide +kernel⟩
  have hroot : (vmmSpaceCreate emptyTables).toOption.map Prod.fst = some 0x2000 := by decide +kernel
  have hfits : ¬Accepted truncatedProgram (header truncatedProgram) 0 := fun h => absurd h.1 (by decide +kernel)
  refine ⟨ready_emptyTables, ?_⟩
  rcases elfLoad_cases ready_emptyTables truncatedProgram with ⟨hno, -⟩ | ⟨-, vmm, m, hcreate, -⟩ |
    ⟨-, root, vmm, res, t, added, -, -, heq, -, -, hloaded⟩
  · exact absurd hok hno
  · rw [hcreate] at hroot
    cases hroot
  cases res with
  | error m =>
    obtain ⟨⟨r, hr, hstage⟩, -⟩ := hloaded
    exact ⟨m, t, heq, hr ▸ hstage.clearPages_ne⟩
  | ok out => exact absurd (hloaded.2.1 0 (by decide +kernel)) hfits

end AetherOS.Elf
