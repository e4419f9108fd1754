import AetherOS.ElfPlacement

/-!
# A run of the loader

The loops of `elf_load` place a list of pages that is known from the headers of the image.
Either all of them are placed, or a header is refused, or no page is left.
-/
namespace AetherOS.Elf
open Mem PointerTree ByteMemory List Nat

/-- The active root is in use, and the direct map reaches all of memory. -/
structure Ready (s : Vmm) : Prop where
  active : ∃ k, s.activePml4Phys = k * pageSize ∧ k < maxPages ∧ bitmapTest s.pmm k = true
  directMap : maxPhysBytes ≤ s.directMapSize

/-- A page to be placed: `len` bytes of the image from `src` on go to offset `off` in it. -/
structure Job where
  page : ℕ
  flags : ℕ
  off : ℕ
  src : ℕ
  len : ℕ

def Job.placement (image : List UInt8) (j : Job) : Placement :=
  ⟨j.page, fun o => if j.off ≤ o ∧ o < j.off + j.len then (image.getD (j.src + (o - j.off)) 0).toNat else 0, j.flags⟩

/-- The page lies in the user half, and what is copied in the image and in the page. -/
structure Job.Fits (size : ℕ) (j : Job) : Prop where
  page : j.page < 2 ^ 35
  flags : j.flags &&& pageMask = 0
  off : j.off + j.len ≤ pageSize
  src : j.src + j.len ≤ size

/-- Accesses that stay in the image, in pages that were free, and in the user half. -/
def Confined (size : ℕ) (s0 : Vmm) : Access → Prop
  | .read off len => off + len ≤ size
  | .create _ => False
  | .write page off len => page % pageSize = 0 ∧ bitmapTest s0.pmm (page / pageSize) = false ∧ off + len ≤ pageSize
  | .map virt _ _ => virt % pageSize = 0 ∧ virt < userStackTop

/-- What was added to the trace is confined. -/
def Traces (size : ℕ) (s0 : Vmm) (s s' : Loader) : Prop :=
  ∃ added, s'.trace = s.trace ++ added ∧ ∀ a ∈ added, Confined size s0 a

/-- What a part of the loader ends with: all pages are placed, or the image is not good or
needs more pages than were free. -/
def Outcome (s0 : Vmm) (pml4 : ℕ) (placed : List Placement) (good : Prop) (res : Except String Unit) (vmm : Vmm) :
    Prop :=
  match res with
  | .ok () => good ∧ ∃ r, r.vmm = vmm ∧ Loading s0 pml4 placed r
  | .error _ => (∃ r, r.vmm = vmm ∧ Stage s0 pml4 r) ∧
      ¬(good ∧ need (placed.map Placement.page) ≤ (clearPages s0.pmm).card)

section

variable {s0 s' : Vmm} {pml4 k size : ℕ} {r : SpaceRun} {pmm : Pmm} {placed : List Placement} {image : List UInt8}
  {s t u : Loader} {j : Job} {a : Access}

lemma Traces.refl (size : ℕ) (s0 : Vmm) (s : Loader) : Traces size s0 s s :=
  ⟨[], (append_nil _).symm, fun _ ha => (not_mem_nil ha).elim⟩

lemma Traces.trans (h : Traces size s0 s t) (h' : Traces size s0 t u) : Traces size s0 s u := by
  obtain ⟨added, he, hc⟩ := h
  obtain ⟨added', he', hc'⟩ := h'
  refine ⟨added ++ added', by rw [he', he, append_assoc], fun a ha => ?_⟩
  rcases mem_append.mp ha with ha | ha
  · exact hc a ha
  · exact hc' a ha

lemma Traces.step (ht : t.trace = s.trace ++ [a]) (ha : Confined size s0 a) : Traces size s0 s t :=
  ⟨[a], ht, fun _ hb => mem_singleton.mp hb ▸ ha⟩

lemma Loading.start (hs : Ready s0) (hc : vmmSpaceCreate s0 = .ok (pml4, s')) (h0 : pml4 ≠ 0) :
    Loading s0 pml4 [] ⟨s', [], [], fun _ => False⟩ := by
  have hcreated : Created s0 pml4 ⟨s', [], [], fun _ => False⟩ :=
    ⟨hc, h0, hs.active, hs.directMap, fun _ ha => (not_mem_nil ha).elim, nodup_nil, rfl, fun _ => not_false⟩
  have hinv := hcreated.inv
  obtain ⟨k, rfl, -, hnew⟩ := vmmSpaceCreate_spec hs.active hs.directMap hc h0
  have hwalk : ∀ q t, q.length ≤ 3 → walk (child 256 s'.words) 0 (k * pageSize) q = some t → q = [] := by
    intro q t hq hw
    by_contra hq0
    obtain ⟨j, rfl, -, -⟩ := hinv.tree.used q t hq hw
    exact (hinv.tables j).mpr ⟨q, hq0, hq, hw⟩
  have hholds : ∀ j, Holds (k * pageSize) ⟨s', [], [], fun _ => False⟩ (j * pageSize) ↔ j = k := by
    intro j
    constructor
    · rintro (⟨q, hq, hw⟩ | hm)
      · obtain rfl := hwalk q _ hq hw
        exact eq_of_mul_eq_mul_right (by decide) (Option.some.inj hw).symm
      · cases hm
    · rintro rfl
      exact .inl ⟨[], by simp, rfl⟩
  refine ⟨⟨hinv, fun j => ?_, fun j hj => ?_, hnew.kept, hnew.upper,
    fun q t i hq hw hi hpres => ?_⟩, fun x hx => (not_mem_nil hx).elim, rfl, nodup_nil, fun v => ?_,
    fun q t hq0 hq hw => absurd (hwalk q t hq hw) hq0, fun x hx => (not_mem_nil hx).elim,
    fun v x hx => by cases hx⟩
  · rw [hholds, hnew.bits j, Bool.or_eq_true, decide_eq_true_eq]
  · rw [(hholds j).mp hj]
    exact hnew.free
  · obtain rfl := hwalk q t (by omega) hw
    cases hw
    rw [hnew.lower i hi, zero_and] at hpres
    exact absurd rfl hpres
  · simp

lemma zeroEntries_eq (v : Vmm) (page n : ℕ) :
    zeroEntries v page n = { v with words := (zeroEntries v page n).words } := by
  obtain ⟨hpmm, hactive, hdirect⟩ := zeroEntries_frame v page n
  cases he : zeroEntries v page n
  simp only [he] at hpmm hactive hdirect
  rw [hpmm, hactive, hdirect]

lemma getD_take_drop (image : List UInt8) {src len i : ℕ} (hi : i < len) :
    ((image.drop src).take len).getD i 0 = image.getD (src + i) 0 := by
  simp [getD_eq_getElem?_getD, getElem?_take_of_lt hi, getElem?_drop]

lemma fill_spec (h : Stage s0 pml4 r) (hs : s.vmm = r.vmm) (halloc : pmmAllocPage r.vmm.pmm = (k * pageSize, pmm))
    (hk : k < maxPages) (hfree : bitmapTest r.vmm.pmm k = false)
    (hbits : ∀ q, bitmapTest pmm q = (bitmapTest r.vmm.pmm q || decide (q = k))) (hj : j.Fits image.length) :
    ∃ words u, u = (if 0 < j.len then
        ((s.clear (k * pageSize) pmm).read image j.src j.len).2.copy (k * pageSize) j.off
          ((s.clear (k * pageSize) pmm).read image j.src j.len).1
        else s.clear (k * pageSize) pmm) ∧
      u.vmm = (filled r k pmm words).vmm ∧ Fills r k pmm words (j.placement image) ∧
      Traces image.length s0 s u := by
  let zeroed := (zeroEntries { r.vmm with pmm := pmm } (k * pageSize) 512).words
  have hmod : k * pageSize % 8 = 0 := by
    simp only [pageSize]
    omega
  have hfresh : bitmapTest s0.pmm (k * pageSize / pageSize) = false := by
    rw [Nat.mul_div_cancel k (by decide)]
    exact h.was_clear hfree
  have hclear : Traces image.length s0 s (s.clear (k * pageSize) pmm) :=
    Traces.step rfl ⟨mul_mod_left k pageSize, hfresh, le_of_eq (zero_add _)⟩
  have hzero : ∀ y, ¬(k * pageSize ≤ y ∧ y < k * pageSize + pageSize) → zeroed y = r.vmm.words y := by
    intro y hy
    refine zeroEntries_outside _ _ 512 ?_
    simp only [pageSize] at hy ⊢
    omega
  by_cases hlen : 0 < j.len
  · have hdata : ((image.drop j.src).take j.len).length = j.len := by
      have hsrc := hj.src
      rw [length_take, length_drop]
      omega
    refine ⟨copyBytes zeroed (k * pageSize + j.off)
      ((image.drop j.src).take j.len), _, rfl, ?_, ⟨halloc, hk, hfree, hbits, fun y hy => ?_, fun o ho => ?_⟩, ?_⟩
    · rw [if_pos hlen]
      simp only [Loader.copy, Loader.read, Loader.clear, hs]
      rw [zeroEntries_eq]
      rfl
    · rw [copyBytes_outside _ _ hmod (hdata.symm ▸ hj.off) hy]
      exact hzero y hy
    · rw [byteAt_copyBytes, hdata, byteAt_zeroEntries _ hmod ho]
      simp only [Job.placement]
      by_cases hin : j.off ≤ o ∧ o < j.off + j.len
      · rw [if_pos (by omega), if_pos hin, show k * pageSize + o - (k * pageSize + j.off) = o - j.off by omega,
          getD_take_drop image (by omega)]
      · rw [if_neg (by omega), if_neg hin]
    · rw [if_pos hlen]
      refine hclear.trans (Traces.trans (t := ((s.clear (k * pageSize) pmm).read image j.src j.len).2)
        (Traces.step rfl hj.src) (Traces.step rfl ⟨mul_mod_left k pageSize, hfresh, ?_⟩))
      exact hdata.symm ▸ hj.off
  · refine ⟨zeroed, _, rfl, ?_, ⟨halloc, hk, hfree, hbits, hzero, fun o ho => ?_⟩, ?_⟩
    · rw [if_neg hlen]
      simp only [Loader.clear, hs]
      rw [zeroEntries_eq]
      rfl
    · rw [byteAt_zeroEntries _ hmod ho]
      simp only [Job.placement]
      rw [if_neg (by omega)]
    · rw [if_neg hlen]
      exact hclear

theorem placePage_spec (h : Loading s0 pml4 placed r) (hs : s.vmm = r.vmm) (hj : j.Fits image.length)
    (noPage noMap : String) :
    ∃ res s', placePage image pml4 (j.page * 2 ^ 12) j.flags j.off j.src j.len noPage noMap s = .ok (res, s') ∧
      Traces image.length s0 s s' ∧ Outcome s0 pml4 (j.placement image :: placed) True res s'.vmm := by
  unfold placePage
  rcases pmmAllocPage_spec r.vmm.pmm with ⟨hfail, hall⟩ | ⟨k, pmm, halloc, hk, hfree, hbits⟩
  · refine ⟨.error noPage, s, ?_, .refl _ _ _, ⟨r, hs.symm, h.toStage⟩, fun hc => ?_⟩
    · rw [hs, hfail, if_pos rfl]
      rfl
    · exact absurd hc.2 (Nat.not_le_of_lt (h.exhausted hall _))
  obtain ⟨words, u, hu, hvmm, hf, htrace⟩ := fill_spec h.toStage hs halloc hk hfree hbits hj
  have hmap : ∀ v, Traces image.length s0 u ⟨v, u.trace ++ [.map (j.page * 2 ^ 12) (k * pageSize) j.flags]⟩ := by
    intro v
    refine Traces.step rfl ⟨?_, ?_⟩
    · simp only [pageSize]
      omega
    have hpage := hj.page
    simp only [userStackTop]
    omega
  rw [hs, halloc]
  simp only [if_neg (mul_pageSize_ne_allocFailed hk), ← hu, hvmm]
  rcases h.map hf hj.page hj.flags with ⟨v, heq, r', hr', hstage, hneed⟩ | ⟨v, heq, r', hr', hload⟩
  · refine ⟨.error noMap, ⟨v, _⟩, ?_, htrace.trans (hmap v), ⟨r', hr', hstage⟩, fun hc => ?_⟩
    · simp only [Job.placement] at heq
      rw [heq]
      rfl
    · exact absurd hc.2 (Nat.not_le_of_lt hneed)
  · refine ⟨.ok (), ⟨v, _⟩, ?_, htrace.trans (hmap v), trivial, r', hr', hload⟩
    simp only [Job.placement] at heq
    rw [heq]
    rfl

/-! ## The loops -/

/-- Place the pages of a list. -/
def placeAll (image : List UInt8) (cr3 : ℕ) (noPage noMap : String) :
    List Job → Loader → Except String (Except String Unit × Loader)
  | [], s => return (.ok (), s)
  | j :: js, s => do
    match ← placePage image cr3 (j.page * 2 ^ 12) j.flags j.off j.src j.len noPage noMap s with
    | (.error m, s) => return (.error m, s)
    | (.ok (), s) => placeAll image cr3 noPage noMap js s

lemma Outcome.append {good : Prop} {m : String} {vmm : Vmm} (h : Outcome s0 pml4 placed good (.error m) vmm)
    (more : List Placement) {good' : Prop} (hgood : good' → good) :
    Outcome s0 pml4 (more ++ placed) good' (.error m) vmm := by
  refine ⟨h.1, fun hc => h.2 ⟨hgood hc.1, le_trans ?_ hc.2⟩⟩
  rw [map_append]
  exact need_append_le _ _

theorem placeAll_spec {js : List Job} (h : Loading s0 pml4 placed r) (hs : s.vmm = r.vmm)
    (hjs : ∀ j ∈ js, j.Fits image.length) (noPage noMap : String) :
    ∃ res s', placeAll image pml4 noPage noMap js s = .ok (res, s') ∧ Traces image.length s0 s s' ∧
      Outcome s0 pml4 ((js.map (Job.placement image)).reverse ++ placed) True res s'.vmm := by
  induction js generalizing s r placed with
  | nil => exact ⟨.ok (), s, rfl, .refl _ _ _, trivial, r, hs.symm, h⟩
  | cons j js ih =>
    obtain ⟨res, s1, heq, htrace, hout⟩ := placePage_spec h hs (hjs j mem_cons_self) noPage noMap
    have hlist : ((j :: js).map (Job.placement image)).reverse ++ placed =
        (js.map (Job.placement image)).reverse ++ (j.placement image :: placed) := by simp
    rw [placeAll, heq, hlist]
    cases res with
    | error m => exact ⟨.error m, s1, rfl, htrace, hout.append _ id⟩
    | ok _ =>
      obtain ⟨-, r1, hr1, hload⟩ := hout
      obtain ⟨res, s2, heq2, htrace2, hout2⟩ := ih hload hr1.symm fun i hi => hjs i (mem_cons_of_mem _ hi)
      exact ⟨res, s2, heq2, htrace.trans htrace2, hout2⟩

end

/-! ## The pages of a program -/

/-- The offset in page `p` of a segment where copying starts. -/
def pageOff (ph : Elf64Phdr) (p : ℕ) : ℕ := if p = 0 then ph.pVaddr - vbase ph else 0

/-- The bytes of a segment that are copied before page `p`. -/
def copied (ph : Elf64Phdr) (p : ℕ) : ℕ := min ph.pFilesz (p * pageSize - (ph.pVaddr - vbase ph))

def segmentJob (ph : Elf64Phdr) (p : ℕ) : Job where
  page := vbase ph / pageSize + p
  flags := segmentFlags ph
  off := pageOff ph p
  src := ph.pOffset + copied ph p
  len := min (ph.pFilesz - copied ph p) (pageSize - pageOff ph p)

def stackJob (p : ℕ) : Job := ⟨userStackBase / pageSize + p, vmmUser ||| pageWritable, 0, 0, 0⟩

def segmentJobs (ph : Elf64Phdr) : List Job := (List.range (npages ph)).map (segmentJob ph)
def stackJobs : List Job := (List.range userStackPages).map stackJob

def phdrAt (image : List UInt8) (eh : Elf64Ehdr) (i : ℕ) : Elf64Phdr :=
  readPhdr ((image.drop (phdrOff eh i)).take phdrSize)

/-- The checks of program header `i` pass. -/
def Accepted (image : List UInt8) (eh : Elf64Ehdr) (i : ℕ) : Prop :=
  PhdrFits image.length eh i ∧ (checkPhdr image.length (phdrAt image eh i)).toOption.isSome = true

/-- The segment of program header `i`, if it is one to load. -/
def segmentAt (image : List UInt8) (eh : Elf64Ehdr) (i : ℕ) : Option Elf64Phdr :=
  if (checkPhdr image.length (phdrAt image eh i)).toOption = some true then some (phdrAt image eh i) else none

def segmentsFrom (image : List UInt8) (eh : Elf64Ehdr) (i n : ℕ) : List Elf64Phdr :=
  (List.range' i n).filterMap (segmentAt image eh)

def segments (image : List UInt8) (eh : Elf64Ehdr) : List Elf64Phdr := segmentsFrom image eh 0 eh.ePhnum

def programJobs (image : List UInt8) (eh : Elf64Ehdr) : List Job :=
  (segments image eh).flatMap segmentJobs ++ stackJobs

/-- The pages of a program, the last one first. -/
def programPlacements (image : List UInt8) (eh : Elf64Ehdr) : List Placement :=
  ((programJobs image eh).map (Job.placement image)).reverse

/-- The bounds that the checks of a segment leave. -/
structure Loadable (size : ℕ) (ph : Elf64Phdr) : Prop where
  memsz : 0 < ph.pMemsz
  data : ph.pOffset + ph.pFilesz ≤ size
  top : ph.pVaddr + ph.pMemsz ≤ userStackTop

variable {s0 s' : Vmm} {pml4 size : ℕ} {r : SpaceRun} {placed : List Placement} {image : List UInt8}
  {s : Loader} {ph : Elf64Phdr} {eh : Elf64Ehdr}

lemma vbase_eq (ph : Elf64Phdr) : vbase ph = ph.pVaddr / 2 ^ 12 % 2 ^ 52 * 2 ^ 12 := by
  have hmask : 2 ^ 64 - pageSize = (2 ^ 52 - 1) <<< 12 := by decide
  rw [vbase, hmask, and_mask_shift]

lemma readPhdr_lt (bs : List UInt8) : (readPhdr bs).pVaddr < 2 ^ 64 ∧ (readPhdr bs).pMemsz < 2 ^ 64 :=
  ⟨readLE_lt (record bs) 8 16, readLE_lt (record bs) 8 40⟩

lemma loadable_of_check (hv : ph.pVaddr < 2 ^ 64) (hm : ph.pMemsz < 2 ^ 64)
    (h : checkPhdr size ph = .ok true) : Loadable size ph := by
  unfold checkPhdr at h
  split_ifs at h with hskip hdata htop
  · cases h
  · simp only [vend, userStackTop] at htop
    exact ⟨by omega, by omega, by simp only [userStackTop]; omega⟩

section

variable (h : Loadable size ph)
include h

lemma Loadable.vbase : vbase ph = ph.pVaddr / 4096 * 4096 := by
  have htop := h.top
  rw [vbase_eq]
  simp only [userStackTop] at htop
  omega

lemma Loadable.vend : vend ph = ph.pVaddr + ph.pMemsz := by
  have htop := h.top
  simp only [userStackTop] at htop
  exact mod_eq_of_lt (by omega)

lemma Loadable.npages : npages ph = (ph.pVaddr + ph.pMemsz - ph.pVaddr / 4096 * 4096 + 4095) / 4096 := by
  rw [Elf.npages, h.vend, h.vbase, pageSize, Nat.add_sub_assoc (by decide)]

lemma Loadable.fits {p : ℕ} (hp : p < Elf.npages ph) : (segmentJob ph p).Fits size := by
  have hdata := h.data
  have htop := h.top
  have hmemsz := h.memsz
  rw [h.npages] at hp
  simp only [userStackTop] at htop
  refine ⟨?_, ?_, ?_, ?_⟩
  · simp only [segmentJob, h.vbase, pageSize]
    omega
  · simp only [segmentJob, segmentFlags]
    split <;> decide
  · simp only [segmentJob, pageOff, h.vbase, pageSize]
    split <;> omega
  · simp only [segmentJob, copied]
    omega

end

lemma stackJob_fits (size : ℕ) {p : ℕ} (hp : p < userStackPages) : (stackJob p).Fits size := by
  refine ⟨?_, ?_, ?_, ?_⟩
  · simp only [stackJob, userStackBase, userStackTop, userStackPages, pageSize] at hp ⊢
    omega
  · simp only [stackJob]
    decide
  · simp [stackJob]
  · simp [stackJob]

lemma loadPages_eq (h : Loadable size ph) (image : List UInt8) (pml4 n p : ℕ) (s : Loader) :
    loadPages image pml4 ph n p (ph.pOffset + copied ph p) (ph.pFilesz - copied ph p) s =
      placeAll image pml4 "elf: pmm_alloc_page failed\n" "elf: vmm_space_map failed\n"
        ((List.range' p n).map (segmentJob ph)) s := by
  induction n generalizing p s with
  | zero => rfl
  | succ n ih =>
    have hvirt : vbase ph + p * pageSize = (vbase ph / pageSize + p) * 2 ^ 12 := by
      simp only [h.vbase, pageSize]
      omega
    have hlen : (if ph.pFilesz - copied ph p > pageSize - pageOff ph p then pageSize - pageOff ph p
        else ph.pFilesz - copied ph p) = (segmentJob ph p).len := by
      simp only [segmentJob]
      split <;> omega
    have hnext : copied ph p + (segmentJob ph p).len = copied ph (p + 1) := by
      simp only [segmentJob, copied, pageOff, h.vbase, pageSize]
      split
      · subst_vars
        omega
      · omega
    rw [range'_succ, map_cons, placeAll, loadPages]
    simp only [show (if p = 0 then ph.pVaddr - vbase ph else 0) = pageOff ph p from rfl, hlen, hvirt]
    simp only [add_assoc, Nat.sub_sub, hnext]
    have hsame : (segmentJob ph p).page = vbase ph / pageSize + p ∧ (segmentJob ph p).flags = segmentFlags ph ∧
        (segmentJob ph p).off = pageOff ph p ∧ (segmentJob ph p).src = ph.pOffset + copied ph p :=
      ⟨rfl, rfl, rfl, rfl⟩
    rw [hsame.1, hsame.2.1, hsame.2.2.1, hsame.2.2.2]
    simp only [ih] <;> rfl

lemma loadStack_eq (n p : ℕ) (s : Loader) :
    loadStack image pml4 n p s =
      placeAll image pml4 "elf: stack pmm_alloc failed\n" "elf: stack vmm_space_map failed\n"
        ((List.range' p n).map stackJob) s := by
  induction n generalizing p s with
  | zero => rfl
  | succ n ih =>
    have hvirt : userStackBase + p * pageSize = (stackJob p).page * 2 ^ 12 := by
      simp only [stackJob, userStackBase, userStackTop, userStackPages, pageSize]
      omega
    rw [range'_succ, map_cons, placeAll, loadStack, hvirt]
    simp only [ih]
    rfl

lemma accepted_segment {i : ℕ} (h : segmentAt image eh i = some ph) : Loadable image.length ph := by
  unfold segmentAt at h
  split at h
  next hcheck =>
    cases h
    obtain ⟨hv, hm⟩ := readPhdr_lt ((image.drop (phdrOff eh i)).take phdrSize)
    refine loadable_of_check hv hm ?_
    cases hc : checkPhdr image.length (phdrAt image eh i) with
    | error m =>
      rw [hc] at hcheck
      cases hcheck
    | ok b =>
      rw [hc] at hcheck
      exact congrArg Except.ok (Option.some.inj hcheck)
  · cases h

theorem loadSegment_spec (h : Loading s0 pml4 placed r) (hs : s.vmm = r.vmm) (image : List UInt8) (eh : Elf64Ehdr)
    (i : ℕ) :
    ∃ res s', loadSegment image eh pml4 i s = .ok (res, s') ∧ Traces image.length s0 s s' ∧ Outcome s0 pml4
        ((((segmentAt image eh i).toList.flatMap segmentJobs).map (Job.placement image)).reverse ++ placed)
        (Accepted image eh i) res s'.vmm := by
  unfold loadSegment
  by_cases hfits : PhdrFits image.length eh i
  · rw [if_pos hfits]
    let s1 := (s.read image (phdrOff eh i) phdrSize).2
    have hread : Traces image.length s0 s s1 := by
      refine Traces.step rfl ?_
      unfold PhdrFits at hfits
      simp only [Confined, phdrSize] at hfits ⊢
      omega
    have hph : readPhdr (s.read image (phdrOff eh i) phdrSize).1 = phdrAt image eh i := rfl
    simp only [hph]
    cases hc : checkPhdr image.length (phdrAt image eh i) with
    | error m =>
      refine ⟨.error m, _, rfl, hread, ⟨r, hs.symm, h.toStage⟩, fun hgood => ?_⟩
      have hsome := hgood.1.2
      rw [hc] at hsome
      cases hsome
    | ok b =>
      have haccepted : Accepted image eh i := ⟨hfits, by rw [hc]; rfl⟩
      cases b with
      | false =>
        have hnone : segmentAt image eh i = none := by
          rw [segmentAt, hc]
          rfl
        rw [hnone]
        exact ⟨.ok (), _, rfl, hread, haccepted, r, hs.symm, h⟩
      | true =>
        have hsegment : segmentAt image eh i = some (phdrAt image eh i) := by
          rw [segmentAt, hc]
          rfl
        have hload := accepted_segment hsegment
        have hzero : copied (phdrAt image eh i) 0 = 0 := by simp [copied]
        have hloop := loadPages_eq hload image pml4 (npages (phdrAt image eh i)) 0
          s1
        rw [hzero, add_zero, Nat.sub_zero, ← range_eq_range'] at hloop
        have hjobs : ∀ j ∈ segmentJobs (phdrAt image eh i), j.Fits image.length := by
          intro j hj
          obtain ⟨p, hp, rfl⟩ := mem_map.mp hj
          exact hload.fits (mem_range.mp hp)
        obtain ⟨res, s', heq, htrace, hout⟩ := placeAll_spec h
          (show s1.vmm = r.vmm from hs) hjobs
          "elf: pmm_alloc_page failed\n" "elf: vmm_space_map failed\n"
        refine ⟨res, s', hloop.trans heq, hread.trans htrace, ?_⟩
        rw [hsegment]
        simp only [Option.toList_some, flatMap_cons, flatMap_nil, append_nil]
        cases res with
        | error m => exact ⟨hout.1, fun hgood => hout.2 ⟨trivial, hgood.2⟩⟩
        | ok _ => exact ⟨haccepted, hout.2⟩
  · rw [if_neg hfits]
    exact ⟨_, s, rfl, .refl _ _ _, ⟨r, hs.symm, h.toStage⟩, fun hgood => hfits hgood.1.1⟩

theorem loadSegments_spec (h : Loading s0 pml4 placed r) (hs : s.vmm = r.vmm) (image : List UInt8) (eh : Elf64Ehdr)
    (n i : ℕ) :
    ∃ res s', loadSegments image eh pml4 n i s = .ok (res, s') ∧ Traces image.length s0 s s' ∧ Outcome s0 pml4
        ((((segmentsFrom image eh i n).flatMap segmentJobs).map (Job.placement image)).reverse ++ placed)
        (∀ j, i ≤ j → j < i + n → Accepted image eh j) res s'.vmm := by
  induction n generalizing i s r placed with
  | zero => exact ⟨.ok (), s, rfl, .refl _ _ _, fun j hj hj' => absurd hj' (by omega), r, hs.symm, h⟩
  | succ n ih =>
    obtain ⟨res, s1, heq, htrace, hout⟩ := loadSegment_spec h hs image eh i
    have hsegments : segmentsFrom image eh i (n + 1) =
        (segmentAt image eh i).toList ++ segmentsFrom image eh (i + 1) n := by
      rw [segmentsFrom, range'_succ, filterMap_cons]
      cases segmentAt image eh i <;> rfl
    rw [loadSegments, heq, hsegments, flatMap_append, map_append, reverse_append, append_assoc]
    cases res with
    | error m => exact ⟨.error m, s1, rfl, htrace, hout.append _ fun hall => hall i (le_refl i) (by omega)⟩
    | ok _ =>
      obtain ⟨haccepted, r1, hr1, hload⟩ := hout
      obtain ⟨res, s2, heq2, htrace2, hout2⟩ := ih hload hr1.symm (i + 1)
      refine ⟨res, s2, heq2, htrace.trans htrace2, ?_⟩
      have hgood : (∀ j, i ≤ j → j < i + (n + 1) → Accepted image eh j) ↔
          ∀ j, i + 1 ≤ j → j < i + 1 + n → Accepted image eh j := by
        constructor
        · exact fun hall j hj hj' => hall j (by omega) (by omega)
        intro hall j hj hj'
        by_cases hji : j = i
        · exact hji ▸ haccepted
        · exact hall j (by omega) (by omega)
      rw [hgood]
      exact hout2

/-- What `elf_load` ends with after it made a space. -/
def Loaded (s0 : Vmm) (image : List UInt8) (eh : Elf64Ehdr) (cr3 : ℕ) (res : Except String ElfLoadResult) (vmm : Vmm) :
    Prop :=
  match res with
  | .ok out => out = ⟨eh.eEntry, userStackTop - 16, cr3⟩ ∧ (∀ i < eh.ePhnum, Accepted image eh i) ∧
      ∃ r, r.vmm = vmm ∧ Loading s0 cr3 (programPlacements image eh) r
  | .error _ => (∃ r, r.vmm = vmm ∧ Stage s0 cr3 r) ∧ ¬((∀ i < eh.ePhnum, Accepted image eh i) ∧
        need ((programPlacements image eh).map Placement.page) ≤ (clearPages s0.pmm).card)

theorem loadInto_spec (h : Loading s0 pml4 [] r) (hs : s.vmm = r.vmm) (image : List UInt8) (eh : Elf64Ehdr) :
    ∃ res s', loadInto image eh pml4 s = .ok (res, s') ∧ Traces image.length s0 s s' ∧
      Loaded s0 image eh pml4 res s'.vmm := by
  obtain ⟨res, s1, heq, htrace, hout⟩ := loadSegments_spec h hs image eh eh.ePhnum 0
  have hrange : (∀ j, 0 ≤ j → j < 0 + eh.ePhnum → Accepted image eh j) ↔ ∀ i < eh.ePhnum, Accepted image eh i := by
    simp
  have hsplit : programPlacements image eh = (stackJobs.map (Job.placement image)).reverse ++
        ((((segmentsFrom image eh 0 eh.ePhnum).flatMap segmentJobs).map (Job.placement image)).reverse ++ []) := by
    rw [programPlacements, programJobs, segments, map_append, reverse_append, append_nil]
  rw [hrange] at hout
  rw [loadInto, heq]
  cases res with
  | error m =>
    refine ⟨.error m, s1, rfl, htrace, ?_⟩
    have hfail := hout.append (stackJobs.map (Job.placement image)).reverse id
    rw [← hsplit] at hfail
    exact hfail
  | ok _ =>
    obtain ⟨hgood, r1, hr1, hload⟩ := hout
    have hjobs : ∀ j ∈ stackJobs, j.Fits image.length := by
      intro j hj
      obtain ⟨p, hp, rfl⟩ := mem_map.mp hj
      exact stackJob_fits _ (mem_range.mp hp)
    obtain ⟨res, s2, heq2, htrace2, hout2⟩ := placeAll_spec hload hr1.symm hjobs
      "elf: stack pmm_alloc failed\n" "elf: stack vmm_space_map failed\n"
    have hstack : loadStack image pml4 userStackPages 0 s1 = .ok (res, s2) := by
      rw [loadStack_eq, ← range_eq_range']
      exact heq2
    simp only [bind, Except.bind, hstack]
    rw [← hsplit] at hout2
    cases res with
    | error m => refine ⟨.error m, s2, rfl, htrace.trans htrace2, hout2.1, fun hc => hout2.2 ⟨trivial, hc.2⟩⟩
    | ok _ => exact ⟨_, s2, rfl, htrace.trans htrace2, rfl, hgood, hout2.2⟩

/-- The image has an ELF header that passes the checks. -/
def HeaderOk (image : List UInt8) : Prop :=
  ehdrSize ≤ image.length ∧ (checkEhdr (readEhdr (image.take ehdrSize))).toOption.isSome = true

/-- The header of an image. -/
def header (image : List UInt8) : Elf64Ehdr := readEhdr (image.take ehdrSize)

/-- What `elf_load` does: it refuses the header, gets no root, or fills a new space. -/
theorem elfLoad_cases (hs : Ready s0) (image : List UInt8) :
    (¬HeaderOk image ∧ ∃ m trace, elfLoad image s0 = .ok (.error m, ⟨s0, trace⟩) ∧
        ∀ a ∈ trace, Confined image.length s0 a) ∨
    (HeaderOk image ∧ ∃ vmm m, vmmSpaceCreate s0 = .ok (0, vmm) ∧
        elfLoad image s0 = .ok (.error m, ⟨vmm, [.read 0 ehdrSize]⟩)) ∨
    HeaderOk image ∧ ∃ cr3 vmm res s added, vmmSpaceCreate s0 = .ok (cr3, vmm) ∧ cr3 ≠ 0 ∧
      elfLoad image s0 = .ok (res, s) ∧ s.trace = [.read 0 ehdrSize, .create cr3] ++ added ∧
      (∀ a ∈ added, Confined image.length s0 a) ∧ Loaded s0 image (header image) cr3 res s.vmm := by
  unfold elfLoad
  by_cases hsize : image.length < ehdrSize
  · refine .inl ⟨fun hok => ?_, _, [], by rw [if_pos hsize]; rfl, fun a ha => (not_mem_nil ha).elim⟩
    exact absurd hok.1 (Nat.not_le_of_lt hsize)
  rw [if_neg hsize]
  have hread : (Loader.read image 0 ehdrSize ⟨s0, []⟩).1 = image.take ehdrSize := rfl
  have hvmm : (Loader.read image 0 ehdrSize ⟨s0, []⟩).2 = ⟨s0, [.read 0 ehdrSize]⟩ := rfl
  simp only [hread, hvmm]
  cases hc : checkEhdr (readEhdr (image.take ehdrSize)) with
  | error m =>
    refine .inl ⟨fun hok => ?_, m, _, rfl, fun a ha => ?_⟩
    · have hsome := hok.2
      rw [hc] at hsome
      cases hsome
    obtain rfl := mem_singleton.mp ha
    simp only [Confined]
    omega
  | ok _ =>
    have hok : HeaderOk image := ⟨Nat.le_of_not_lt hsize, by rw [hc]; rfl⟩
    right
    obtain ⟨cr3, vmm, hcreate⟩ : ∃ cr3 vmm, vmmSpaceCreate s0 = .ok (cr3, vmm) := by
      rcases vmmSpaceCreate_cases hs.active hs.directMap with ⟨heq, -⟩ | ⟨k, vmm, heq, -⟩
      · exact ⟨0, s0, heq⟩
      · exact ⟨k * pageSize, vmm, heq⟩
    simp only [bind, Except.bind, hcreate]
    by_cases h0 : cr3 = 0
    · subst h0
      exact .inl ⟨hok, vmm, _, rfl, by rw [if_pos rfl]; rfl⟩
    rw [if_neg h0]
    have hstart := Loading.start hs hcreate h0
    obtain ⟨res, s, heq, ⟨added, htrace, hadded⟩, hloaded⟩ := loadInto_spec
      (s := ⟨vmm, [.read 0 ehdrSize] ++ [.create cr3]⟩) hstart rfl image (header image)
    exact .inr ⟨hok, cr3, vmm, res, s, added, rfl, h0, heq, htrace, hadded, hloaded⟩

end AetherOS.Elf
