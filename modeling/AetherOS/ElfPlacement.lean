import AetherOS.ElfLoad
import AetherOS.PmmRuns

/-!
# Pages placed in a new space

The loader allocates a page, fills it and maps it, again and again. Placed pages are kept
newest first: the newest one at an address is what the space shows there. A page whose place
was taken is still in use, and no longer of the space.
-/
namespace AetherOS.Elf
open Mem PointerTree List

/-- A page of a program: its number in the address space, its bytes and its flags. -/
structure Placement where
  page : ℕ
  byte : ℕ → ℕ
  flags : ℕ

/-- The pages that are in use for a space: its tables, the pages that it maps and those that
were taken out of it. -/
def Holds (pml4 : ℕ) (r : SpaceRun) (a : ℕ) : Prop :=
  (∃ q, q.length ≤ 3 ∧ walk (child 256 r.vmm.words) 0 pml4 q = some a) ∨ a ∈ r.owned ++ r.mapped.map Prod.snd

/-- A space that was made on machine `s0`: what came into use since then is held for the space,
and nothing that was in use before has changed. -/
structure Stage (s0 : Vmm) (pml4 : ℕ) (r : SpaceRun) : Prop extends SpaceInv pml4 r where
  bits : ∀ k, bitmapTest r.vmm.pmm k = true ↔ bitmapTest s0.pmm k = true ∨ Holds pml4 r (k * pageSize)
  fresh : ∀ k, Holds pml4 r (k * pageSize) → bitmapTest s0.pmm k = false
  kept : ∀ x, bitmapTest s0.pmm (x / pageSize) = true → r.vmm.words x = s0.words x
  upper : ∀ i, 256 ≤ i → i < 512 → r.vmm.words (pml4 + 8 * i) = s0.words (s0.activePml4Phys + 8 * i)
  writable : WritableTables 256 pml4 r.vmm

section

variable {s0 s : Vmm} {pml4 virt pt e a k x : ℕ} {r : SpaceRun} {pmm : Pmm} {words : ℕ → ℕ}

lemma page_eq_of_mem {b j y : ℕ} (ha : a = j * pageSize) (hb : b = k * pageSize) (hya : a ≤ y ∧ y < a + pageSize)
    (hyb : b ≤ y ∧ y < b + pageSize) : a = b := by
  simp only [pageSize] at ha hb hya hyb
  omega

section

variable (h : Stage s0 pml4 r)
include h

lemma Stage.was_clear (hk : bitmapTest r.vmm.pmm k = false) : bitmapTest s0.pmm k = false := by
  by_contra hc
  rw [(h.bits k).mpr (.inl (by simpa using hc))] at hk
  cases hk

lemma Stage.alloc (halloc : pmmAllocPage r.vmm.pmm = (k * pageSize, pmm)) (hk : k < maxPages)
    (hfree : bitmapTest r.vmm.pmm k = false)
    (hbits : ∀ q, bitmapTest pmm q = (bitmapTest r.vmm.pmm q || decide (q = k))) :
    Stage s0 pml4 { r with vmm := { r.vmm with pmm := pmm }, owned := k * pageSize :: r.owned } := by
  have hholds : ∀ b, Holds pml4 { r with vmm := { r.vmm with pmm := pmm }, owned := k * pageSize :: r.owned } b ↔
      b = k * pageSize ∨ Holds pml4 r b := by
    intro b
    simp only [Holds, cons_append, mem_cons]
    exact or_left_comm
  refine ⟨h.toSpaceInv.alloc ⟨_, _, halloc, mul_pageSize_ne_allocFailed hk, rfl⟩, fun j => ?_, fun j hj => ?_,
    h.kept, h.upper, h.writable⟩
  · rw [hholds, hbits j, Bool.or_eq_true, h.bits j, decide_eq_true_eq, Nat.mul_left_inj (by decide)]
    tauto
  rcases (hholds _).mp hj with he | hj
  · rw [Nat.eq_of_mul_eq_mul_right (by decide) he]
    exact h.was_clear hfree
  · exact h.fresh j hj

lemma Stage.not_mem_page (ha : a ∈ r.owned)
    (hx : bitmapTest s0.pmm (x / pageSize) = true) : ¬(a ≤ x ∧ x < a + pageSize) := by
  intro hc
  obtain ⟨k, hk, -, -⟩ := h.used a (mem_append_left _ ha)
  have hxk : x / pageSize = k := by
    simp only [pageSize] at hc hk ⊢
    omega
  have hfree := h.fresh k (.inr (hk ▸ mem_append_left _ ha))
  rw [hxk, hfree] at hx
  cases hx

lemma Stage.write (ha : a ∈ r.owned) (hwords : ∀ x, ¬(a ≤ x ∧ x < a + pageSize) → words x = r.vmm.words x) :
    Stage s0 pml4 { r with vmm := { r.vmm with words := words } } := by
  obtain ⟨hsame, hwalk⟩ := h.toSpaceInv.write_tables ha hwords
  have hholds : ∀ b, Holds pml4 { r with vmm := { r.vmm with words := words } } b ↔ Holds pml4 r b := by
    intro b
    refine or_congr_left (exists_congr fun q => and_congr_right fun hq => ?_)
    rw [hwalk q hq]
  refine ⟨h.toSpaceInv.write ha hwords, fun j => ?_, fun j hj => h.fresh j ((hholds _).mp hj), fun x hx => ?_,
    fun i hi hi' => ?_, h.writable.write h.toSpaceInv ha hwords⟩
  · rw [hholds]
    exact h.bits j
  · exact (hwords x (h.not_mem_page ha hx)).trans (h.kept x hx)
  · exact (hsame [] pml4 i (by simp) rfl hi').trans (h.upper i hi hi')

lemma Stage.kept_before (hx : bitmapTest s0.pmm (x / pageSize) = true) : Kept 256 pml4 r.vmm x := by
  refine ⟨(h.bits _).mpr (.inl hx), fun q t i hq hw hi he => ?_⟩
  obtain ⟨k, hk, -, -⟩ := h.tree.used q t hq hw
  have hi' : i < 512 := h.tree.lt hi
  have hxk : x / pageSize = k := by
    simp only [pageSize] at hk ⊢
    omega
  have hfree := h.fresh k (.inl ⟨q, hq, hk ▸ hw⟩)
  rw [hxk, hfree] at hx
  cases hx

lemma Stage.extended (hg : Extended 256 pml4 virt r.vmm s) :
    Stage s0 pml4 { r with vmm := s, tables := fun k => r.tables k ∨ Allocated r.vmm s k } := by
  refine ⟨h.toSpaceInv.grown hg.toGrown, fun j => ?_, fun j hj => ?_, fun x hx => ?_, fun i hi hi' => ?_,
    hg.writable h.writable⟩
  · rw [hg.used j, h.bits j]
    constructor
    · rintro ((hj | ⟨q, hq, hw⟩ | hm) | ⟨q, hq, hw⟩)
      · exact .inl hj
      · exact .inr (.inl ⟨q, hq, hg.walk q _ hq hw⟩)
      · exact .inr (.inr hm)
      · exact .inr (.inl ⟨q, hq, hw⟩)
    · rintro (hj | ⟨q, hq, hw⟩ | hm)
      · exact .inl (.inl hj)
      · exact .inr ⟨q, hq, hw⟩
      · exact .inl (.inr (.inr hm))
  · rcases hj with ⟨q, hq, hw⟩ | hm
    · rcases hg.fresh q _ hq hw with hw' | hfree
      · exact h.fresh j (.inl ⟨q, hq, hw'⟩)
      rw [Nat.mul_div_cancel j (by decide)] at hfree
      exact h.was_clear hfree
    · exact h.fresh j (.inr hm)
  · exact (hg.kept x (h.kept_before hx)).trans (h.kept x hx)
  · exact (hg.kept _ (h.tree.kept_upper hi hi')).trans (h.upper i hi hi')

end

lemma Stage.overwrite (h : Stage s0 pml4 r) (hv : pml4Index virt < 256)
    (hw : walk (child 256 r.vmm.words) 0 pml4 (tablePath virt) = some pt) (hpres : e &&& pagePresent ≠ 0)
    (hown : e &&& pageMask ∈ r.owned) :
    Stage s0 pml4 (r.overwritten virt pt e) := by
  obtain ⟨-, hwalk, -⟩ := store_leaf h.tree hw rfl (indices_lt virt).2.2.2 e
  have hperm := overwrite_perm virt r.owned r.mapped hown
  have hholds : ∀ b, Holds pml4 (r.overwritten virt pt e) b ↔ Holds pml4 r b := by
    intro b
    refine or_congr (exists_congr fun q => and_congr_right fun hq => ?_) hperm.mem_iff
    rw [hwalk q hq]
  refine ⟨h.toSpaceInv.overwrite hv hw hpres hown, fun j => ?_, fun j hj => h.fresh j ((hholds _).mp hj),
    fun x hx => ?_, fun i hi hi' => ?_, h.writable.store h.tree hw e⟩
  · rw [hholds]
    exact h.bits j
  · exact ((h.kept_before hx).store h.tree hw e).1.trans (h.kept x hx)
  · exact ((h.tree.kept_upper hi hi').store h.tree hw e).1.trans (h.upper i hi hi')

end

/-! ## How many pages are needed -/

/-- The ways to the tables that a page needs. -/
def tableWays (page : ℕ) : Finset (List ℕ) := ((tablePath (page * 2 ^ 12)).inits.filter (· ≠ [])).toFinset

lemma mem_tableWays {page : ℕ} {q : List ℕ} : q ∈ tableWays page ↔ q ≠ [] ∧ q <+: tablePath (page * 2 ^ 12) := by
  simp only [tableWays, mem_toFinset, mem_filter, mem_inits, decide_eq_true_eq, and_comm]

/-- The root, the pages, and a table for every different way. -/
def need (pages : List ℕ) : ℕ := 1 + pages.length + (pages.toFinset.biUnion tableWays).card

lemma need_append_le (new pages : List ℕ) : need pages ≤ need (new ++ pages) := by
  have hsub : pages.toFinset.biUnion tableWays ⊆ (new ++ pages).toFinset.biUnion tableWays := by
    refine Finset.biUnion_subset_biUnion_of_subset_left _ ?_
    rw [toFinset_append]
    exact Finset.subset_union_right
  have hcard := Finset.card_le_card hsub
  simp only [need, length_append]
  omega

/-- When no page is left, every page that was free is the root, a table or a page held. -/
lemma Stage.card_le {s0 : Vmm} {pml4 : ℕ} {r : SpaceRun} (h : Stage s0 pml4 r)
    (hall : ∀ k < maxPages, bitmapTest r.vmm.pmm k = true) (T : Finset (List ℕ))
    (hT : ∀ q t, q ≠ [] → q.length ≤ 3 → walk (child 256 r.vmm.words) 0 pml4 q = some t → q ∈ T) :
    (clearPages s0.pmm).card ≤ 1 + T.card + (r.owned.length + r.mapped.length) := by
  let table : List ℕ → ℕ := fun q => ((walk (child 256 r.vmm.words) 0 pml4 q).getD 0) / pageSize
  let held : List ℕ := (r.owned ++ r.mapped.map Prod.snd).map (· / pageSize)
  have hsub : clearPages s0.pmm ⊆ {pml4 / pageSize} ∪ T.image table ∪ held.toFinset := by
    intro k hk
    obtain ⟨hlt, hfree⟩ := mem_clearPages.mp hk
    have hpage : k * pageSize / pageSize = k := Nat.mul_div_cancel k (by decide)
    rcases (h.bits k).mp (hall k hlt) with hused | ⟨q, hq, hw⟩ | hm
    · rw [hfree] at hused
      cases hused
    · by_cases hq0 : q = []
      · subst hq0
        cases hw
        refine Finset.mem_union_left _ (Finset.mem_union_left _ (Finset.mem_singleton.mpr hpage.symm))
      · refine Finset.mem_union_left _ (Finset.mem_union_right _ (Finset.mem_image.mpr ⟨q, hT q _ hq0 hq hw, ?_⟩))
        simp [table, hw, hpage]
    · refine Finset.mem_union_right _ (mem_toFinset.mpr (mem_map.mpr ⟨_, hm, hpage⟩))
  calc (clearPages s0.pmm).card ≤ ({pml4 / pageSize} ∪ T.image table ∪ held.toFinset).card := Finset.card_le_card hsub
    _ ≤ ({pml4 / pageSize} ∪ T.image table).card + held.toFinset.card := Finset.card_union_le _ _
    _ ≤ 1 + T.card + held.length := by
      have hroot := Finset.card_union_le {pml4 / pageSize} (T.image table)
      have himage := Finset.card_image_le (s := T) (f := table)
      have hheld := toFinset_card_le held
      rw [Finset.card_singleton] at hroot
      omega
    _ = 1 + T.card + (r.owned.length + r.mapped.length) := by simp only [held, length_map, length_append]

/-! ## Placing a page -/

/-- The entry that `vmm_space_map` writes. -/
def pageEntry (phys flags : ℕ) : ℕ := (phys &&& pageMask) ||| flags ||| pagePresent

/-- The space shows the page at its place, with its bytes and its flags. -/
def Shows (words : ℕ → ℕ) (pml4 : ℕ) (x : Placement) : Prop :=
  ∃ phys, lookup words pml4 (path (x.page * 2 ^ 12)) = some (pageEntry phys x.flags, 0) ∧
    ∀ o < pageSize, byteAt words ((pageEntry phys x.flags &&& pageMask) + o) = x.byte o

/-- The newest page at a place. -/
def newest (placed : List Placement) (v : ℕ) : Option Placement := placed.find? fun x => x.page = v

/-- All pages of the list were placed. -/
structure Loading (s0 : Vmm) (pml4 : ℕ) (placed : List Placement) (r : SpaceRun) : Prop
    extends Stage s0 pml4 r where
  user : ∀ x ∈ placed, x.page < 2 ^ 35
  count : r.owned.length + r.mapped.length = placed.length
  keys : (r.mapped.map Prod.fst).Nodup
  mem_keys : ∀ v, v ∈ r.mapped.map Prod.fst ↔ ∃ x ∈ placed, pageOf (x.page * 2 ^ 12) = v
  ways : ∀ q t, q ≠ [] → q.length ≤ 3 → walk (child 256 r.vmm.words) 0 pml4 q = some t →
    ∃ x ∈ placed, q <+: tablePath (x.page * 2 ^ 12)
  reached : ∀ x ∈ placed, ∃ t, walk (child 256 r.vmm.words) 0 pml4 (tablePath (x.page * 2 ^ 12)) = some t
  shows : ∀ v x, newest placed v = some x → Shows r.vmm.words pml4 x

variable {s0 s : Vmm} {pml4 virt pt k a v w : ℕ} {r : SpaceRun} {pmm : Pmm} {words words' : ℕ → ℕ}
  {placed : List Placement}
  {x : Placement} {mapped : List (Fin (2 ^ 36) × ℕ)}

lemma pml4Index_page (hv : v < 2 ^ 35) : pml4Index (v * 2 ^ 12) < 256 := by
  simp only [pml4Index, and_indexMask]
  omega

lemma pageOf_page (hv : v < 2 ^ 35) (hw : w < 2 ^ 35) (h : pageOf (v * 2 ^ 12) = pageOf (w * 2 ^ 12)) : v = w := by
  have hval := congrArg Fin.val h
  simp only [pageOf] at hval
  omega

lemma path_page_inj (hv : v < 2 ^ 35) (hw : w < 2 ^ 35) (h : path (v * 2 ^ 12) = path (w * 2 ^ 12)) : v = w := by
  rw [← path_page (v * 2 ^ 12)] at h
  exact pageOf_page hv hw ((path_eq_iff _ _).mp h)

lemma newest_mem (h : newest placed v = some x) : x ∈ placed ∧ x.page = v := by
  have hpage := find?_some h
  exact ⟨mem_of_find?_eq_some h, by simpa using hpage⟩

lemma byteAt_congr {o : ℕ} (ha : a % 4096 = 0) (ho : o < pageSize)
    (h : ∀ y, a ≤ y ∧ y < a + pageSize → words' y = words y) : byteAt words' (a + o) = byteAt words (a + o) := by
  have hy : a ≤ (a + o) / 8 * 8 ∧ (a + o) / 8 * 8 < a + pageSize := by
    simp only [pageSize] at ho ⊢
    omega
  rw [byteAt, byteAt, h _ hy]

lemma and_pageMask_mod (e : ℕ) : (e &&& pageMask) % 4096 = 0 := by
  rw [and_pageMask]
  omega

lemma Shows.congr (h : Shows words pml4 x)
    (hlookup : lookup words' pml4 (path (x.page * 2 ^ 12)) = lookup words pml4 (path (x.page * 2 ^ 12)))
    (hwords : ∀ e, lookup words pml4 (path (x.page * 2 ^ 12)) = some (e, 0) →
      ∀ y, e &&& pageMask ≤ y ∧ y < (e &&& pageMask) + pageSize → words' y = words y) : Shows words' pml4 x := by
  obtain ⟨phys, hl, hbytes⟩ := h
  refine ⟨phys, hlookup.trans hl, fun o ho => ?_⟩
  rw [byteAt_congr (and_pageMask_mod _) ho (hwords _ hl)]
  exact hbytes o ho

lemma SpaceInv.mem_mapped (h : SpaceInv pml4 r) {e : ℕ} (hv : v < 2 ^ 35)
    (hl : lookup r.vmm.words pml4 (path (v * 2 ^ 12)) = some (e, 0)) : e &&& pageMask ∈ r.mapped.map Prod.snd :=
  mem_map_of_mem (f := Prod.snd) (h.leaf _ e 0 (pml4Index_page hv) hl).2

/-- The page after it was allocated and filled. -/
def filled (r : SpaceRun) (k : ℕ) (pmm : Pmm) (words : ℕ → ℕ) : SpaceRun :=
  { r with vmm := { r.vmm with pmm := pmm, words := words }, owned := k * pageSize :: r.owned }

/-- A page that was free is allocated and filled. -/
structure Fills (r : SpaceRun) (k : ℕ) (pmm : Pmm) (words : ℕ → ℕ) (x : Placement) : Prop where
  alloc : pmmAllocPage r.vmm.pmm = (k * pageSize, pmm)
  lt : k < maxPages
  free : bitmapTest r.vmm.pmm k = false
  bits : ∀ q, bitmapTest pmm q = (bitmapTest r.vmm.pmm q || decide (q = k))
  outside : ∀ y, ¬(k * pageSize ≤ y ∧ y < k * pageSize + pageSize) → words y = r.vmm.words y
  bytes : ∀ o < pageSize, byteAt words (k * pageSize + o) = x.byte o

lemma Stage.filled (h : Stage s0 pml4 r) (hf : Fills r k pmm words x) : Stage s0 pml4 (filled r k pmm words) :=
  (h.alloc hf.alloc hf.lt hf.free hf.bits).write mem_cons_self hf.outside

lemma Fills.ne_mapped (hf : Fills r k pmm words x) (h : SpaceInv pml4 r) (ha : a ∈ r.mapped.map Prod.snd) :
    a ≠ k * pageSize := by
  rintro rfl
  obtain ⟨j, hj, -, hu⟩ := h.used _ (mem_append_right _ ha)
  rw [← Nat.eq_of_mul_eq_mul_right (by decide) hj, hf.free] at hu
  cases hu

lemma Loading.filled_shows (h : Loading s0 pml4 placed r) {y : Placement} (hy : y.page < 2 ^ 35)
    (hshows : Shows r.vmm.words pml4 y) (hf : Fills r k pmm words x) : Shows words pml4 y := by
  have hstage := h.toStage.alloc hf.alloc hf.lt hf.free hf.bits
  refine hshows.congr ?_ fun e hl z hz => ?_
  · exact hstage.toSpaceInv.write_lookup mem_cons_self hf.outside (pml4Index_page hy)
  have hmem := SpaceInv.mem_mapped h.toSpaceInv hy hl
  have hne := hf.ne_mapped h.toSpaceInv hmem
  obtain ⟨j, hj, -, -⟩ := h.used _ (mem_append_right _ hmem)
  exact hf.outside z fun hc => hne (page_eq_of_mem hj rfl hz hc)

lemma Loading.filled_walk (h : Loading s0 pml4 placed r) (hf : Fills r k pmm words x) :
    ∀ q, q.length ≤ 3 → walk (child 256 words) 0 pml4 q = walk (child 256 r.vmm.words) 0 pml4 q :=
  ((h.toStage.alloc hf.alloc hf.lt hf.free hf.bits).toSpaceInv.write_tables mem_cons_self hf.outside).2

lemma mem_others {v : Fin (2 ^ 36)} :
    v ∈ (others virt mapped).map Prod.fst ↔ v ∈ mapped.map Prod.fst ∧ v ≠ pageOf virt := by
  simp only [others, mem_map, mem_filter, decide_eq_true_eq]
  constructor
  · rintro ⟨y, ⟨hy, hne⟩, rfl⟩
    exact ⟨⟨y, hy, rfl⟩, hne⟩
  · rintro ⟨⟨y, hy, rfl⟩, hne⟩
    exact ⟨y, ⟨hy, hne⟩, rfl⟩

lemma mem_placedWays {q : List ℕ} (hx : x ∈ placed) (hq0 : q ≠ []) (hq : q <+: tablePath (x.page * 2 ^ 12)) :
    q ∈ (placed.map Placement.page).toFinset.biUnion tableWays :=
  Finset.mem_biUnion.mpr ⟨x.page, mem_toFinset.mpr (mem_map_of_mem hx), mem_tableWays.mpr ⟨hq0, hq⟩⟩

lemma mem_keys_cons
    (h : ∀ v, v ∈ mapped.map Prod.fst ↔ ∃ x ∈ placed, pageOf (x.page * 2 ^ 12) = v) (x : Placement) (a : ℕ)
    (v : Fin (2 ^ 36)) :
    v ∈ ((pageOf (x.page * 2 ^ 12), a) :: others (x.page * 2 ^ 12) mapped).map Prod.fst ↔
      ∃ y ∈ x :: placed, pageOf (y.page * 2 ^ 12) = v := by
  simp only [map_cons, mem_cons, exists_eq_or_imp, mem_others, h]
  constructor
  · rintro (rfl | ⟨hold, -⟩)
    · exact .inl rfl
    · exact .inr hold
  rintro (rfl | hold)
  · exact .inl rfl
  by_cases hv : v = pageOf (x.page * 2 ^ 12)
  · exact .inl hv
  · exact .inr ⟨hold, hv⟩

lemma pageEntry_spec (hk : k < maxPages) {flags : ℕ} (hflags : flags &&& pageMask = 0) :
    pageEntry (k * pageSize) flags &&& pageMask = k * pageSize ∧
      pageEntry (k * pageSize) flags &&& pagePresent ≠ 0 := by
  have hpage : k * pageSize &&& pageMask = k * pageSize := by
    rw [and_pageMask]
    simp only [maxPages, pageSize] at hk ⊢
    omega
  exact ⟨(entry_and_pageMask hflags).trans hpage, (entry_mappedPage (k * pageSize) flags).2⟩

section

variable (h : Loading s0 pml4 placed r)
include h

section

variable (hf : Fills r k pmm words x)
include hf

lemma Loading.ways_cons (hg : Extended 256 pml4 (x.page * 2 ^ 12) (filled r k pmm words).vmm s) {q : List ℕ} {t : ℕ}
    (hq0 : q ≠ []) (hq : q.length ≤ 3) (hw : walk (child 256 s.words) 0 pml4 q = some t) :
    ∃ y ∈ x :: placed, q <+: tablePath (y.page * 2 ^ 12) := by
  rcases hg.along q t hq hw with hold | hpre
  · obtain ⟨y, hy, hpre⟩ := h.ways q t hq0 hq ((h.filled_walk hf q hq).symm.trans hold)
    exact ⟨y, mem_cons_of_mem _ hy, hpre⟩
  · exact ⟨x, mem_cons_self, hpre⟩

lemma Loading.stopped (hx : x.page < 2 ^ 35) (hg : Extended 256 pml4 (x.page * 2 ^ 12) (filled r k pmm words).vmm s)
    (hstop : Stopped pml4 (x.page * 2 ^ 12) (filled r k pmm words).vmm s)
    (hnone : walk (child 256 s.words) 0 pml4 (tablePath (x.page * 2 ^ 12)) = none) :
    ∃ r', r'.vmm = s ∧ Stage s0 pml4 r' ∧ (clearPages s0.pmm).card < need ((x :: placed).map Placement.page) := by
  have hfilled := h.toStage.filled hf
  have hstage := hfilled.extended hg
  refine ⟨_, rfl, hstage, ?_⟩
  have hall : ∀ k < maxPages, bitmapTest s.pmm k = true := by
    rcases hstop with hall | ⟨e, l, hl⟩
    · exact hall
    -- the space has no large pages
    have h0 := (hfilled.leaf _ e (l + 1) (pml4Index_page hx) hl).1
    omega
  let T := (((x :: placed).map Placement.page).toFinset.biUnion tableWays).erase (tablePath (x.page * 2 ^ 12))
  have hT : ∀ q t, q ≠ [] → q.length ≤ 3 → walk (child 256 s.words) 0 pml4 q = some t → q ∈ T := by
    intro q t hq0 hq hw
    obtain ⟨y, hy, hpre⟩ := h.ways_cons hf hg hq0 hq hw
    refine Finset.mem_erase.mpr ⟨?_, mem_placedWays hy hq0 hpre⟩
    rintro rfl
    rw [hnone] at hw
    cases hw
  have hmem : tablePath (x.page * 2 ^ 12) ∈ ((x :: placed).map Placement.page).toFinset.biUnion tableWays :=
    mem_placedWays mem_cons_self (by simp [tablePath]) (prefix_refl _)
  have hcard := hstage.card_le hall T hT
  have herase : T.card + 1 = _ := Finset.card_erase_add_one hmem
  have hcount := h.count
  simp only [filled, length_cons] at hcard
  simp only [need, length_map, length_cons]
  omega

lemma Loading.cons (hx : x.page < 2 ^ 35)
    (hflags : x.flags &&& pageMask = 0) (hg : Extended 256 pml4 (x.page * 2 ^ 12) (filled r k pmm words).vmm s)
    (hw : walk (child 256 s.words) 0 pml4 (tablePath (x.page * 2 ^ 12)) = some pt) :
    ∃ r', r'.vmm = s.store pt (ptIndex (x.page * 2 ^ 12)) (pageEntry (k * pageSize) x.flags) ∧
      Loading s0 pml4 (x :: placed) r' := by
  have hfilled := h.toStage.filled hf
  have hgrown := hfilled.extended hg
  have hv := pml4Index_page hx
  obtain ⟨hmask, hpres⟩ := pageEntry_spec hf.lt hflags
  have hown : pageEntry (k * pageSize) x.flags &&& pageMask ∈ k * pageSize :: r.owned := by
    rw [hmask]
    exact mem_cons_self
  have hstage := hgrown.overwrite hv hw hpres hown
  obtain ⟨-, hwalk, hlookup⟩ := store_leaf hgrown.tree hw rfl (indices_lt (x.page * 2 ^ 12)).2.2.2
    (pageEntry (k * pageSize) x.flags)
  have hpath : tablePath (x.page * 2 ^ 12) ++ [ptIndex (x.page * 2 ^ 12)] = path (x.page * 2 ^ 12) := rfl
  rw [hpath] at hlookup
  -- words of pages that were mapped or held keep their values
  have hkeep : ∀ a ∈ (k * pageSize :: r.owned) ++ r.mapped.map Prod.snd, ∀ y, a ≤ y ∧ y < a + pageSize →
      (s.store pt (ptIndex (x.page * 2 ^ 12)) (pageEntry (k * pageSize) x.flags)).words y = words y := by
    intro a ha y hy
    have hkept := hfilled.toSpaceInv.kept ha hy
    exact ((hkept.grown hg.toGrown).store hgrown.tree hw _).1.trans (hg.kept y hkept)
  refine ⟨_, rfl, hstage, fun y hy => ?_, ?_, ?_, fun v => ?_, fun q t hq0 hq hqw => ?_, fun y hy => ?_,
    fun v y hy => ?_⟩
  · rcases mem_cons.mp hy with rfl | hy
    · exact hx
    · exact h.user y hy
  · have hcount := h.count
    have hlen := (overwrite_perm (x.page * 2 ^ 12) (k * pageSize :: r.owned) r.mapped hown).length_eq
    simp only [length_append, length_map, length_cons] at hlen
    simp only [filled, length_cons]
    omega
  · refine nodup_cons.mpr ⟨fun hm => (mem_others.mp hm).2 rfl, ?_⟩
    exact h.keys.sublist (filter_sublist.map _)
  · exact mem_keys_cons h.mem_keys x _ v
  · rw [hwalk q hq] at hqw
    exact h.ways_cons hf hg hq0 hq hqw
  · rw [hwalk (tablePath (y.page * 2 ^ 12)) (Nat.le_refl 3)]
    rcases mem_cons.mp hy with rfl | hy
    · exact ⟨pt, hw⟩
    · obtain ⟨t, ht⟩ := h.reached y hy
      exact ⟨t, hg.walk _ t (Nat.le_refl 3) ((h.filled_walk hf (tablePath (y.page * 2 ^ 12)) (Nat.le_refl 3)).trans ht)⟩
  by_cases hvx : x.page = v
  · -- the page that was just placed
    obtain rfl : x = y := by simpa [newest, hvx] using hy
    refine ⟨k * pageSize, ?_, fun o ho => ?_⟩
    · rw [hlookup _ (path_inRange hv) rfl, if_pos rfl, if_neg hpres]
    · rw [hmask, ← hf.bytes o ho]
      exact byteAt_congr (Nat.mul_mod_left k 4096) ho (hkeep _ mem_cons_self)
  have hold : newest placed v = some y := by simpa [newest, hvx] using hy
  obtain ⟨hmem, rfl⟩ := newest_mem hold
  have hy35 := h.user y hmem
  have hshows := h.filled_shows hy35 (h.shows _ y hold) hf
  have hlook := hg.lookup (path (y.page * 2 ^ 12)) (path_inRange (pml4Index_page hy35)) rfl
  refine hshows.congr ?_ fun e hl z hz => ?_
  · rw [hlookup _ (path_inRange (pml4Index_page hy35)) rfl, if_neg, hlook]
    · rfl
    · exact fun hsame => hvx (path_page_inj hx hy35 hsame.symm)
  · refine hkeep _ (mem_append_right _ ?_) z hz
    exact SpaceInv.mem_mapped hfilled.toSpaceInv hy35 hl

/-- A page that was filled is mapped, or no page was left for a table on its way. -/
theorem Loading.map (hx : x.page < 2 ^ 35) (hflags : x.flags &&& pageMask = 0) :
    (∃ s', vmmSpaceMap (filled r k pmm words).vmm pml4 (x.page * 2 ^ 12) (k * pageSize) x.flags = .ok (false, s') ∧
      ∃ r', r'.vmm = s' ∧ Stage s0 pml4 r' ∧ (clearPages s0.pmm).card < need ((x :: placed).map Placement.page)) ∨
    ∃ s', vmmSpaceMap (filled r k pmm words).vmm pml4 (x.page * 2 ^ 12) (k * pageSize) x.flags = .ok (true, s') ∧
      ∃ r', r'.vmm = s' ∧ Loading s0 pml4 (x :: placed) r' := by
  rcases vmmSpaceMap_extended (h.toStage.filled hf).tree (pml4Index_page hx) (k * pageSize) x.flags with
    ⟨s', heq, hg, hstop, hnone⟩ | ⟨s1, pt, heq, hg, hw⟩
  · exact .inl ⟨s', heq, h.stopped hf hx hg hstop hnone⟩
  · exact .inr ⟨_, heq, h.cons hf hx hflags hg hw⟩

end

lemma Loading.exhausted (hall : ∀ k < maxPages, bitmapTest r.vmm.pmm k = true)
    (x : Placement) : (clearPages s0.pmm).card < need ((x :: placed).map Placement.page) := by
  let ways := (placed.map Placement.page).toFinset.biUnion tableWays
  have hcard := h.toStage.card_le hall ways fun q t hq0 hq hw => by
    obtain ⟨y, hy, hpre⟩ := h.ways q t hq0 hq hw
    exact mem_placedWays hy hq0 hpre
  have hcount := h.count
  have hways : ways.card ≤
      (((x :: placed).map Placement.page).toFinset.biUnion tableWays).card := by
    refine Finset.card_le_card (Finset.biUnion_subset_biUnion_of_subset_left _ ?_)
    simp
  simp only [need, length_map, length_cons]
  omega

/-- What was placed needed as many pages as were free. -/
theorem Loading.need_le : need (placed.map Placement.page) ≤ (clearPages s0.pmm).card := by
  let T := (placed.map Placement.page).toFinset.biUnion tableWays
  let table : List ℕ → ℕ := fun q => (walk (child 256 r.vmm.words) 0 pml4 q).getD 0
  have hT : ∀ q ∈ T, q ≠ [] ∧ q.length ≤ 3 ∧ walk (child 256 r.vmm.words) 0 pml4 q = some (table q) := by
    intro q hq
    obtain ⟨v, hv, hq⟩ := Finset.mem_biUnion.mp hq
    obtain ⟨y, hy, rfl⟩ := mem_map.mp (mem_toFinset.mp hv)
    obtain ⟨hq0, rest, hrest⟩ := mem_tableWays.mp hq
    obtain ⟨t, ht⟩ := h.reached y hy
    have hlen := congrArg List.length hrest
    simp only [tablePath, length_append, length_cons, length_nil] at hlen
    rw [← hrest, walk_append] at ht
    obtain ⟨u, hu, -⟩ := Option.bind_eq_some_iff.mp ht
    refine ⟨hq0, by omega, ?_⟩
    simp [table, hu]
  let all : List ℕ := pml4 :: T.toList.map table ++ (r.owned ++ r.mapped.map Prod.snd)
  have htables : (pml4 :: T.toList.map table).Nodup := by
    refine nodup_cons.mpr ⟨fun hm => ?_, T.nodup_toList.map_on fun p hp q hq he => ?_⟩
    · obtain ⟨q, hq, he⟩ := mem_map.mp hm
      obtain ⟨hq0, hlen, hw⟩ := hT q (Finset.mem_toList.mp hq)
      exact hq0 (h.tree.noSharing q [] pml4 hlen (by simp) (he ▸ hw) rfl)
    obtain ⟨-, hlp, hwp⟩ := hT p (Finset.mem_toList.mp hp)
    obtain ⟨-, hlq, hwq⟩ := hT q (Finset.mem_toList.mp hq)
    exact h.tree.noSharing p q _ hlp hlq hwp (he ▸ hwq)
  have hwalks : ∀ a ∈ pml4 :: T.toList.map table,
      ∃ q, q.length ≤ 3 ∧ walk (child 256 r.vmm.words) 0 pml4 q = some a := by
    intro a ha
    rcases mem_cons.mp ha with rfl | ha
    · exact ⟨[], by simp, rfl⟩
    obtain ⟨q, hq, rfl⟩ := mem_map.mp ha
    obtain ⟨-, hlen, hw⟩ := hT q (Finset.mem_toList.mp hq)
    exact ⟨q, hlen, hw⟩
  have hnodup : all.Nodup := by
    refine htables.append h.nodup fun a ha hb => ?_
    obtain ⟨q, hlen, hw⟩ := hwalks a ha
    exact h.apart a hb q hlen hw
  have hpages : ∀ a ∈ all, ∃ k, a = k * pageSize ∧ k ∈ clearPages s0.pmm := by
    intro a ha
    rcases mem_append.mp ha with ha | ha
    · obtain ⟨q, hlen, hw⟩ := hwalks a ha
      obtain ⟨k, rfl, hk, -⟩ := h.tree.used q a hlen hw
      exact ⟨k, rfl, mem_clearPages.mpr ⟨hk, h.fresh k (.inl ⟨q, hlen, hw⟩)⟩⟩
    · obtain ⟨k, rfl, hk, -⟩ := h.used a ha
      exact ⟨k, rfl, mem_clearPages.mpr ⟨hk, h.fresh k (.inr ha)⟩⟩
  have hsub : all.toFinset ⊆ (clearPages s0.pmm).image (· * pageSize) := by
    intro a ha
    obtain ⟨k, rfl, hk⟩ := hpages a (mem_toFinset.mp ha)
    exact Finset.mem_image.mpr ⟨k, hk, rfl⟩
  have hcount := h.count
  calc need (placed.map Placement.page) = all.length := by
        simp only [need, all, length_append, length_cons, length_map, Finset.length_toList, T]
        omega
    _ = all.toFinset.card := (toFinset_card_of_nodup hnodup).symm
    _ ≤ ((clearPages s0.pmm).image (· * pageSize)).card := Finset.card_le_card hsub
    _ ≤ (clearPages s0.pmm).card := Finset.card_image_le

/-- Every page is of the space exactly when no place was taken twice. -/
theorem Loading.owned_eq_nil_iff : r.owned = [] ↔ (placed.map Placement.page).Nodup := by
  have hinj : ∀ v ∈ placed.map Placement.page, ∀ w ∈ placed.map Placement.page,
      pageOf (v * 2 ^ 12) = pageOf (w * 2 ^ 12) → v = w := by
    intro v hv w hw he
    obtain ⟨x, hx, rfl⟩ := mem_map.mp hv
    obtain ⟨y, hy, rfl⟩ := mem_map.mp hw
    exact pageOf_page (h.user x hx) (h.user y hy) he
  let pages := placed.map Placement.page
  have hmapped : r.mapped.length = pages.toFinset.card := by
    have himage : (r.mapped.map Prod.fst).toFinset = pages.toFinset.image fun v => pageOf (v * 2 ^ 12) := by
      ext v
      simp only [mem_toFinset, Finset.mem_image, pages]
      rw [h.mem_keys v]
      simp
    have hcard := congrArg Finset.card himage
    rw [toFinset_card_of_nodup h.keys, length_map, Finset.card_image_of_injOn] at hcard
    · exact hcard
    · intro v hv w hw he
      exact hinj v (mem_toFinset.mp hv) w (mem_toFinset.mp hw) he
  have hcount := h.count
  have hle := toFinset_card_le pages
  have hlen : pages.length = placed.length := length_map _
  constructor
  · intro hnil
    rw [hnil, length_nil] at hcount
    refine (Multiset.toFinset_card_eq_card_iff_nodup (m := (pages : Multiset ℕ))).mp ?_
    change pages.toFinset.card = pages.length
    omega
  · intro hnodup
    have hcard : pages.toFinset.card = pages.length := toFinset_card_of_nodup hnodup
    refine length_eq_zero_iff.mp ?_
    omega

end

end AetherOS.Elf
