import AetherOS.SpaceTeardown

/-!
# The life of an address space

A space owns its root, the tables that were allocated while pages were mapped, and the
mapped pages. Clients get their pages from the page allocator and hand them over to the
space by mapping them. `vmm_space_destroy` gives back what the space owns.
-/
namespace AetherOS.Mem
open PointerTree Runs Function List Option Nat

/-- The page that `vmm_space_map` maps: the address with the address bits of the flags. -/
def mappedPage (phys flags : ℕ) : ℕ := ((phys &&& pageMask) ||| flags) &&& pageMask

/-- The machine, the pages that clients hold, the pages that were mapped, by page of the
address space, and the pages that were allocated during a mapping. -/
structure SpaceRun where
  vmm : Vmm
  owned : List ℕ
  mapped : List (Fin (2 ^ 36) × ℕ)
  tables : ℕ → Prop

inductive SpaceEvent where
  | alloc
  | free (page : ℕ)
  | map (virt phys flags : ℕ) (result : Bool)

/-- The pages that came into use from `s` to `s'`. -/
def Allocated (s s' : Vmm) (k : ℕ) : Prop :=
  bitmapTest s.pmm k = false ∧ bitmapTest s'.pmm k = true

/-- What happens to a space between its creation and its end. Clients map pages they
hold, each page of the address space at most once. -/
def spaceStep (pml4 : ℕ) (r : SpaceRun) : SpaceEvent → SpaceRun → Prop
  | .alloc, r' => ∃ page pmm, pmmAllocPage r.vmm.pmm = (page, pmm) ∧ page ≠ allocFailed ∧
      r' = { r with vmm := { r.vmm with pmm := pmm }, owned := page :: r.owned }
  | .free page, r' => page ∈ r.owned ∧ ∃ s, freePage r.vmm page = .ok s ∧
      r' = { r with vmm := s, owned := r.owned.erase page }
  | .map virt phys flags result, r' =>
      mappedPage phys flags ∈ r.owned ∧ (∀ x ∈ r.mapped, x.1 ≠ pageOf virt) ∧
      ∃ s, vmmSpaceMap r.vmm pml4 virt phys flags = .ok (result, s) ∧
        r' =
          { vmm := s
            owned := if result then r.owned.erase (mappedPage phys flags) else r.owned
            mapped := if result then (pageOf virt, mappedPage phys flags) :: r.mapped else r.mapped
            tables := fun k => r.tables k ∨ Allocated r.vmm s k }

/-- A new space, made on a machine whose active root is in use; clients may hold pages
already. -/
structure Created (s : Vmm) (pml4 : ℕ) (r : SpaceRun) : Prop where
  create : vmmSpaceCreate s = .ok (pml4, r.vmm)
  success : pml4 ≠ 0
  active : ∃ k, s.activePml4Phys = k * pageSize ∧ k < maxPages ∧ bitmapTest s.pmm k = true
  directMap : maxPhysBytes ≤ s.directMapSize
  held : ∀ a ∈ r.owned, ∃ k, a = k * pageSize ∧ k < maxPages ∧ bitmapTest s.pmm k = true
  nodup : r.owned.Nodup
  mapped : r.mapped = []
  tables : ∀ k, ¬r.tables k

/-- What the space owns, and what it does not. -/
structure SpaceInv (pml4 : ℕ) (r : SpaceRun) : Prop where
  ne_zero : pml4 ≠ 0
  ne_active : pml4 ≠ r.vmm.activePml4Phys
  tree : TableTree 256 pml4 r.vmm
  tables : ∀ k, r.tables k ↔ ∃ q, q ≠ [] ∧ q.length ≤ 3 ∧
    walk (child 256 r.vmm.words) 0 pml4 q = some (k * pageSize)
  leaf : ∀ virt e l, pml4Index virt < 256 → lookup r.vmm.words pml4 (path virt) = some (e, l) →
    l = 0 ∧ (pageOf virt, e &&& pageMask) ∈ r.mapped
  mapped : ∀ x ∈ r.mapped, pml4Index (x.1 * 2 ^ 12) < 256 ∧
    ∃ e, lookup r.vmm.words pml4 (path (x.1 * 2 ^ 12)) = some (e, 0) ∧ e &&& pageMask = x.2
  nodup : (r.owned ++ r.mapped.map Prod.snd).Nodup
  used : ∀ a ∈ r.owned ++ r.mapped.map Prod.snd,
    ∃ k, a = k * pageSize ∧ k < maxPages ∧ bitmapTest r.vmm.pmm k = true
  apart : ∀ a ∈ r.owned ++ r.mapped.map Prod.snd, ∀ q, q.length ≤ 3 →
    walk (child 256 r.vmm.words) 0 pml4 q ≠ some a

section

variable {pml4 virt : ℕ} {r r' : SpaceRun} {s s' : Vmm}

section

variable (h : SpaceInv pml4 r)
include h

lemma SpaceInv.of_pmm {pmm : Pmm} {owned : List ℕ}
    (hkeep : ∀ k, bitmapTest r.vmm.pmm k = true → k * pageSize ∉ r.owned → bitmapTest pmm k = true)
    (hnodup : (owned ++ r.mapped.map Prod.snd).Nodup)
    (hused : ∀ a ∈ owned, ∃ k, a = k * pageSize ∧ k < maxPages ∧ bitmapTest pmm k = true)
    (hapart : ∀ a ∈ owned, ∀ q, q.length ≤ 3 → walk (child 256 r.vmm.words) 0 pml4 q ≠ some a) :
    SpaceInv pml4 { r with vmm := { r.vmm with pmm := pmm }, owned := owned } := by
  have hmapped : ∀ a ∈ r.mapped.map Prod.snd, a ∉ r.owned := by
    intro a ha ho
    exact h.nodup.disjoint ho ha
  refine { h with tree := ?_, nodup := hnodup, used := fun a ha => ?_, apart := fun a ha => ?_ }
  · refine h.tree.of_walk (fun _ _ => rfl) (fun _ _ => rfl) (fun q k hq hw hu => ?_) rfl
    refine hkeep k hu fun ho => ?_
    exact h.apart _ (mem_append_left _ ho) q hq hw
  · rcases mem_append.mp ha with ha | ha
    · exact hused a ha
    · obtain ⟨k, rfl, hk, hu⟩ := h.used a (mem_append_right _ ha)
      exact ⟨k, rfl, hk, hkeep k hu (hmapped _ ha)⟩
  rcases mem_append.mp ha with ha | ha
  · exact hapart a ha
  · exact h.apart a (mem_append_right _ ha)

lemma SpaceInv.alloc (hs : spaceStep pml4 r .alloc r') : SpaceInv pml4 r' := by
  obtain ⟨page, pmm, halloc, hne, rfl⟩ := hs
  rcases pmmAllocPage_spec r.vmm.pmm with ⟨hfail, -⟩ | ⟨k, p', hok, hk, hfree, htest⟩
  · rw [hfail] at halloc
    exact absurd (Prod.mk.inj halloc).1.symm hne
  rw [hok] at halloc
  obtain ⟨rfl, rfl⟩ := Prod.mk.inj halloc
  have hfresh : ∀ a, (∃ j, a = j * pageSize ∧ j < maxPages ∧ bitmapTest r.vmm.pmm j = true) →
      a ≠ k * pageSize := by
    rintro a ⟨j, rfl, -, hj⟩ he
    rw [eq_of_mul_eq_mul_right (by decide) he, hfree] at hj
    cases hj
  have hkeep : ∀ j, bitmapTest r.vmm.pmm j = true → bitmapTest p' j = true := by
    intro j hj
    rw [htest j, hj, Bool.true_or]
  refine h.of_pmm (fun j hj _ => hkeep j hj) ?_ (fun a ha => ?_) fun a ha q hq hw => ?_
  · refine nodup_cons.mpr ⟨fun hm => ?_, h.nodup⟩
    exact hfresh _ (h.used _ hm) rfl
  · rcases mem_cons.mp ha with rfl | ha
    · exact ⟨k, rfl, hk, by rw [htest k]; simp⟩
    · obtain ⟨j, rfl, hj, hu⟩ := h.used a (mem_append_left _ ha)
      exact ⟨j, rfl, hj, hkeep j hu⟩
  rcases mem_cons.mp ha with rfl | ha
  · exact hfresh _ (h.tree.used q _ hq hw) rfl
  · exact h.apart a (mem_append_left _ ha) q hq hw

lemma SpaceInv.free {page : ℕ} (hs : spaceStep pml4 r (.free page) r') : SpaceInv pml4 r' := by
  obtain ⟨hown, s, hfree, rfl⟩ := hs
  obtain ⟨k, rfl, hk, hu⟩ := h.used page (mem_append_left _ hown)
  obtain ⟨p', hok, htest⟩ := pmmFreePage_spec r.vmm.pmm hk hu
  have hs : s = { r.vmm with pmm := p' } := by
    unfold freePage at hfree
    rw [hok] at hfree
    exact (Except.ok.inj hfree).symm
  subst hs
  have hnodup := h.nodup.of_append_left
  have hsub : ∀ a ∈ r.owned.erase (k * pageSize), a ∈ r.owned ∧ a ≠ k * pageSize := by
    intro a ha
    exact ⟨mem_of_mem_erase ha, (hnodup.mem_erase_iff.mp ha).1⟩
  refine h.of_pmm (fun j hj hno => ?_) ?_ (fun a ha => ?_) fun a ha => ?_
  · have hjk : j ≠ k := by
      rintro rfl
      exact hno hown
    rw [htest j, hj, decide_eq_true hjk]
    rfl
  · refine List.Nodup.sublist ?_ h.nodup
    exact (erase_sublist).append_right _
  · obtain ⟨ho, hne⟩ := hsub a ha
    obtain ⟨j, rfl, hj, hju⟩ := h.used a (mem_append_left _ ho)
    have hjk : j ≠ k := by
      rintro rfl
      exact hne rfl
    exact ⟨j, rfl, hj, by rw [htest j, hju, decide_eq_true hjk]; rfl⟩
  · exact h.apart a (mem_append_left _ (hsub a ha).1)

lemma SpaceInv.grown (hg : Grown 256 pml4 r.vmm s) :
    SpaceInv pml4 { r with vmm := s, tables := fun k => r.tables k ∨ Allocated r.vmm s k } := by
  refine ⟨h.ne_zero, hg.active ▸ h.ne_active, hg.tree, fun k => ⟨?_, ?_⟩, fun virt e l hv hl => ?_,
    fun x hx => ?_, h.nodup, fun a ha => ?_, fun a ha q hq hw => ?_⟩
  · rintro (hk | ⟨hfree, hk⟩)
    · obtain ⟨q, hq0, hq, hw⟩ := (h.tables k).mp hk
      exact ⟨q, hq0, hq, hg.walk q _ hq hw⟩
    rcases (hg.used k).mp hk with hu | ⟨q, hq, hw⟩
    · rw [hfree] at hu
      cases hu
    refine ⟨q, ?_, hq, hw⟩
    -- the root was in use before
    rintro rfl
    obtain ⟨j, hj, -, hu⟩ := h.tree.used [] pml4 (by simp) rfl
    rw [hj] at hw
    rw [eq_of_mul_eq_mul_right (by decide) (some.inj hw), hfree] at hu
    cases hu
  · rintro ⟨q, hq0, hq, hw⟩
    rcases hg.fresh q _ hq hw with hw' | hfree
    · exact .inl ((h.tables k).mpr ⟨q, hq0, hq, hw'⟩)
    right
    rw [Nat.mul_div_cancel k (by decide)] at hfree
    obtain ⟨j, hj, -, hu⟩ := hg.tree.used q _ hq hw
    rw [← eq_of_mul_eq_mul_right (by decide) hj] at hu
    exact ⟨hfree, hu⟩
  · rw [hg.lookup (path virt) (path_inRange hv) rfl] at hl
    exact h.leaf virt e l hv hl
  · obtain ⟨hv, e, hl, he⟩ := h.mapped x hx
    refine ⟨hv, e, ?_, he⟩
    rw [hg.lookup _ (path_inRange hv) rfl]
    exact hl
  · obtain ⟨k, rfl, hk, hu⟩ := h.used a ha
    exact ⟨k, rfl, hk, (hg.used k).mpr (.inl hu)⟩
  · rcases hg.fresh q a hq hw with hw' | hfree
    · exact h.apart a ha q hq hw'
    obtain ⟨k, rfl, -, hu⟩ := h.used a ha
    rw [Nat.mul_div_cancel k (by decide), hu] at hfree
    cases hfree

/-- An entry for the page of `virt`, which leaves `owned` and the mappings `rest` of other pages. -/
lemma SpaceInv.store {pt e : ℕ} {owned : List ℕ} {rest : List (Fin (2 ^ 36) × ℕ)} (hv : pml4Index virt < 256)
    (hw : walk (child 256 r.vmm.words) 0 pml4 (tablePath virt) = some pt) (hpres : e &&& pagePresent ≠ 0)
    (hperm : (owned ++ ((pageOf virt, e &&& pageMask) :: rest).map Prod.snd).Perm (r.owned ++ r.mapped.map Prod.snd))
    (hrest : ∀ x, x ∈ rest ↔ x ∈ r.mapped ∧ x.1 ≠ pageOf virt) :
    SpaceInv pml4
      { r with
        vmm := r.vmm.store pt (ptIndex virt) e
        owned := owned
        mapped := (pageOf virt, e &&& pageMask) :: rest } := by
  obtain ⟨htree, hwalk, hlookup⟩ := store_leaf h.tree hw rfl (indices_lt virt).2.2.2 e
  have hpath : tablePath virt ++ [ptIndex virt] = path virt := rfl
  rw [hpath] at hlookup
  refine ⟨h.ne_zero, h.ne_active, htree, fun k => ?_, fun v e' l hv' hl => ?_, fun x hx => ?_,
    hperm.nodup_iff.mpr h.nodup, fun a ha => h.used a (hperm.mem_iff.mp ha), fun a ha q hq => ?_⟩
  · rw [h.tables k]
    refine exists_congr fun q => and_congr_right fun _ => and_congr_right fun hq => ?_
    rw [hwalk q hq]
  · have hpage : path v = path virt ↔ pageOf v = pageOf virt := by rw [← path_page v, path_eq_iff]
    rw [hlookup (path v) (path_inRange hv') rfl, if_neg hpres] at hl
    split at hl
    next hsame =>
      obtain ⟨rfl, rfl⟩ := Prod.mk.inj (some.inj hl)
      rw [hpage.mp hsame]
      exact ⟨rfl, mem_cons_self⟩
    next hne =>
      obtain ⟨h0, hm⟩ := h.leaf v e' l hv' hl
      exact ⟨h0, mem_cons_of_mem _ ((hrest _).mpr ⟨hm, fun hsame => hne (hpage.mpr hsame)⟩)⟩
  · rcases mem_cons.mp hx with rfl | hx
    · rw [path_page virt]
      refine ⟨?_, e, ?_, rfl⟩
      · have hp := path_page virt
        simp only [path, tablePath, cons_append, List.cons.injEq] at hp
        rw [hp.1]
        exact hv
      · rw [hlookup (path virt) (path_inRange hv) rfl, if_pos rfl, if_neg hpres]
    obtain ⟨hx, hne⟩ := (hrest x).mp hx
    obtain ⟨hxv, e', hl, he'⟩ := h.mapped x hx
    refine ⟨hxv, e', ?_, he'⟩
    rw [hlookup _ (path_inRange hxv) rfl, if_neg fun hsame => hne ((path_eq_iff x.1 virt).mp hsame)]
    exact hl
  · rw [hwalk q hq]
    exact h.apart a (hperm.mem_iff.mp ha) q hq

end

lemma entry_mappedPage (phys flags : ℕ) :
    ((phys &&& pageMask) ||| flags ||| pagePresent) &&& pageMask = mappedPage phys flags ∧
      ((phys &&& pageMask) ||| flags ||| pagePresent) &&& pagePresent ≠ 0 := by
  have hpm : pagePresent &&& pageMask = 0 := by decide
  refine ⟨?_, or_and_ne_zero (.inr (by decide))⟩
  rw [and_or_distrib_right, hpm, or_zero]
  rfl

lemma vmmSpaceMap_extended (h : TableTree 256 pml4 s) (hv : pml4Index virt < 256) (phys flags : ℕ) :
    (∃ s', vmmSpaceMap s pml4 virt phys flags = .ok (false, s') ∧ Extended 256 pml4 virt s s' ∧
      Stopped pml4 virt s s' ∧ walk (child 256 s'.words) 0 pml4 (tablePath virt) = none) ∨
    ∃ s1 pt, vmmSpaceMap s pml4 virt phys flags =
        .ok (true, s1.store pt (ptIndex virt) ((phys &&& pageMask) ||| flags ||| pagePresent)) ∧
      Extended 256 pml4 virt s s1 ∧ walk (child 256 s1.words) 0 pml4 (tablePath virt) = some pt := by
  have hx : TableFlags (if flags &&& vmmUser ≠ 0 then vmmUser else 0) := by
    split
    · exact ⟨by decide, by decide⟩
    · exact ⟨zero_and _, zero_and _⟩
  rw [vmmSpaceMap, if_neg (Nat.not_le_of_lt hv)]
  exact mapFrom_spec h hv hx phys flags

lemma SpaceInv.map (h : SpaceInv pml4 r) {phys flags : ℕ} {result : Bool}
    (hs : spaceStep pml4 r (.map virt phys flags result) r') : SpaceInv pml4 r' := by
  obtain ⟨hown, hkey, s, hmap, rfl⟩ := hs
  by_cases hv : pml4Index virt < 256
  · rcases vmmSpaceMap_extended h.tree hv phys flags with ⟨s', hs', hg, -⟩ | ⟨s1, pt, hs', hg, hw⟩
    · rw [hs'] at hmap
      obtain ⟨rfl, rfl⟩ := Prod.mk.inj (Except.ok.inj hmap)
      exact h.grown hg.toGrown
    rw [hs'] at hmap
    obtain ⟨rfl, rfl⟩ := Prod.mk.inj (Except.ok.inj hmap)
    obtain ⟨hpage, hpres⟩ := entry_mappedPage phys flags
    generalize (phys &&& pageMask) ||| flags ||| pagePresent = entry at hpage hpres ⊢
    have hperm : (r.owned.erase (entry &&& pageMask) ++
        ((pageOf virt, entry &&& pageMask) :: r.mapped).map Prod.snd).Perm (r.owned ++ r.mapped.map Prod.snd) := by
      refine perm_middle.trans ?_
      rw [← cons_append]
      exact (perm_cons_erase (hpage.symm ▸ hown)).symm.append_right _
    have hstore := (h.grown hg.toGrown).store hv hw hpres hperm fun x => ⟨fun hx => ⟨hx, hkey x hx⟩, And.left⟩
    rw [hpage] at hstore
    exact hstore
  · -- the shared half is refused
    rw [vmmSpaceMap, if_pos (Nat.le_of_not_lt hv)] at hmap
    obtain ⟨rfl, rfl⟩ := Prod.mk.inj (Except.ok.inj hmap)
    exact h.grown (Grown.refl h.tree)

theorem SpaceInv.step {a : SpaceEvent} (h : SpaceInv pml4 r) (hs : spaceStep pml4 r a r') : SpaceInv pml4 r' := by
  cases a with
  | alloc => exact h.alloc hs
  | free page => exact h.free hs
  | map virt phys flags result => exact h.map hs

lemma copyEntries_entry {dst src first n i : ℕ} (hdst : dst % 4096 = 0) (hsrc : src % 4096 = 0) (hne : dst ≠ src)
    (hn : first + n ≤ 512) (hi : first ≤ i) (hi' : i < first + n) :
    (copyEntries s dst src first n).words (dst + 8 * i) = s.words (src + 8 * i) := by
  induction n with
  | zero => exact absurd hi' (by omega)
  | succ n ih =>
    by_cases hin : i = first + n
    · subst hin
      simp only [copyEntries, Vmm.store, Vmm.load, update_self]
      exact copyEntries_outside _ _ _ _ _ (by rcases Nat.lt_or_gt_of_ne hne with h | h <;> omega)
    have hslot : dst + 8 * i ≠ dst + 8 * (first + n) := by omega
    simp only [copyEntries, Vmm.store, update_of_ne hslot]
    exact ih (by omega) (by omega)

/-- A root on page `k`, which was free: its user half is empty, the other half is the one of
the active root, and no other page was written. -/
structure NewSpace (s s' : Vmm) (k : ℕ) : Prop where
  lt : k < maxPages
  free : bitmapTest s.pmm k = false
  bits : ∀ j, bitmapTest s'.pmm j = (bitmapTest s.pmm j || decide (j = k))
  lower : ∀ i < 256, s'.words (k * pageSize + 8 * i) = 0
  upper : ∀ i, 256 ≤ i → i < 512 → s'.words (k * pageSize + 8 * i) = s.words (s.activePml4Phys + 8 * i)
  kept : ∀ x, bitmapTest s.pmm (x / pageSize) = true → s'.words x = s.words x
  active : s'.activePml4Phys = s.activePml4Phys
  directMap : s'.directMapSize = s.directMapSize

section

variable (hactive : ∃ k, s.activePml4Phys = k * pageSize ∧ k < maxPages ∧ bitmapTest s.pmm k = true)
  (hdirect : maxPhysBytes ≤ s.directMapSize)
include hactive hdirect

lemma vmmSpaceCreate_cases :
    (vmmSpaceCreate s = .ok (0, s) ∧ ∀ k < maxPages, bitmapTest s.pmm k = true) ∨
      ∃ k s', vmmSpaceCreate s = .ok (k * pageSize, s') ∧ (pmmAllocPage s.pmm).1 = k * pageSize ∧
        NewSpace s s' k := by
  obtain ⟨j, hj, hjlt, hju⟩ := hactive
  unfold vmmSpaceCreate
  rcases pmmAllocPage_spec s.pmm with ⟨hfail, hall⟩ | ⟨k, p', hok, hk, hfree, htest⟩
  · left
    rw [hfail, if_pos rfl]
    exact ⟨rfl, hall⟩
  right
  let s1 := { s with pmm := p' }
  have hklt : k * pageSize < s.directMapSize := by
    simp only [maxPages, pageSize, maxPhysBytes] at hk hdirect ⊢
    omega
  have hjlt' : s.activePml4Phys < s.directMapSize := by
    simp only [maxPages, pageSize, maxPhysBytes] at hj hjlt hdirect
    omega
  have hne : k * pageSize ≠ allocFailed := by
    simp only [pageSize, allocFailed]
    omega
  have hother : k * pageSize ≠ s.activePml4Phys := by
    intro he
    rw [eq_of_mul_eq_mul_right (by decide) (he.trans hj), hju] at hfree
    cases hfree
  have hsrc : s.activePml4Phys % 4096 = 0 := hj ▸ mul_mod_left j 4096
  have hzero : ∀ x, ¬(k * pageSize ≤ x ∧ x < k * pageSize + pageSize) →
      (zeroEntries s1 (k * pageSize) 256).words x = s.words x := by
    intro x hx
    refine zeroEntries_outside _ _ 256 ?_
    simp only [pageSize] at hx ⊢
    omega
  obtain ⟨hcp, hca, hcd⟩ := copyEntries_frame (zeroEntries s1 (k * pageSize) 256)
    (k * pageSize) s.activePml4Phys 256 256
  obtain ⟨hzp, hza, hzd⟩ := zeroEntries_frame s1 (k * pageSize) 256
  rw [hok]
  simp only [if_neg hne]
  rw [physToVirt_of_lt s1 hklt, physToVirt_of_lt s1 hjlt']
  refine ⟨k, _, rfl, rfl, hk, hfree, fun i => ?_, fun i hi => ?_, fun i hi hi' => ?_, fun x hx => ?_,
    hca.trans hza, hcd.trans hzd⟩
  · rw [hcp, hzp]
    exact htest i
  · have hlow : k * pageSize + 8 * i < k * pageSize + 8 * 256 :=
      Nat.add_lt_add_left (Nat.mul_lt_mul_of_pos_left hi (by decide)) _
    rw [copyEntries_outside _ _ _ _ _ (.inl hlow)]
    exact zeroEntries_load _ _ _ hi
  · rw [copyEntries_entry (mul_mod_left k 4096) hsrc hother (by decide) hi (by omega)]
    refine hzero _ ?_
    simp only [pageSize] at hj hother ⊢
    omega
  have hout : ¬(k * pageSize ≤ x ∧ x < k * pageSize + pageSize) := by
    intro hc
    rw [show x / pageSize = k by simp only [pageSize] at hc ⊢; omega, hfree] at hx
    cases hx
  rw [copyEntries_outside _ _ _ _ _ (by simp only [pageSize] at hout ⊢; omega)]
  exact hzero x hout

lemma vmmSpaceCreate_spec (h : vmmSpaceCreate s = .ok (pml4, s')) (h0 : pml4 ≠ 0) :
    ∃ k, pml4 = k * pageSize ∧ (pmmAllocPage s.pmm).1 = pml4 ∧ NewSpace s s' k := by
  rcases vmmSpaceCreate_cases hactive hdirect with ⟨heq, -⟩ | ⟨k, v, heq, halloc, hnew⟩
  · exact absurd (Prod.mk.inj (Except.ok.inj (h.symm.trans heq))).1 h0
  · obtain ⟨rfl, rfl⟩ := Prod.mk.inj (Except.ok.inj (h.symm.trans heq))
    exact ⟨k, rfl, halloc, hnew⟩

end

/-- A new space has no tables below its root. -/
theorem Created.inv (h : Created s pml4 r) : SpaceInv pml4 r := by
  obtain ⟨ka, hactive, hka, hkau⟩ := h.active
  obtain ⟨k, rfl, -, hk, hfree, htest, hzero, -, -, hact, hdirect⟩ :=
    vmmSpaceCreate_spec h.active h.directMap h.create h.success
  have hinuse : ∀ j, bitmapTest s.pmm j = true → j ≠ k := by
    rintro j hj rfl
    rw [hfree] at hj
    cases hj
  have hchild : ∀ i, child 256 r.vmm.words 0 (k * pageSize) i = none := by
    intro i
    by_cases hi : i < 256
    · exact child_eq_none (by rw [hzero i hi, zero_and])
    · unfold child
      rw [if_neg fun hc => hi hc.1]
  have hwalk : ∀ q t, walk (child 256 r.vmm.words) 0 (k * pageSize) q = some t →
      q = [] ∧ t = k * pageSize := by
    intro q t hq
    cases q with
    | nil => exact ⟨rfl, (some.inj hq).symm⟩
    | cons i q =>
      simp only [walk, hchild, bind_none] at hq
      cases hq
  have hlookup : ∀ virt, pml4Index virt < 256 → lookup r.vmm.words (k * pageSize) (path virt) = none :=
    fun virt hv => lookup_absent (by rw [hzero _ hv, zero_and])
  refine ⟨h.success, fun ha => ?_, ⟨by decide, fun p q n _ _ hp hq => ?_, fun q t _ hq => ?_,
    fun i hi hp => ?_, hdirect ▸ h.directMap⟩, fun j => ⟨fun hj => absurd hj (h.tables j), ?_⟩,
    fun virt e l hv hl => ?_, fun x hx => ?_, ?_, fun a ha => ?_, fun a ha q _ hq => ?_⟩
  · rw [hact, hactive] at ha
    exact hinuse ka hkau (eq_of_mul_eq_mul_right (by decide) ha).symm
  · rw [(hwalk p n hp).1, (hwalk q n hq).1]
  · refine ⟨k, (hwalk q t hq).2, hk, ?_⟩
    rw [htest k]
    simp
  · rw [hzero i hi, zero_and] at hp
    exact absurd rfl hp
  · rintro ⟨q, hq0, -, hq⟩
    exact absurd (hwalk q _ hq).1 hq0
  · rw [hlookup virt hv] at hl
    cases hl
  · rw [h.mapped] at hx
    cases hx
  · rw [h.mapped, map_nil, append_nil]
    exact h.nodup
  · rw [h.mapped, map_nil, append_nil] at ha
    obtain ⟨j, rfl, hj, hu⟩ := h.held a ha
    refine ⟨j, rfl, hj, ?_⟩
    rw [htest j, hu, Bool.true_or]
  rw [h.mapped, map_nil, append_nil] at ha
  obtain ⟨j, rfl, -, hu⟩ := h.held a ha
  exact hinuse j hu (eq_of_mul_eq_mul_right (by decide) (hwalk q _ hq).2)

end

variable {pml4 a k n0 t : ℕ} {r : SpaceRun} {p : List ℕ} {words : ℕ → ℕ}

lemma exists_path (hn : n0 ≤ 512) (hp : InRange n0 0 p) (hlen : p.length = 4) :
    ∃ virt, path virt = p ∧ pml4Index virt < n0 := by
  obtain ⟨a, b, c, d, rfl⟩ : ∃ a b c d, p = [a, b, c, d] := length_eq_four.mp hlen
  obtain ⟨ha, hb, hc, hd, -⟩ := hp
  have ha' : a < n0 := ha
  have hb' : b < 512 := hb
  have hc' : c < 512 := hc
  have hd' : d < 512 := hd
  refine ⟨(((a * 512 + b) * 512 + c) * 512 + d) * 4096, ?_, ?_⟩
  · simp only [path, tablePath, pml4Index, pdptIndex, pdIndex, ptIndex, and_indexMask,
      cons_append, nil_append, List.cons.injEq, and_true]
    omega
  · simp only [pml4Index, and_indexMask]
    omega

lemma walk_inRange {u : ℕ} (h : walk (child n0 words) k t p = some u) : InRange n0 k p := by
  induction p generalizing k t with
  | nil => trivial
  | cons i p ih =>
    obtain ⟨c, hc, hw⟩ := bind_eq_some_iff.mp h
    exact ⟨(child_inv hc).1, ih hw⟩

lemma InRange.append {q : List ℕ} (hp : InRange n0 k p)
    (hq : InRange n0 (k + p.length) q) : InRange n0 k (p ++ q) := by
  induction p generalizing k with
  | nil => exact hq
  | cons i p ih =>
    refine ⟨hp.1, ih hp.2 ?_⟩
    rw [length_cons, Nat.add_comm p.length, ← Nat.add_assoc] at hq
    exact hq

lemma inRange_zeros (n0 k m : ℕ) : InRange n0 (k + 1) (List.replicate m 0) := by
  induction m generalizing k with
  | zero => trivial
  | succ m ih =>
    refine ⟨?_, ih (k + 1)⟩
    simp [width]

lemma walk_of_lookup {e : ℕ} (hp : InRange n0 k p) (hlen : k + p.length = 4) (h : lookup words t p = some (e, 0)) :
    walk (child n0 words) k t p = some (e &&& pageMask) := by
  induction p generalizing k t with
  | nil => cases h
  | cons i p ih =>
    simp only [length_cons] at hlen
    simp only [lookup] at h
    split at h
    · cases h
    rename_i hpres
    split at h
    · obtain ⟨rfl, hl⟩ := Prod.mk.inj (some.inj h)
      obtain rfl := length_eq_zero_iff.mp hl
      simp only [length_nil] at hlen
      rw [walk, child_eq_some hp.1 hpres (.inl (by omega))]
      rfl
    · rename_i hdown
      rw [walk, child_eq_some hp.1 hpres (.inr (not_not.mp fun hl => hdown (.inr hl)))]
      exact ih hp.2 (by omega) h

lemma SpaceInv.noLarge (h : SpaceInv pml4 r) {i : ℕ} (hp : p.length < 3)
    (hw : walk (child 256 r.vmm.words) 0 pml4 p = some t) (hi : i < width 256 p.length)
    (hpres : r.vmm.words (t + 8 * i) &&& pagePresent ≠ 0) : r.vmm.words (t + 8 * i) &&& pageLarge = 0 := by
  by_contra hl
  have hrange : InRange 256 0 (p ++ i :: List.replicate (3 - p.length) 0) := by
    refine (walk_inRange hw).append ?_
    rw [Nat.zero_add]
    exact ⟨hi, inRange_zeros _ _ _⟩
  obtain ⟨virt, hvirt, hv⟩ := exists_path (by decide) hrange (by simp; omega)
  have hlook := lookup_walk (cons_ne_nil i (List.replicate (3 - p.length) 0)) (by omega) hw
  rw [lookup_leaf hpres (.inr hl), ← hvirt] at hlook
  have h0 := (h.leaf virt _ _ hv hlook).1
  simp only [length_replicate] at h0
  omega

lemma SpaceInv.page_iff (h : SpaceInv pml4 r) (hp : p.length = 4) :
    walk (child 256 r.vmm.words) 0 pml4 p = some a ↔
      ∃ x ∈ r.mapped, path (x.1 * 2 ^ 12) = p ∧ x.2 = a := by
  constructor
  · intro hw
    obtain ⟨virt, rfl, hv⟩ := exists_path (by decide) (walk_inRange hw) hp
    have hw' := hw
    rw [path, walk_concat] at hw'
    obtain ⟨t, ht, hc⟩ := bind_eq_some_iff.mp hw'
    obtain ⟨-, hpres, -, rfl⟩ := child_inv hc
    have hlook : lookup r.vmm.words pml4 (path virt) =
        some (r.vmm.words (t + 8 * ptIndex virt), 0) := by
      rw [path, lookup_walk (by simp) (Nat.le_refl 3) ht, lookup_leaf hpres (.inl rfl)]
      rfl
    exact ⟨_, (h.leaf virt _ _ hv hlook).2, path_page virt, rfl⟩
  · rintro ⟨x, hx, rfl, rfl⟩
    obtain ⟨hv, e, hl, he⟩ := h.mapped x hx
    rw [← he]
    exact walk_of_lookup (path_inRange hv) rfl hl

lemma SpaceInv.noSharing (h : SpaceInv pml4 r) : NoSharing (child 256 r.vmm.words) pml4 4 := by
  have hpage : ∀ p n i c, p.length = 3 → walk (child 256 r.vmm.words) 0 pml4 p = some n →
      child 256 r.vmm.words p.length n i = some c →
      ∃ x ∈ r.mapped, path (x.1 * 2 ^ 12) = p ++ [i] ∧ x.2 = c := by
    intro p n i c hp hw hc
    refine (h.page_iff (by simp [hp])).mp ?_
    rw [walk_concat, hw]
    exact hc
  refine h.tree.noSharing.succ (fun p q n i c hp hq hw hc hw' => ?_)
    fun p q m n i j c hp hq hm hn hcm hcn => ?_
  · obtain ⟨x, hx, -, rfl⟩ := hpage p n i c hp hw hc
    exact h.apart x.2 (mem_append_right _ (mem_map_of_mem hx)) q hq hw'
  obtain ⟨x, hx, hxp, rfl⟩ := hpage p m i c hp hm hcm
  obtain ⟨y, hy, hyp, hxy⟩ := hpage q n j _ hq hn hcn
  -- a page is mapped once
  obtain rfl : y = x :=
    inj_on_of_nodup_map h.nodup.of_append_right hy hx hxy
  rw [hxp] at hyp
  obtain ⟨hpq, hij⟩ := append_inj hyp (hp.trans hq.symm)
  exact ⟨hpq, (List.cons.inj hij).1⟩

/-- The pages that `vmm_space_destroy` frees. -/
def ownedBySpace (pml4 : ℕ) (r : SpaceRun) (a : ℕ) : Prop :=
  a = pml4 ∨ (∃ k, a = k * pageSize ∧ r.tables k) ∨ ∃ x ∈ r.mapped, x.2 = a

section

variable (h : SpaceInv pml4 r)
include h

lemma SpaceInv.mem_below (a : ℕ) :
    a ∈ below (child 256 r.vmm.words) (slots 256) 4 0 pml4 ++ [pml4] ↔ ownedBySpace pml4 r a := by
  rw [mem_append, mem_singleton, PointerTree.mem_below child_mem_slots, ownedBySpace,
    or_comm]
  refine or_congr_right ⟨?_, ?_⟩
  · rintro ⟨q, hq0, hq, hw⟩
    by_cases h3 : q.length ≤ 3
    · obtain ⟨k, rfl, -, -⟩ := h.tree.used q a h3 hw
      exact .inl ⟨k, rfl, (h.tables k).mpr ⟨q, hq0, h3, hw⟩⟩
    · obtain ⟨x, hx, -, hxa⟩ := (h.page_iff (by omega)).mp hw
      exact .inr ⟨x, hx, hxa⟩
  rintro (⟨k, rfl, hk⟩ | ⟨x, hx, rfl⟩)
  · obtain ⟨q, hq0, h3, hw⟩ := (h.tables k).mp hk
    exact ⟨q, hq0, by omega, hw⟩
  · refine ⟨path (x.1 * 2 ^ 12), by simp [path, tablePath], Nat.le_refl 4, ?_⟩
    exact (h.page_iff rfl).mpr ⟨x, hx, rfl, rfl⟩

lemma SpaceInv.below_nodup : (below (child 256 r.vmm.words) (slots 256) 4 0 pml4 ++ [pml4]).Nodup := by
  have hbelow := PointerTree.below_nodup h.noSharing child_mem_slots (fun _ => nodup_range)
    4 [] pml4 (Nat.le_refl 4) rfl
  rw [← concat_eq_append]
  refine .concat (fun ha => ?_) hbelow
  obtain ⟨q, hq0, hq, hw⟩ := (PointerTree.mem_below child_mem_slots 4 0 pml4 pml4).mp ha
  exact hq0 (h.noSharing q [] pml4 hq (by simp) hw rfl)

lemma SpaceInv.inUse (ha : ownedBySpace pml4 r a) :
    ∃ k, a = k * pageSize ∧ k < maxPages ∧ bitmapTest r.vmm.pmm k = true := by
  rcases ha with rfl | ⟨k, rfl, hk⟩ | ⟨x, hx, rfl⟩
  · exact h.tree.used [] a (by simp) rfl
  · obtain ⟨q, -, hq, hw⟩ := (h.tables k).mp hk
    exact h.tree.used q _ hq hw
  · exact h.used _ (mem_append_right _ (mem_map_of_mem hx))

/-- The end of a space frees its root, its tables and the pages that it maps, each once. -/
lemma SpaceInv.destroy :
    ∃ pages s', vmmSpaceDestroy r.vmm pml4 = freeAll r.vmm pages ∧ freeAll r.vmm pages = .ok s' ∧
      pages.Nodup ∧ (∀ a, a ∈ pages ↔ ownedBySpace pml4 r a) ∧
      ∀ k, bitmapTest s'.pmm k = (bitmapTest r.vmm.pmm k && decide (k * pageSize ∉ pages)) := by
  have hdestroy := vmmSpaceDestroy_eq h.tree (fun p t i => h.noLarge) h.ne_zero h.ne_active
  obtain ⟨s', hs', htest⟩ := freeAll_spec (s := r.vmm) h.below_nodup fun a ha =>
    h.inUse ((h.mem_below a).mp ha)
  exact ⟨_, s', hdestroy, hs', h.below_nodup, h.mem_below, htest⟩

end

/-- Whatever was mapped, and whichever mappings failed, the end of a space frees its root,
the tables that were allocated for it and the pages that were mapped, each once, and
nothing else. -/
theorem vmmSpaceDestroy_frees_owned {s : Vmm} {r0 : SpaceRun} {as : List SpaceEvent}
    (hc : Created s pml4 r0) (hr : Run (spaceStep pml4) r0 as r) :
    ∃ pages s', vmmSpaceDestroy r.vmm pml4 = freeAll r.vmm pages ∧ freeAll r.vmm pages = .ok s' ∧
      pages.Nodup ∧ (∀ a, a ∈ pages ↔ ownedBySpace pml4 r a) ∧
      ∀ k, bitmapTest s'.pmm k = (bitmapTest r.vmm.pmm k && decide (k * pageSize ∉ pages)) := by
  have h : SpaceInv pml4 r := hr.invariant (fun _ _ _ hi hs => hi.step hs) hc.inv
  exact h.destroy

/-- The state a call leaves when it succeeds. -/
@[irreducible] def stateAfter {α : Type*} (s : Vmm) (x : Except String (α × Vmm)) : Vmm :=
  (x.toOption.map Prod.snd).getD s

lemma eq_ok_stateAfter {α : Type*} (s : Vmm) {x : Except String (α × Vmm)} {a : α}
    (h : x.toOption.map Prod.fst = some a) : x = .ok (a, stateAfter s x) := by
  cases x with
  | error e => cases h
  | ok y =>
    rw [← some.inj h, stateAfter]
    rfl

/-- A space made on the machine of `emptyTables`. -/
def firstSpace : SpaceRun where
  vmm := stateAfter emptyTables (vmmSpaceCreate emptyTables)
  owned := []
  mapped := []
  tables := fun _ => False

lemma created_firstSpace : Created emptyTables 0x2000 firstSpace where
  create := eq_ok_stateAfter emptyTables (by decide +kernel)
  success := by decide
  active := ⟨1, rfl, by decide, by decide⟩
  directMap := Nat.le_refl _
  held := fun a ha => by cases ha
  nodup := nodup_nil
  mapped := rfl
  tables := fun _ => not_false

/-- The same after a client got the page 3. -/
def firstPage : SpaceRun :=
  { firstSpace with
    vmm := { firstSpace.vmm with pmm := (pmmAllocPage firstSpace.vmm.pmm).2 }
    owned := [0x3000] }

lemma firstSpace_alloc : spaceStep 0x2000 firstSpace .alloc firstPage := by
  have hpage : (pmmAllocPage firstSpace.vmm.pmm).1 = 0x3000 := by decide +kernel
  refine ⟨0x3000, (pmmAllocPage firstSpace.vmm.pmm).2, ?_, by decide, ?_⟩
  · rw [← hpage]
  · simp only [firstPage, firstSpace]

/-- A page is allocated and mapped; destroying the space gives it back. -/
theorem vmmSpaceDestroy_frees_owned_page : ∃ r pages s',
    Run (spaceStep 0x2000) firstSpace [.alloc, .map 0x400000 0x3000 7 true] r ∧
      vmmSpaceDestroy r.vmm 0x2000 = .ok s' ∧ freeAll r.vmm pages = .ok s' ∧ 0x3000 ∈ pages := by
  have hmap := eq_ok_stateAfter firstPage.vmm
    (x := vmmSpaceMap firstPage.vmm 0x2000 0x400000 0x3000 7) (a := true) (by decide +kernel)
  have hstep : spaceStep 0x2000 firstPage (.map 0x400000 0x3000 7 true) _ :=
    ⟨mem_singleton.mpr (by decide), fun x hx => (not_mem_nil hx).elim, _, hmap, rfl⟩
  have hr := Run.cons firstSpace_alloc (.cons hstep (.nil _))
  obtain ⟨pages, s', hdestroy, hfree, -, hmem, -⟩ := vmmSpaceDestroy_frees_owned created_firstSpace hr
  refine ⟨_, pages, s', hr, hdestroy.trans hfree, hfree, (hmem _).mpr (.inr (.inr ?_))⟩
  exact ⟨_, mem_cons_self, by decide⟩

end AetherOS.Mem
