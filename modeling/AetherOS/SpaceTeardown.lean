import AetherOS.AddressMap

/-!
# Tearing an address space down

The nested loops of `vmm_space_destroy` free pages while they walk the tables. Freeing
a page does not touch the tables, so the loops are one sequence of frees: the nodes of
the tree of tables and mapped pages, each after everything below it.
-/
namespace AetherOS.Mem
open PointerTree List

/-- The calls of `pmm_free_page` for the addresses of a list, in order. -/
def freeAll (s : Vmm) (l : List ℕ) : Except String Vmm := l.foldlM freePage s

/-- The entries that a loop over a table at distance `k` visits. -/
def slots (n0 k : ℕ) : List ℕ := List.range (width n0 k)

lemma child_mem_slots {n0 : ℕ} {words : ℕ → ℕ} (k t i c : ℕ) (h : child n0 words k t i = some c) : i ∈ slots n0 k :=
  mem_range.mpr (child_inv h).1

/-- Memory and the size of the direct map are the same. -/
def SameMemory (s s' : Vmm) : Prop := s'.words = s.words ∧ s'.directMapSize = s.directMapSize

variable {s s' : Vmm} {n0 a : ℕ} {l : List ℕ}

lemma SameMemory.refl (s : Vmm) : SameMemory s s := ⟨rfl, rfl⟩

lemma SameMemory.trans {s'' : Vmm} (h1 : SameMemory s s') (h2 : SameMemory s' s'') :
    SameMemory s s'' := ⟨h2.1.trans h1.1, h2.2.trans h1.2⟩

lemma freePage_same (h : freePage s a = .ok s') : SameMemory s s' := by
  unfold freePage at h
  rcases hp : pmmFreePage s.pmm a with e | p
  · rw [hp] at h
    cases h
  rw [hp] at h
  obtain rfl := Except.ok.inj h
  exact .refl s

lemma freeAll_same (h : freeAll s l = .ok s') : SameMemory s s' := by
  induction l generalizing s with
  | nil =>
    obtain rfl := Except.ok.inj h
    exact .refl s
  | cons a l ih =>
    rcases ha : freePage s a with e | s1
    · simp only [freeAll, foldlM_cons, ha] at h
      cases h
    · simp only [freeAll, foldlM_cons, ha] at h
      exact (freePage_same ha).trans (ih h)

lemma freeAll_append (s : Vmm) (l m : List ℕ) : freeAll s (l ++ m) = (freeAll s l).bind fun s' => freeAll s' m := by
  unfold freeAll
  rw [foldlM_append]
  rfl

lemma freeAll_singleton (s : Vmm) (a : ℕ) : freeAll s [a] = freePage s a := by
  simp only [freeAll, foldlM_cons, foldlM_nil]
  cases freePage s a with
  | error e | ok s1 => rfl

lemma foldlM_eq_freeAll {f : Vmm → ℕ → Except String Vmm} {g : ℕ → List ℕ} (l : List ℕ)
    (hf : ∀ s', SameMemory s s' → ∀ i ∈ l, f s' i = freeAll s' (g i)) : l.foldlM f s = freeAll s (l.flatMap g) := by
  induction l generalizing s with
  | nil => rfl
  | cons i l ih =>
    rw [foldlM_cons, flatMap_cons, freeAll_append, hf s (SameMemory.refl s) i (by simp)]
    cases hi : freeAll s (g i) with
    | error e => rfl
    | ok s1 =>
      have hsame := freeAll_same hi
      exact ih fun s' hs' j hj => hf s' (hsame.trans hs') j (mem_cons_of_mem i hj)

lemma physToVirt_same (h : SameMemory s s') (ha : a < s.directMapSize) :
    physToVirt s' a = .ok a := physToVirt_of_lt s' (h.2.symm ▸ ha)

lemma destroyPt_eq (s : Vmm) (t : ℕ) : destroyPt s t = freeAll s (below (child n0 s.words) (slots n0) 1 3 t) := by
  unfold destroyPt
  refine foldlM_eq_freeAll (List.range 512) fun s' hs' i hi => ?_
  have hw : i < width n0 3 := mem_range.mp hi
  rw [Vmm.load, hs'.1]
  by_cases hp : s.words (t + 8 * i) &&& pagePresent = 0
  · rw [if_neg (not_not.mpr hp), child_eq_none hp]
    rfl
  · rw [if_pos hp, child_eq_some hw hp (.inl (Nat.le_refl 3))]
    exact (freeAll_singleton s' _).symm

/-- A loop over the entries of a table in the middle, none of which is a large page. -/
lemma destroyTable_eq {inner : Vmm → ℕ → Except String Vmm} {d k t : ℕ} (hk : 0 < k)
    (hlarge : ∀ i < 512, s.words (t + 8 * i) &&& pagePresent ≠ 0 → s.words (t + 8 * i) &&& pageLarge = 0)
    (hchild : ∀ i c, child n0 s.words k t i = some c → c < s.directMapSize ∧
      ∀ s', SameMemory s s' → inner s' c = freeAll s' (below (child n0 s.words) (slots n0) d (k + 1) c)) :
    destroyTable inner s t = freeAll s (below (child n0 s.words) (slots n0) (d + 1) k t) := by
  have hwidth : width n0 k = 512 := if_neg (Nat.pos_iff_ne_zero.mp hk)
  unfold destroyTable
  simp only [below, slots, hwidth]
  refine foldlM_eq_freeAll (List.range 512) fun s' hs' i hi => ?_
  have hi' : i < 512 := mem_range.mp hi
  rw [Vmm.load, hs'.1]
  by_cases hp : s.words (t + 8 * i) &&& pagePresent = 0
  · rw [if_pos hp, child_eq_none hp]
    rfl
  have hl := hlarge i hi' hp
  have hc := child_eq_some (k := k) (hwidth.symm ▸ hi') hp (.inr hl)
  obtain ⟨hlt, hinner⟩ := hchild i _ hc
  rw [if_neg hp, if_neg (not_not.mpr hl), hc]
  simp only [physToVirt_same hs' hlt, freeAll_append, freeAll_singleton, bind, Except.bind]
  rw [hinner s' hs']

/-- The whole walk of the user half. -/
theorem vmmSpaceDestroy_eq {pml4 : ℕ} (htree : TableTree 256 pml4 s)
    (hlarge : ∀ p t i, p.length < 3 → walk (child 256 s.words) 0 pml4 p = some t →
      i < width 256 p.length → s.words (t + 8 * i) &&& pagePresent ≠ 0 →
      s.words (t + 8 * i) &&& pageLarge = 0) (h0 : pml4 ≠ 0) (hactive : pml4 ≠ s.activePml4Phys) :
    vmmSpaceDestroy s pml4 = freeAll s (below (child 256 s.words) (slots 256) 4 0 pml4 ++ [pml4]) := by
  have hlt : ∀ {p t}, p.length ≤ 3 → walk (child 256 s.words) 0 pml4 p = some t → t < s.directMapSize :=
    fun hp ht => Nat.lt_of_lt_of_le (htree.aligned hp ht).2 htree.directMap
  have hstep : ∀ {p t i c}, p.length < 3 → walk (child 256 s.words) 0 pml4 p = some t →
      child 256 s.words p.length t i = some c →
      walk (child 256 s.words) 0 pml4 (p ++ [i]) = some c ∧ (p ++ [i]).length = p.length + 1 := by
    intro p t i c _ ht hc
    refine ⟨?_, by simp⟩
    rw [walk_concat, ht]
    exact hc
  have hlevel : ∀ (inner : Vmm → ℕ → Except String Vmm) (d k : ℕ), 0 < k → k < 3 →
      (∀ p t, p.length = k + 1 → walk (child 256 s.words) 0 pml4 p = some t → ∀ s', SameMemory s s' →
        inner s' t = freeAll s' (below (child 256 s.words) (slots 256) d (k + 1) t)) →
      ∀ p t, p.length = k → walk (child 256 s.words) 0 pml4 p = some t → ∀ s', SameMemory s s' →
        destroyTable inner s' t = freeAll s' (below (child 256 s.words) (slots 256) (d + 1) k t) := by
    intro inner d k hk hk3 hinner p t hp ht s' hs'
    rw [← hs'.1]
    refine destroyTable_eq hk (fun i hi hpres => ?_) fun i c hc => ?_
    · rw [hs'.1] at hpres ⊢
      have hwidth : width 256 p.length = 512 := if_neg (by omega)
      exact hlarge p t i (by omega) ht (hwidth.symm ▸ hi) hpres
    rw [hs'.1] at hc ⊢
    obtain ⟨hw, hl⟩ := hstep (by omega) ht (hp.symm ▸ hc)
    refine ⟨?_, fun s'' hs'' => hinner (p ++ [i]) c (by omega) hw s'' (hs'.trans hs'')⟩
    rw [hs'.2]
    exact hlt (by omega) hw
  have hpd := hlevel destroyPt 1 2 (by decide) (by decide) fun p t _ _ s' hs' => by
    rw [← hs'.1]
    exact destroyPt_eq s' t
  have hpdpt := hlevel destroyPd 2 1 (by decide) (by decide) hpd
  have hroot : walk (child 256 s.words) 0 pml4 [] = some pml4 := rfl
  unfold vmmSpaceDestroy
  rw [if_neg (by simp [h0, hactive]), htree.physToVirt (by simp) hroot, freeAll_append]
  have hloop : destroyUserHalf s pml4 = freeAll s (below (child 256 s.words) (slots 256) 4 0 pml4) := by
    unfold destroyUserHalf
    refine foldlM_eq_freeAll (List.range 256) fun s' hs' i hi => ?_
    have hi' : i < width 256 0 := mem_range.mp hi
    rw [Vmm.load, hs'.1]
    by_cases hp : s.words (pml4 + 8 * i) &&& pagePresent = 0
    · rw [if_pos hp, child_eq_none hp]
      rfl
    have hc := child_eq_some (k := 0) hi' hp (.inr (hlarge [] pml4 i (by simp) hroot hi' hp))
    obtain ⟨hw, -⟩ := hstep (p := []) (by simp) hroot hc
    have hpv := physToVirt_same hs' (hlt (p := [i]) (by simp) hw)
    rw [if_neg hp, hc]
    simp only [hpv, freeAll_append, freeAll_singleton, bind, Except.bind]
    rw [show destroyPdpt s' _ = _ from hpdpt [i] _ rfl hw s' hs']
  rw [← hloop]
  simp only [freeAll_singleton]
  rfl

/-- Freeing distinct pages in use. -/
theorem freeAll_spec (hnodup : l.Nodup)
    (hused : ∀ a ∈ l, ∃ k, a = k * pageSize ∧ k < maxPages ∧ bitmapTest s.pmm k = true) :
    ∃ s', freeAll s l = .ok s' ∧ ∀ k, bitmapTest s'.pmm k = (bitmapTest s.pmm k && decide (k * pageSize ∉ l)) := by
  induction l generalizing s with
  | nil => exact ⟨s, rfl, fun k => by simp⟩
  | cons a l ih =>
    obtain ⟨hnot, hnodup'⟩ := nodup_cons.mp hnodup
    obtain ⟨k, rfl, hk, hu⟩ := hused a (by simp)
    obtain ⟨p', hfree, htest⟩ := pmmFreePage_spec s.pmm hk hu
    have hfree' : freePage s (k * pageSize) = .ok { s with pmm := p' } := by
      unfold freePage
      rw [hfree]
      rfl
    have hrest : ∀ b ∈ l, ∃ j, b = j * pageSize ∧ j < maxPages ∧
        bitmapTest ({ s with pmm := p' } : Vmm).pmm j = true := by
      intro b hb
      obtain ⟨j, rfl, hj, hju⟩ := hused b (by simp [hb])
      have hne : j ≠ k := by
        rintro rfl
        exact hnot hb
      exact ⟨j, rfl, hj, by rw [htest j, hju, decide_eq_true hne]; rfl⟩
    obtain ⟨s', hs', htest'⟩ := ih hnodup' hrest
    refine ⟨s', ?_, fun j => ?_⟩
    · simp only [freeAll, foldlM_cons, hfree']
      exact hs'
    rw [htest' j, htest j]
    by_cases hjk : j = k
    · simp [hjk]
    have hne : j * pageSize ≠ k * pageSize := fun h => hjk (Nat.eq_of_mul_eq_mul_right (by decide) h)
    simp [hjk, hne]

end AetherOS.Mem
