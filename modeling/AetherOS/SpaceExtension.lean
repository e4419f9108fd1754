import AetherOS.AddressSpaces

/-!
# What a mapping leaves alone

`vmm_space_map` writes entries of the tables on the way of its address, and pages that were
free. Every other word keeps its value, and no table appears off the way. A mapping may also
take the place of an earlier one: the page that was there is in use then, and no longer of
the space.
-/
namespace AetherOS.Mem
open PointerTree List

section

variable {root virt pt e x : ℕ} {s : Vmm}

lemma TableTree.kept_upper (h : TableTree 256 root s) {i : ℕ} (hi : 256 ≤ i) (hi' : i < 512) :
    Kept 256 root s (root + 8 * i) := by
  obtain ⟨k, hk, -, hu⟩ := h.used [] root (by simp) rfl
  refine ⟨?_, fun q t j hq hw hj he => ?_⟩
  · rw [show (root + 8 * i) / pageSize = k by simp only [pageSize] at hk ⊢; omega]
    exact hu
  have hroot := (h.aligned (q := []) (by simp) rfl).1
  have ht := (h.aligned hq hw).1
  have hj' : j < 512 := h.lt hj
  obtain rfl : t = root := by omega
  obtain rfl := h.noSharing q [] t hq (by simp) hw rfl
  simp only [Mem.width, length_nil, if_true] at hj
  omega

lemma Kept.store (hx : Kept 256 root s x) (h : TableTree 256 root s)
    (hw : walk (child 256 s.words) 0 root (tablePath virt) = some pt) (e : ℕ) :
    (s.store pt (ptIndex virt) e).words x = s.words x ∧ Kept 256 root (s.store pt (ptIndex virt) e) x := by
  obtain ⟨-, hwalk, -⟩ := store_leaf h hw rfl (indices_lt virt).2.2.2 e
  refine ⟨?_, hx.used, fun q t i hq hqw hi => ?_⟩
  · have hne := hx.apart (tablePath virt) pt (ptIndex virt) (Nat.le_refl 3) hw (indices_lt virt).2.2.2
    simp only [Vmm.store, Function.update_of_ne hne]
  · rw [hwalk q hq] at hqw
    exact hx.apart q t i hq hqw hi

lemma WritableTables.store (hwr : WritableTables 256 root s) (h : TableTree 256 root s)
    (hw : walk (child 256 s.words) 0 root (tablePath virt) = some pt) (e : ℕ) :
    WritableTables 256 root (s.store pt (ptIndex virt) e) := by
  obtain ⟨-, hwalk, -⟩ := store_leaf h hw rfl (indices_lt virt).2.2.2 e
  intro q t i hq hqw hi
  rw [hwalk q (by omega)] at hqw
  have hslot := h.slot_ne hqw hw (by omega) (Nat.le_refl 3) (h.lt hi) (indices_lt virt).2.2.2 (j := i)
    (i := ptIndex virt) fun hc => absurd (congrArg List.length hc.1) (Nat.ne_of_lt hq)
  rw [show (s.store pt (ptIndex virt) e).words (t + 8 * i) = s.words (t + 8 * i) from load_store_of_ne s e hslot]
  exact hwr q t i hq hqw hi

end

variable {pml4 : ℕ} {r : SpaceRun}

lemma SpaceInv.kept (h : SpaceInv pml4 r) {a x : ℕ} (ha : a ∈ r.owned ++ r.mapped.map Prod.snd)
    (hx : a ≤ x ∧ x < a + pageSize) : Kept 256 pml4 r.vmm x := by
  obtain ⟨k, hk, hlt, hu⟩ := h.used a ha
  have hpage : x / pageSize = k := by
    simp only [pageSize] at hx hk ⊢
    omega
  refine ⟨hpage ▸ hu, fun q t i hq hw hi he => ?_⟩
  have ht := (h.tree.aligned hq hw).1
  have hi' : i < 512 := h.tree.lt hi
  refine h.apart a ha q hq ?_
  rw [hw, show t = a by simp only [pageSize] at hx hk; omega]

section

variable {a : ℕ} {words : ℕ → ℕ} (h : SpaceInv pml4 r) (ha : a ∈ r.owned)
  (hwords : ∀ x, ¬(a ≤ x ∧ x < a + pageSize) → words x = r.vmm.words x)
include h ha hwords

lemma SpaceInv.write_tables :
    (∀ q t i, q.length ≤ 3 → walk (child 256 r.vmm.words) 0 pml4 q = some t → i < 512 →
        words (t + 8 * i) = r.vmm.words (t + 8 * i)) ∧
      ∀ q, q.length ≤ 3 → walk (child 256 words) 0 pml4 q = walk (child 256 r.vmm.words) 0 pml4 q := by
  obtain ⟨ka, hka, -, -⟩ := h.used a (mem_append_left _ ha)
  have hsame : ∀ q t i, q.length ≤ 3 → walk (child 256 r.vmm.words) 0 pml4 q = some t → i < 512 →
      words (t + 8 * i) = r.vmm.words (t + 8 * i) := by
    intro q t i hq hw hi
    refine hwords _ fun hc => h.apart a (mem_append_left _ ha) q hq ?_
    have ht := (h.tree.aligned hq hw).1
    rw [hw, show t = a by simp only [pageSize] at hc hka; omega]
  refine ⟨hsame, walk_congr fun q t i hq hw => child_congr fun hi => ?_⟩
  exact hsame q t i (by omega) hw (h.tree.lt hi)

lemma SpaceInv.write_lookup {virt : ℕ} (hv : pml4Index virt < 256) :
    lookup words pml4 (path virt) = lookup r.vmm.words pml4 (path virt) := by
  exact lookup_of_entries h.tree.width (path_inRange hv) rfl fun q j _ n _ hq hn hj =>
    (h.write_tables ha hwords).1 q n j hq hn hj

lemma SpaceInv.write : SpaceInv pml4 { r with vmm := { r.vmm with words := words } } := by
  obtain ⟨hsame, hwalk⟩ := h.write_tables ha hwords
  refine ⟨h.ne_zero, h.ne_active, ?_, fun k => ?_, fun virt e l hv hl => ?_, fun x hx => ?_, h.nodup, h.used,
    fun b hb q hq hw => ?_⟩
  · exact h.tree.of_walk hwalk (fun i hi => hsame [] pml4 i (by simp) rfl (by omega)) (fun _ _ _ _ hu => hu) rfl
  · rw [h.tables k]
    refine exists_congr fun q => and_congr_right fun _ => and_congr_right fun hq => ?_
    rw [hwalk q hq]
  · exact h.leaf virt e l hv ((h.write_lookup ha hwords hv).symm.trans hl)
  · obtain ⟨hv, e, hl, he⟩ := h.mapped x hx
    exact ⟨hv, e, (h.write_lookup ha hwords hv).trans hl, he⟩
  · exact h.apart b hb q hq ((hwalk q hq).symm.trans hw)

lemma WritableTables.write (hwr : WritableTables 256 pml4 r.vmm) :
    WritableTables 256 pml4 { r.vmm with words := words } := by
  obtain ⟨hsame, hwalk⟩ := h.write_tables ha hwords
  intro q t i hq hqw hi
  have hqw' := (hwalk q (by omega)).symm.trans hqw
  have hword := hsame q t i (by omega) hqw' (h.tree.lt hi)
  simp only [hword]
  exact hwr q t i hq hqw' hi

end

/-- The mappings of other pages. -/
def others (virt : ℕ) (mapped : List (Fin (2 ^ 36) × ℕ)) : List (Fin (2 ^ 36) × ℕ) :=
  mapped.filter fun x => x.1 ≠ pageOf virt

/-- The pages that were mapped at the address. -/
def replaced (virt : ℕ) (mapped : List (Fin (2 ^ 36) × ℕ)) : List ℕ :=
  (mapped.filter fun x => x.1 = pageOf virt).map Prod.snd

lemma replaced_perm (virt : ℕ) (owned : List ℕ) (mapped : List (Fin (2 ^ 36) × ℕ)) :
    (owned ++ replaced virt mapped ++ (others virt mapped).map Prod.snd).Perm (owned ++ mapped.map Prod.snd) := by
  rw [append_assoc, replaced, others, ← map_append]
  refine List.Perm.append_left _ (List.Perm.map _ ?_)
  have hsplit := filter_append_perm (fun x : Fin (2 ^ 36) × ℕ => decide (x.1 = pageOf virt)) mapped
  simpa using hsplit

/-- The page of the entry is mapped at the address; what was mapped there before is held again. -/
abbrev SpaceRun.overwritten (r : SpaceRun) (virt pt e : ℕ) : SpaceRun :=
  { r with
    vmm := r.vmm.store pt (ptIndex virt) e
    owned := (r.owned ++ replaced virt r.mapped).erase (e &&& pageMask)
    mapped := (pageOf virt, e &&& pageMask) :: others virt r.mapped }

lemma overwrite_perm (virt : ℕ) (owned : List ℕ) (mapped : List (Fin (2 ^ 36) × ℕ)) {a : ℕ} (ha : a ∈ owned) :
    ((owned ++ replaced virt mapped).erase a ++ ((pageOf virt, a) :: others virt mapped).map Prod.snd).Perm
      (owned ++ mapped.map Prod.snd) := by
  rw [map_cons]
  refine perm_middle.trans ?_
  rw [← cons_append]
  refine ((perm_cons_erase (mem_append_left _ ha)).symm.append_right _).trans ?_
  exact replaced_perm virt owned mapped

lemma SpaceInv.overwrite (h : SpaceInv pml4 r) {virt pt e : ℕ} (hv : pml4Index virt < 256)
    (hw : walk (child 256 r.vmm.words) 0 pml4 (tablePath virt) = some pt) (hpres : e &&& pagePresent ≠ 0)
    (hown : e &&& pageMask ∈ r.owned) :
    SpaceInv pml4 (r.overwritten virt pt e) :=
  h.store hv hw hpres (overwrite_perm virt r.owned r.mapped hown) fun x => by
    simp only [others, mem_filter, decide_eq_true_eq]

end AetherOS.Mem
