import AetherOS.PageWalk
import AetherOS.Runs

/-!
# The page tables as a partial map

`vmm_map`, `vmm_unmap` and `vmm_protect` edit a map from the pages of the address space
(bits 12 to 47 of an address) to physical pages, some of them parts of large pages.
`vmm_virt_to_phys` reads this map.
-/
namespace AetherOS.Mem
open PointerTree Runs Function List Option Nat

def path (virt : ℕ) : List ℕ := tablePath virt ++ [ptIndex virt]

lemma indices_lt (virt : ℕ) : pml4Index virt < 512 ∧ pdptIndex virt < 512 ∧ pdIndex virt < 512 ∧
    ptIndex virt < 512 := by
  simp only [pml4Index, pdptIndex, pdIndex, ptIndex, and_indexMask]
  omega

lemma path_inRange {n0 virt : ℕ} (hv : pml4Index virt < n0) : InRange n0 0 (path virt) := by
  obtain ⟨-, h1, h2, h3⟩ := indices_lt virt
  exact ⟨hv, h1, h2, h3, trivial⟩

section

variable {n0 root extra i virt : ℕ} {s s' : Vmm}

lemma store_leaf (h : TableTree n0 root s) {q : List ℕ} {pt : ℕ}
    (hq : walk (child n0 s.words) 0 root q = some pt) (hlen : q.length = 3) (hi : i < 512) (e : ℕ) :
    TableTree n0 root (s.store pt i e) ∧ (∀ r, r.length ≤ 3 → walk (child n0 (s.store pt i e).words) 0 root r =
        walk (child n0 s.words) 0 root r) ∧
      ∀ path, InRange n0 0 path → path.length = 4 → lookup (s.store pt i e).words root path =
          if path = q ++ [i] then (if e &&& pagePresent = 0 then none else some (e, 0))
          else lookup s.words root path := by
  have hwords : ∀ r n j, r.length ≤ 3 → walk (child n0 s.words) 0 root r = some n → j < 512 →
      ¬(r = q ∧ j = i) → (s.store pt i e).words (n + 8 * j) = s.words (n + 8 * j) :=
    fun r n j hr hn hj hne => load_store_of_ne s e (h.slot_ne hn hq hr (by omega) hj hi hne)
  have hwalk : ∀ r, r.length ≤ 3 → walk (child n0 (s.store pt i e).words) 0 root r =
      walk (child n0 s.words) 0 root r := by
    refine walk_congr fun r n j hr hn => child_congr fun hj => ?_
    refine hwords r n j (by omega) hn (h.lt hj) ?_
    rintro ⟨rfl, -⟩
    omega
  refine ⟨h.of_walk hwalk (fun j hj => ?_) (fun _ _ _ _ hu => hu) rfl, hwalk, fun path hr hl => ?_⟩
  · refine hwords [] root j (by simp) rfl (Nat.lt_of_lt_of_le hj h.width) ?_
    rintro ⟨rfl, -⟩
    cases hlen
  by_cases hpath : path = q ++ [i]
  · rw [if_pos hpath, hpath, lookup_walk (by simp) (by omega) ((hwalk q (by omega)).trans hq)]
    have hself : (s.store pt i e).words (pt + 8 * i) = e := load_store_self s pt i e
    by_cases he : e &&& pagePresent = 0
    · rw [if_pos he, lookup_absent (by rw [hself]; exact he)]
    · rw [if_neg he, lookup_leaf (by rw [hself]; exact he) (.inl rfl), hself]
      rfl
  rw [if_neg hpath]
  refine lookup_of_entries h.width hr hl fun r j rest n he hlen' hn hj => hwords r n j hlen' hn hj ?_
  rintro ⟨rfl, rfl⟩
  have hlength := congrArg List.length he
  simp only [length_append, length_cons] at hlength
  have hrest : rest = [] := length_eq_zero_iff.mp (by omega)
  exact hpath (by rw [he, hrest])

/-- What stopped a mapping: no free page is left, or a large page is in the way. -/
def Stopped (root virt : ℕ) (s s' : Vmm) : Prop :=
  (∀ k < maxPages, bitmapTest s'.pmm k = true) ∨ ∃ e l, lookup s.words root (path virt) = some (e, l + 1)

lemma ensure_on_path (h : TableTree n0 root s) {p rest : List ℕ} {t : ℕ}
    (hp : walk (child n0 s.words) 0 root p = some t) (hpath : tablePath virt = p ++ i :: rest)
    (hv : pml4Index virt < n0) (hx : TableFlags extra) :
    (ensureTableIn s t i extra = .ok (none, s) ∧ Stopped root virt s s ∧
        walk (child n0 s.words) 0 root (tablePath virt) = none) ∨
      ∃ c s', ensureTableIn s t i extra = .ok (some c, s') ∧ Extended n0 root virt s s' ∧
        walk (child n0 s'.words) 0 root (p ++ [i]) = some c := by
  have hfull : path virt = p ++ i :: (rest ++ [ptIndex virt]) := by
    rw [path, hpath, append_assoc, cons_append]
  have hlen : p.length < 3 := by
    have hlength := congrArg List.length hpath
    simp only [tablePath, length_append, length_cons, length_nil] at hlength
    omega
  have hi : i < width n0 p.length := by
    have hr := path_inRange hv
    rw [hfull] at hr
    have hir := hr.append_right.1
    rwa [Nat.zero_add] at hir
  have hpre : p ++ [i] <+: tablePath virt := ⟨rest, by rw [hpath, append_assoc]; rfl⟩
  rcases ensureTableIn_spec h hp hlen hi hx hpre with ⟨heq, hchild, hwhy⟩ | hext
  · refine .inl ⟨heq, ?_, ?_⟩
    · rcases hwhy with hall | ⟨hpres, hlarge⟩
      · exact .inl hall
      right
      refine ⟨s.words (t + 8 * i), rest.length, ?_⟩
      rw [hfull, lookup_walk (by simp) (by omega) hp, lookup_leaf hpres (.inr hlarge), length_append]
      rfl
    · rw [hpath, walk_append, hp, bind_some, walk, Nat.zero_add, hchild]
      rfl
  · exact .inr hext

lemma Stopped.of_grown {s1 : Vmm} (hg : Grown n0 root s s1) (hv : pml4Index virt < n0)
    (h : Stopped root virt s1 s') : Stopped root virt s s' := by
  rcases h with hall | ⟨e, l, hl⟩
  · exact .inl hall
  right
  rw [hg.lookup (path virt) (path_inRange hv) rfl] at hl
  exact ⟨e, l, hl⟩

/-- The common body of `vmm_map` and `vmm_space_map`. -/
theorem mapFrom_spec (h : TableTree n0 root s) (hv : pml4Index virt < n0) (hx : TableFlags extra) (phys flags : ℕ) :
    (∃ s', mapFrom (fun s t i => ensureTableIn s t i extra) s root virt phys flags = .ok (false, s') ∧
      Extended n0 root virt s s' ∧ Stopped root virt s s' ∧ walk (child n0 s'.words) 0 root (tablePath virt) = none) ∨
    ∃ s1 pt, mapFrom (fun s t i => ensureTableIn s t i extra) s root virt phys flags =
        .ok (true, s1.store pt (ptIndex virt) ((phys &&& pageMask) ||| flags ||| pagePresent)) ∧
      Extended n0 root virt s s1 ∧ walk (child n0 s1.words) 0 root (tablePath virt) = some pt := by
  unfold mapFrom
  rw [h.physToVirt (q := []) (by simp) rfl]
  simp only [bind, Except.bind]
  rcases ensure_on_path h (p := []) (t := root) rfl rfl hv hx with ⟨heq, hstop, hnone⟩ | ⟨pdpt, s1, heq, hg1, hw1⟩
  · left
    rw [heq]
    exact ⟨s, rfl, .refl h virt, hstop, hnone⟩
  rw [heq]
  simp only
  rcases ensure_on_path hg1.tree hw1 rfl hv hx with ⟨heq, hstop, hnone⟩ | ⟨pd, s2, heq, hg2, hw2⟩
  · left
    rw [heq]
    exact ⟨s1, rfl, hg1, hstop.of_grown hg1.toGrown hv, hnone⟩
  rw [heq]
  simp only
  have hg12 := hg1.trans hg2
  rcases ensure_on_path hg2.tree hw2 rfl hv hx with ⟨heq, hstop, hnone⟩ | ⟨pt, s3, heq, hg3, hw3⟩
  · left
    rw [heq]
    exact ⟨s2, rfl, hg12, hstop.of_grown hg12.toGrown hv, hnone⟩
  rw [heq]
  exact .inr ⟨s3, pt, rfl, hg12.trans hg3, hw3⟩

section

variable (h : TableTree 512 s.activePml4Phys s)
include h

/-- The walk of `vmm_virt_to_phys` is a lookup. -/
theorem vmmVirtToPhys_eq (virt : ℕ) :
    vmmVirtToPhys s virt = .ok ((lookup s.words s.activePml4Phys (path virt)).map fun x =>
      (x.1 &&& pageMask) + virt % 2 ^ (12 + 9 * x.2)) := by
  obtain ⟨h4, h3, h2, h1⟩ := indices_lt virt
  have hm30 : virt &&& 0x3fffffff = virt % 2 ^ 30 := and_two_pow_sub_one_eq_mod virt 30
  have hm21 : virt &&& 0x1fffff = virt % 2 ^ 21 := and_two_pow_sub_one_eq_mod virt 21
  have hm12 : virt &&& 0xfff = virt % 2 ^ 12 := and_two_pow_sub_one_eq_mod virt 12
  have hw0 : walk (child 512 s.words) 0 s.activePml4Phys [] = some s.activePml4Phys := rfl
  unfold vmmVirtToPhys path tablePath
  rw [h.physToVirt (by simp) hw0]
  simp only [bind, Except.bind, cons_append, nil_append]
  by_cases hp4 : s.words (s.activePml4Phys + 8 * pml4Index virt) &&& pagePresent = 0
  · rw [if_pos hp4, lookup_absent hp4]
    rfl
  have hl4 := h.pml4 _ h4 hp4
  have hw1 := walk_child hw0 h4 hp4 hl4
  rw [if_neg hp4, lookup_down (by simp) hp4 hl4, h.physToVirt (by simp) hw1]
  generalize s.words (s.activePml4Phys + 8 * pml4Index virt) &&& pageMask = pdpt at hw1 ⊢
  by_cases hp3 : s.words (pdpt + 8 * pdptIndex virt) &&& pagePresent = 0
  · simp only [hp3, if_true, lookup_absent]
    rfl
  by_cases hl3 : s.words (pdpt + 8 * pdptIndex virt) &&& pageLarge = 0
  · have hw2 := walk_child hw1 h3 hp3 hl3
    simp only [hp3, hl3, ne_eq, not_true_eq_false, if_false, h.physToVirt (by simp) hw2]
    rw [lookup_down (by simp) hp3 hl3]
    generalize s.words (pdpt + 8 * pdptIndex virt) &&& pageMask = pd at hw2 ⊢
    by_cases hp2 : s.words (pd + 8 * pdIndex virt) &&& pagePresent = 0
    · simp only [hp2, if_true, lookup_absent]
      rfl
    by_cases hl2 : s.words (pd + 8 * pdIndex virt) &&& pageLarge = 0
    · have hw3 := walk_child hw2 h2 hp2 hl2
      simp only [hp2, hl2, not_true_eq_false, if_false, h.physToVirt (by simp) hw3]
      rw [lookup_down (by simp) hp2 hl2]
      generalize s.words (pd + 8 * pdIndex virt) &&& pageMask = pt at hw3 ⊢
      by_cases hp1 : s.words (pt + 8 * ptIndex virt) &&& pagePresent = 0
      · simp only [hp1, if_true, lookup_absent]
        rfl
      simp only [hp1, if_false]
      rw [lookup_leaf hp1 (.inl rfl), hm12]
      rfl
    · simp only [hp2, hl2, not_false_eq_true, if_true, if_false]
      rw [lookup_leaf hp2 (.inr hl2), hm21]
      rfl
  · simp only [hp3, hl3, ne_eq, not_false_eq_true, if_true, if_false]
    rw [lookup_leaf hp3 (.inr hl3), hm30]
    rfl

/-- The entry `pte_for` finds is in the last table on the path; without it the address
has no 4 KiB mapping. -/
theorem pteFor_spec (virt : ℕ) :
    (∃ pt, pteFor s virt = .ok (some (pt + 8 * ptIndex virt)) ∧
      walk (child 512 s.words) 0 s.activePml4Phys (tablePath virt) = some pt) ∨
    (pteFor s virt = .ok none ∧ ∀ e, lookup s.words s.activePml4Phys (path virt) ≠ some (e, 0)) := by
  obtain ⟨h4, h3, h2, h1⟩ := indices_lt virt
  have hw0 : walk (child 512 s.words) 0 s.activePml4Phys [] = some s.activePml4Phys := rfl
  unfold pteFor path tablePath
  rw [h.physToVirt (by simp) hw0]
  simp only [bind, Except.bind, cons_append, nil_append]
  by_cases hp4 : s.words (s.activePml4Phys + 8 * pml4Index virt) &&& pagePresent = 0
  · right
    rw [if_pos (.inl hp4), lookup_absent hp4]
    exact ⟨rfl, fun e he => by cases he⟩
  have hl4 := h.pml4 _ h4 hp4
  have hw1 := walk_child hw0 h4 hp4 hl4
  simp only [hp4, hl4, ne_eq, not_true_eq_false, or_self_iff, if_false, h.physToVirt (by simp) hw1]
  rw [lookup_down (by simp) hp4 hl4]
  generalize s.words (s.activePml4Phys + 8 * pml4Index virt) &&& pageMask = pdpt at hw1 ⊢
  by_cases hp3 : s.words (pdpt + 8 * pdptIndex virt) &&& pagePresent = 0
  · right
    rw [if_pos (.inl hp3), lookup_absent hp3]
    exact ⟨rfl, fun e he => by cases he⟩
  by_cases hl3 : s.words (pdpt + 8 * pdptIndex virt) &&& pageLarge = 0
  · have hw2 := walk_child hw1 h3 hp3 hl3
    simp only [hp3, hl3, not_true_eq_false, or_self_iff, if_false, h.physToVirt (by simp) hw2]
    rw [lookup_down (by simp) hp3 hl3]
    generalize s.words (pdpt + 8 * pdptIndex virt) &&& pageMask = pd at hw2 ⊢
    by_cases hp2 : s.words (pd + 8 * pdIndex virt) &&& pagePresent = 0
    · right
      rw [if_pos (.inl hp2), lookup_absent hp2]
      exact ⟨rfl, fun e he => by cases he⟩
    by_cases hl2 : s.words (pd + 8 * pdIndex virt) &&& pageLarge = 0
    · have hw3 := walk_child hw2 h2 hp2 hl2
      left
      simp only [hp2, hl2, not_true_eq_false, or_self_iff, if_false, h.physToVirt (by simp) hw3]
      exact ⟨_, rfl, hw3⟩
    right
    rw [if_pos (.inr hl2), lookup_leaf hp2 (.inr hl2)]
    exact ⟨rfl, fun e he => by simp at he⟩
  · right
    rw [if_pos (.inr hl3), lookup_leaf hp3 (.inr hl3)]
    exact ⟨rfl, fun e he => by simp at he⟩

/-- `vmm_unmap` and `vmm_protect` change the entry of a 4 KiB mapping and nothing else. -/
lemma editPte_spec (virt : ℕ) (f : ℕ → ℕ) :
    (editPte s virt f = .ok (false, s) ∧ ∀ e, lookup s.words s.activePml4Phys (path virt) ≠ some (e, 0)) ∨
    ∃ pt e, editPte s virt f = .ok (true, s.store pt (ptIndex virt) (f e)) ∧
      walk (child 512 s.words) 0 s.activePml4Phys (tablePath virt) = some pt ∧
      lookup s.words s.activePml4Phys (path virt) = some (e, 0) := by
  unfold editPte
  rcases pteFor_spec h virt with ⟨pt, heq, hw⟩ | ⟨heq, hno⟩
  · have hlookup : lookup s.words s.activePml4Phys (path virt) =
        lookup s.words pt [ptIndex virt] := lookup_walk (by simp) (Nat.le_refl 3) hw
    rw [heq, hlookup]
    simp only [bind, Except.bind]
    by_cases hp : s.words (pt + 8 * ptIndex virt) &&& pagePresent = 0
    · left
      rw [if_pos hp, lookup_absent hp]
      exact ⟨rfl, fun e he => by cases he⟩
    right
    rw [if_neg hp, lookup_leaf hp (.inl rfl)]
    exact ⟨pt, _, rfl, hw, rfl⟩
  · left
    rw [heq]
    exact ⟨rfl, hno⟩

end

end

/-! ## The map and the calls -/

/-- How a page of the address space is mapped: by an entry of its own, or as a part of a
large page. -/
inductive Mapping where
  | page (phys : ℕ)
  | large (phys : ℕ)
  deriving DecidableEq

def Mapping.phys : Mapping → ℕ
  | .page a => a
  | .large a => a

/-- Pages of the address space are known by bits 12 to 47 of their addresses. -/
abbrev PageMap : Type := Fin (2 ^ 36) → Option Mapping

def pageOf (virt : ℕ) : Fin (2 ^ 36) := ⟨virt / 2 ^ 12 % 2 ^ 36, mod_lt _ (by decide)⟩

/-- The mapping of page `n` by an entry with `x.2` levels below it. -/
def mappingOf (n : ℕ) (x : ℕ × ℕ) : Mapping :=
  if x.2 = 0 then .page (x.1 &&& pageMask)
  else .large ((x.1 &&& pageMask) + n % 2 ^ (9 * x.2) * 2 ^ 12)

/-- The map that the active tables hold. -/
def pageMap (s : Vmm) : PageMap := fun n =>
  (lookup s.words s.activePml4Phys (path (n * 2 ^ 12))).map (mappingOf n)

inductive Call where
  | map (virt phys flags : ℕ)
  | unmap (virt : ℕ)
  | protect (virt flags : ℕ)

def Call.run (s : Vmm) : Call → Except String (Bool × Vmm)
  | .map virt phys flags => vmmMap s virt phys flags
  | .unmap virt => vmmUnmap s virt
  | .protect virt flags => vmmProtect s virt flags

def Call.Valid : Call → Prop
  | .map _ phys flags => phys < 2 ^ 52 ∧ flags &&& pageMask = 0
  | .unmap _ => True
  | .protect _ flags => flags &&& pageMask = 0

/-- A call, with the value it returns. -/
def vmmStep (s : Vmm) (a : Call × Bool) (s' : Vmm) : Prop :=
  a.1.Valid ∧ a.1.run s = .ok (a.2, s')

/-- What the calls do to the map. -/
def mapStep (m : PageMap) : Call × Bool → PageMap → Prop
  | (.map virt phys _, true), m' => m' = update m (pageOf virt) (some (.page (phys / 2 ^ 12 * 2 ^ 12)))
  | (.map _ _ _, false), m' => m' = m
  | (.unmap virt, r), m' => (r = true ↔ ∃ a, m (pageOf virt) = some (.page a)) ∧
      m' = if r then update m (pageOf virt) none else m
  | (.protect virt _, r), m' => (r = true ↔ ∃ a, m (pageOf virt) = some (.page a)) ∧ m' = m

/-- Every table is referred to by one entry, the root by none, all are in use, and no
entry of the root is marked as a large page. -/
structure TablesReferencedOnce (s : Vmm) : Prop where
  once : ∀ p q t u i j c, p.length < 3 → q.length < 3 → walk (child 512 s.words) 0 s.activePml4Phys p = some t →
    walk (child 512 s.words) 0 s.activePml4Phys q = some u →
    child 512 s.words p.length t i = some c → child 512 s.words q.length u j = some c →
    t = u ∧ i = j
  root : ∀ p t i, p.length < 3 → walk (child 512 s.words) 0 s.activePml4Phys p = some t →
    child 512 s.words p.length t i ≠ some s.activePml4Phys
  used : ∀ p t, p.length ≤ 3 → walk (child 512 s.words) 0 s.activePml4Phys p = some t →
    ∃ k, t = k * pageSize ∧ k < maxPages ∧ bitmapTest s.pmm k = true
  pml4 : ∀ i < 512, s.words (s.activePml4Phys + 8 * i) &&& pageLarge = 0
  directMap : maxPhysBytes ≤ s.directMapSize

section

variable {s s' : Vmm} {virt : ℕ}

lemma TablesReferencedOnce.tree (h : TablesReferencedOnce s) : TableTree 512 s.activePml4Phys s :=
  ⟨Nat.le_refl _, noSharing_of_unique h.root h.once, h.used, fun i hi _ => h.pml4 i hi, h.directMap⟩

lemma path_inj (a b : ℕ) : path a = path b ↔ a / 2 ^ 12 % 2 ^ 36 = b / 2 ^ 12 % 2 ^ 36 := by
  simp only [path, tablePath, pml4Index, pdptIndex, pdIndex, ptIndex, and_indexMask,
    cons_append, nil_append, List.cons.injEq, and_true]
  omega

lemma path_eq_iff (n : Fin (2 ^ 36)) (virt : ℕ) : path (n * 2 ^ 12) = path virt ↔ n = pageOf virt := by
  rw [path_inj, Nat.mul_div_cancel _ (by decide), mod_eq_of_lt n.isLt, Fin.ext_iff]
  rfl

lemma path_page (virt : ℕ) : path (pageOf virt * 2 ^ 12) = path virt := (path_eq_iff _ virt).mpr rfl

lemma pageMap_pageOf (s : Vmm) (virt : ℕ) : pageMap s (pageOf virt) =
    (lookup s.words s.activePml4Phys (path virt)).map (mappingOf (pageOf virt)) := by
  unfold pageMap
  rw [path_page]

lemma pageMap_page_iff (s : Vmm) (virt : ℕ) : (∃ a, pageMap s (pageOf virt) = some (.page a)) ↔
    ∃ e, lookup s.words s.activePml4Phys (path virt) = some (e, 0) := by
  rw [pageMap_pageOf]
  constructor
  · rintro ⟨a, ha⟩
    obtain ⟨⟨e, l⟩, hl, hm⟩ := map_eq_some_iff.mp ha
    by_cases h0 : l = 0
    · exact ⟨e, h0 ▸ hl⟩
    · simp [mappingOf, h0] at hm
  · rintro ⟨e, he⟩
    exact ⟨e &&& pageMask, by rw [he]; rfl⟩

lemma pageMap_congr (hactive : s'.activePml4Phys = s.activePml4Phys)
    (h : ∀ path, InRange 512 0 path → path.length = 4 →
      lookup s'.words s.activePml4Phys path = lookup s.words s.activePml4Phys path) : pageMap s' = pageMap s := by
  funext n
  unfold pageMap
  rw [hactive, h _ (path_inRange (indices_lt _).1) rfl]

section

variable (h : TableTree 512 s.activePml4Phys s)
include h

lemma pageMap_store {pt : ℕ} (hw : walk (child 512 s.words) 0 s.activePml4Phys (tablePath virt) = some pt) (e : ℕ) :
    TableTree 512 s.activePml4Phys (s.store pt (ptIndex virt) e) ∧
      pageMap (s.store pt (ptIndex virt) e) = update (pageMap s) (pageOf virt)
        (if e &&& pagePresent = 0 then none else some (.page (e &&& pageMask))) := by
  obtain ⟨htree, -, hlookup⟩ := store_leaf h hw rfl (indices_lt virt).2.2.2 e
  refine ⟨htree, ?_⟩
  funext n
  have hn := hlookup (path (n * 2 ^ 12)) (path_inRange (indices_lt _).1) rfl
  rw [show tablePath virt ++ [ptIndex virt] = path virt from rfl] at hn
  unfold pageMap
  rw [store_activePml4Phys, hn]
  by_cases hpage : n = pageOf virt
  · rw [if_pos ((path_eq_iff n virt).mpr hpage), hpage, update_self]
    split <;> rfl
  · rw [if_neg fun h => hpage ((path_eq_iff n virt).mp h), update_of_ne hpage]

/-- Translation reads the map. -/
theorem vmmVirtToPhys_pageMap (virt : ℕ) :
    vmmVirtToPhys s virt = .ok ((pageMap s (pageOf virt)).map fun m => m.phys + virt % 2 ^ 12) := by
  rw [vmmVirtToPhys_eq h, pageMap_pageOf, Option.map_map]
  congr 1
  rcases hl : lookup s.words s.activePml4Phys (path virt) with _ | ⟨e, l⟩
  · rfl
  have hlt : l < 4 := lookup_level hl
  simp only [map_some, Function.comp_apply, some.injEq, mappingOf, pageOf]
  split
  next h0 =>
    have h0 : l = 0 := h0
    subst h0
    rfl
  have hcases : l = 1 ∨ l = 2 ∨ l = 3 := by omega
  rcases hcases with rfl | rfl | rfl
  · simp only [Mapping.phys]
    omega
  · simp only [Mapping.phys]
    omega
  · simp only [Mapping.phys]
    omega

omit h in
lemma Stopped.pageMap (h : Stopped s.activePml4Phys virt s s') :
    (∀ k < maxPages, bitmapTest s'.pmm k = true) ∨ ∃ a, pageMap s (pageOf virt) = some (.large a) := by
  rcases h with hall | ⟨e, l, hl⟩
  · exact .inl hall
  right
  rw [pageMap_pageOf, hl]
  exact ⟨_, rfl⟩

lemma vmmMap_step (virt : ℕ) {phys flags : ℕ} (hphys : phys < 2 ^ 52) (hflags : flags &&& pageMask = 0) :
    ∃ r s', vmmMap s virt phys flags = .ok (r, s') ∧ TableTree 512 s'.activePml4Phys s' ∧
      mapStep (pageMap s) (.map virt phys flags, r) (pageMap s') ∧
      (r = false → (∀ k < maxPages, bitmapTest s'.pmm k = true) ∨
        ∃ a, pageMap s (pageOf virt) = some (.large a)) := by
  have hx : TableFlags 0 := ⟨zero_and _, zero_and _⟩
  have heq : vmmMap s virt phys flags =
      mapFrom (fun s t i => ensureTableIn s t i 0) s s.activePml4Phys virt phys flags := rfl
  rw [heq]
  rcases mapFrom_spec h (indices_lt virt).1 hx phys flags with
    ⟨s', hs', hg, hstop, -⟩ | ⟨s1, pt, hs', hg, hw⟩
  · refine ⟨false, s', hs', hg.active ▸ hg.tree, pageMap_congr hg.active hg.lookup, fun _ => ?_⟩
    exact hstop.pageMap
  have hpres : ((phys &&& pageMask) ||| flags ||| pagePresent) &&& pagePresent ≠ 0 := or_and_ne_zero (.inr (by decide))
  have haddr : phys &&& pageMask = phys / 2 ^ 12 * 2 ^ 12 := by
    rw [and_pageMask]
    omega
  have htree1 : TableTree 512 s1.activePml4Phys s1 := hg.active ▸ hg.tree
  rw [← hg.active] at hw
  obtain ⟨htree, hmap⟩ := pageMap_store htree1 hw ((phys &&& pageMask) ||| flags ||| pagePresent)
  refine ⟨true, _, hs', htree, ?_, fun h => by cases h⟩
  rw [mapStep, hmap, if_neg hpres, entry_and_pageMask hflags, haddr, pageMap_congr hg.active hg.lookup]

lemma editPte_step (virt : ℕ) (f : ℕ → ℕ) :
    ∃ r s', editPte s virt f = .ok (r, s') ∧ TableTree 512 s'.activePml4Phys s' ∧
      (r = true ↔ ∃ a, pageMap s (pageOf virt) = some (.page a)) ∧
      (r = false → pageMap s' = pageMap s) ∧
      (r = true → ∃ e, lookup s.words s.activePml4Phys (path virt) = some (e, 0) ∧
        pageMap s' = update (pageMap s) (pageOf virt)
          (if f e &&& pagePresent = 0 then none else some (.page (f e &&& pageMask)))) := by
  rw [pageMap_page_iff]
  rcases editPte_spec h virt f with ⟨heq, hno⟩ | ⟨pt, e, heq, hw, hl⟩
  · refine ⟨false, s, heq, h, ⟨fun hr => (by cases hr), fun ⟨e, he⟩ => absurd he (hno e)⟩, fun _ => rfl,
      fun hr => by cases hr⟩
  · obtain ⟨htree, hmap⟩ := pageMap_store h hw (f e)
    exact ⟨true, _, heq, htree, ⟨fun _ => ⟨e, hl⟩, fun _ => rfl⟩, (fun hr => by cases hr), fun _ => ⟨e, hl, hmap⟩⟩

/-- Every call returns, keeps the tables a tree, and does to the map what it should. -/
lemma call_step {c : Call} (hc : c.Valid) :
    ∃ r s', c.run s = .ok (r, s') ∧ TableTree 512 s'.activePml4Phys s' ∧ mapStep (pageMap s) (c, r) (pageMap s') := by
  cases c with
  | map virt phys flags =>
    obtain ⟨r, s', heq, htree, hmap, -⟩ := vmmMap_step h virt hc.1 hc.2
    exact ⟨r, s', heq, htree, hmap⟩
  | unmap virt =>
    obtain ⟨r, s', heq, htree, hiff, hfalse, htrue⟩ := editPte_step h virt fun _ => 0
    refine ⟨r, s', heq, htree, hiff, ?_⟩
    cases r with
    | false => exact hfalse rfl
    | true =>
      obtain ⟨e, -, hmap⟩ := htrue rfl
      rw [hmap, if_pos rfl, zero_and, if_pos rfl]
  | protect virt flags =>
    obtain ⟨r, s', heq, htree, hiff, hfalse, htrue⟩ := editPte_step h virt
      fun pte => (pte &&& pageMask) ||| flags ||| pagePresent
    refine ⟨r, s', heq, htree, hiff, ?_⟩
    cases r with
    | false => exact hfalse rfl
    | true =>
      obtain ⟨e, hl, hmap⟩ := htrue rfl
      -- the new entry has the old address, so the map is updated with what it had
      have hold : pageMap s (pageOf virt) = some (.page (e &&& pageMask)) := by
        rw [pageMap_pageOf, hl]
        rfl
      rw [hmap, if_neg (or_and_ne_zero (.inr (by decide))), entry_and_pageMask hc, ← hold, update_eq_self]

end

end

/-- From tables that are each referred to once, every sequence of calls is a sequence of
operations on the map that translation reads, and the next call returns. -/
theorem vmm_refines_pageMap {s s' : Vmm} {as : List (Call × Bool)} (h : TablesReferencedOnce s)
    (hr : Run vmmStep s as s') :
    Run mapStep (pageMap s) as (pageMap s') ∧ (∀ virt, vmmVirtToPhys s' virt =
        .ok ((pageMap s' (pageOf virt)).map fun m => m.phys + virt % 2 ^ 12)) ∧
      (∀ c : Call, c.Valid → ∃ r s'', vmmStep s' (c, r) s'') ∧
      ∀ virt phys flags s'', vmmStep s' (.map virt phys flags, false) s'' →
        (∀ k < maxPages, bitmapTest s''.pmm k = true) ∨ ∃ a, pageMap s' (pageOf virt) = some (.large a) := by
  obtain ⟨htree, hmap⟩ : TableTree 512 s'.activePml4Phys s' ∧ Run mapStep (pageMap s) as (pageMap s') := by
    refine hr.simulates (I := fun s => TableTree 512 s.activePml4Phys s) (f := pageMap) ?_ h.tree
    rintro s ⟨c, r⟩ t hs ⟨hc, heq⟩
    obtain ⟨r1, s1, heq1, htree, hmap⟩ := call_step hs hc
    rw [heq1] at heq
    obtain ⟨rfl, rfl⟩ := Prod.mk.inj (Except.ok.inj heq)
    exact ⟨htree, hmap⟩
  refine ⟨hmap, vmmVirtToPhys_pageMap htree, fun c hc => ?_, fun virt phys flags s'' hs => ?_⟩
  · obtain ⟨r, s1, heq, -, -⟩ := call_step htree hc
    exact ⟨r, s1, hc, heq⟩
  obtain ⟨hc, heq⟩ := hs
  obtain ⟨r, s1, heq1, -, -, hwhy⟩ := vmmMap_step htree virt hc.1 hc.2
  have heq' : vmmMap s' virt phys flags = .ok (false, s'') := heq
  rw [heq1] at heq'
  obtain ⟨hr1, rfl⟩ := Prod.mk.inj (Except.ok.inj heq')
  exact hwhy hr1

/-- A root without entries in page 1; pages 0 and 1 are in use. -/
def emptyTables : Vmm where
  words := fun _ => 0
  pmm := { bitmap := fun w => if w = 0 then 3 else 0, free := maxPages - 2 }
  activePml4Phys := pageSize
  directMapSize := maxPhysBytes

lemma tablesReferencedOnce_emptyTables : TablesReferencedOnce emptyTables := by
  have hchild : ∀ k t i, child 512 emptyTables.words k t i = none := fun k t i => child_eq_none (zero_and _)
  refine ⟨fun p q t u i j c _ _ _ _ hc => ?_, fun p t i _ _ hc => ?_, fun p t _ hw => ?_,
    fun i _ => zero_and _, Nat.le_refl _⟩
  · rw [hchild] at hc
    cases hc
  · rw [hchild] at hc
    cases hc
  cases p with
  | nil =>
    cases hw
    exact ⟨1, rfl, by decide, by decide⟩
  | cons i p =>
    simp only [walk, hchild, bind_none] at hw
    cases hw

/-- The page 0x5000 is mapped into the empty tables, and unmapped. -/
theorem vmm_refines_pageMap_unmapped : ∃ as s, as.map Prod.fst = [.map 0x400000 0x5000 2, .unmap 0x400000] ∧
    Run vmmStep emptyTables as s ∧ Run mapStep (pageMap emptyTables) as (pageMap s) := by
  have h := tablesReferencedOnce_emptyTables
  obtain ⟨_, t, ht⟩ := (vmm_refines_pageMap h (.nil _)).2.2.1 (.map 0x400000 0x5000 2)
    ⟨by decide, by decide⟩
  obtain ⟨_, s, hs⟩ := (vmm_refines_pageMap h (.cons ht (.nil t))).2.2.1 (.unmap 0x400000) trivial
  have hrun := Run.cons ht (.cons hs (.nil s))
  exact ⟨_, s, rfl, hrun, (vmm_refines_pageMap h hrun).1⟩

end AetherOS.Mem
