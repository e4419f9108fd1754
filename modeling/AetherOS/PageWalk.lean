import AetherOS.PageTables
import AetherOS.PointerTree

/-!
# Walking and growing the page tables

`child` follows one entry to the next table, and `lookup` an address down to the entry
that maps it. The tables below a root form a tree of pages in use; `ensure_table` grows
it by an empty table, which no lookup notices, and a write to a last-level table is
noticed by one lookup.
-/
namespace AetherOS.Mem
open PointerTree Function List Option Nat

/-- The number of entries of a table at distance `k` from the root, of which `n0` are
looked at in the root. -/
def width (n0 k : ℕ) : ℕ := if k = 0 then n0 else 512

/-- What entry `i` of the table `t` refers to: the next table, or the mapped page behind
a last-level table. -/
def child (n0 : ℕ) (words : ℕ → ℕ) (k t i : ℕ) : Option ℕ :=
  if i < width n0 k ∧ words (t + 8 * i) &&& pagePresent ≠ 0 ∧ (3 ≤ k ∨ words (t + 8 * i) &&& pageLarge = 0) then
    some (words (t + 8 * i) &&& pageMask)
  else none

/-- The indices of an address stay below the widths of the tables. -/
def InRange (n0 : ℕ) : ℕ → List ℕ → Prop
  | _, [] => True
  | k, i :: p => i < width n0 k ∧ InRange n0 (k + 1) p

/-- The entry that maps an address, with the number of levels below it. -/
def lookup (words : ℕ → ℕ) : ℕ → List ℕ → Option (ℕ × ℕ)
  | _, [] => none
  | t, i :: rest =>
    if words (t + 8 * i) &&& pagePresent = 0 then none
    else if rest = [] ∨ words (t + 8 * i) &&& pageLarge ≠ 0 then
      some (words (t + 8 * i), rest.length)
    else lookup words (words (t + 8 * i) &&& pageMask) rest

/-- The tables below `root` form a tree of pages in use, and no entry of the root is
marked as a large page. -/
structure TableTree (n0 root : ℕ) (s : Vmm) : Prop where
  width : n0 ≤ 512
  noSharing : NoSharing (child n0 s.words) root 3
  used : ∀ q t, q.length ≤ 3 → walk (child n0 s.words) 0 root q = some t →
    ∃ k, t = k * pageSize ∧ k < maxPages ∧ bitmapTest s.pmm k = true
  pml4 : ∀ i < n0, s.words (root + 8 * i) &&& pagePresent ≠ 0 → s.words (root + 8 * i) &&& pageLarge = 0
  directMap : maxPhysBytes ≤ s.directMapSize

section

variable {n0 k t u i : ℕ} {words words' : ℕ → ℕ} {p rest path : List ℕ}

lemma child_eq_some (hi : i < width n0 k) (hp : words (t + 8 * i) &&& pagePresent ≠ 0)
    (hl : 3 ≤ k ∨ words (t + 8 * i) &&& pageLarge = 0) :
    child n0 words k t i = some (words (t + 8 * i) &&& pageMask) := by
  unfold child
  rw [if_pos ⟨hi, hp, hl⟩]

lemma child_eq_none (hp : words (t + 8 * i) &&& pagePresent = 0) : child n0 words k t i = none := by
  unfold child
  rw [if_neg fun h => h.2.1 hp]

lemma child_congr (h : i < width n0 k → words' (t + 8 * i) = words (t + 8 * i)) :
    child n0 words' k t i = child n0 words k t i := by
  unfold child
  by_cases hi : i < width n0 k
  · rw [h hi]
  · rw [if_neg fun hc => hi hc.1, if_neg fun hc => hi hc.1]

lemma child_inv {c : ℕ} (h : child n0 words k t i = some c) :
    i < width n0 k ∧ words (t + 8 * i) &&& pagePresent ≠ 0 ∧
      (3 ≤ k ∨ words (t + 8 * i) &&& pageLarge = 0) ∧ c = words (t + 8 * i) &&& pageMask := by
  unfold child at h
  split at h
  next hc => exact ⟨hc.1, hc.2.1, hc.2.2, (some.inj h).symm⟩
  · cases h

lemma walk_child {root : ℕ} (hw : walk (child n0 words) 0 root p = some t) (hi : i < width n0 p.length)
    (hp : words (t + 8 * i) &&& pagePresent ≠ 0) (hl : words (t + 8 * i) &&& pageLarge = 0) :
    walk (child n0 words) 0 root (p ++ [i]) = some (words (t + 8 * i) &&& pageMask) := by
  rw [walk_concat, hw]
  exact child_eq_some hi hp (.inr hl)

lemma width_le (hn : n0 ≤ 512) (k : ℕ) : width n0 k ≤ 512 := by
  unfold width
  split
  · exact hn
  · exact Nat.le_refl _

lemma InRange.append_right : ∀ {p : List ℕ} {k : ℕ}, InRange n0 k (p ++ path) → InRange n0 (k + p.length) path := by
  intro p
  induction p with
  | nil => intro k h; exact h
  | cons i p ih =>
    intro k h
    have := ih h.2
    rw [length_cons, Nat.add_comm p.length 1, ← Nat.add_assoc]
    exact this

lemma lookup_absent (hp : words (t + 8 * i) &&& pagePresent = 0) : lookup words t (i :: rest) = none := by
  rw [lookup, if_pos hp]

lemma lookup_leaf (hp : words (t + 8 * i) &&& pagePresent ≠ 0)
    (hl : rest = [] ∨ words (t + 8 * i) &&& pageLarge ≠ 0) :
    lookup words t (i :: rest) = some (words (t + 8 * i), rest.length) := by rw [lookup, if_neg hp, if_pos hl]

lemma lookup_down (hrest : rest ≠ []) (hp : words (t + 8 * i) &&& pagePresent ≠ 0)
    (hl : words (t + 8 * i) &&& pageLarge = 0) :
    lookup words t (i :: rest) = lookup words (words (t + 8 * i) &&& pageMask) rest := by
  rw [lookup, if_neg hp, if_neg]
  rintro (h | h)
  · exact hrest h
  · exact h hl

lemma lookup_level {e l : ℕ} (h : lookup words t path = some (e, l)) : l < path.length := by
  induction path generalizing t with
  | nil => cases h
  | cons i path ih =>
    simp only [lookup] at h
    split at h
    · cases h
    split at h
    · simp only [some.injEq, Prod.mk.injEq] at h
      rw [← h.2]
      exact lt_succ_self _
    · exact lt_succ_of_lt (ih h)

lemma lookup_walk (hrest : rest ≠ []) (hk : k + p.length ≤ 3) (hp : walk (child n0 words) k t p = some u) :
    lookup words t (p ++ rest) = lookup words u rest := by
  induction p generalizing k t with
  | nil =>
    cases hp
    rfl
  | cons i p ih =>
    simp only [length_cons] at hk
    obtain ⟨c, hc, hw⟩ := bind_eq_some_iff.mp hp
    obtain ⟨-, hpres, hlarge, rfl⟩ := child_inv hc
    have hl : words (t + 8 * i) &&& pageLarge = 0 := by
      rcases hlarge with h | h
      · omega
      · exact h
    rw [cons_append, lookup_down (by simp [hrest]) hpres hl]
    exact ih (by omega) hw

lemma lookup_congr (hrange : InRange n0 k path) (hk : k + path.length ≤ 4)
    (hwords : ∀ q j rest n, path = q ++ j :: rest → walk (child n0 words) k t q = some n →
      words' (n + 8 * j) = words (n + 8 * j)) : lookup words' t path = lookup words t path := by
  induction path generalizing k t with
  | nil => rfl
  | cons i path ih =>
    have hhere := hwords [] i path t rfl rfl
    simp only [lookup, hhere]
    split
    · rfl
    rename_i hp
    split
    · rfl
    rename_i hl
    have hnil : path ≠ [] := fun h => hl (.inl h)
    have hlarge : words (t + 8 * i) &&& pageLarge = 0 := by
      by_contra h
      exact hl (.inr h)
    simp only [length_cons] at hk
    refine ih hrange.2 (by omega) fun q j rest n he hn => ?_
    refine hwords (i :: q) j rest n (by rw [he]; rfl) ?_
    simp only [walk, child_eq_some hrange.1 hp (.inr hlarge), bind_some]
    exact hn

lemma lookup_of_entries (hn0 : n0 ≤ 512) (hrange : InRange n0 0 path) (hlen : path.length = 4)
    (hwords : ∀ q j rest n, path = q ++ j :: rest → q.length ≤ 3 → walk (child n0 words) 0 t q = some n → j < 512 →
      words' (n + 8 * j) = words (n + 8 * j)) : lookup words' t path = lookup words t path := by
  refine lookup_congr hrange (by omega) fun q j rest n he hn => ?_
  have hlength := congrArg List.length he
  simp only [length_append, length_cons] at hlength
  rw [he] at hrange
  exact hwords q j rest n he (by omega) hn (Nat.lt_of_lt_of_le hrange.append_right.1 (width_le hn0 _))

end

section

variable {n0 root i k t : ℕ} {s s' s'' : Vmm} {q : List ℕ}

section

variable (h : TableTree n0 root s)
include h

section

variable (hq : q.length ≤ 3) (ht : walk (child n0 s.words) 0 root q = some t)
include hq ht

lemma TableTree.aligned : t % 4096 = 0 ∧ t < maxPhysBytes := by
  obtain ⟨k, rfl, hk, -⟩ := h.used q t hq ht
  simp only [maxPages, maxPhysBytes, pageSize] at hk ⊢
  omega

lemma TableTree.physToVirt : physToVirt s t = .ok t :=
  physToVirt_of_lt s (Nat.lt_of_lt_of_le (h.aligned hq ht).2 h.directMap)

end

lemma TableTree.lt (hi : i < Mem.width n0 k) : i < 512 :=
  Nat.lt_of_lt_of_le hi (width_le h.width k)

lemma TableTree.slot_ne {p : List ℕ} {n j : ℕ}
    (hn : walk (child n0 s.words) 0 root q = some n) (ht : walk (child n0 s.words) 0 root p = some t)
    (hq : q.length ≤ 3) (hp : p.length ≤ 3) (hj : j < 512) (hi : i < 512) (hne : ¬(q = p ∧ j = i)) :
    n + 8 * j ≠ t + 8 * i := by
  refine Mem.slot_ne (h.aligned hq hn).1 (h.aligned hp ht).1 hj hi ?_
  by_cases hnt : n = t
  · right
    rintro rfl
    subst hnt
    exact hne ⟨h.noSharing q p n hq hp hn ht, rfl⟩
  · exact .inl hnt

lemma TableTree.fresh (hfree : bitmapTest s.pmm k = false)
    (hq : q.length ≤ 3) : walk (child n0 s.words) 0 root q ≠ some (k * pageSize) := by
  intro hw
  obtain ⟨j, he, -, hu⟩ := h.used q _ hq hw
  rw [eq_of_mul_eq_mul_right (by decide) he, hu] at hfree
  cases hfree

lemma TableTree.of_walk
    (hwalk : ∀ q, q.length ≤ 3 → walk (child n0 s'.words) 0 root q = walk (child n0 s.words) 0 root q)
    (hpml4 : ∀ i < n0, s'.words (root + 8 * i) = s.words (root + 8 * i))
    (hpmm : ∀ q k, q.length ≤ 3 → walk (child n0 s.words) 0 root q = some (k * pageSize) →
      bitmapTest s.pmm k = true → bitmapTest s'.pmm k = true)
    (hdm : s'.directMapSize = s.directMapSize) : TableTree n0 root s' := by
  refine ⟨h.width, fun p q n hp hq hpn hqn => ?_, fun q t hq ht => ?_, fun i hi hp => ?_, ?_⟩
  · rw [hwalk p hp] at hpn
    rw [hwalk q hq] at hqn
    exact h.noSharing p q n hp hq hpn hqn
  · rw [hwalk q hq] at ht
    obtain ⟨k, rfl, hk, hu⟩ := h.used q t hq ht
    exact ⟨k, rfl, hk, hpmm q k hq ht hu⟩
  · rw [hpml4 i hi] at hp ⊢
    exact h.pml4 i hi hp
  · rw [hdm]
    exact h.directMap

end

/-- The tree of `s'` is the tree of `s` with more empty tables, on pages that were
free. -/
structure Grown (n0 root : ℕ) (s s' : Vmm) : Prop where
  tree : TableTree n0 root s'
  lookup : ∀ path, InRange n0 0 path → path.length = 4 → lookup s'.words root path = lookup s.words root path
  walk : ∀ q t, q.length ≤ 3 → walk (child n0 s.words) 0 root q = some t → walk (child n0 s'.words) 0 root q = some t
  used : ∀ k, bitmapTest s'.pmm k = true ↔ bitmapTest s.pmm k = true ∨
    ∃ q, q.length ≤ 3 ∧ PointerTree.walk (child n0 s'.words) 0 root q = some (k * pageSize)
  fresh : ∀ q t, q.length ≤ 3 → PointerTree.walk (child n0 s'.words) 0 root q = some t →
    PointerTree.walk (child n0 s.words) 0 root q = some t ∨ bitmapTest s.pmm (t / pageSize) = false
  active : s'.activePml4Phys = s.activePml4Phys

/-- The tables on the way of an address. -/
def tablePath (virt : ℕ) : List ℕ := [pml4Index virt, pdptIndex virt, pdIndex virt]

/-- A word of a page in use that is no entry of a table. -/
structure Kept (n0 root : ℕ) (s : Vmm) (x : ℕ) : Prop where
  used : bitmapTest s.pmm (x / pageSize) = true
  apart : ∀ q t i, q.length ≤ 3 → walk (child n0 s.words) 0 root q = some t → i < width n0 q.length → x ≠ t + 8 * i

/-- The entries that lead to tables allow writes. -/
def WritableTables (n0 root : ℕ) (s : Vmm) : Prop :=
  ∀ q t i, q.length < 3 → walk (child n0 s.words) 0 root q = some t → i < width n0 q.length →
    s.words (t + 8 * i) &&& pagePresent ≠ 0 → s.words (t + 8 * i) &&& pageWritable ≠ 0

/-- The tree has grown along the way of an address. Every other word keeps its value. -/
structure Extended (n0 root virt : ℕ) (s s' : Vmm) : Prop extends Grown n0 root s s' where
  kept : ∀ x, Kept n0 root s x → s'.words x = s.words x
  along : ∀ q t, q.length ≤ 3 → PointerTree.walk (child n0 s'.words) 0 root q = some t →
    PointerTree.walk (child n0 s.words) 0 root q = some t ∨ q <+: tablePath virt
  writable : WritableTables n0 root s → WritableTables n0 root s'

lemma Grown.refl (h : TableTree n0 root s) : Grown n0 root s s := by
  refine ⟨h, fun _ _ _ => rfl, fun _ _ _ ht => ht, fun k => ⟨.inl, ?_⟩, fun _ _ _ ht => .inl ht, rfl⟩
  rintro (hk | ⟨q, hq, ht⟩)
  · exact hk
  · obtain ⟨k', he, -, hu⟩ := h.used q _ hq ht
    rwa [eq_of_mul_eq_mul_right (by decide) he]

lemma Grown.trans (h1 : Grown n0 root s s') (h2 : Grown n0 root s' s'') : Grown n0 root s s'' := by
  refine ⟨h2.tree, fun path hr hl => (h2.lookup path hr hl).trans (h1.lookup path hr hl),
    fun q t hq ht => h2.walk q t hq (h1.walk q t hq ht), fun k => ?_, fun q t hq ht => ?_,
    h2.active.trans h1.active⟩
  · rw [h2.used k, h1.used k]
    constructor
    · rintro ((hk | ⟨q, hq, ht⟩) | hk)
      · exact .inl hk
      · exact .inr ⟨q, hq, h2.walk q _ hq ht⟩
      · exact .inr hk
    rintro (hk | hk)
    · exact .inl (.inl hk)
    · exact .inr hk
  rcases h2.fresh q t hq ht with ht' | hfree
  · exact h1.fresh q t hq ht'
  right
  by_contra hu
  have hu' : bitmapTest s.pmm (t / pageSize) = true := by simpa using hu
  have := (h1.used (t / pageSize)).mpr (.inl hu')
  rw [hfree] at this
  cases this

lemma Kept.grown {x : ℕ} (h : Kept n0 root s x) (hg : Grown n0 root s s') : Kept n0 root s' x := by
  refine ⟨(hg.used _).mpr (.inl h.used), fun q t i hq hw hi => ?_⟩
  rcases hg.fresh q t hq hw with hw' | hfree
  · exact h.apart q t i hq hw' hi
  rintro rfl
  have halign := (hg.tree.aligned hq hw).1
  have hi' := hg.tree.lt hi
  have hpage : (t + 8 * i) / pageSize = t / pageSize := by
    simp only [pageSize]
    omega
  rw [← hpage, h.used] at hfree
  cases hfree

lemma Extended.refl (h : TableTree n0 root s) (virt : ℕ) : Extended n0 root virt s s :=
  ⟨.refl h, fun _ _ => rfl, fun _ _ _ hw => .inl hw, id⟩

lemma Extended.trans {virt : ℕ} (h : Extended n0 root virt s s') (h' : Extended n0 root virt s' s'') :
    Extended n0 root virt s s'' := by
  refine ⟨h.toGrown.trans h'.toGrown, fun x hx => ?_, fun q t hq hw => ?_, fun hs => h'.writable (h.writable hs)⟩
  · rw [h'.kept x (hx.grown h.toGrown), h.kept x hx]
  rcases h'.along q t hq hw with hw' | hpre
  · exact h.along q t hq hw'
  · exact .inr hpre

/-! ## Growing by one table -/

/-- The entry for a new table. -/
def tableEntry (page extraFlags : ℕ) : ℕ :=
  (page &&& pageMask) ||| pagePresent ||| pageWritable ||| extraFlags

lemma tableEntry_spec {extra : ℕ} (hk : k < maxPages) (hmask : extra &&& pageMask = 0)
    (hlarge : extra &&& pageLarge = 0) :
    tableEntry (k * pageSize) extra &&& pageMask = k * pageSize ∧
      tableEntry (k * pageSize) extra &&& pagePresent ≠ 0 ∧
      tableEntry (k * pageSize) extra &&& pageLarge = 0 := by
  have hpage : k * pageSize &&& pageMask = k * pageSize := by
    rw [and_pageMask]
    simp only [maxPages, pageSize] at hk ⊢
    omega
  have hpm : pagePresent &&& pageMask = 0 := by decide
  have hwm : pageWritable &&& pageMask = 0 := by decide
  have hpl : pagePresent &&& pageLarge = 0 := by decide
  have hwl : pageWritable &&& pageLarge = 0 := by decide
  have hml : pageMask &&& pageLarge = 0 := by decide
  unfold tableEntry
  refine ⟨?_, or_and_ne_zero (.inl (or_and_ne_zero (.inl (or_and_ne_zero (.inr (by decide)))))), ?_⟩
  · rw [and_or_distrib_right, and_or_distrib_right, and_or_distrib_right, hpm, hwm,
      hmask, Nat.and_assoc, Nat.and_self, hpage, or_zero, or_zero, or_zero]
  · rw [and_or_distrib_right, and_or_distrib_right, and_or_distrib_right, hpl, hwl,
      hlarge, Nat.and_assoc, hml, and_zero, or_zero, or_zero, or_zero]

lemma tableEntry_writable (page extra : ℕ) : tableEntry page extra &&& pageWritable ≠ 0 :=
  or_and_ne_zero (.inl (or_and_ne_zero (.inr (by decide))))

/-- The memory after a new table `c` was cleared and entered into slot `i` of `t`. -/
def graft (s : Vmm) (t i c entry : ℕ) : Vmm := (zeroEntries s c 512).store t i entry

/-- Slot `i` of the table `t` at the end of `p` is empty, and `e` is an entry for the page `c`,
which is no table so far. -/
structure Graftable (n0 root : ℕ) (s : Vmm) (p : List ℕ) (t i c e : ℕ) : Prop where
  tree : TableTree n0 root s
  parent : walk (child n0 s.words) 0 root p = some t
  short : p.length < 3
  slot : i < width n0 p.length
  absent : s.words (t + 8 * i) &&& pagePresent = 0
  aligned : c % 4096 = 0
  fresh : ∀ q, q.length ≤ 3 → walk (child n0 s.words) 0 root q ≠ some c
  mask : e &&& pageMask = c
  present : e &&& pagePresent ≠ 0
  small : e &&& pageLarge = 0

lemma graft_self {c e : ℕ} : (graft s t i c e).words (t + 8 * i) = e := by simp [graft, Vmm.store]

lemma graft_frame (s : Vmm) (t i c e : ℕ) : (graft s t i c e).pmm = s.pmm ∧
    (graft s t i c e).activePml4Phys = s.activePml4Phys ∧
    (graft s t i c e).directMapSize = s.directMapSize := by
  -- `rw`, since the kernel would unfold the 512 rounds to compare the two sides of a `simp` step
  rw [graft, store_pmm, store_activePml4Phys, store_directMapSize]
  exact zeroEntries_frame s c 512

namespace Graftable

variable {p : List ℕ} {t i c e j : ℕ}

section

variable (h : Graftable n0 root s p t i c e)
include h

/-- Entries of the old tables are as before, the one in slot `i` of `t` excepted. -/
lemma words_old {n : ℕ} (hq : q.length ≤ 3)
    (hn : walk (child n0 s.words) 0 root q = some n) (hj : j < 512) (hne : ¬(q = p ∧ j = i)) :
    (graft s t i c e).words (n + 8 * j) = s.words (n + 8 * j) := by
  have hp := h.short
  have hca := h.aligned
  have hna := (h.tree.aligned hq hn).1
  have hslot := h.tree.slot_ne hn h.parent hq (by omega) hj (h.tree.lt h.slot) hne
  have hnc : n ≠ c := by
    rintro rfl
    exact h.fresh q hq hn
  simp only [graft, Vmm.store, update_of_ne hslot]
  exact zeroEntries_outside s c 512 (by omega)

lemma words_new (hj : j < 512) : (graft s t i c e).words (c + 8 * j) = 0 := by
  have hp := h.short
  have htc : c ≠ t := by
    rintro rfl
    exact h.fresh p (by omega) h.parent
  have hslot := slot_ne h.aligned (h.tree.aligned (by omega) h.parent).1 hj (h.tree.lt h.slot) (.inl htc)
  simp only [graft, Vmm.store, update_of_ne hslot]
  exact zeroEntries_load s c 512 hj

lemma walk_eq :
    ∀ q, q.length ≤ 3 → walk (child n0 (graft s t i c e).words) 0 root q =
      if q = p ++ [i] then some c else walk (child n0 s.words) 0 root q := by
  have hlen := h.short
  refine walk_graft h.parent (child_eq_none h.absent) ?_ (fun j _ => ?_) fun q n j hq hn hne => ?_
  · rw [child_eq_some h.slot (by rw [graft_self]; exact h.present) (.inr (by rw [graft_self]; exact h.small)),
      graft_self, h.mask]
  · by_cases hj : j < width n0 (p.length + 1)
    · refine child_eq_none ?_
      rw [h.words_new (h.tree.lt hj), zero_and]
    · unfold child
      rw [if_neg fun hcond => hj hcond.1]
  · exact child_congr fun hj => h.words_old (by omega) hn (h.tree.lt hj) hne

lemma lookup_eq {path : List ℕ} (hrange : InRange n0 0 path)
    (hpath : path.length = 4) : lookup (graft s t i c e).words root path = lookup s.words root path := by
  have hlen := h.short
  by_cases hthrough : ∃ rest, path = p ++ i :: rest
  · -- the path ended at the absent entry, and ends one level further down now
    obtain ⟨rest, rfl⟩ := hthrough
    have hwalk := h.walk_eq p (by omega)
    rw [if_neg (by simp), h.parent] at hwalk
    simp only [length_append, length_cons] at hpath
    rw [lookup_walk (by simp) (by omega) h.parent, lookup_walk (by simp) (by omega) hwalk]
    cases rest with
    | nil => simp at hpath; omega
    | cons j rest =>
      have hempty : (graft s t i c e).words (c + 8 * j) &&& pagePresent = 0 := by
        rw [h.words_new (h.tree.lt hrange.append_right.2.1), zero_and]
      rw [lookup_absent h.absent, lookup_down (by simp) (by rw [graft_self]; exact h.present)
        (by rw [graft_self]; exact h.small), graft_self, h.mask, lookup_absent hempty]
  refine lookup_of_entries h.tree.width hrange hpath fun q j rest n he hq hn hj => h.words_old hq hn hj ?_
  rintro ⟨rfl, rfl⟩
  exact hthrough ⟨rest, he⟩

lemma tree_graft (hused : ∃ k, c = k * pageSize ∧ k < maxPages ∧ bitmapTest s.pmm k = true) :
    TableTree n0 root (graft s t i c e) := by
  obtain ⟨hpmm, -, hdm⟩ := graft_frame s t i c e
  refine ⟨h.tree.width, h.tree.noSharing.graft h.walk_eq h.fresh, fun q u hq hu => ?_, fun j hj hpres => ?_, ?_⟩
  · rw [h.walk_eq q hq] at hu
    rw [hpmm]
    split at hu
    · cases hu
      exact hused
    · exact h.tree.used q u hq hu
  · by_cases he : [] = p ∧ j = i
    · obtain ⟨rfl, rfl⟩ := he
      obtain rfl := some.inj h.parent
      rw [graft_self]
      exact h.small
    have hsame := h.words_old (q := []) (Nat.zero_le 3) rfl (Nat.lt_of_lt_of_le hj h.tree.width) he
    rw [hsame] at hpres ⊢
    exact h.tree.pml4 j hj hpres
  · rw [hdm]
    exact h.tree.directMap

end

end Graftable

/-- The flags of an entry that leave its address alone and do not mark a large page. -/
structure TableFlags (extra : ℕ) : Prop where
  mask : extra &&& pageMask = 0
  large : extra &&& pageLarge = 0

section

variable {p : List ℕ} {t i extra virt : ℕ}

lemma graft_extended {pmm : Pmm}
    (h : Graftable n0 root { s with pmm := pmm } p t i (k * pageSize) (tableEntry (k * pageSize) extra))
    (htree : TableTree n0 root s) (hpre : p ++ [i] <+: tablePath virt) (hk : k < maxPages)
    (hfree : bitmapTest s.pmm k = false) (hused : ∀ q, bitmapTest pmm q = (bitmapTest s.pmm q || decide (q = k))) :
    Extended n0 root virt s
      (graft { s with pmm := pmm } t i (k * pageSize) (tableEntry (k * pageSize) extra)) := by
  have hlen := h.short
  have hlen' : (p ++ [i]).length ≤ 3 := by
    simp only [length_append, length_singleton]
    omega
  have hwalk := h.walk_eq
  have hgrown := h.tree_graft ⟨k, rfl, hk, by rw [hused k]; simp⟩
  obtain ⟨hpmm, hactive, -⟩ := graft_frame { s with pmm := pmm } t i (k * pageSize) (tableEntry (k * pageSize) extra)
  refine ⟨⟨hgrown, fun path hr hl => h.lookup_eq hr hl, fun q u hq hu => ?_, fun j => ?_, fun q u hq hu => ?_,
    hactive⟩, fun x hx => ?_, fun q u hq hu => ?_, fun hwr q u j hq hu hj hpres => ?_⟩
  · rw [hwalk q hq, if_neg]
    · exact hu
    rintro rfl
    rw [walk_concat, h.parent] at hu
    exact absurd ((child_eq_none h.absent).symm.trans hu) (by simp)
  · rw [hpmm, hused j]
    constructor
    · intro hj
      rcases Bool.or_eq_true_iff.mp hj with hj | hj
      · exact .inl hj
      right
      refine ⟨p ++ [i], hlen', ?_⟩
      rw [hwalk _ hlen', if_pos rfl, of_decide_eq_true hj]
    rintro (hj | ⟨q, hq, hw⟩)
    · rw [hj, Bool.true_or]
    obtain ⟨k', he, -, hu⟩ := hgrown.used q _ hq hw
    rw [hpmm] at hu
    rw [← hused j, eq_of_mul_eq_mul_right (by decide) he]
    exact hu
  · rw [hwalk q hq] at hu
    split at hu
    · right
      cases hu
      rw [Nat.mul_div_cancel k (by decide)]
      exact hfree
    · exact .inl hu
  · have hslot : x ≠ t + 8 * i := hx.apart p t i (by omega) h.parent h.slot
    have hpage : x < k * pageSize ∨ k * pageSize + 8 * 512 ≤ x := by
      by_contra hc
      have hxk : x / pageSize = k := by
        simp only [pageSize] at hc ⊢
        omega
      have hxu := hx.used
      rw [hxk, hfree] at hxu
      cases hxu
    simp only [graft, Vmm.store, update_of_ne hslot]
    exact zeroEntries_outside _ _ 512 hpage
  · rw [hwalk q hq] at hu
    split at hu
    next hq' => exact .inr (hq' ▸ hpre)
    · exact .inl hu
  rw [hwalk q (by omega)] at hu
  split at hu
  · -- the entries of the new table are zero
    cases hu
    rw [h.words_new (htree.lt hj), zero_and] at hpres
    exact absurd rfl hpres
  by_cases hsame : q = p ∧ j = i
  · obtain ⟨rfl, rfl⟩ := hsame
    obtain rfl := some.inj (h.parent.symm.trans hu)
    rw [graft_self]
    exact tableEntry_writable _ _
  have hold := h.words_old (q := q) (by omega) hu (htree.lt hj) hsame
  rw [hold] at hpres ⊢
  exact hwr q u j hq hu hj hpres

/-- `ensure_table` gives up without a page or at a large page, and else returns the
table behind the entry, in a tree that has grown at most. -/
theorem ensureTableIn_spec (h : TableTree n0 root s) (hp : walk (child n0 s.words) 0 root p = some t)
    (hlen : p.length < 3) (hi : i < width n0 p.length) (hx : TableFlags extra) (hpre : p ++ [i] <+: tablePath virt) :
    (ensureTableIn s t i extra = .ok (none, s) ∧ child n0 s.words p.length t i = none ∧
      ((∀ k < maxPages, bitmapTest s.pmm k = true) ∨
        s.words (t + 8 * i) &&& pagePresent ≠ 0 ∧ s.words (t + 8 * i) &&& pageLarge ≠ 0)) ∨
      ∃ c s', ensureTableIn s t i extra = .ok (some c, s') ∧ Extended n0 root virt s s' ∧
        walk (child n0 s'.words) 0 root (p ++ [i]) = some c := by
  have hlen' : (p ++ [i]).length ≤ 3 := by
    simp only [length_append, length_singleton]
    omega
  unfold ensureTableIn
  by_cases hpres : s.load t i &&& pagePresent = 0
  · rw [if_pos hpres]
    rcases pmmAllocPage_spec s.pmm with ⟨halloc, hall⟩ | ⟨k, pmm', halloc, hk, hfree, hused⟩
    · left
      rw [halloc]
      exact ⟨rfl, child_eq_none hpres, .inl hall⟩
    right
    have hcfail : k * pageSize ≠ allocFailed := by
      simp only [maxPages, pageSize, allocFailed] at hk ⊢
      omega
    have hclt : k * pageSize < s.directMapSize := by
      have := h.directMap
      simp only [maxPages, maxPhysBytes, pageSize] at hk this ⊢
      omega
    obtain ⟨hmask, hep, hel⟩ := tableEntry_spec hk hx.mask hx.large
    have h1 : TableTree n0 root { s with pmm := pmm' } := by
      refine h.of_walk (fun _ _ => rfl) (fun _ _ => rfl) (fun _ q _ _ hq => ?_) rfl
      rw [hused q, hq, Bool.true_or]
    have hgraft : Graftable n0 root { s with pmm := pmm' } p t i (k * pageSize) (tableEntry (k * pageSize) extra) :=
      ⟨h1, hp, hlen, hi, hpres, mul_mod_left k 4096, fun q hq => h.fresh hfree hq, hmask, hep, hel⟩
    have hext := graft_extended hgraft h hpre hk hfree hused
    have hwalk := hgraft.walk_eq _ hlen'
    rw [if_pos rfl] at hwalk
    have hframe := graft_frame { s with pmm := pmm' } t i (k * pageSize) (tableEntry (k * pageSize) extra)
    generalize hs2 : graft { s with pmm := pmm' } t i (k * pageSize)
      (tableEntry (k * pageSize) extra) = s2 at hwalk hext hframe
    refine ⟨k * pageSize, s2, ?_, hext, hwalk⟩
    have hbody : (do
        let t' ← physToVirt s2 (s2.load t i &&& pageMask)
        return (some t', s2) : Except String (Option ℕ × Vmm)) = .ok (some (k * pageSize), s2) := by
      rw [← hs2, Vmm.load, graft_self, hmask, hs2, physToVirt_of_lt s2 (hframe.2.2.symm ▸ hclt)]
      rfl
    rw [halloc, if_neg hcfail, ← hbody, ← hs2]
    dsimp only
    rw [physToVirt_of_lt { s with pmm := pmm' } hclt]
    simp only [bind, Except.bind, graft, tableEntry]
  · rw [if_neg hpres]
    by_cases hl : s.load t i &&& pageLarge ≠ 0
    · left
      rw [if_pos hl]
      refine ⟨rfl, ?_, .inr ⟨hpres, hl⟩⟩
      unfold child
      rw [if_neg]
      rintro ⟨-, -, h3 | h0⟩
      · omega
      · exact hl h0
    right
    rw [if_neg hl]
    have hwalk := walk_child hp hi hpres (not_not.mp hl)
    refine ⟨_, s, ?_, .refl h virt, hwalk⟩
    rw [show s.load t i &&& pageMask = s.words (t + 8 * i) &&& pageMask from rfl, h.physToVirt hlen' hwalk]
    rfl

end

end

end AetherOS.Mem
