import Mathlib.Algebra.BigOperators.Group.Finset.Basic
import Mathlib.Algebra.Order.BigOperators.Group.Finset
import Mathlib.Tactic

/-!
# Bitmaps, counts and totals

Objects are kept in groups. Every group has a bitmap and a count of its free objects, and
there is a total of the counts. The three are updated together when an object is taken;
giving it back is the same step in the other direction.
-/
namespace AetherOS.FreeCounts
open Nat Finset

/-- The groups that are counted, how many bits of a bitmap stand for objects, how many
bits a bitmap has, and the objects that exist. A group with an object has its first one. -/
structure Shape where
  groups : ℕ
  size : ℕ
  width : ℕ
  real : ℕ → ℕ → Prop
  real_zero : ∀ i j, real i j → real i 0

/-- The three records of what is free. -/
structure Ledger where
  bits : ℕ → ℕ → Bool
  counts : ℕ → ℕ
  total : ℕ

section

variable (sh : Shape) [∀ i j, Decidable (sh.real i j)]

/-- The objects of a group whose bit is clear. -/
def freeBits (l : Ledger) (i : ℕ) : Finset ℕ :=
  {j ∈ Finset.range sh.size | sh.real i j ∧ l.bits i j = false}

/-- The counts are the numbers of clear bits, and the total is their sum. -/
structure Balanced (l : Ledger) : Prop where
  size_le : sh.size ≤ sh.width
  counts : ∀ i < sh.groups, l.counts i = (freeBits sh l i).card
  total : l.total = ∑ i ∈ Finset.range sh.groups, l.counts i

omit [∀ i j, Decidable (sh.real i j)] in
/-- The records are the same. -/
structure Agree (l l' : Ledger) : Prop where
  bits : ∀ k m, sh.real k 0 → m < sh.width → l'.bits k m = l.bits k m
  counts : ∀ k < sh.groups, l'.counts k = l.counts k
  total : l'.total = l.total

omit [∀ i j, Decidable (sh.real i j)] in
/-- `l'` is `l` after object `j` of group `i`, which was free, is taken. -/
structure Taken (l l' : Ledger) (i j : ℕ) : Prop where
  group : i < sh.groups
  lt : j < sh.size
  real : sh.real i j
  clear : l.bits i j = false
  set : l'.bits i j = true
  others : ∀ k m, sh.real k 0 → m < sh.width → (k, m) ≠ (i, j) → l'.bits k m = l.bits k m
  count : l'.counts i + 1 = l.counts i
  counts : ∀ k < sh.groups, k ≠ i → l'.counts k = l.counts k
  total : l'.total + 1 = l.total

end

section

variable {sh : Shape} {l l' l'' : Ledger} {i j : ℕ}

lemma Agree.refl (l : Ledger) : Agree sh l l := ⟨fun _ _ _ _ => rfl, fun _ _ => rfl, rfl⟩

lemma Agree.symm (h : Agree sh l l') : Agree sh l' l :=
  ⟨fun k m hk hm => (h.bits k m hk hm).symm, fun k hk => (h.counts k hk).symm, h.total.symm⟩

lemma Agree.trans (h : Agree sh l l') (h' : Agree sh l' l'') : Agree sh l l'' :=
  ⟨fun k m hk hm => (h'.bits k m hk hm).trans (h.bits k m hk hm),
    fun k hk => (h'.counts k hk).trans (h.counts k hk), h'.total.trans h.total⟩

lemma Taken.agree (h : Taken sh l l' i j) (hw : j < sh.width) (ha : Agree sh l' l'') :
    Taken sh l l'' i j where
  __ := h
  set := (ha.bits i j (sh.real_zero i j h.real) hw).trans h.set
  others k m hk hm hne := (ha.bits k m hk hm).trans (h.others k m hk hm hne)
  count := (congrArg (· + 1) (ha.counts i h.group)).trans h.count
  counts k hk hne := (ha.counts k hk).trans (h.counts k hk hne)
  total := (congrArg (· + 1) ha.total).trans h.total

/-- Giving an object back undoes taking it. -/
theorem Taken.restored (h : Taken sh l l' i j) (h' : Taken sh l'' l' i j) : Agree sh l l'' where
  bits k m hk hm := by
    by_cases he : (k, m) = (i, j)
    · cases he
      rw [h.clear, h'.clear]
    · rw [← h.others k m hk hm he, ← h'.others k m hk hm he]
  counts k hk := by
    by_cases hki : k = i
    · subst hki
      rw [← h.count, ← h'.count]
    · rw [← h.counts k hk hki, ← h'.counts k hk hki]
  total := by rw [← h.total, ← h'.total]

end

section

variable {sh : Shape} [∀ i j, Decidable (sh.real i j)] {l l' : Ledger} {i j k : ℕ}

lemma mem_freeBits {m : ℕ} : m ∈ freeBits sh l k ↔ m < sh.size ∧ sh.real k m ∧ l.bits k m = false := by
  rw [freeBits, mem_filter, mem_range]

lemma freeBits_congr (h : ∀ m < sh.size, sh.real k m → l'.bits k m = l.bits k m) :
    freeBits sh l' k = freeBits sh l k := by
  ext m
  rw [mem_freeBits, mem_freeBits]
  exact and_congr_right fun hm => and_congr_right fun hr => by rw [h m hm hr]

lemma Balanced.of_eq {sh' : Shape} [∀ i j, Decidable (sh'.real i j)] (he : sh' = sh)
    (h : Balanced sh l) : Balanced sh' l := by
  subst he
  convert h

theorem Agree.balanced (ha : Agree sh l l') (h : Balanced sh l) : Balanced sh l' where
  size_le := h.size_le
  counts k hk := by
    have hle := h.size_le
    rw [ha.counts k hk, h.counts k hk, freeBits_congr fun m hm hr =>
      ha.bits k m (sh.real_zero k m hr) (by omega)]
  total := by
    rw [ha.total, h.total]
    exact sum_congr rfl fun k hk => (ha.counts k (mem_range.mp hk)).symm

section

variable (h : Taken sh l l' i j) (hle : sh.size ≤ sh.width)
include h hle

lemma Taken.freeBits_self : freeBits sh l' i = (freeBits sh l i).erase j := by
  ext m
  rw [mem_erase, mem_freeBits, mem_freeBits]
  by_cases hmj : m = j
  · subst hmj
    simp [h.set]
  constructor
  · rintro ⟨hm, hr, hb⟩
    rw [h.others i m (sh.real_zero i m hr) (by omega) (by simp [hmj])] at hb
    exact ⟨hmj, hm, hr, hb⟩
  rintro ⟨-, hm, hr, hb⟩
  rw [← h.others i m (sh.real_zero i m hr) (by omega) (by simp [hmj])] at hb
  exact ⟨hm, hr, hb⟩

lemma Taken.freeBits_of_ne (hk : k ≠ i) : freeBits sh l' k = freeBits sh l k :=
  freeBits_congr fun m hm hr => h.others k m (sh.real_zero k m hr) (by omega) (by simp [hk])

lemma Taken.card : (freeBits sh l' i).card + 1 = (freeBits sh l i).card := by
  have hmem : j ∈ freeBits sh l i := mem_freeBits.mpr ⟨h.lt, h.real, h.clear⟩
  rw [h.freeBits_self hle, card_erase_add_one hmem]

end

omit [∀ i j, Decidable (sh.real i j)] in
lemma Taken.sum (h : Taken sh l l' i j) :
    ∑ k ∈ Finset.range sh.groups, l'.counts k + 1 = ∑ k ∈ Finset.range sh.groups, l.counts k := by
  have hi : i ∈ Finset.range sh.groups := mem_range.mpr h.group
  have hrest : ∑ k ∈ (Finset.range sh.groups).erase i, l'.counts k =
      ∑ k ∈ (Finset.range sh.groups).erase i, l.counts k := by
    refine sum_congr rfl fun k hk => ?_
    obtain ⟨hne, hlt⟩ := mem_erase.mp hk
    exact h.counts k (mem_range.mp hlt) hne
  rw [← add_sum_erase _ _ hi, ← add_sum_erase _ _ hi, hrest, ← h.count]
  omega

/-- Taking a bit and giving it back keep the balance. -/
theorem Taken.balanced_iff (h : Taken sh l l' i j) : Balanced sh l' ↔ Balanced sh l := by
  have hcounts (hle : sh.size ≤ sh.width) : ∀ k < sh.groups,
      l'.counts k = (freeBits sh l' k).card ↔ l.counts k = (freeBits sh l k).card := by
    intro k hk
    by_cases hki : k = i
    · subst hki
      have h1 := h.card hle
      have h2 := h.count
      omega
    · rw [h.counts k hk hki, h.freeBits_of_ne hle hki]
  have h1 := h.sum
  have h2 := h.total
  exact ⟨fun hb => ⟨hb.size_le, fun k hk => (hcounts hb.size_le k hk).mp (hb.counts k hk), by have := hb.total; omega⟩,
    fun hb => ⟨hb.size_le, fun k hk => (hcounts hb.size_le k hk).mpr (hb.counts k hk), by have := hb.total; omega⟩⟩

/-! Bounds on the records, so that fields of a fixed width can hold them. -/

lemma Balanced.count_le_total (hb : Balanced sh l) (hi : i < sh.groups) : l.counts i ≤ l.total := by
  rw [hb.total]
  exact Finset.single_le_sum (fun _ _ => Nat.zero_le _) (mem_range.mpr hi)

lemma Balanced.count_lt (hb : Balanced sh l) (hi : i < sh.groups) (hj : j < sh.size)
    (hset : l.bits i j = true) : l.counts i < sh.size := by
  rw [hb.counts i hi]
  have hsub : freeBits sh l i ⊆ (Finset.range sh.size).erase j := by
    intro m hm
    obtain ⟨hlt, -, hclear⟩ := mem_freeBits.mp hm
    refine mem_erase.mpr ⟨?_, mem_range.mpr hlt⟩
    rintro rfl
    rw [hset] at hclear
    cases hclear
  have hcard := card_le_card hsub
  rw [card_erase_of_mem (mem_range.mpr hj), card_range] at hcard
  omega

/-- With the objects numbered through, the total is less than their number once an object
is in use. -/
lemma Balanced.total_lt (hb : Balanced sh l) {n : ℕ} (hn : ∀ i j, sh.real i j → i * sh.size + j < n)
    (hj : j < sh.size) (hr : sh.real i j) (hset : l.bits i j = true) : l.total < n := by
  have hsum : l.total = ((Finset.range sh.groups).sigma fun k => freeBits sh l k).card := by
    rw [hb.total, Finset.card_sigma]
    exact sum_congr rfl fun k hk => hb.counts k (mem_range.mp hk)
  have hdiv : ∀ k m, m < sh.size → (k * sh.size + m) / sh.size = k ∧ (k * sh.size + m) % sh.size = m := by
    intro k m hm
    rw [mul_comm, mul_add_div (by omega), div_eq_of_lt hm, mul_add_mod, mod_eq_of_lt hm]
    exact ⟨add_zero k, rfl⟩
  have hle : ((Finset.range sh.groups).sigma fun k => freeBits sh l k).card ≤
      ((Finset.range n).erase (i * sh.size + j)).card := by
    refine card_le_card_of_injOn (fun x => x.1 * sh.size + x.2) (fun x hx => ?_)
      fun x hx y hy hxy => ?_
    · obtain ⟨-, hx⟩ := mem_sigma.mp (mem_coe.mp hx)
      obtain ⟨hlt, hreal, hclear⟩ := mem_freeBits.mp hx
      refine mem_coe.mpr (mem_erase.mpr ⟨fun he => ?_, mem_range.mpr (hn _ _ hreal)⟩)
      have h1 := hdiv x.1 x.2 hlt
      have h2 := hdiv i j hj
      simp only at he
      rw [he] at h1
      rw [← h1.1, ← h1.2, h2.1, h2.2, hset] at hclear
      cases hclear
    · obtain ⟨-, hx⟩ := mem_sigma.mp (mem_coe.mp hx)
      obtain ⟨-, hy⟩ := mem_sigma.mp (mem_coe.mp hy)
      have h1 := hdiv x.1 x.2 (mem_freeBits.mp hx).1
      have h2 := hdiv y.1 y.2 (mem_freeBits.mp hy).1
      simp only at hxy
      rw [hxy] at h1
      exact Sigma.ext (h1.1.symm.trans h2.1) (heq_of_eq (h1.2.symm.trans h2.2))
  have hmem : i * sh.size + j ∈ Finset.range n := mem_range.mpr (hn i j hr)
  rw [card_erase_of_mem hmem, card_range] at hle
  have hpos := hn i j hr
  omega

end

end AetherOS.FreeCounts
