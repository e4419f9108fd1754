import AetherOS.BootLoader

/-!
# The tables that the loader leaves

The identity map and the direct map are made of large pages below two slots of the root, and
the kernel's pages hang below a third. Every table is a page that the firmware gave out for
it, so that neither the segments nor the memory map fall on one.
-/
namespace AetherOS.Boot
open Mem PointerTree ByteMemory Function List Option Nat

/-- The tables as the functions of the kernel see them; no page is free. -/
def tables (words : ℕ → ℕ) (root : ℕ) : Vmm := ⟨words, ⟨fun _ => BitVec.allOnes 64, 0⟩, root, earlyDirectMapSize⟩

/-- The table at the end of a path of slots. -/
abbrev Loader.table (s : Loader) (root : ℕ) (q : List ℕ) : Option ℕ := walk (child 512 s.words) 0 root q

/-- The slots of the root for the identity map and the direct map. -/
def Direct (i : ℕ) : Prop := i = 0 ∨ i = 256

structure Tables (root : ℕ) (s : Loader) : Prop where
  tree : TableTree 512 root (tables s.words root)
  allocated : ∀ q t, q.length ≤ 3 → s.table root q = some t → (t, 1) ∈ s.allocated
  large : ∀ q t i, q.length ≤ 2 → s.table root q = some t → i < 512 → s.words (t + 8 * i) &&& pagePresent ≠ 0 →
    s.words (t + 8 * i) &&& pageLarge ≠ 0 → ∃ a b, q = [a, b] ∧ Direct a
  direct : ∀ a b c t, s.table root [a, b, c] = some t → ¬Direct a

/-- No lookup sees a difference. -/
def SameLookups (root : ℕ) (s s' : Loader) : Prop :=
  ∀ path, InRange 512 0 path → path.length = 4 → lookup s'.words root path = lookup s.words root path

section

variable {root : ℕ} {s s' : Loader}

lemma bitmapTest_tables (words : ℕ → ℕ) (root k : ℕ) : bitmapTest (tables words root).pmm k = true := by
  have hlt : k % 64 < 64 := mod_lt _ (by decide)
  rw [bitmapTest_eq]
  change (BitVec.allOnes 64).getLsbD (k % 64) = true
  rw [BitVec.getLsbD_allOnes]
  exact decide_eq_true hlt

lemma zeroEntries_tables (words : ℕ → ℕ) (root c n : ℕ) :
    zeroEntries (tables words root) c n = tables (zeroWords words c n) root := by
  induction n with
  | zero => rfl
  | succ n ih =>
    rw [zeroEntries, ih]
    rfl

lemma zeroWords_outside (words : ℕ → ℕ) (dest n : ℕ) {a : ℕ} (ha : a < dest ∨ dest + 8 * n ≤ a) :
    zeroWords words dest n a = words a := by
  have h := zeroEntries_outside (tables words 0) dest n ha
  rwa [zeroEntries_tables] at h

lemma graft_tables (words : ℕ → ℕ) (root t i c e : ℕ) : graft (tables words root) t i c e =
    tables (update (zeroWords words c 512) (t + 8 * i) e) root := by
  rw [graft, zeroEntries_tables]
  rfl

lemma Tables.frame (h : Tables root s)
    (hwords : ∀ q t j, q.length ≤ 3 → s.table root q = some t → j < 512 → s'.words (t + 8 * j) = s.words (t + 8 * j))
    (halloc : ∀ r ∈ s.allocated, r ∈ s'.allocated) :
    Tables root s' ∧ SameLookups root s s' ∧ ∀ q, q.length ≤ 3 → s'.table root q = s.table root q := by
  have hwalk : ∀ q, q.length ≤ 3 → s'.table root q = s.table root q := by
    refine walk_congr fun q n j hq hn => child_congr fun hj => ?_
    exact hwords q n j (by omega) hn (lt_of_lt_of_le hj (width_le (le_refl _) _))
  refine ⟨⟨?_, fun q t hq ht => ?_, fun q t i hq ht hi => ?_, fun a b c t ht => ?_⟩, fun path hr hl => ?_, hwalk⟩
  · exact h.tree.of_walk hwalk (fun i hi => hwords [] root i (by simp) rfl hi)
      (fun _ k _ _ _ => bitmapTest_tables _ _ k) rfl
  · rw [hwalk q hq] at ht
    exact halloc _ (h.allocated q t hq ht)
  · rw [hwalk q (by omega)] at ht
    rw [hwords q t i (by omega) ht hi]
    exact h.large q t i hq ht hi
  · rw [hwalk _ (by simp)] at ht
    exact h.direct a b c t ht
  · exact lookup_of_entries (le_refl _) hr hl fun q j _ n _ hq hn hj => hwords q n j hq hn hj

lemma Tables.store_words (h : Tables root s) {p : List ℕ} {t i : ℕ} (e : ℕ) (hp : s.table root p = some t)
    (hlen : p.length ≤ 3) (hi : i < 512) {q : List ℕ} {n j : ℕ} (hq : q.length ≤ 3) (hn : s.table root q = some n)
    (hj : j < 512) (hne : ¬(q = p ∧ j = i)) : (s.store t i e).words (n + 8 * j) = s.words (n + 8 * j) := by
  have hslot := h.tree.slot_ne hn hp hq hlen hj hi hne
  exact update_of_ne hslot _ _

end

/-! ## One page -/

section

variable {fw : Firmware} {root flags i phys virt : ℕ} {s s' : Loader}

section

variable (h : Tables root s)
include h

/-- The next table, which is new where the slot was empty. -/
theorem pageTableNext_spec {p : List ℕ} {t c : ℕ} (hp : s.table root p = some t)
    (hlen : p.length < 3) (hi : i < 512) (hdir : ∀ a b, p = [a, b] → ¬Direct a)
    (hs : pageTableNext fw s t i = some (c, s')) :
    Tables root s' ∧ SameLookups root s s' ∧ s'.table root (p ++ [i]) = some c := by
  have hi' : i < width 512 p.length := by
    unfold width
    split <;> exact hi
  unfold pageTableNext at hs
  by_cases hpres : s.load t i &&& pagePresent = 0
  · rw [if_pos hpres] at hs
    obtain ⟨⟨a, s1⟩, halloc, hs⟩ := map_eq_some_iff.mp hs
    obtain ⟨a', ha, he⟩ := map_eq_some_iff.mp halloc
    obtain ⟨rfl, rfl⟩ := Prod.mk.inj he
    have hal := fw.aligned ha
    have hbelow := fw.below ha
    obtain ⟨k, rfl⟩ : ∃ k, a' = k * pageSize := ⟨a' / pageSize, by simp only [pageSize] at hal ⊢; omega⟩
    have hk : k < maxPages := by
      simp only [maxPages, pageSize, earlyDirectMapSize] at hbelow ⊢
      omega
    -- tables are pages of earlier ranges
    have hfresh : ∀ q, q.length ≤ 3 → s.table root q ≠ some (k * pageSize) := by
      intro q hq hw
      have hr := fw.fresh ha _ (h.allocated q _ hq hw)
      simp only [pageSize] at hr
      omega
    obtain ⟨hmask, hep, hel⟩ := tableEntry_spec hk (zero_and pageMask) (zero_and pageLarge)
    have hentry : (k * pageSize &&& pageMask) ||| pagePresent ||| pageWritable = tableEntry (k * pageSize) 0 :=
      (or_zero _).symm
    dsimp only at hs
    rw [hentry, one_mul] at hs
    generalize tableEntry (k * pageSize) 0 = e at hs hmask hep hel
    have hgraft : Graftable 512 root (tables s.words root) p t i (k * pageSize) e :=
      ⟨h.tree, hp, hlen, hi', hpres, hal, hfresh, hmask, hep, hel⟩
    have hwalk := hgraft.walk_eq
    have htree := hgraft.tree_graft ⟨k, rfl, hk, bitmapTest_tables _ _ k⟩
    have hlook : ∀ path, InRange 512 0 path → path.length = 4 →
        lookup (graft (tables s.words root) t i (k * pageSize) e).words root path = lookup s.words root path :=
      fun _ hr hl => hgraft.lookup_eq hr hl
    have hsame := fun q n j hq hn hj hne => hgraft.words_old (q := q) (n := n) (j := j) hq hn hj hne
    have hnew := fun j hj => hgraft.words_new (j := j) hj
    rw [graft_tables] at hwalk htree hlook hsame hnew
    obtain ⟨hc, rfl⟩ := Prod.mk.inj hs
    have hself : update (zeroWords s.words (k * pageSize) 512) (t + 8 * i) e (t + 8 * i) = e :=
      update_self _ _ _
    refine ⟨⟨htree, fun q u hq hu => ?_, fun q u j hq hu hj hpr hla => ?_, fun a b d u hu => ?_⟩, hlook, ?_⟩
    · have hu' := (hwalk q hq).symm.trans hu
      split at hu'
      · obtain rfl := some.inj hu'
        exact mem_cons_self
      · exact mem_cons_of_mem _ (h.allocated q u hq hu')
    · have hu' := (hwalk q (by omega)).symm.trans hu
      split at hu'
      · obtain rfl := some.inj hu'
        exact absurd ((congrArg (· &&& pagePresent) (hnew j hj)).trans (zero_and _)) hpr
      by_cases hqp : q = p ∧ j = i
      · obtain ⟨rfl, rfl⟩ := hqp
        obtain rfl := some.inj (hp.symm.trans hu')
        exact absurd ((congrArg (· &&& pageLarge) hself).trans hel) hla
      have hw := hsame q u j (by omega) hu' hj hqp
      exact h.large q u j hq hu' hj (fun h0 => hpr ((congrArg (· &&& pagePresent) hw).trans h0))
        fun h0 => hla ((congrArg (· &&& pageLarge) hw).trans h0)
    · have hu' := (hwalk _ (by simp)).symm.trans hu
      split at hu'
      · rename_i he
        have hpab : p = [a, b] := by
          have hd := congrArg List.dropLast he
          simpa using hd.symm
        exact hdir a b hpab
      · exact h.direct a b d u hu'
    · have hlast := hwalk (p ++ [i]) (by simp only [length_append, length_singleton]; omega)
      rw [if_pos rfl] at hlast
      rw [← hc]
      exact hlast.trans (congrArg some ((congrArg (· &&& pageMask) hself).trans hmask).symm)
  · rw [if_neg hpres] at hs
    obtain ⟨rfl, rfl⟩ := Prod.mk.inj (some.inj hs)
    have hsmall : s.words (t + 8 * i) &&& pageLarge = 0 := by
      by_contra hla
      obtain ⟨a, b, hab, ha⟩ := h.large p t i (by omega) hp hi hpres hla
      exact hdir a b hab ha
    exact ⟨h, fun _ _ _ => rfl, walk_child hp hi' hpres hsmall⟩

lemma Tables.store_large {a b pd e : ℕ} (hp : s.table root [a, b] = some pd) (ha : Direct a)
    (hi : i < 512) (hpres : e &&& pagePresent ≠ 0) (hlarge : e &&& pageLarge ≠ 0) :
    Tables root (s.store pd i e) ∧ ∀ path, InRange 512 0 path → path.length = 4 →
      lookup (s.store pd i e).words root path =
        if path.take 3 = [a, b, i] then some (e, 1) else lookup s.words root path := by
  have hself : (s.store pd i e).words (pd + 8 * i) = e := update_self _ _ _
  have hwords := fun q n j (hq : q.length ≤ 3) (hn : s.table root q = some n) (hj : j < 512)
    (hne : ¬(q = [a, b] ∧ j = i)) => h.store_words e hp (by simp) hi hq hn hj hne
  have hold : child 512 s.words 2 pd i = none := by
    rcases hc : child 512 s.words 2 pd i with _ | t
    · rfl
    have hw : s.table root ([a, b] ++ [i]) = some t := by
      have hpd : walk (child 512 s.words) 0 root [a, b] = some pd := hp
      rw [Loader.table, walk_concat, hpd]
      exact hc
    exact absurd ha (h.direct a b i t hw)
  have hnew : child 512 (s.store pd i e).words 2 pd i = none := by
    unfold child
    rw [hself, if_neg]
    rintro ⟨-, -, h3 | h0⟩
    · omega
    · exact hlarge h0
  have hwalk : ∀ q, q.length ≤ 3 → (s.store pd i e).table root q = s.table root q := by
    refine walk_congr fun q n j hq hn => ?_
    by_cases hqj : q = [a, b] ∧ j = i
    · obtain ⟨rfl, rfl⟩ := hqj
      obtain rfl := some.inj (hp.symm.trans hn)
      exact hnew.trans hold.symm
    · refine child_congr fun hj => ?_
      exact hwords q n j (by omega) hn (lt_of_lt_of_le hj (width_le (le_refl _) _)) hqj
  refine ⟨⟨?_, fun q t hq ht => ?_, fun q t j hq ht hj hpr hla => ?_, fun x y z t ht => ?_⟩, fun path hr hl => ?_⟩
  · refine h.tree.of_walk hwalk (fun j hj => ?_) (fun _ k _ _ _ => bitmapTest_tables _ _ k) rfl
    exact hwords [] root j (by simp) rfl hj (by simp)
  · rw [hwalk q hq] at ht
    exact h.allocated q t hq ht
  · rw [hwalk q (by omega)] at ht
    by_cases hqj : q = [a, b] ∧ j = i
    · exact ⟨a, b, hqj.1, ha⟩
    · rw [hwords q t j (by omega) ht hj hqj] at hpr hla
      exact h.large q t j hq ht hj hpr hla
  · rw [hwalk _ (by simp)] at ht
    exact h.direct x y z t ht
  by_cases htake : path.take 3 = [a, b, i]
  · obtain ⟨j, rfl⟩ : ∃ j, path = [a, b] ++ i :: [j] := by
      match path, hl with
      | [w, x, y, z], _ =>
        simp only [take_succ_cons, take_zero, List.cons.injEq, and_true] at htake
        obtain ⟨rfl, rfl, rfl⟩ := htake
        exact ⟨z, rfl⟩
    rw [if_pos htake, lookup_walk (by simp) (by simp) ((hwalk [a, b] (by simp)).trans hp),
      lookup_leaf (by rw [hself]; exact hpres) (.inr (by rw [hself]; exact hlarge)), hself]
    rfl
  · rw [if_neg htake]
    refine lookup_of_entries (le_refl _) hr hl fun q j rest n he hq hn hj => hwords q n j hq hn hj ?_
    rintro ⟨rfl, rfl⟩
    exact htake (by rw [he]; rfl)

/-- `map_2m_page` below the slots of the identity map and the direct map. -/
theorem map2mPage_spec (hv : Direct (pml4Index virt)) (hs : map2mPage fw s root virt phys flags = some s') :
    Tables root s' ∧ ∀ path, InRange 512 0 path → path.length = 4 → lookup s'.words root path =
      if path.take 3 = tablePath virt then
        some ((phys &&& pageMask) ||| flags ||| pagePresent ||| pageLarge, 1)
      else lookup s.words root path := by
  obtain ⟨h4, h3, h2, -⟩ := indices_lt virt
  obtain ⟨⟨pdpt, s1⟩, hs1, hs⟩ := bind_eq_some_iff.mp hs
  obtain ⟨⟨pd, s2⟩, hs2, hs⟩ := bind_eq_some_iff.mp hs
  obtain rfl := some.inj hs
  obtain ⟨ht1, hl1, hw1⟩ := pageTableNext_spec h (p := []) rfl (by simp) h4 (by simp) hs1
  obtain ⟨ht2, hl2, hw2⟩ := pageTableNext_spec ht1 hw1 (by simp) h3 (by simp) hs2
  have hpres : (phys &&& pageMask ||| flags ||| pagePresent ||| pageLarge) &&& pagePresent ≠ 0 :=
    or_and_ne_zero (.inl (or_and_ne_zero (.inr (by decide))))
  obtain ⟨ht3, hl3⟩ := ht2.store_large hw2 hv h2 hpres (or_and_ne_zero (.inr (by decide)))
  refine ⟨ht3, fun path hr hl => ?_⟩
  rw [hl3 path hr hl, hl2 path hr hl, hl1 path hr hl]
  rfl

/-- `map_4k_page` outside these slots changes one lookup. -/
theorem map4kPage_spec (hv : ¬Direct (pml4Index virt)) (hs : map4kPage fw s root virt phys flags = some s') :
    Tables root s' ∧ ∀ path, InRange 512 0 path → path.length = 4 → path ≠ Mem.path virt →
      lookup s'.words root path = lookup s.words root path := by
  obtain ⟨h4, h3, h2, h1⟩ := indices_lt virt
  obtain ⟨⟨pdpt, s1⟩, hs1, hs⟩ := bind_eq_some_iff.mp hs
  obtain ⟨⟨pd, s2⟩, hs2, hs⟩ := bind_eq_some_iff.mp hs
  obtain ⟨⟨pt, s3⟩, hs3, hs⟩ := bind_eq_some_iff.mp hs
  obtain rfl := some.inj hs
  obtain ⟨ht1, hl1, hw1⟩ := pageTableNext_spec h (p := []) rfl (by simp) h4 (by simp) hs1
  obtain ⟨ht2, hl2, hw2⟩ := pageTableNext_spec ht1 hw1 (by simp) h3 (by simp) hs2
  have hdir : ∀ a b, [] ++ [pml4Index virt] ++ [pdptIndex virt] = [a, b] → ¬Direct a := by
    intro a b hab
    obtain rfl : pml4Index virt = a := by simpa using (List.cons.inj hab).1
    exact hv
  obtain ⟨ht3, hl3, hw3⟩ := pageTableNext_spec ht2 hw2 (by simp) h2 hdir hs3
  generalize (phys &&& pageMask) ||| flags ||| pagePresent = e
  obtain ⟨htree, hwalk, hlook⟩ := store_leaf ht3.tree hw3 rfl h1 e
  have hwalk : ∀ q, q.length ≤ 3 → (s3.store pt (ptIndex virt) e).table root q = s3.table root q := hwalk
  refine ⟨⟨htree, fun q t hq ht => ?_, fun q t j hq ht hj hpr hla => ?_, fun a b c t ht => ?_⟩,
    fun path hr hl hne => ?_⟩
  · rw [hwalk q hq] at ht
    exact ht3.allocated q t hq ht
  · rw [hwalk q (by omega)] at ht
    have hq3 : ¬(q = [] ++ [pml4Index virt] ++ [pdptIndex virt] ++ [pdIndex virt] ∧ j = ptIndex virt) := by
      rintro ⟨rfl, -⟩
      simp at hq
    rw [ht3.store_words e hw3 (by simp) h1 (by omega) ht hj hq3] at hpr hla
    exact ht3.large q t j hq ht hj hpr hla
  · rw [hwalk _ (by simp)] at ht
    exact ht3.direct a b c t ht
  · refine (hlook path hr hl).trans ((if_neg hne).trans ?_)
    exact ((hl3 path hr hl).trans (hl2 path hr hl)).trans (hl1 path hr hl)

end

end

/-! ## The identity map and the direct map -/

/-- The slots of large page `j` below slot `a` of the root. -/
def largePath (a j : ℕ) : List ℕ := [a, j / 512, j % 512]

def largeEntry (j : ℕ) : ℕ := (j * twoMib &&& pageMask) ||| pageWritable ||| pagePresent ||| pageLarge

/-- The first 64 GiB are mapped one to one below both slots. -/
def DirectLookups (root : ℕ) (s : Loader) : Prop :=
  ∀ a, Direct a → ∀ j < 2 ^ 15, ∀ path, InRange 512 0 path → path.length = 4 → path.take 3 = largePath a j →
    lookup s.words root path = some (largeEntry j, 1)

lemma tablePath_add (m : ℕ) {x : ℕ} (hx : x < 2 ^ 36) :
    tablePath (m * 2 ^ 39 + x) = largePath (m % 512) (x / 2 ^ 21) := by
  have h4 : (m * 2 ^ 39 + x) / 2 ^ 39 % 512 = m % 512 := by omega
  have h3 : (m * 2 ^ 39 + x) / 2 ^ 30 % 512 = x / 2 ^ 21 / 512 := by omega
  have h2 : (m * 2 ^ 39 + x) / 2 ^ 21 % 512 = x / 2 ^ 21 % 512 := by omega
  simp only [tablePath, largePath, pml4Index, pdptIndex, pdIndex, and_indexMask, h4, h3, h2]

lemma largePath_inj {a j k : ℕ} (h : largePath a j = largePath a k) : j = k := by
  simp only [largePath, List.cons.injEq, and_true, true_and] at h
  omega

lemma largeEntry_mask {j : ℕ} (hj : j < 2 ^ 15) : largeEntry j &&& pageMask = j * twoMib := by
  have hp : pagePresent &&& pageMask = 0 := by decide
  have hw : pageWritable &&& pageMask = 0 := by decide
  have hl : pageLarge &&& pageMask = 0 := by decide
  have hj' : j * twoMib &&& pageMask = j * twoMib := by
    rw [and_pageMask]
    simp only [twoMib]
    omega
  unfold largeEntry
  rw [and_or_distrib_right, and_or_distrib_right, and_or_distrib_right, hp, hw, hl, Nat.and_assoc,
    Nat.and_self, hj', or_zero, or_zero, or_zero]

section

variable {fw : Firmware} {root : ℕ} {s s' : Loader}

lemma mapPages_succ (f : Loader → ℕ → ℕ → Option Loader) (s : Loader) (virt phys size n : ℕ) :
    mapPages f s virt phys size (n + 1) = (mapPages f s virt phys size n).bind fun s =>
      f s ((virt + n * size) % 2 ^ 64) ((phys + n * size) % 2 ^ 64) := by
  simp only [mapPages, range_succ, foldlM_append, foldlM_cons, foldlM_nil, bind_pure]
  rfl

/-- After `n` rounds the first `n` large pages are mapped and nothing else has changed. -/
lemma map2mLoop_spec (h : Tables root s) {m : ℕ} (hm : Direct (m % 512)) (hend : m * 2 ^ 39 + 2 ^ 36 ≤ 2 ^ 64) (n : ℕ) :
    n ≤ 2 ^ 15 → ∀ {s'},
      mapPages (fun s v p => map2mPage fw s root v p pageWritable) s (m * 2 ^ 39) 0 twoMib n = some s' →
      Tables root s' ∧ ∀ path, InRange 512 0 path → path.length = 4 →
        (∀ j < n, path.take 3 = largePath (m % 512) j → lookup s'.words root path = some (largeEntry j, 1)) ∧
        ((∀ j < n, path.take 3 ≠ largePath (m % 512) j) → lookup s'.words root path = lookup s.words root path) := by
  have h2 : twoMib = 2 ^ 21 := rfl
  induction n with
  | zero =>
    intro _ s' hs
    obtain rfl := some.inj hs
    exact ⟨h, fun _ _ _ => ⟨fun j hj => absurd hj (Nat.not_lt_zero j), fun _ => rfl⟩⟩
  | succ n ih =>
    intro hn s' hs
    rw [mapPages_succ] at hs
    obtain ⟨s1, hs1, hs⟩ := bind_eq_some_iff.mp hs
    obtain ⟨ht1, hl1⟩ := ih (by omega) hs1
    have hvirt : (m * 2 ^ 39 + n * twoMib) % 2 ^ 64 = m * 2 ^ 39 + n * 2 ^ 21 := by
      rw [h2]
      omega
    have hphys : (0 + n * twoMib) % 2 ^ 64 = n * twoMib := by
      rw [h2]
      omega
    have hpath : tablePath (m * 2 ^ 39 + n * 2 ^ 21) = largePath (m % 512) n := by
      rw [tablePath_add m (by omega), Nat.mul_div_cancel n (by decide)]
    have hdir : Direct (pml4Index (m * 2 ^ 39 + n * 2 ^ 21)) := by
      rw [(List.cons.inj hpath).1]
      exact hm
    rw [hvirt, hphys] at hs
    obtain ⟨ht2, hl2⟩ := map2mPage_spec ht1 hdir hs
    refine ⟨ht2, fun path hr hl => ?_⟩
    have hlook := hl2 path hr hl
    rw [hpath] at hlook
    constructor
    · intro j hj htake
      by_cases hjn : j = n
      · rw [hlook, if_pos (hjn ▸ htake), hjn]
        rfl
      · rw [hlook, if_neg fun hc => hjn (largePath_inj (htake.symm.trans hc))]
        exact (hl1 path hr hl).1 j (by omega) htake
    · intro hout
      rw [hlook, if_neg (hout n (by omega))]
      exact (hl1 path hr hl).2 fun j hj => hout j (by omega)

lemma tables_of_zero (hzero : ∀ i < 512, s.words (root + 8 * i) = 0) (hal : root % pageSize = 0)
    (hlt : root + pageSize ≤ earlyDirectMapSize) (hmem : (root, 1) ∈ s.allocated) : Tables root s := by
  have hnone : ∀ i q, s.table root (i :: q) = none := by
    intro i q
    have hchild : child 512 s.words 0 root i = none := by
      by_cases hi : i < 512
      · exact child_eq_none (by rw [hzero i hi, zero_and])
      · unfold child
        rw [if_neg fun hc => hi hc.1]
    rw [Loader.table, walk, hchild]
    rfl
  have hroot : ∀ q t, s.table root q = some t → q = [] ∧ t = root := by
    intro q t ht
    cases q with
    | nil => exact ⟨rfl, (some.inj ht).symm⟩
    | cons i q =>
      rw [hnone i q] at ht
      cases ht
  refine ⟨⟨le_refl _, fun p q n _ _ hp hq => ?_, fun q t _ ht => ?_, fun i hi hpres => ?_,
      (by decide : maxPhysBytes ≤ earlyDirectMapSize)⟩, fun q t _ ht => ?_, fun q t i _ ht hi hpres => ?_,
    fun a b c t ht => ?_⟩
  · rw [(hroot p n hp).1, (hroot q n hq).1]
  · obtain ⟨-, rfl⟩ := hroot q t ht
    refine ⟨t / pageSize, ?_, ?_, bitmapTest_tables _ _ _⟩
    · simp only [pageSize] at hal ⊢
      omega
    · simp only [pageSize, maxPages, earlyDirectMapSize] at hlt ⊢
      omega
  · exact absurd (by rw [show (tables s.words root).words (root + 8 * i) = 0 from hzero i hi, zero_and]) hpres
  · rw [(hroot q t ht).2]
    exact hmem
  · rw [(hroot q t ht).2, hzero i hi, zero_and] at hpres
    exact absurd rfl hpres
  · rw [hnone a [b, c]] at ht
    cases ht

lemma zeroWords_inside (words : ℕ → ℕ) (dest n : ℕ) {i : ℕ} (hi : i < n) :
    zeroWords words dest n (dest + 8 * i) = 0 := by
  have h := zeroEntries_load (tables words 0) dest n hi
  rwa [zeroEntries_tables] at h

theorem earlyTables_spec (hs : earlyTables fw s = some (root, s')) : Tables root s' ∧ DirectLookups root s' := by
  have hpages : alignUp earlyDirectMapSize twoMib / twoMib = 2 ^ 15 := by decide
  have hbase : directMapBase = 33554176 * 2 ^ 39 := by decide
  obtain ⟨⟨pml4, s0⟩, hs0, hs⟩ := bind_eq_some_iff.mp hs
  obtain ⟨s1, hs1, hs⟩ := bind_eq_some_iff.mp hs
  obtain ⟨s2, hs2, hs⟩ := bind_eq_some_iff.mp hs
  obtain ⟨rfl, rfl⟩ := Prod.mk.inj (some.inj hs)
  obtain ⟨a, ha, he⟩ := map_eq_some_iff.mp hs0
  obtain ⟨rfl, rfl⟩ := Prod.mk.inj he
  have hlt := fw.below ha
  rw [one_mul] at hlt
  have ht0 : Tables a ⟨zeroWords s.words a (1 * 512), (a, 1) :: s.allocated⟩ :=
    tables_of_zero (fun i hi => zeroWords_inside _ _ _ hi) (fw.aligned ha) hlt mem_cons_self
  rw [map2mRange, hpages, ← Nat.zero_mul (2 ^ 39)] at hs1
  rw [map2mRange, hpages, hbase] at hs2
  obtain ⟨ht1, hl1⟩ := map2mLoop_spec ht0 (.inl rfl) (by decide) (2 ^ 15) (le_refl _) hs1
  obtain ⟨ht2, hl2⟩ := map2mLoop_spec ht1 (.inr rfl) (by decide) (2 ^ 15) (le_refl _) hs2
  refine ⟨ht2, fun i hi j hj path hr hl htake => ?_⟩
  rcases hi with rfl | rfl
  · -- the direct map hangs below another slot
    rw [(hl2 path hr hl).2 fun k _ hk => absurd (List.cons.inj (htake.symm.trans hk)).1 (by decide)]
    exact (hl1 path hr hl).1 j hj htake
  · exact (hl2 path hr hl).1 j hj htake

end

/-! ## The kernel and the memory map -/

/-- What is changed in the tables hangs below the last slot of the root. -/
structure Kept (root : ℕ) (s s' : Loader) : Prop where
  tables : Tables root s'
  lookup : ∀ path, InRange 512 0 path → path.length = 4 → path.head? ≠ some 511 →
    lookup s'.words root path = lookup s.words root path

section

variable {fw : Firmware} {f : KernelFile} {root a pages : ℕ} {s s' : Loader} {range : KernelRange} {ph : Phdr}

lemma Kept.trans {s'' : Loader} (h1 : Kept root s s') (h2 : Kept root s' s'') : Kept root s s'' :=
  ⟨h2.tables, fun path hr hl hh => (h2.lookup path hr hl hh).trans (h1.lookup path hr hl hh)⟩

lemma Kept.directLookups (h : Kept root s s') (hd : DirectLookups root s) : DirectLookups root s' := by
  intro a ha j hj path hr hl htake
  have hhead : path.head? ≠ some 511 := by
    match path, hl with
    | [w, x, y, z], _ =>
      have hw : w = a := (List.cons.inj htake).1
      rcases ha with rfl | rfl
      · simp [hw]
      · simp [hw]
  rw [h.lookup path hr hl hhead]
  exact hd a ha j hj path hr hl htake

lemma pml4Index_kernel {v : ℕ} (hv : kernelVmaBase ≤ v) (hlt : v < 2 ^ 64) : pml4Index v = 511 := by
  simp only [kernelVmaBase] at hv
  simp only [pml4Index, and_indexMask]
  omega

lemma loadSize_spec (hpaddr : ph.pPaddr < 2 ^ 40) (hmem : ph.pMemsz ≤ 2 ^ 31) : ∃ n,
    loadSize ph = n * 4096 ∧ alignDown ph.pPaddr pageSize ≤ ph.pPaddr ∧
      ph.pPaddr + ph.pMemsz ≤ alignDown ph.pPaddr pageSize + n * 4096 := by
  have hdown : alignDown ph.pPaddr pageSize = ph.pPaddr / 4096 * 4096 := rfl
  have hsum : (ph.pPaddr + ph.pMemsz) % 2 ^ 64 = ph.pPaddr + ph.pMemsz := mod_eq_of_lt (by omega)
  have hup : alignUp (ph.pPaddr + ph.pMemsz) pageSize = (ph.pPaddr + ph.pMemsz + 4095) / 4096 * 4096 := by
    have hlt : ph.pPaddr + ph.pMemsz + 4096 - 1 < 2 ^ 64 := by omega
    change (ph.pPaddr + ph.pMemsz + 4096 - 1) % 2 ^ 64 / 4096 * 4096 = _
    rw [mod_eq_of_lt hlt]
    rfl
  refine ⟨(ph.pPaddr + ph.pMemsz + 4095) / 4096 - ph.pPaddr / 4096, ?_, ?_, ?_⟩
  · rw [loadSize, hsum, hup, hdown]
    omega
  · rw [hdown]
    omega
  · rw [hdown]
    omega

/-- The buffer is none of the tables. -/
def Apart (root : ℕ) (s : Loader) (buffer pages : ℕ) : Prop :=
  ∀ q t, q.length ≤ 3 → s.table root q = some t → buffer + pages * pageSize ≤ t ∨ t + pageSize ≤ buffer

section

variable (h : Tables root s)
include h

lemma Kept.refl : Kept root s s := ⟨h, fun _ _ _ _ => rfl⟩

lemma Kept.of_frame (hwords : ∀ t j, (t, 1) ∈ s.allocated → j < 512 → s'.words (t + 8 * j) = s.words (t + 8 * j))
    (halloc : ∀ r ∈ s.allocated, r ∈ s'.allocated) : Kept root s s' := by
  obtain ⟨ht, hl, -⟩ := h.frame (fun q t j hq hw hj => hwords t j (h.allocated q t hq hw) hj) halloc
  exact ⟨ht, fun path hr hlen _ => hl path hr hlen⟩

lemma map4kRange_kept {virt phys size flags : ℕ} (hv : kernelVmaBase ≤ virt)
    (hend : virt + size ≤ 2 ^ 64) (hs : map4kRange fw s root virt phys size flags = some s') : Kept root s s' := by
  have hloop : ∀ n, (∀ i < n, virt + i * pageSize < 2 ^ 64) → ∀ {s'},
      mapPages (fun s v p => map4kPage fw s root v p flags) s virt phys pageSize n = some s' → Kept root s s' := by
    intro n
    induction n with
    | zero =>
      intro _ s' hs
      obtain rfl := some.inj hs
      exact .refl h
    | succ n ih =>
      intro hlt s' hs
      rw [mapPages_succ] at hs
      obtain ⟨s1, hs1, hs⟩ := bind_eq_some_iff.mp hs
      have h1 := ih (fun i hi => hlt i (by omega)) hs1
      have hn := hlt n (by omega)
      rw [mod_eq_of_lt hn] at hs
      have hindex := pml4Index_kernel (le_trans hv (Nat.le_add_right virt (n * pageSize))) hn
      have hdir : ¬Direct (pml4Index (virt + n * pageSize)) := by
        rw [hindex]
        rintro (h0 | h0)
        · omega
        · omega
      obtain ⟨ht2, hl2⟩ := map4kPage_spec h1.tables hdir hs
      refine h1.trans ⟨ht2, fun path hr hl hh => hl2 path hr hl fun he => hh ?_⟩
      rw [he, ← hindex]
      rfl
  refine hloop _ (fun i hi => ?_) hs
  simp only [alignUp, pageSize, kernelVmaBase] at hi hv ⊢
  omega

lemma fillSegment_kept (hmem : ph.pMemsz ≤ 2 ^ 31) (hfile : ph.pFilesz ≤ ph.pMemsz)
    (ha : fw.allocatePages s.allocated (.address (alignDown ph.pPaddr pageSize)) (loadSize ph / pageSize) = some a) :
    Kept root s (fillSegment f s ph) := by
  obtain rfl := fw.requested ha
  have hpaddr : ph.pPaddr < 2 ^ 40 := by
    have hbelow := le_trans (Nat.le_add_right _ _) (fw.below ha)
    simp only [alignDown, pageSize, earlyDirectMapSize] at hbelow
    omega
  obtain ⟨n, hn, hdown, hup⟩ := loadSize_spec hpaddr hmem
  have hpages : loadSize ph / pageSize = n := by
    rw [hn]
    exact Nat.mul_div_cancel n (by decide)
  have hwords : loadSize ph / 8 = n * 512 := by
    rw [hn]
    omega
  refine .of_frame h (fun t j ht hj => ?_) fun r hr => mem_cons_of_mem _ hr
  have hfresh := fw.fresh ha _ ht
  rw [hpages] at hfresh
  simp only [fillSegment, hwords]
  generalize alignDown ph.pPaddr pageSize = start at hfresh hdown hup
  simp only [pageSize] at hfresh
  have hcopy : t + 8 * j + 8 ≤ ph.pPaddr ∨ ph.pPaddr + ph.pFilesz ≤ t + 8 * j := by omega
  rw [memCopy, if_pos hcopy]
  exact zeroWords_outside _ _ _ (by omega)

lemma loadSegment_kept {range' : KernelRange} {i : ℕ}
    (hfit : (f.phdr i).pType = ptLoad → (f.phdr i).pVaddr + (f.phdr i).pMemsz ≤ 2 ^ 64)
    (hs : loadSegment fw f root s range (f.phdr i) = some (s', range')) : Kept root s s' := by
  unfold loadSegment at hs
  split at hs
  · obtain ⟨rfl, -⟩ := Prod.mk.inj (some.inj hs)
    exact .refl h
  rename_i htype
  split at hs
  · cases hs
  rename_i hsize
  split at hs
  · cases hs
  rename_i haddr
  obtain ⟨a, ha, hs⟩ := bind_eq_some_iff.mp hs
  obtain ⟨s1, hs1, he⟩ := map_eq_some_iff.mp hs
  obtain ⟨rfl, -⟩ := Prod.mk.inj he
  have hend := hfit (not_not.mp htype)
  have hv : kernelVmaBase ≤ (f.phdr i).pVaddr := by
    by_contra hlt
    exact haddr (.inl (by omega))
  have hfile : (f.phdr i).pFilesz ≤ (f.phdr i).pMemsz := by
    by_contra hlt
    exact hsize (.inl (by omega))
  have hmem : (f.phdr i).pMemsz ≤ 2 ^ 31 := by
    simp only [kernelVmaBase] at hv
    omega
  have hfill := fillSegment_kept (f := f) h hmem hfile ha
  exact hfill.trans (map4kRange_kept hfill.tables hv hend hs1)

/-- Loading the kernel changes only what hangs below the last slot. -/
theorem loadKernelSegments_kept
    (hfit : ∀ i < f.ePhnum, (f.phdr i).pType = ptLoad → (f.phdr i).pVaddr + (f.phdr i).pMemsz ≤ 2 ^ 64)
    (hs : loadKernelSegments fw f root s = some (s', range)) : Kept root s s' := by
  have hloop : ∀ l : List ℕ, (∀ i ∈ l, i < f.ePhnum) → ∀ {s s' : Loader} {r r' : KernelRange}, Tables root s →
      l.foldlM (fun (x : Loader × KernelRange) i => loadSegment fw f root x.1 x.2 (f.phdr i)) (s, r) = some (s', r') →
        Kept root s s' := by
    intro l
    induction l with
    | nil =>
      intro _ s s' r r' h hs
      obtain ⟨rfl, -⟩ := Prod.mk.inj (some.inj hs)
      exact .refl h
    | cons i l ih =>
      intro hl s s' r r' h hs
      rw [foldlM_cons] at hs
      obtain ⟨⟨s1, r1⟩, hs1, hs⟩ := bind_eq_some_iff.mp hs
      have h1 := loadSegment_kept h (hfit i (hl i (by simp))) hs1
      exact h1.trans (ih (fun j hj => hl j (by simp [hj])) h1.tables hs)
  obtain ⟨⟨s1, r1⟩, hs1, hs⟩ := bind_eq_some_iff.mp hs
  dsimp only at hs
  split at hs
  · cases hs
  · obtain ⟨rfl, -⟩ := Prod.mk.inj (some.inj hs)
    exact hloop _ (fun i hi => mem_range.mp hi) h hs1

lemma allocLowPages_kept (hs : allocLowPages fw s pages = some (a, s')) : Kept root s s' ∧ Apart root s' a pages := by
  obtain ⟨a', ha, he⟩ := map_eq_some_iff.mp hs
  obtain ⟨rfl, rfl⟩ := Prod.mk.inj he
  have hwords : ∀ q t j, q.length ≤ 3 → s.table root q = some t → j < 512 →
      zeroWords s.words a' (pages * 512) (t + 8 * j) = s.words (t + 8 * j) := by
    intro q t j hq ht hj
    have hfresh := fw.fresh ha _ (h.allocated q t hq ht)
    simp only [pageSize] at hfresh
    exact zeroWords_outside _ _ _ (by omega)
  have halloc : ∀ r ∈ s.allocated, r ∈ (a', pages) :: s.allocated := fun r hr => mem_cons_of_mem _ hr
  obtain ⟨ht, hl, hwalk⟩ : Tables root ⟨zeroWords s.words a' (pages * 512), (a', pages) :: s.allocated⟩ ∧ _ ∧ _ :=
    h.frame hwords halloc
  refine ⟨⟨ht, fun path hr hlen _ => hl path hr hlen⟩, fun q t hq hw => ?_⟩
  rw [hwalk q hq] at hw
  have hfresh := fw.fresh ha _ (h.allocated q t hq hw)
  rw [one_mul] at hfresh
  exact hfresh

lemma fillBuffer_kept {buffer : ℕ} (hap : Apart root s buffer pages) (map : ℕ → ℕ) :
    Kept root s (fillBuffer s buffer pages map) ∧ Apart root (fillBuffer s buffer pages map) buffer pages := by
  have hwords : ∀ q t j, q.length ≤ 3 → s.table root q = some t → j < 512 →
      (fillBuffer s buffer pages map).words (t + 8 * j) = s.words (t + 8 * j) := by
    intro q t j hq ht hj
    have hout := hap q t hq ht
    simp only [fillBuffer, pageSize] at hout ⊢
    rw [if_neg]
    omega
  obtain ⟨ht, hl, hwalk⟩ := h.frame hwords fun r hr => hr
  refine ⟨⟨ht, fun path hr hlen _ => hl path hr hlen⟩, fun q t hq hw => ?_⟩
  rw [hwalk q hq] at hw
  exact hap q t hq hw

end

lemma memoryMapLoop_kept (replies : List MapReply) : ∀ {s s' : Loader} {buffer pages mapSize b : ℕ}, Tables root s →
    Apart root s buffer pages → memoryMapLoop fw s buffer pages mapSize replies = some (b, s') → Kept root s s' := by
  induction replies with
  | nil =>
    intro s s' buffer pages mapSize b _ _ hs
    cases hs
  | cons reply replies ih =>
    intro s s' buffer pages mapSize b h hap hs
    cases reply with
    | tooSmall descriptorSize =>
      obtain ⟨⟨a, s1⟩, hs1, hs⟩ := bind_eq_some_iff.mp hs
      obtain ⟨hk, hap1⟩ := allocLowPages_kept h hs1
      exact hk.trans (ih hk.tables hap1 hs)
    | failed => cases hs
    | written map exited =>
      obtain ⟨hk, hap1⟩ := fillBuffer_kept h hap map
      cases exited with
      | true =>
        obtain ⟨-, rfl⟩ := Prod.mk.inj (some.inj hs)
        exact hk
      | false => exact hk.trans (ih hk.tables hap1 hs)

lemma getFinalMemoryMap_kept (h : Tables root s) {mapSize descriptorSize b : ℕ} {replies : List MapReply}
    (hs : getFinalMemoryMap fw s mapSize descriptorSize replies = some (b, s')) : Kept root s s' := by
  unfold getFinalMemoryMap at hs
  split at hs
  · cases hs
  obtain ⟨⟨a, s1⟩, hs1, hs⟩ := bind_eq_some_iff.mp hs
  obtain ⟨hk, hap⟩ := allocLowPages_kept h hs1
  exact hk.trans (memoryMapLoop_kept replies hk.tables hap hs)

end

/-! ## What the kernel finds -/

/-- The first 64 GiB are seen at their own addresses and in the direct map. -/
def DirectMapped (v : Vmm) : Prop :=
  ∀ x < earlyDirectMapSize, vmmVirtToPhys v x = .ok (some x) ∧ vmmVirtToPhys v (directMapBase + x) = .ok (some x)

/-- The memory of the loader with its tables active. -/
def withTables (s : Loader) (pmm : Pmm) (root : ℕ) : Vmm := ⟨s.words, pmm, root, earlyDirectMapSize⟩

lemma directMapped_of_lookups {root : ℕ} {s : Loader} (h : Tables root s) (hd : DirectLookups root s) (pmm : Pmm) :
    DirectMapped (withTables s pmm root) := by
  have hone : ∀ m x, Direct (m % 512) → x < 2 ^ 36 →
      vmmVirtToPhys (withTables s pmm root) (m * 2 ^ 39 + x) = .ok (some x) := by
    intro m x hm hx
    have hpmm : vmmVirtToPhys (withTables s pmm root) (m * 2 ^ 39 + x) =
        vmmVirtToPhys (tables s.words root) (m * 2 ^ 39 + x) := rfl
    have hj : x / 2 ^ 21 < 2 ^ 15 := by omega
    have hlook := hd (m % 512) hm (x / 2 ^ 21) hj (path (m * 2 ^ 39 + x)) (path_inRange (indices_lt _).1) rfl
      (tablePath_add m hx)
    have hlook' : lookup (tables s.words root).words (tables s.words root).activePml4Phys (path (m * 2 ^ 39 + x)) =
        some (largeEntry (x / 2 ^ 21), 1) := hlook
    have hsum : x / 2 ^ 21 * twoMib + (m * 2 ^ 39 + x) % 2 ^ (12 + 9 * 1) = x := by
      simp only [twoMib]
      omega
    rw [hpmm, vmmVirtToPhys_eq h.tree, hlook', map_some, largeEntry_mask hj, hsum]
  have hbase : directMapBase = 33554176 * 2 ^ 39 := by decide
  intro x hx
  have hx' : x < 2 ^ 36 := hx
  have h0 := hone 0 x (.inl rfl) hx'
  rw [Nat.zero_mul, zero_add] at h0
  rw [hbase]
  exact ⟨h0, hone 33554176 x (.inr rfl) hx'⟩

/-- For every kernel that the loader accepts: the kernel finds the first 64 GiB mapped one to
one and in the direct map, as they were before its segments were loaded. -/
theorem efiMain_directMapped {fw : Firmware} {f : KernelFile} {mapSize descriptorSize : ℕ} {replies : List MapReply}
    {s s' : Loader} {info : BootInfo}
    (hfit : ∀ i < f.ePhnum, (f.phdr i).pType = ptLoad → (f.phdr i).pVaddr + (f.phdr i).pMemsz ≤ 2 ^ 64)
    (hs : efiMain fw f mapSize descriptorSize replies s = some (info, s')) (pmm : Pmm) :
    ∃ b s0 s1 s2 kernel, allocLowPages fw s 1 = some (b, s0) ∧ earlyTables fw s0 = some (info.pageTableRoot, s1) ∧
      loadKernelSegments fw f info.pageTableRoot s1 = some (s2, kernel) ∧
      DirectMapped (withTables s1 pmm info.pageTableRoot) ∧ DirectMapped (withTables s2 pmm info.pageTableRoot) ∧
      ∃ v, vmmInit s' pmm info info.pageTableRoot = .ok v ∧ DirectMapped v := by
  obtain ⟨-, hs⟩ := ite_none_right_eq_some.mp hs
  obtain ⟨⟨b, s0⟩, hs0, hs⟩ := bind_eq_some_iff.mp hs
  obtain ⟨⟨pml4, s1⟩, hs1, hs⟩ := bind_eq_some_iff.mp hs
  obtain ⟨⟨s2, kernel⟩, hs2, hs⟩ := bind_eq_some_iff.mp hs
  obtain ⟨⟨memoryMap, s3⟩, hs3, hs⟩ := bind_eq_some_iff.mp hs
  obtain ⟨rfl, rfl⟩ := Prod.mk.inj (some.inj hs)
  obtain ⟨ht1, hd1⟩ := earlyTables_spec hs1
  have hk2 := loadKernelSegments_kept ht1 hfit hs2
  have hk3 := hk2.trans (getFinalMemoryMap_kept hk2.tables hs3)
  refine ⟨b, s0, s1, s2, kernel, hs0, hs1, hs2, directMapped_of_lookups ht1 hd1 pmm,
    directMapped_of_lookups hk2.tables (hk2.directLookups hd1) pmm, withTables s3 pmm pml4, ?_,
    directMapped_of_lookups hk3.tables (hk3.directLookups hd1) pmm⟩
  have hroot : pml4 &&& pageMask = pml4 := by
    obtain ⟨hal, hlt⟩ := hk3.tables.tree.aligned (q := []) (by simp) rfl
    rw [and_pageMask]
    simp only [maxPhysBytes] at hlt
    omega
  simp only [vmmInit, hroot, ne_eq, not_true_eq_false, if_false]
  rfl

/-! ## A firmware that gives memory out upwards -/

/-- The end of what was given out; page 0 is never given out. -/
def bumpEnd (l : List (ℕ × ℕ)) : ℕ := l.foldr (fun r e => max (r.1 + r.2 * pageSize) e) pageSize

lemma le_bumpEnd {l : List (ℕ × ℕ)} {r : ℕ × ℕ} (hr : r ∈ l) : r.1 + r.2 * pageSize ≤ bumpEnd l := by
  induction l with
  | nil => cases hr
  | cons a l ih =>
    rcases mem_cons.mp hr with rfl | hr
    · exact Nat.le_max_left _ _
    · exact le_trans (ih hr) (Nat.le_max_right _ _)

def bumpAddress (l : List (ℕ × ℕ)) : AllocateType → ℕ
  | .maxAddress _ => bumpEnd l
  | .address a => a

def bumpAllocate (l : List (ℕ × ℕ)) (ty : AllocateType) (n : ℕ) : Option ℕ :=
  if bumpAddress l ty % pageSize = 0 ∧ bumpAddress l ty ≠ 0 ∧
      bumpAddress l ty + n * pageSize ≤ earlyDirectMapSize ∧ bumpEnd l ≤ bumpAddress l ty then
    some (bumpAddress l ty)
  else none

lemma bumpAllocate_inv {l : List (ℕ × ℕ)} {ty : AllocateType} {n a : ℕ} (h : bumpAllocate l ty n = some a) :
    a = bumpAddress l ty ∧ a % pageSize = 0 ∧ a ≠ 0 ∧ a + n * pageSize ≤ earlyDirectMapSize ∧ bumpEnd l ≤ a := by
  obtain ⟨hc, h⟩ := ite_none_right_eq_some.mp h
  obtain rfl := some.inj h
  exact ⟨rfl, hc⟩

def bumpFirmware : Firmware where
  allocatePages := bumpAllocate
  aligned h := (bumpAllocate_inv h).2.1
  nonzero h := (bumpAllocate_inv h).2.2.1
  below h := (bumpAllocate_inv h).2.2.2.1
  fresh h _ hr := Or.inr (le_trans (le_bumpEnd hr) (bumpAllocate_inv h).2.2.2.2)
  requested h := (bumpAllocate_inv h).1

/-- At most the first `k` pages were given out. -/
def Room (s : Loader) (k : ℕ) : Prop := ∃ e, 1 ≤ e ∧ e ≤ k ∧ bumpEnd s.allocated = e * pageSize

section

variable {s : Loader} {k : ℕ}

section

variable (h : Room s k)
include h

lemma Room.mono {k' : ℕ} (hk : k ≤ k') : Room s k' := by
  obtain ⟨e, h1, he, hend⟩ := h
  exact ⟨e, h1, le_trans he hk, hend⟩

lemma Room.allocLowPages (n : ℕ) (hk : k + n ≤ 2 ^ 24) :
    ∃ a s', allocLowPages bumpFirmware s n = some (a, s') ∧ Room s' (k + n) := by
  obtain ⟨e, h1, he, hend⟩ := h
  have hgive : bumpAllocate s.allocated (.maxAddress (earlyDirectMapSize - pageSize)) n = some (e * pageSize) := by
    simp only [bumpAllocate, bumpAddress, hend]
    rw [if_pos]
    simp only [pageSize, earlyDirectMapSize]
    omega
  refine ⟨e * pageSize, _, congrArg (Option.map _) hgive, e + n, by omega, by omega, ?_⟩
  change max (e * pageSize + n * pageSize) (bumpEnd s.allocated) = _
  rw [hend, ← add_mul]
  exact Nat.max_eq_left (Nat.mul_le_mul_right _ (by omega))

lemma Room.pageTableNext (t i : ℕ) (hk : k + 1 ≤ 2 ^ 24) :
    ∃ c s', pageTableNext bumpFirmware s t i = some (c, s') ∧ Room s' (k + 1) := by
  unfold Boot.pageTableNext
  split
  · obtain ⟨a, s', hs, hr⟩ := h.allocLowPages 1 hk
    have hs' : allocPageTable bumpFirmware s = some (a, s') := hs
    rw [hs', map_some]
    exact ⟨_, _, rfl, hr⟩
  · exact ⟨_, s, rfl, h.mono (by omega)⟩

lemma Room.map2mPage (root virt phys flags : ℕ) (hk : k + 2 ≤ 2 ^ 24) :
    ∃ s', map2mPage bumpFirmware s root virt phys flags = some s' ∧ Room s' (k + 2) := by
  obtain ⟨pdpt, s1, hs1, h1⟩ := h.pageTableNext root (pml4Index virt) (by omega)
  obtain ⟨pd, s2, hs2, h2⟩ := h1.pageTableNext pdpt (pdptIndex virt) (by omega)
  refine ⟨s2.store pd (pdIndex virt) ((phys &&& pageMask) ||| flags ||| pagePresent ||| pageLarge), ?_, h2⟩
  simp only [Boot.map2mPage, hs1, hs2, bind, Option.bind]
  rfl

lemma Room.map4kPage (root virt phys flags : ℕ) (hk : k + 3 ≤ 2 ^ 24) :
    ∃ s', map4kPage bumpFirmware s root virt phys flags = some s' ∧ Room s' (k + 3) := by
  obtain ⟨pdpt, s1, hs1, h1⟩ := h.pageTableNext root (pml4Index virt) (by omega)
  obtain ⟨pd, s2, hs2, h2⟩ := h1.pageTableNext pdpt (pdptIndex virt) (by omega)
  obtain ⟨pt, s3, hs3, h3⟩ := h2.pageTableNext pd (pdIndex virt) (by omega)
  refine ⟨s3.store pt (ptIndex virt) ((phys &&& pageMask) ||| flags ||| pagePresent), ?_, h3⟩
  simp only [Boot.map4kPage, hs1, hs2, hs3, bind, Option.bind]
  rfl

end

lemma Room.mapPages {f : Loader → ℕ → ℕ → Option Loader} {c : ℕ}
    (hf : ∀ {s : Loader} {k : ℕ} (v p : ℕ), Room s k → k + c ≤ 2 ^ 24 → ∃ s', f s v p = some s' ∧ Room s' (k + c))
    (h : Room s k) (virt phys size n : ℕ) (hk : k + n * c ≤ 2 ^ 24) :
    ∃ s', mapPages f s virt phys size n = some s' ∧ Room s' (k + n * c) := by
  induction n with
  | zero => exact ⟨s, rfl, h.mono (by omega)⟩
  | succ n ih =>
    rw [succ_mul] at hk
    obtain ⟨s1, hs1, h1⟩ := ih (by omega)
    obtain ⟨s2, hs2, h2⟩ := hf ((virt + n * size) % 2 ^ 64) ((phys + n * size) % 2 ^ 64) h1 (by omega)
    refine ⟨s2, ?_, ?_⟩
    · rw [mapPages_succ, hs1]
      exact hs2
    · rw [succ_mul, ← add_assoc]
      exact h2

lemma Room.map2mRange (h : Room s k) (root virt : ℕ) (hk : k + 2 ^ 16 ≤ 2 ^ 24) :
    ∃ s', map2mRange bumpFirmware s root virt 0 earlyDirectMapSize pageWritable = some s' ∧ Room s' (k + 2 ^ 16) := by
  have hpages : alignUp earlyDirectMapSize twoMib / twoMib = 2 ^ 15 := by decide
  obtain ⟨s', hs', hr⟩ := h.mapPages (c := 2) (fun v p h hk => h.map2mPage root v p pageWritable hk) virt 0 twoMib
    (2 ^ 15) (by omega)
  refine ⟨s', ?_, hr.mono (by omega)⟩
  rw [Boot.map2mRange, hpages]
  exact hs'

lemma Room.earlyTables (h : Room s k) (hk : k + 2 ^ 18 ≤ 2 ^ 24) :
    ∃ root s', earlyTables bumpFirmware s = some (root, s') ∧ Room s' (k + 2 ^ 18) := by
  obtain ⟨root, s0, hs0, h0⟩ := h.allocLowPages 1 (by omega)
  obtain ⟨s1, hs1, h1⟩ := h0.map2mRange root 0 (by omega)
  obtain ⟨s2, hs2, h2⟩ := h1.map2mRange root directMapBase (by omega)
  exact ⟨root, s2, bind_eq_some_iff.mpr ⟨(root, s0), hs0, bind_eq_some_iff.mpr ⟨s1, hs1,
    bind_eq_some_iff.mpr ⟨s2, hs2, rfl⟩⟩⟩, h2.mono (by omega)⟩

end

/-- A kernel of 124 bytes: the headers and a segment of 4 bytes, loaded at 2 GiB. -/
def smallKernel : KernelFile where
  bytes a := [0x7f, 0x45, 0x4c, 0x46, 2, 1, 1, 0, 0, 0, 0, 0, 0, 0, 0, 0,
    2, 0, 62, 0, 1, 0, 0, 0, 0, 0, 0, 0x80, 0xff, 0xff, 0xff, 0xff,
    64, 0, 0, 0, 0, 0, 0, 0, 0, 0, 0, 0, 0, 0, 0, 0, 0, 0, 0, 0, 64, 0, 56, 0, 1, 0, 0, 0, 0, 0, 0, 0,
    1, 0, 0, 0, 5, 0, 0, 0, 120, 0, 0, 0, 0, 0, 0, 0, 0, 0, 0, 0x80, 0xff, 0xff, 0xff, 0xff,
    0, 0, 0, 0x80, 0, 0, 0, 0, 4, 0, 0, 0, 0, 0, 0, 0, 4, 0, 0, 0, 0, 0, 0, 0].getD a 0
  size := 124

lemma smallKernel_phdr : smallKernel.phdr 0 = ⟨1, 5, 120, kernelVmaBase, 2 ^ 31, 4, 4⟩ := by
  simp only [KernelFile.phdr, Phdr.mk.injEq]
  decide

lemma smallKernel_load {s : Loader} {k : ℕ} (h : Room s k) (hk : k ≤ 2 ^ 19) (root : ℕ) :
    ∃ s' range, loadKernelSegments bumpFirmware smallKernel root s = some (s', range) ∧ Room s' (2 ^ 20) := by
  have hnum : smallKernel.ePhnum = 1 := by decide
  obtain ⟨e, h1, he, hend⟩ := h
  have hsize : loadSize ⟨1, 5, 120, kernelVmaBase, 2 ^ 31, 4, 4⟩ = 4096 := by decide
  have hstart : alignDown (2 ^ 31) pageSize = 2 ^ 31 := by decide
  have hgive : bumpFirmware.allocatePages s.allocated (.address (2 ^ 31)) 1 = some (2 ^ 31) := by
    change bumpAllocate s.allocated (.address (2 ^ 31)) 1 = _
    simp only [bumpAllocate, bumpAddress, hend]
    rw [if_pos]
    simp only [pageSize, earlyDirectMapSize]
    omega
  have hfill : Room (fillSegment smallKernel s ⟨1, 5, 120, kernelVmaBase, 2 ^ 31, 4, 4⟩) (2 ^ 19 + 1) := by
    refine ⟨2 ^ 19 + 1, by omega, le_refl _, ?_⟩
    change max (alignDown (2 ^ 31) pageSize + loadSize ⟨1, 5, 120, kernelVmaBase, 2 ^ 31, 4, 4⟩ / pageSize * pageSize)
      (bumpEnd s.allocated) = _
    rw [hsize, hstart, hend]
    simp only [pageSize]
    omega
  have hpages : alignUp 4 pageSize / pageSize = 1 := by decide
  obtain ⟨s1, hs1, hr1⟩ := hfill.mapPages (c := 3) (f := fun s v p => map4kPage bumpFirmware s root v p pagePresent)
    (fun v p h hk => h.map4kPage root v p pagePresent hk) kernelVmaBase (2 ^ 31) pageSize 1 (by omega)
  have hmap : map4kRange bumpFirmware (fillSegment smallKernel s ⟨1, 5, 120, kernelVmaBase, 2 ^ 31, 4, 4⟩) root
      kernelVmaBase (2 ^ 31) 4 pagePresent = some s1 := by
    rw [map4kRange, hpages]
    exact hs1
  have hload : ∀ r, ∃ r', loadSegment bumpFirmware smallKernel root s r (smallKernel.phdr 0) = some (s1, r') ∧
      r'.physStart = min (2 ^ 31) r.physStart := by
    intro r
    refine ⟨⟨min (2 ^ 31) r.physStart, max (alignUp ((2 ^ 31 + 4) % 2 ^ 64) pageSize) r.physEnd,
      min kernelVmaBase r.virtStart, max ((kernelVmaBase + 4) % 2 ^ 64) r.virtEnd⟩, ?_, rfl⟩
    rw [smallKernel_phdr, loadSegment, if_neg (by decide), if_neg (by decide), if_neg (by decide)]
    dsimp only
    rw [hsize, hstart, show 4096 / pageSize = 1 from rfl, hgive, bind_some, if_neg (by decide), hmap]
    rfl
  obtain ⟨r', hr', hphys⟩ := hload ⟨2 ^ 64 - 1, 0, 2 ^ 64 - 1, 0⟩
  have hne : r'.physStart ≠ 2 ^ 64 - 1 := by
    rw [hphys]
    decide
  refine ⟨s1, { r' with virtEnd := alignUp r'.virtEnd pageSize }, ?_, hr1.mono (by omega)⟩
  unfold loadKernelSegments
  rw [hnum]
  change ((loadSegment bumpFirmware smallKernel root s ⟨2 ^ 64 - 1, 0, 2 ^ 64 - 1, 0⟩ (smallKernel.phdr 0)).bind
    fun x => some x).bind _ = _
  rw [hr']
  exact if_neg hne

/-- The loader starts this kernel, and the kernel finds its maps. -/
theorem efiMain_directMapped_smallKernel : ∃ info s',
    efiMain bumpFirmware smallKernel 0 48 [.written (fun _ => 0) true] ⟨fun _ => 0, []⟩ = some (info, s') ∧
      ∃ v, vmmInit s' ⟨fun _ => 0#64, 0⟩ info info.pageTableRoot = .ok v ∧ DirectMapped v := by
  have hroom : Room ⟨fun _ => 0, []⟩ 1 := ⟨1, le_refl _, le_refl _, rfl⟩
  obtain ⟨b, s0, hs0, h0⟩ := hroom.allocLowPages 1 (by omega)
  obtain ⟨root, s1, hs1, h1⟩ := h0.earlyTables (by omega)
  obtain ⟨s2, range, hs2, h2⟩ := smallKernel_load h1 (by omega) root
  obtain ⟨buffer, s3, hs3, -⟩ := h2.allocLowPages 1 (by omega)
  have hpages : alignUp ((0 + 48 * 32) % 2 ^ 64) pageSize / pageSize = 1 := by decide
  have hmap : getFinalMemoryMap bumpFirmware s2 0 48 [.written (fun _ => 0) true] =
      some (buffer, fillBuffer s3 buffer 1 fun _ => 0) := by
    unfold getFinalMemoryMap
    rw [if_neg (by decide)]
    dsimp only
    rw [hpages, hs3]
    rfl
  have hvalid : validateKernelElf smallKernel = true := by decide
  have hmain : efiMain bumpFirmware smallKernel 0 48 [.written (fun _ => 0) true] ⟨fun _ => 0, []⟩ =
      some (⟨earlyDirectMapSize, range, root, buffer⟩, fillBuffer s3 buffer 1 fun _ => 0) := by
    unfold efiMain
    rw [if_pos hvalid, hs0]
    simp only [bind, Option.bind, hs1, hs2, hmap]
    rfl
  have hfit : ∀ i < smallKernel.ePhnum, (smallKernel.phdr i).pType = ptLoad →
      (smallKernel.phdr i).pVaddr + (smallKernel.phdr i).pMemsz ≤ 2 ^ 64 := by decide
  obtain ⟨-, -, -, -, -, -, -, -, -, -, hv⟩ := efiMain_directMapped hfit hmain ⟨fun _ => 0#64, 0⟩
  exact ⟨_, _, hmain, hv⟩

end AetherOS.Boot
