import AetherOS.UdpDelivery

/-!
# The table of neighbours

Every received packet enters its sender. The entry of the address is overwritten, else a free
one is taken; in a full table it is always the first.
-/
namespace AetherOS.Net
open List Function

/-- Neighbours, entered from left to right. -/
def arpInsertAll (n : Host) (l : List (UInt32 × Mac)) : Host := l.foldl (fun n x => arpInsert n x.1 x.2) n

/-- The last hardware address entered for each neighbour. -/
def latest (l : List (UInt32 × Mac)) : UInt32 → Option Mac :=
  l.foldl (fun m x => update m x.1 (some x.2)) fun _ => none

/-- What the table holds when `m` are the last addresses, all of neighbours in `T`. -/
structure Cached (T : Finset UInt32) (m : UInt32 → Option Mac) (n : Host) : Prop where
  within : ∀ ip, m ip ≠ none → ip ∈ T
  unique : ∀ i j, (n.arp i).valid = true → (n.arp j).valid = true → (n.arp i).ip = (n.arp j).ip → i = j
  latest : ∀ i, (n.arp i).valid = true → m (n.arp i).ip = some (n.arp i).mac
  known : T.card ≤ arpTableSize → ∀ ip, m ip ≠ none → ∃ i, (n.arp i).valid = true ∧ (n.arp i).ip = ip

section

variable {T : Finset UInt32} {m : UInt32 → Option Mac} {n : Host} {ip : UInt32} {i : Fin arpTableSize}

lemma findEntry_some (h : findEntry n ip = some i) : (n.arp i).valid = true ∧ (n.arp i).ip = ip := by
  simpa using find?_some h

lemma findEntry_none (h : findEntry n ip = none) (hv : (n.arp i).valid = true) : (n.arp i).ip ≠ ip := by
  have hi := find?_eq_none.mp h i (mem_finRange i)
  simpa [hv] using hi

/-- If the slot is overwritten for another address, the table was full. -/
lemma arpSlot_cases (n : Host) (ip : UInt32) :
    (n.arp (arpSlot n ip)).valid = true ∧ (n.arp (arpSlot n ip)).ip = ip ∨
    findEntry n ip = none ∧ ((n.arp (arpSlot n ip)).valid = false ∨ ∀ i, (n.arp i).valid = true) := by
  unfold arpSlot
  split
  · exact .inl (findEntry_some ‹_›)
  refine .inr ⟨‹_›, ?_⟩
  cases h : (finRange arpTableSize).find? fun i => !(n.arp i).valid with
  | none => exact .inr fun i => by simpa using find?_eq_none.mp h i (mem_finRange i)
  | some i => exact .inl (by simpa using find?_some h)

/-- The entries of a full table are all neighbours there are. -/
lemma Cached.full (h : Cached T m n) (hcard : T.card ≤ arpTableSize) (hip : ip ∈ T)
    (hfull : ∀ i, (n.arp i).valid = true) : findEntry n ip ≠ none := by
  have hinj : Injective fun i => (n.arp i).ip := fun i j hij => h.unique i j (hfull i) (hfull j) hij
  have hsub : Finset.univ.image (fun i => (n.arp i).ip) ⊆ T := by
    intro x hx
    obtain ⟨i, -, rfl⟩ := Finset.mem_image.mp hx
    exact h.within _ (by simp [h.latest i (hfull i)])
  have hall : Finset.univ.image (fun i => (n.arp i).ip) = T := by
    refine Finset.eq_of_subset_of_card_le hsub ?_
    rw [Finset.card_image_of_injective _ hinj, Finset.card_univ, Fintype.card_fin]
    exact hcard
  obtain ⟨i, -, hi⟩ := Finset.mem_image.mp (hall ▸ hip)
  exact fun hnone => findEntry_none hnone (hfull i) hi

lemma Cached.insert (h : Cached T m n) (hip : ip ∈ T) (mac : Mac) :
    Cached T (update m ip (some mac)) (arpInsert n ip mac) := by
  have hself : (arpInsert n ip mac).arp (arpSlot n ip) = ⟨ip, mac, true⟩ := update_self ..
  have hkeep : ∀ j, j ≠ arpSlot n ip → (arpInsert n ip mac).arp j = n.arp j := fun j hj => update_of_ne hj ..
  have honly : ∀ j, j ≠ arpSlot n ip → (n.arp j).valid = true → (n.arp j).ip ≠ ip := by
    intro j hj hv he
    rcases arpSlot_cases n ip with ⟨hk, hkip⟩ | ⟨hnone, -⟩
    · exact hj (h.unique _ _ hv hk (he.trans hkip.symm))
    · exact findEntry_none hnone hv he
  refine ⟨fun x hx => ?_, fun i j hi hj hij => ?_, fun i hi => ?_, fun hcard x hx => ?_⟩
  · by_cases hxip : x = ip
    · rwa [hxip]
    · rw [update_of_ne hxip] at hx
      exact h.within x hx
  · by_cases hik : i = arpSlot n ip <;> by_cases hjk : j = arpSlot n ip
    · rw [hik, hjk]
    · rw [hik, hself, hkeep j hjk] at hij
      exact absurd hij.symm (honly j hjk (hkeep j hjk ▸ hj))
    · rw [hjk, hself, hkeep i hik] at hij
      exact absurd hij (honly i hik (hkeep i hik ▸ hi))
    · rw [hkeep i hik, hkeep j hjk] at hij
      exact h.unique i j (hkeep i hik ▸ hi) (hkeep j hjk ▸ hj) hij
  · by_cases hik : i = arpSlot n ip
    · rw [hik, hself, update_self]
    · rw [hkeep i hik] at hi ⊢
      rw [update_of_ne (honly i hik hi), h.latest i hi]
  by_cases hxip : x = ip
  · exact ⟨arpSlot n ip, by rw [hself], by rw [hself, hxip]⟩
  rw [update_of_ne hxip] at hx
  obtain ⟨i, hi, hiip⟩ := h.known hcard x hx
  have hik : i ≠ arpSlot n ip := by
    rintro rfl
    rcases arpSlot_cases n ip with ⟨-, hk⟩ | ⟨hnone, hk | hfull⟩
    · exact hxip (hiip.symm.trans hk)
    · rw [hk] at hi
      cases hi
    · exact h.full hcard hip hfull hnone
  exact ⟨i, by rw [hkeep i hik, hi], by rw [hkeep i hik, hiip]⟩

lemma Cached.insertAll (h : Cached T m n) {l : List (UInt32 × Mac)} (hl : ∀ x ∈ l, x.1 ∈ T) :
    Cached T (l.foldl (fun m x => update m x.1 (some x.2)) m) (arpInsertAll n l) := by
  induction l generalizing m n with
  | nil => exact h
  | cons x l ih => exact ih (h.insert (hl x mem_cons_self) x.2) fun y hy => hl y (mem_cons_of_mem x hy)

end

/-- From an empty table on, a neighbour has at most one entry. As long as no more neighbours were
entered than the table has entries, each is found with the last address entered for it. -/
theorem arpCache_recent (n : Host) (hempty : ∀ i, (n.arp i).valid = false) (l : List (UInt32 × Mac)) :
    (∀ i j, ((arpInsertAll n l).arp i).valid = true → ((arpInsertAll n l).arp j).valid = true →
      ((arpInsertAll n l).arp i).ip = ((arpInsertAll n l).arp j).ip → i = j) ∧
    ((l.map (·.1)).toFinset.card ≤ arpTableSize → ∀ ip, (arpLookup (arpInsertAll n l) ip).1 = latest l ip) := by
  have hstart : Cached (l.map (·.1)).toFinset (fun _ => none) n :=
    ⟨fun _ => absurd rfl, fun i _ hi => by simp [hempty i] at hi, fun i hi => by simp [hempty i] at hi,
      fun _ _ => absurd rfl⟩
  have h := hstart.insertAll fun x hx => mem_toFinset.mpr (mem_map_of_mem hx)
  refine ⟨h.unique, fun hcard ip => ?_⟩
  unfold arpLookup
  split
  next i hfind =>
    obtain ⟨hi, rfl⟩ := findEntry_some hfind
    exact (h.latest i hi).symm
  next hfind =>
    have hnone : latest l ip = none := by
      by_contra hsome
      obtain ⟨i, hi, hiip⟩ := h.known hcard ip hsome
      exact findEntry_none hfind hi hiip
    rw [hnone]
    split <;> rfl

/-- A neighbour that changed its address. -/
theorem arpCache_recent_changed :
    (arpLookup (arpInsertAll boundHost [(5, fun _ => 1), (5, fun _ => 2)]) 5).1 = some fun _ => 2 :=
  ((arpCache_recent boundHost (fun _ => rfl) [(5, fun _ => 1), (5, fun _ => 2)]).2 (by decide) 5).trans rfl

/-- Of 34 neighbours the last but one is not found: it was in the first entry, as the last is. -/
theorem arpCache_loses_recent :
    (arpLookup (arpInsertAll boundHost ((range 34).map fun i => (UInt32.ofNat i, fun _ => 1))) 32).1 = none := by
  decide +kernel

end AetherOS.Net
