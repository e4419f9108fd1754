import AetherOS.LinkedList
import AetherOS.Runs

/-!
# Lists that share a link field

A node that waits has one link field, so it is on at most one list at a time, and the lists
of all head pointers are threaded through the same field. Pushing a node in front, taking
the first one off, and handing a whole list over to another head keep the lists apart.
-/
namespace AetherOS.LinkedList
open Function Runs

variable {α ι : Type*} {null : α} {next next' : α → α}

/-- From `h` the links lead through the nodes `l`, each once, to null. -/
structure Chain (null : α) (next : α → α) (h : α) (l : List α) : Prop where
  links : Links null next h l null
  nodup : l.Nodup

namespace Chain

variable {h t : α} {l : List α}

lemma congr (hc : Chain null next h l) (hn : ∀ x ∈ l, next' x = next x) : Chain null next' h l :=
  ⟨hc.links.congr hn, hc.nodup⟩

lemma nil (next : α → α) : Chain null next null [] := ⟨rfl, List.nodup_nil⟩

lemma eq_nil (hc : Chain null next null l) : l = [] := hc.links.eq_nil rfl

lemma head_mem (hc : Chain null next h l) (h0 : h ≠ null) : h ∈ l := by
  rcases hc.links.head_cases with ⟨hnull, -⟩ | ⟨-, t, rfl, -⟩
  · exact absurd hnull h0
  · exact List.mem_cons_self

lemma head_eq_null (hc : Chain null next h l) (hl : l = []) : h = null := by
  subst hl
  exact hc.links

variable [DecidableEq α]

lemma push (hc : Chain null next h l) (ht0 : t ≠ null) (ht : t ∉ l) : Chain null (update next t h) t (t :: l) := by
  refine ⟨⟨rfl, ht0, ?_⟩, List.nodup_cons.mpr ⟨ht, hc.nodup⟩⟩
  rw [update_self]
  apply hc.links.congr
  intro x hx
  apply update_of_ne
  rintro rfl
  exact ht hx

lemma pop (hc : Chain null next h l) (h0 : h ≠ null) (x : α) :
    ∃ l', l = h :: l' ∧ h ∉ l' ∧ Chain null (update next h x) (next h) l' := by
  rcases hc.links.head_cases with ⟨hnull, -⟩ | ⟨-, l', rfl, hl'⟩
  · exact absurd hnull h0
  obtain ⟨hh, hnodup⟩ := List.nodup_cons.mp hc.nodup
  refine ⟨l', rfl, hh, ?_, hnodup⟩
  apply hl'.congr
  intro y hy
  apply update_of_ne
  rintro rfl
  exact hh hy

end Chain

/-- The lists of all heads, no two of which have a node in common. -/
structure Chains (null : α) (next : α → α) (head : ι → α) (L : ι → List α) : Prop where
  chain : ∀ i, Chain null next (head i) (L i)
  apart : ∀ i j, ∀ x ∈ L i, x ∈ L j → i = j

namespace Chains

variable {head head' : ι → α} {L : ι → List α} {i j k : ι} {t x : α}

lemma congr (hc : Chains null next head L) (hn : ∀ i, ∀ x ∈ L i, next' x = next x)
    (hh : ∀ i, head' i = head i) : Chains null next' head' L := by
  refine ⟨fun i => ?_, hc.apart⟩
  rw [hh]
  exact (hc.chain i).congr (hn i)

variable [DecidableEq ι]

lemma mem_pushed : x ∈ update L i (t :: L i) k ↔ k = i ∧ x = t ∨ x ∈ L k := by
  refine update_cases k ?_ fun hk => ?_
  · simp
  · simp [hk]

lemma mem_moved (hj : L j = []) (hne : i ≠ j) :
    x ∈ update (update L j (L i)) i [] k ↔ k = j ∧ x ∈ L i ∨ k ≠ i ∧ x ∈ L k := by
  refine update_cases k ?_ fun hki => update_cases k ?_ fun hkj => ?_
  · simp [hne]
  · simp [hj]
  · simp [hki, hkj]

lemma mem_popped {l : List α} (hc : Chains null next head L) (hl : L i = t :: l) :
    x ∈ update L i l k ↔ x ∈ L k ∧ x ≠ t := by
  have ht : t ∈ L i := by
    rw [hl]
    exact List.mem_cons_self
  refine update_cases k ?_ fun hk => ?_
  · have hnodup := (hc.chain i).nodup
    rw [hl, List.nodup_cons] at hnodup
    rw [hl, List.mem_cons]
    constructor
    · intro hx
      exact ⟨.inr hx, fun hxt => hnodup.1 (hxt ▸ hx)⟩
    · rintro ⟨hx, hxt⟩
      exact hx.resolve_left hxt
  · exact ⟨fun hx => ⟨hx, fun hxt => hk (hc.apart k i t (hxt ▸ hx) ht)⟩, And.left⟩

lemma move (hc : Chains null next head L) (hj : L j = []) (hne : i ≠ j) :
    Chains null next (update (update head j (head i)) i null)
      (update (update L j (L i)) i []) := by
  constructor
  · intro k
    by_cases hki : k = i
    · subst hki
      rw [update_self, update_self]
      exact Chain.nil next
    rw [update_of_ne hki, update_of_ne hki]
    by_cases hkj : k = j
    · subst hkj
      rw [update_self, update_self]
      exact hc.chain i
    · rw [update_of_ne hkj, update_of_ne hkj]
      exact hc.chain k
  intro k m y hk hm
  rcases (mem_moved hj hne).mp hk with ⟨rfl, hyk⟩ | ⟨hki, hyk⟩
  · rcases (mem_moved hj hne).mp hm with ⟨rfl, -⟩ | ⟨hmi, hym⟩
    · rfl
    · exact absurd (hc.apart m i y hym hyk) hmi
  rcases (mem_moved hj hne).mp hm with ⟨rfl, hym⟩ | ⟨-, hym⟩
  · exact absurd (hc.apart k i y hyk hym) hki
  · exact hc.apart k m y hyk hym

variable [DecidableEq α]

lemma push (hc : Chains null next head L) (ht0 : t ≠ null) (ht : ∀ i, t ∉ L i) (i : ι) :
    Chains null (update next t (head i)) (update head i t)
      (update L i (t :: L i)) := by
  constructor
  · intro j
    by_cases hj : j = i
    · subst hj
      rw [update_self, update_self]
      exact (hc.chain j).push ht0 (ht j)
    rw [update_of_ne hj, update_of_ne hj]
    apply (hc.chain j).congr
    intro x hx
    apply update_of_ne
    rintro rfl
    exact ht j hx
  -- the new node is on no other list
  intro j k x hj hk
  rcases mem_pushed.mp hj with ⟨rfl, rfl⟩ | hxj
  · rcases mem_pushed.mp hk with ⟨rfl, -⟩ | hxk
    · rfl
    · exact absurd hxk (ht k)
  rcases mem_pushed.mp hk with ⟨-, rfl⟩ | hxk
  · exact absurd hxj (ht j)
  · exact hc.apart j k x hxj hxk

lemma pop (hc : Chains null next head L) (h0 : head i ≠ null) (x : α) :
    ∃ l, L i = head i :: l ∧ Chains null (update next (head i) x)
      (update head i (next (head i))) (update L i l) := by
  obtain ⟨l, hl, hnot, hchain⟩ := (hc.chain i).pop h0 x
  have hmem : head i ∈ L i := (hc.chain i).head_mem h0
  have hsub : ∀ j y, y ∈ update L i l j → y ∈ L j := fun _ _ hy => ((hc.mem_popped hl).mp hy).1
  refine ⟨l, hl, fun j => ?_, fun j k y hj hk => hc.apart j k y (hsub j y hj) (hsub k y hk)⟩
  by_cases hj : j = i
  · subst hj
    rw [update_self, update_self]
    exact hchain
  rw [update_of_ne hj, update_of_ne hj]
  apply (hc.chain j).congr
  intro y hy
  apply update_of_ne
  rintro rfl
  exact hj (hc.apart j i _ hy hmem)

end Chains

end AetherOS.LinkedList
