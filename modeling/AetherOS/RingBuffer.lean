import Mathlib.Data.List.Basic
import Mathlib.Tactic.SplitIfs

/-!
# Ring buffers with one free slot

A ring of `N` cells between a head and a tail index. Equal indices mean empty, so
at most `N - 1` cells are in use. The abstract view is the list of the elements
from head to tail; both operations are the queue operations on this list.
-/
namespace AetherOS.RingBuffer
open Function Nat

/-- Cells, head and tail, with both indices in range. -/
structure Ring (α : Type*) (N : ℕ) where
  buf : ℕ → α
  head : ℕ
  tail : ℕ
  head_lt : head < N
  tail_lt : tail < N

namespace Ring

variable {α : Type*} {N i : ℕ} {r r' : Ring α N} {x : α}

lemma pos (r : Ring α N) : 0 < N := Nat.lt_of_le_of_lt (Nat.zero_le _) r.head_lt

/-- Store at the tail, or `none` when the next tail would meet the head. -/
def push (r : Ring α N) (x : α) : Option (Ring α N) :=
  if (r.tail + 1) % N = r.head then none
  else some
    { buf := update r.buf r.tail x
      head := r.head
      tail := (r.tail + 1) % N
      head_lt := r.head_lt
      tail_lt := mod_lt _ r.pos }

/-- Take the element at the head, or `none` when the ring is empty. -/
def pop (r : Ring α N) : Option (α × Ring α N) :=
  if r.head = r.tail then none
  else some (r.buf r.head,
    { buf := r.buf
      head := (r.head + 1) % N
      tail := r.tail
      head_lt := mod_lt _ r.pos
      tail_lt := r.tail_lt })

/-- The number of cells in use. -/
def used (r : Ring α N) : ℕ := if r.head ≤ r.tail then r.tail - r.head else r.tail + N - r.head

/-- The elements from head to tail. -/
def contents (r : Ring α N) : List α :=
  (List.range r.used).map fun i => r.buf ((r.head + i) % N)

@[simp] lemma length_contents (r : Ring α N) : r.contents.length = r.used := by simp [contents]

lemma used_lt (r : Ring α N) : r.used < N := by
  have hh := r.head_lt
  have ht := r.tail_lt
  unfold used
  split <;> omega

lemma succ_mod (hi : i < N) : (i + 1) % N = if i + 1 = N then 0 else i + 1 := by
  by_cases h : i + 1 = N
  · rw [if_pos h, h, mod_self]
  · rw [if_neg h, mod_eq_of_lt (by omega)]

lemma add_mod {h : ℕ} (hh : h < N) (hi : i < N) : (h + i) % N = if h + i < N then h + i else h + i - N := by
  by_cases hlt : h + i < N
  · rw [if_pos hlt, mod_eq_of_lt hlt]
  · rw [if_neg hlt, mod_eq_sub_mod (by omega), mod_eq_of_lt (by omega)]

lemma head_add_used (r : Ring α N) : (r.head + r.used) % N = r.tail := by
  have hh := r.head_lt
  have ht := r.tail_lt
  rw [add_mod hh r.used_lt]
  unfold used
  split_ifs <;> omega

lemma head_add_ne_tail (r : Ring α N) (hi : i < r.used) : (r.head + i) % N ≠ r.tail := by
  have hh := r.head_lt
  have ht := r.tail_lt
  have hu := r.used_lt
  rw [add_mod hh (Nat.lt_trans hi hu)]
  unfold used at hi
  split_ifs at hi ⊢ <;> omega

lemma push_eq_none (r : Ring α N) (x : α) : r.push x = none ↔ r.used + 1 = N := by
  have hh := r.head_lt
  have ht := r.tail_lt
  have hcond : (r.tail + 1) % N = r.head ↔ r.used + 1 = N := by
    rw [succ_mod ht]
    unfold used
    split_ifs <;> omega
  rw [← hcond, push]
  by_cases h : (r.tail + 1) % N = r.head
  · simp [h]
  · simp [h]

lemma push_contents (hp : r.push x = some r') : r'.contents = r.contents ++ [x] := by
  have hh := r.head_lt
  have ht := r.tail_lt
  unfold push at hp
  split at hp
  · cases hp
  rename_i hfull
  cases hp
  rw [succ_mod ht] at hfull
  have hused : used (N := N) ⟨update r.buf r.tail x, r.head, (r.tail + 1) % N,
      r.head_lt, mod_lt _ r.pos⟩ = r.used + 1 := by
    simp only [used, succ_mod ht]
    split_ifs at hfull ⊢ <;> omega
  simp only [contents, hused, List.range_succ, List.map_append, List.map_cons, List.map_nil,
    head_add_used, update_self]
  congr 1
  refine List.map_congr_left fun i hi => update_of_ne ?_ _ _
  exact r.head_add_ne_tail (List.mem_range.mp hi)

lemma pop_eq_none (r : Ring α N) : r.pop = none ↔ r.contents = [] := by
  have hh := r.head_lt
  have ht := r.tail_lt
  rw [← List.length_eq_zero_iff, length_contents, used, pop]
  by_cases h : r.head = r.tail
  · simp [h]
  · simp only [h, if_false, reduceCtorEq, false_iff]
    split <;> omega

lemma pop_contents (hp : r.pop = some (x, r')) : r.contents = x :: r'.contents := by
  have hh := r.head_lt
  have ht := r.tail_lt
  unfold pop at hp
  split at hp
  · cases hp
  rename_i hne
  obtain ⟨rfl, rfl⟩ := Prod.mk.inj (Option.some.inj hp)
  have hused : r.used = used (N := N) ⟨r.buf, (r.head + 1) % N, r.tail,
      mod_lt _ r.pos, r.tail_lt⟩ + 1 := by
    simp only [used, succ_mod hh]
    split_ifs <;> omega
  simp only [contents, hused, List.range_succ_eq_map, List.map_cons, Nat.add_zero,
    mod_eq_of_lt hh, List.map_map, List.cons.injEq, true_and]
  refine List.map_congr_left fun i _ => ?_
  simp only [Function.comp, mod_add_mod]
  congr 2
  omega

end Ring

end AetherOS.RingBuffer
