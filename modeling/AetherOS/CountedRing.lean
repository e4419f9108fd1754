import Mathlib.Data.List.Basic
import Mathlib.Data.Nat.ModEq

/-!
# Ring buffers with a count

A ring of `N` cells with the position of the oldest element and the number of elements.
All cells can be in use. The abstract view is the list of the elements from the oldest on.
-/
namespace AetherOS.RingBuffer
open Function List Nat

/-- Cells, the position of the oldest element and the number of elements. -/
structure CountedRing (α : Type*) (N : ℕ) where
  buf : ℕ → α
  head : ℕ
  count : ℕ
  head_lt : head < N
  count_le : count ≤ N

namespace CountedRing

variable {α : Type*} {N head : ℕ}

lemma pos (r : CountedRing α N) : 0 < N := Nat.lt_of_le_of_lt (Nat.zero_le _) r.head_lt

/-- The elements, the oldest one first. -/
def contents (r : CountedRing α N) : List α :=
  (List.range r.count).map fun i => r.buf ((r.head + i) % N)

@[simp] lemma length_contents (r : CountedRing α N) : r.contents.length = r.count := by simp [contents]

/-- Store in the first free cell; a full ring stays as it is. -/
def push (r : CountedRing α N) (x : α) : CountedRing α N :=
  if h : r.count < N then
    { buf := update r.buf ((r.head + r.count) % N) x
      head := r.head
      count := r.count + 1
      head_lt := r.head_lt
      count_le := h }
  else r

/-- Copy `n` elements from position `head` on, and the position after them. -/
def copyOut (buf : ℕ → α) (N : ℕ) : ℕ → ℕ → List α × ℕ
  | 0, head => ([], head)
  | n + 1, head =>
    let rest := copyOut buf N n ((head + 1) % N)
    (buf head :: rest.1, rest.2)

lemma copyOut_lt (buf : ℕ → α) (n : ℕ) (h : head < N) : (copyOut buf N n head).2 < N := by
  induction n generalizing head with
  | zero => exact h
  | succ n ih => exact ih (mod_lt _ (by omega))

/-- Take at most `n` elements. -/
def pop (r : CountedRing α N) (n : ℕ) : List α × CountedRing α N :=
  let n := min n r.count
  let out := copyOut r.buf N n r.head
  (out.1,
    { buf := r.buf
      head := out.2
      count := r.count - n
      head_lt := copyOut_lt r.buf n r.head_lt
      count_le := Nat.le_trans (sub_le _ _) r.count_le })

lemma push_contents {r : CountedRing α N} (h : r.count < N) (x : α) : (r.push x).contents = r.contents ++ [x] := by
  rw [push, dif_pos h]
  simp only [contents, range_succ, map_append, map_cons, map_nil,
    update_self]
  congr 1
  apply map_congr_left
  intro i hi
  apply update_of_ne
  intro he
  have hi := mem_range.mp hi
  have := (ModEq.add_left_cancel' r.head he).eq_of_lt_of_lt (by omega) h
  omega

lemma copyOut_eq (buf : ℕ → α) (n : ℕ) (h : head < N) : copyOut buf N n head =
    ((List.range n).map fun i => buf ((head + i) % N), (head + n) % N) := by
  induction n generalizing head with
  | zero => simp [copyOut, mod_eq_of_lt h]
  | succ n ih =>
    have hcell : ∀ i, ((head + 1) % N + i) % N = (head + (i + 1)) % N := by
      intro i
      rw [mod_add_mod, Nat.add_assoc, Nat.add_comm 1 i]
    rw [copyOut, ih (mod_lt _ (by omega))]
    simp [range_succ_eq_map, map_map, Function.comp_def, hcell, mod_eq_of_lt h, succ_eq_add_one]

lemma pop_append (r : CountedRing α N) (n : ℕ) : (r.pop n).1 ++ (r.pop n).2.contents = r.contents := by
  obtain ⟨k, hk⟩ := Nat.exists_eq_add_of_le (Nat.min_le_right n r.count)
  have hcount : r.count - min n r.count = k := by omega
  simp only [pop, contents, copyOut_eq r.buf _ r.head_lt, hcount]
  conv_rhs => rw [hk, range_add, map_append, map_map]
  congr 1
  apply map_congr_left
  intro i _
  simp [Function.comp_apply, mod_add_mod, Nat.add_assoc]

lemma length_pop (r : CountedRing α N) (n : ℕ) : (r.pop n).1.length = min n r.count := by
  simp [pop, copyOut_eq r.buf _ r.head_lt]

end CountedRing

end AetherOS.RingBuffer
