import AetherOS.Heap

/-!
# Moving memory

`memmove` copies byte by byte within one memory. Where the ranges overlap it overwrites bytes of
the source, and the order of the indices decides whether they were read before.
-/
namespace AetherOS.KString
open ByteMemory Heap Function List

/-- One assignment `out[i] = in[i]`. -/
def copyByte (out inp : ℕ) (m : Mem) (i : ℕ) : Mem := update m (wrap64 (out + i)) (m (wrap64 (inp + i)))

/-- Upwards if the destination is below the source, and downwards if it is above. -/
def memmove (m : Mem) (dest src count : ℕ) : ℕ × Mem :=
  if dest = src ∨ count = 0 then (dest, m)
  else if dest < src then (dest, (range count).foldl (copyByte dest src) m)
  else (dest, (range count).reverse.foldl (copyByte dest src) m)

section

variable {dest src count : ℕ} (hd : dest + count ≤ 2 ^ 64) (hs : src + count ≤ 2 ^ 64)
include hd hs

/-- The indices `l` come in an order in which no byte is read after it was overwritten. -/
lemma foldl_copyByte {l : List ℕ} (hl : l.Pairwise fun i j => dest + i ≠ src + j) (hlt : ∀ i ∈ l, i < count)
    (m : Mem) (x : ℕ) : l.foldl (copyByte dest src) m x =
      if dest ≤ x ∧ x - dest ∈ l then m (src + (x - dest)) else m x := by
  induction l generalizing m with
  | nil => simp
  | cons i l ih =>
    obtain ⟨hi, hl⟩ := pairwise_cons.mp hl
    rw [forall_mem_cons] at hlt
    rw [foldl_cons, ih hl hlt.2, copyByte, wrap64_of_lt (by omega), wrap64_of_lt (by omega)]
    by_cases hx : dest ≤ x ∧ x - dest ∈ l
    · rw [if_pos hx, if_pos ⟨hx.1, mem_cons_of_mem i hx.2⟩, update_of_ne (hi _ hx.2).symm]
    rw [if_neg hx]
    by_cases hxi : x = dest + i
    · rw [hxi, update_self, Nat.add_sub_cancel_left, if_pos ⟨by omega, mem_cons_self⟩]
    · rw [update_of_ne hxi, if_neg fun h => (mem_cons.mp h.2).elim (by omega) fun hm => hx ⟨h.1, hm⟩]

/-- However the ranges lie, the destination gets the bytes that the source had before the call. -/
theorem memmove_spec (m : Mem) : (∀ i < count, (memmove m dest src count).2 (dest + i) = m (src + i)) ∧
    ∀ x, x < dest ∨ dest + count ≤ x → (memmove m dest src count).2 x = m x := by
  unfold memmove
  split_ifs with hsame hlt
  · rcases hsame with rfl | rfl <;> simp
  -- upwards, each write is below the bytes that are still to be read
  · have hup : (range count).Pairwise fun i j => dest + i ≠ src + j := pairwise_lt_range.imp (by omega)
    simp only [foldl_copyByte hd hs hup (by simp), mem_range]
    grind
  -- and downwards it is above them
  · have hdown : (range count).reverse.Pairwise fun i j => dest + i ≠ src + j :=
      pairwise_reverse.mpr (pairwise_lt_range.imp (by omega))
    simp only [foldl_copyByte hd hs hdown (by simp), mem_reverse, mem_range]
    grind

end

theorem memmove_spec_overlap : (memmove (fun x => .ofNat (x + 1)) 2 0 6).2 7 = 6 :=
  (memmove_spec (by decide) (by decide) _).1 5 (by decide)

end AetherOS.KString
