import AetherOS.ByteMemory

/-!
# Bitmaps in bytes

Bit `i` of a buffer is bit `i % 8` of its byte `i / 8`.
-/
namespace AetherOS.ByteBitmap
open ByteMemory Function Nat

def testBit (m : Mem) (i : ℕ) : Bool := (m (i / 8)).toNat.testBit (i % 8)

def setBit (m : Mem) (i : ℕ) : Mem :=
  update m (i / 8) (m (i / 8) ||| UInt8.ofNat (2 ^ (i % 8)))

def clearBit (m : Mem) (i : ℕ) : Mem :=
  update m (i / 8) (m (i / 8) &&& ~~~UInt8.ofNat (2 ^ (i % 8)))

/-- The first clear bit among the `n` bits from `i`. -/
def firstClear (m : Mem) : ℕ → ℕ → Option ℕ
  | 0, _ => none
  | n + 1, i => if testBit m i then firstClear m n (i + 1) else some i

lemma two_pow_lt (i : ℕ) : 2 ^ (i % 8) < 2 ^ 8 :=
  Nat.pow_lt_pow_right (by decide) (mod_lt i (by decide))

lemma toNat_mask (i : ℕ) : (UInt8.ofNat (2 ^ (i % 8))).toNat = 2 ^ (i % 8) := by
  rw [UInt8.toNat_ofNat', mod_eq_of_lt (two_pow_lt i)]

lemma testBit_setBit (m : Mem) (i j : ℕ) : testBit (setBit m i) j = (testBit m j || decide (j = i)) := by
  unfold testBit setBit
  by_cases hbyte : j / 8 = i / 8
  · rw [hbyte, update_self, UInt8.toNat_or, testBit_or, toNat_mask, testBit_two_pow]
    congr 1
    apply decide_eq_decide.mpr
    omega
  · have hne : j ≠ i := fun h => hbyte (by rw [h])
    rw [update_of_ne hbyte, decide_eq_false hne, Bool.or_false]

lemma testBit_clearBit (m : Mem) (i j : ℕ) : testBit (clearBit m i) j = (testBit m j && decide (j ≠ i)) := by
  unfold testBit clearBit
  by_cases hbyte : j / 8 = i / 8
  · have hj : j % 8 < 8 := mod_lt j (by decide)
    have hmask : UInt8.size - 1 - 2 ^ (i % 8) = 2 ^ 8 - (2 ^ (i % 8) + 1) := by
      simp only [UInt8.size]
      omega
    rw [hbyte, update_self, UInt8.toNat_and, testBit_and, UInt8.toNat_not,
      toNat_mask, hmask, testBit_two_pow_sub_succ (two_pow_lt i),
      testBit_two_pow, decide_eq_true hj, Bool.true_and, ← decide_not]
    congr 1
    apply decide_eq_decide.mpr
    omega
  · have hne : j ≠ i := fun h => hbyte (by rw [h])
    rw [update_of_ne hbyte, decide_eq_true hne, Bool.and_true]

lemma testBit_congr {m m' : Mem} {i : ℕ} (h : m' (i / 8) = m (i / 8)) : testBit m' i = testBit m i := by
  rw [testBit, testBit, h]

lemma firstClear_spec {m : Mem} {n i j : ℕ} (h : firstClear m n i = some j) :
    i ≤ j ∧ j < i + n ∧ testBit m j = false := by
  induction n generalizing i with
  | zero => cases h
  | succ n ih =>
    rw [firstClear] at h
    by_cases hi : testBit m i = true
    · rw [if_pos hi] at h
      obtain ⟨h1, h2, h3⟩ := ih h
      exact ⟨by omega, by omega, h3⟩
    rw [if_neg hi] at h
    obtain rfl := Option.some.inj h
    exact ⟨le_refl i, by omega, Bool.not_eq_true _ |>.mp hi⟩

lemma firstClear_least {m : Mem} {n i j : ℕ} (hi : i ≤ j) (hj : j < i + n) (hclear : testBit m j = false) :
    ∃ b, firstClear m n i = some b ∧ b ≤ j := by
  induction n generalizing i with
  | zero => omega
  | succ n ih =>
    rw [firstClear]
    by_cases hset : testBit m i = true
    · rw [if_pos hset]
      have hne : i ≠ j := fun he => by simp [he, hclear] at hset
      exact ih (by omega) (by omega)
    · exact ⟨i, if_neg hset, hi⟩

end AetherOS.ByteBitmap
