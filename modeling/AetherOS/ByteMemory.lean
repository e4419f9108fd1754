import Mathlib.Tactic

/-!
# Byte-addressed memory with little-endian fields

Memory is a total map from addresses to bytes. Integers are stored in fields of
a fixed number of bytes, least significant byte first, the way a packed record
lays them out. Nothing here refers to a particular record: a client names its
fields by their offset and width and uses the read-over-write laws below.
-/
namespace AetherOS.ByteMemory

/-- Memory contents, one byte for every address. -/
abbrev Mem := ℕ → UInt8

/-- The unsigned value held in the `k` bytes from `a`, lowest byte first. -/
def readLE (m : Mem) : ℕ → ℕ → ℕ
  | 0, _ => 0
  | k + 1, a => (m a).toNat + 256 * readLE m k (a + 1)

/-- Store the low `k` bytes of `v` at `a`; every other byte keeps its value. -/
def writeLE (m : Mem) (k a v : ℕ) : Mem := fun x =>
  if a ≤ x ∧ x < a + k then UInt8.ofNat (v / 256 ^ (x - a)) else m x

/-- Overwrite the `k` bytes from `a` with the bytes `f 0 .. f (k - 1)`. -/
def blit (m : Mem) (k a : ℕ) (f : ℕ → UInt8) : Mem := fun x => if a ≤ x ∧ x < a + k then f (x - a) else m x

theorem writeLE_outside (m : Mem) {k a v x : ℕ} (h : x < a ∨ a + k ≤ x) : writeLE m k a v x = m x := by
  simp only [writeLE]
  rw [if_neg]
  omega

theorem blit_outside (m : Mem) {k a x : ℕ} (f : ℕ → UInt8) (h : x < a ∨ a + k ≤ x) : blit m k a f x = m x := by
  simp only [blit]
  rw [if_neg]
  omega

theorem blit_inside (m : Mem) {k a i : ℕ} (f : ℕ → UInt8) (h : i < k) : blit m k a f (a + i) = f i := by
  simp only [blit]
  rw [if_pos (by omega), Nat.add_sub_cancel_left]

theorem blit_eq_self {m : Mem} {k a : ℕ} {f : ℕ → UInt8} (h : ∀ i < k, m (a + i) = f i) : blit m k a f = m := by
  funext x
  by_cases hx : a ≤ x ∧ x < a + k
  · obtain ⟨i, rfl⟩ := Nat.exists_eq_add_of_le hx.1
    rw [blit_inside m f (by omega), h i (by omega)]
  · exact blit_outside m f (by omega)

/-- A field only depends on its own bytes. -/
theorem readLE_congr {m m' : Mem} {k a : ℕ} (h : ∀ x, a ≤ x → x < a + k → m' x = m x) :
    readLE m' k a = readLE m k a := by
  induction k generalizing a with
  | zero => rfl
  | succ k ih =>
    simp only [readLE]
    rw [h a le_rfl (by omega), ih (fun x hx hx' => h x (by omega) (by omega))]

theorem readLE_lt (m : Mem) (k a : ℕ) : readLE m k a < 256 ^ k := by
  induction k generalizing a with
  | zero => simp [readLE]
  | succ k ih =>
    have hb : (m a).toNat < 256 := (m a).toNat_lt
    have hr := ih (a + 1)
    simp only [readLE, pow_succ]
    omega

/-- Bytes that are the base-256 digits of `v` read back as `v`, up to overflow. -/
theorem readLE_digits {m : Mem} {k a v : ℕ} (h : ∀ i < k, m (a + i) = UInt8.ofNat (v / 256 ^ i)) :
    readLE m k a = v % 256 ^ k := by
  induction k generalizing a v with
  | zero => simp [readLE, Nat.mod_one]
  | succ k ih =>
    have h0 : (m a).toNat = v % 256 := by
      have hm := h 0 (by omega)
      simp only [add_zero, pow_zero, Nat.div_one] at hm
      simp [hm]
    have hrest : readLE m k (a + 1) = v / 256 % 256 ^ k := by
      apply ih
      intro i hi
      have hm := h (i + 1) (by omega)
      rw [show a + 1 + i = a + (i + 1) by omega, hm, Nat.div_div_eq_div_mul, pow_succ, mul_comm]
    rw [readLE, h0, hrest, pow_succ', Nat.mod_mul]

@[simp] theorem readLE_writeLE_same (m : Mem) (k a v : ℕ) : readLE (writeLE m k a v) k a = v % 256 ^ k := by
  apply readLE_digits
  intro i hi
  simp only [writeLE]
  rw [if_pos (by omega), Nat.add_sub_cancel_left]

theorem readLE_outside (m : Mem) {k a v k' a' : ℕ} (h : a + k ≤ a' ∨ a' + k' ≤ a) :
    readLE (writeLE m k a v) k' a' = readLE m k' a' := by
  apply readLE_congr
  intro x hx hx'
  exact writeLE_outside m (by omega)

theorem readLE_blit_disjoint (m : Mem) {k a k' a' : ℕ} (f : ℕ → UInt8) (h : a + k ≤ a' ∨ a' + k' ≤ a) :
    readLE (blit m k a f) k' a' = readLE m k' a' := by
  apply readLE_congr
  intro x hx hx'
  exact blit_outside m f (by omega)

/-- The `k` bytes from `a`, as a buffer of their own that is zero elsewhere. -/
def slice (m : Mem) (a k : ℕ) : Mem := fun i => if i < k then m (a + i) else 0

/-- The `k` bytes from `a`, as a list. -/
def bytes (m : Mem) (a k : ℕ) : List UInt8 := (List.range k).map fun i => m (a + i)

/-- The values from `off` on, up to the first one that is not there. -/
def takeSome {α : Type} (f : ℕ → Option α) : ℕ → ℕ → List α
  | _, 0 => []
  | off, n + 1 =>
    match f off with
    | none => []
    | some x => x :: takeSome f (off + 1) n

section

variable {α : Type} {f : ℕ → Option α} {off n : ℕ}

lemma takeSome_none (h : f off = none) : takeSome f off n = [] := by
  cases n with
  | zero => rfl
  | succ n => rw [takeSome, h]

/-- A longer range is taken in two parts, the second one only if the first one is complete. -/
lemma takeSome_add (f : ℕ → Option α) (off a b : ℕ) : takeSome f off (a + b) =
    if (takeSome f off a).length = a then takeSome f off a ++ takeSome f (off + a) b else takeSome f off a := by
  induction a generalizing off with
  | zero => simp [takeSome]
  | succ a ih =>
    rw [Nat.succ_add, takeSome, takeSome]
    cases f off with
    | none => simp
    | some x =>
      simp only [ih, List.length_cons, Nat.add_right_cancel_iff]
      split
      · rw [List.cons_append, Nat.add_assoc, Nat.add_comm 1 a]
      · rfl

lemma takeSome_eq_map {v : ℕ → α} (h : ∀ i < n, f (off + i) = some (v i)) :
    takeSome f off n = (List.range n).map v := by
  induction n with
  | zero => rfl
  | succ n ih =>
    have hfirst := ih fun i hi => h i (Nat.lt_succ_of_lt hi)
    have hlast : takeSome f (off + n) 1 = [v n] := by
      rw [takeSome, h n (Nat.lt_succ_self n)]
      rfl
    rw [takeSome_add, hfirst, if_pos (by simp), hlast, List.range_succ, List.map_append]
    rfl

lemma length_takeSome_le {x : ℕ} (h : f (off + x) = none) : (takeSome f off n).length ≤ x := by
  induction n generalizing off x with
  | zero => exact Nat.zero_le _
  | succ n ih =>
    cases x with
    | zero =>
      have hnone : f off = none := h
      rw [takeSome_none hnone]
      exact Nat.le_refl _
    | succ x =>
      rw [takeSome]
      split
      · exact Nat.zero_le _
      · exact Nat.succ_le_succ (ih (Nat.add_right_comm off 1 x ▸ h))

lemma length_takeSome (f : ℕ → Option α) (off n : ℕ) : (takeSome f off n).length ≤ n := by
  induction n generalizing off with
  | zero => exact Nat.le_refl _
  | succ n ih =>
    rw [takeSome]
    split
    · exact Nat.zero_le _
    · exact Nat.succ_le_succ (ih _)

/-- Nothing is there from `fin` on. -/
lemma takeSome_before (f : ℕ → Option α) (fin off n : ℕ) :
    takeSome (fun x => if x < fin then f x else none) off n = takeSome f off (min n (fin - off)) := by
  induction n generalizing off with
  | zero => rw [Nat.zero_min, takeSome, takeSome]
  | succ n ih =>
    by_cases h : off < fin
    · rw [show min (n + 1) (fin - off) = min n (fin - (off + 1)) + 1 by omega, takeSome, takeSome, if_pos h, ih]
    · rw [takeSome_none (if_neg h), show min (n + 1) (fin - off) = 0 by omega, takeSome]

end

theorem slice_inside (m : Mem) {a k i : ℕ} (h : i < k) : slice m a k i = m (a + i) := if_pos h

theorem slice_congr {m m' : Mem} {a k : ℕ} (h : ∀ i < k, m' (a + i) = m (a + i)) : slice m' a k = slice m a k := by
  funext i
  simp only [slice]
  split
  next hi => exact h i hi
  · rfl

theorem slice_slice (m : Mem) {a k b n : ℕ} (h : b + n ≤ k) : slice (slice m a k) b n = slice m (a + b) n := by
  funext i
  by_cases hi : i < n
  · rw [slice_inside _ hi, slice_inside _ (by omega), slice_inside _ hi, add_assoc]
  · simp only [slice, if_neg hi]

theorem readLE_slice (m : Mem) {a k b n : ℕ} (h : b + n ≤ k) : readLE (slice m a k) n b = readLE m n (a + b) := by
  induction n generalizing b with
  | zero => rfl
  | succ n ih => rw [readLE, readLE, slice_inside m (by omega), ih (by omega), add_assoc]

/-- Writing back a buffer in which a part was overwritten writes that part. -/
theorem blit_slice_blit (m : Mem) {a k b n : ℕ} (f : ℕ → UInt8) (h : b + n ≤ k) :
    blit m k a (blit (slice m a k) n b f) = blit m n (a + b) f := by
  funext x
  by_cases hx : a ≤ x ∧ x < a + k
  · obtain ⟨i, rfl⟩ := Nat.exists_eq_add_of_le hx.1
    have hi : i < k := by omega
    rw [blit_inside m _ hi]
    by_cases hb : b ≤ i ∧ i < b + n
    · obtain ⟨j, rfl⟩ := Nat.exists_eq_add_of_le hb.1
      rw [blit_inside _ f (by omega), ← add_assoc, blit_inside _ f (by omega)]
    · rw [blit_outside _ f (by omega), blit_outside _ f (by omega), slice_inside m hi]
  · rw [blit_outside m _ (by omega), blit_outside m f (by omega)]

theorem slice_blit_self (m : Mem) (a k : ℕ) (f : ℕ → UInt8) : slice (blit m k a f) a k = slice f 0 k := by
  funext i
  simp only [slice]
  split
  next hi => rw [blit_inside m f hi, zero_add]
  · rfl

theorem slice_blit_disjoint (m : Mem) {k a k' a' : ℕ} (f : ℕ → UInt8)
    (h : a + k ≤ a' ∨ a' + k' ≤ a) : slice (blit m k a f) a' k' = slice m a' k' :=
  slice_congr fun _ hi => blit_outside m f (by omega)

end AetherOS.ByteMemory
