import Mathlib.Tactic

/-!
# The physical page allocator

One bit for each 4 KiB page below 64 GiB, in 64-bit words; a set bit is a page in use.
Allocation takes the lowest clear bit of the first word that has one. The lock around
each operation makes it one step; a panic is an error with its message.
-/
namespace AetherOS.Mem
open Function Nat

abbrev pageSize : ℕ := 4096

abbrev maxPhysBytes : ℕ := 2 ^ 36

abbrev maxPages : ℕ := 2 ^ 24

abbrev wordBits : ℕ := 64

abbrev bitmapWords : ℕ := 2 ^ 18

/-- `PMM_ALLOC_FAILED` -/
abbrev allocFailed : ℕ := 2 ^ 64 - 1

structure Pmm where
  bitmap : ℕ → BitVec 64
  free : ℕ

def bitmapClear (p : Pmm) (page : ℕ) : Pmm :=
  let word := p.bitmap (page / wordBits)
  { p with bitmap :=
      update p.bitmap (page / wordBits) (word &&& ~~~(1#64 <<< (page % wordBits))) }

def bitmapTest (p : Pmm) (page : ℕ) : Bool :=
  p.bitmap (page / wordBits) &&& 1#64 <<< (page % wordBits) != 0#64

/-- The first of the next `n` words that is not full. -/
def scan (bitmap : ℕ → BitVec 64) : ℕ → ℕ → Option ℕ
  | 0, _ => none
  | n + 1, word => if bitmap word = BitVec.allOnes 64 then scan bitmap n (word + 1) else some word

def pmmAllocPage (p : Pmm) : ℕ × Pmm :=
  match scan p.bitmap bitmapWords 0 with
  | none => (allocFailed, p)
  | some word =>
    let bit := (~~~(p.bitmap word)).ctz.toNat
    ((word * wordBits + bit) * pageSize,
      { bitmap := update p.bitmap word (p.bitmap word ||| 1#64 <<< bit)
        free := (p.free + 2 ^ 64 - 1) % 2 ^ 64 })

def pmmFreePage (p : Pmm) (physicalAddress : ℕ) : Except String Pmm :=
  if physicalAddress % pageSize ≠ 0 ∨ maxPhysBytes ≤ physicalAddress then
    throw "invalid PMM free"
  else
    let page := physicalAddress / pageSize
    if !bitmapTest p page then throw "double PMM free"
    else
      let p := bitmapClear p page
      pure { p with free := (p.free + 1) % 2 ^ 64 }

/-! ## The bitmap as a set of pages -/

section

variable (p : Pmm) (page : ℕ)

lemma bitmapTest_eq : bitmapTest p page = (p.bitmap (page / wordBits)).getLsbD (page % wordBits) := by
  have hlt : page % 64 < 64 := mod_lt _ (by decide)
  have hbit : 1#64 <<< (page % 64) = BitVec.twoPow 64 (page % 64) := rfl
  have hne : BitVec.twoPow 64 (page % 64) ≠ 0#64 := by
    intro h
    have := congrArg (fun x => x.getLsbD (page % 64)) h
    simp [hlt] at this
  unfold bitmapTest
  rw [hbit, BitVec.and_twoPow]
  cases (p.bitmap (page / 64)).getLsbD (page % 64) with
  | true => simpa using hne
  | false => simp

lemma bitmapTest_update (word : ℕ) (x : BitVec 64) (n : ℕ) :
    bitmapTest ⟨update p.bitmap word x, n⟩ page =
      if page / wordBits = word then x.getLsbD (page % wordBits) else bitmapTest p page := by
  rw [bitmapTest_eq, bitmapTest_eq]
  by_cases h : page / 64 = word
  · simp [h]
  · simp [h]

lemma bitmapTest_or {word bit : ℕ} (hbit : bit < wordBits) (n : ℕ) :
    bitmapTest ⟨update p.bitmap word (p.bitmap word ||| 1#64 <<< bit), n⟩ page =
      (bitmapTest p page || decide (page = word * wordBits + bit)) := by
  rw [bitmapTest_update]
  have hlt : page % 64 < 64 := mod_lt _ (by decide)
  by_cases h : page / 64 = word
  · have hpage : page = word * 64 + bit ↔ bit = page % 64 := by omega
    have hshift : 1#64 <<< bit = BitVec.twoPow 64 bit := rfl
    rw [if_pos h, bitmapTest_eq, h, hshift, BitVec.getLsbD_or, BitVec.getLsbD_twoPow]
    simp [hpage, hbit]
  have hne : page ≠ word * 64 + bit := by
    simp only [wordBits] at hbit
    omega
  simp [h, hne]

lemma bitmapTest_clear (q : ℕ) : bitmapTest (bitmapClear p page) q = (bitmapTest p q && decide (q ≠ page)) := by
  have hq : q % 64 < 64 := mod_lt _ (by decide)
  have hp : page % 64 < 64 := mod_lt _ (by decide)
  unfold bitmapClear
  rw [bitmapTest_update]
  by_cases h : q / 64 = page / 64
  · have hpage : q ≠ page ↔ q % 64 ≠ page % 64 := by omega
    have hshift : 1#64 <<< (page % 64) = BitVec.twoPow 64 (page % 64) := rfl
    rw [if_pos h, bitmapTest_eq, h, hshift, BitVec.getLsbD_and, BitVec.getLsbD_not,
      BitVec.getLsbD_twoPow]
    by_cases he : q % 64 = page % 64
    · simp [hpage, he]
    · simp [hpage, he, hq, Ne.symm he]
  · have hne : q ≠ page := by
      rintro rfl
      exact h rfl
    simp [h, hne]

lemma scan_spec (bitmap : ℕ → BitVec 64) (n word : ℕ) :
    (scan bitmap n word = none ∧ ∀ w, word ≤ w → w < word + n → bitmap w = BitVec.allOnes 64) ∨
      ∃ w, scan bitmap n word = some w ∧ word ≤ w ∧ w < word + n ∧ bitmap w ≠ BitVec.allOnes 64 := by
  induction n generalizing word with
  | zero => exact .inl ⟨rfl, fun w h1 h2 => by omega⟩
  | succ n ih =>
    simp only [scan]
    by_cases hw : bitmap word = BitVec.allOnes 64
    · rw [if_pos hw]
      rcases ih (word + 1) with ⟨hnone, hall⟩ | ⟨w, hsome, h1, h2, h3⟩
      · refine .inl ⟨hnone, fun w h1 h2 => ?_⟩
        by_cases he : w = word
        · rw [he]
          exact hw
        · exact hall w (by omega) (by omega)
      · exact .inr ⟨w, hsome, by omega, by omega, h3⟩
    · rw [if_neg hw]
      exact .inr ⟨word, rfl, Nat.le_refl _, by omega, hw⟩

/-- Allocation fails when every page is in use, and else takes a free page. -/
theorem pmmAllocPage_spec :
    (pmmAllocPage p = (allocFailed, p) ∧ ∀ k < maxPages, bitmapTest p k = true) ∨
      ∃ k p', pmmAllocPage p = (k * pageSize, p') ∧ k < maxPages ∧ bitmapTest p k = false ∧
        ∀ q, bitmapTest p' q = (bitmapTest p q || decide (q = k)) := by
  unfold pmmAllocPage
  rcases scan_spec p.bitmap bitmapWords 0 with ⟨hnone, hall⟩ | ⟨w, hsome, -, hw, hne⟩
  · left
    rw [hnone]
    refine ⟨rfl, fun k hk => ?_⟩
    have hword : k / wordBits < 0 + bitmapWords := by
      simp only [maxPages, wordBits, bitmapWords] at hk ⊢
      omega
    rw [bitmapTest_eq, hall _ (Nat.zero_le _) hword, BitVec.getLsbD_allOnes]
    exact decide_eq_true (mod_lt _ (by decide))
  right
  rw [hsome]
  have hzero : ~~~(p.bitmap w) ≠ 0#64 := by
    intro h
    refine hne ?_
    have hnot : p.bitmap w = ~~~(~~~(p.bitmap w)) := BitVec.not_not.symm
    rw [hnot, h]
    rfl
  have hbit : (~~~(p.bitmap w)).ctz.toNat < 64 := by
    have hlt := BitVec.ctz_lt_iff_ne_zero.mpr hzero
    simpa [BitVec.lt_def] using hlt
  have hclear : (p.bitmap w).getLsbD (~~~(p.bitmap w)).ctz.toNat = false := by
    have htrue := BitVec.getLsbD_true_ctz_of_ne_zero hzero
    rw [BitVec.getLsbD_not] at htrue
    simpa [hbit] using htrue
  refine ⟨_, _, rfl, ?_, ?_, fun q => bitmapTest_or p q hbit _⟩
  · simp only [maxPages, wordBits, bitmapWords] at hw ⊢
    omega
  have hdiv : (w * 64 + (~~~(p.bitmap w)).ctz.toNat) / 64 = w := by omega
  have hmod : (w * 64 + (~~~(p.bitmap w)).ctz.toNat) % 64 = (~~~(p.bitmap w)).ctz.toNat := by omega
  rw [bitmapTest_eq, hdiv, hmod]
  exact hclear

/-- A page in use is freed without a panic. -/
theorem pmmFreePage_spec {k : ℕ} (hk : k < maxPages) (hused : bitmapTest p k = true) :
    ∃ p', pmmFreePage p (k * pageSize) = .ok p' ∧
      ∀ q, bitmapTest p' q = (bitmapTest p q && decide (q ≠ k)) := by
  have hdiv : k * pageSize / pageSize = k := Nat.mul_div_cancel _ (by decide)
  have hguard : ¬(k * pageSize % pageSize ≠ 0 ∨ maxPhysBytes ≤ k * pageSize) := by
    simp only [maxPages, maxPhysBytes, pageSize] at hk ⊢
    omega
  unfold pmmFreePage
  rw [if_neg hguard]
  simp only [hdiv, hused, Bool.not_true, Bool.false_eq_true, if_false]
  exact ⟨_, rfl, fun q => bitmapTest_clear p k q⟩

end

end AetherOS.Mem
