import Mathlib.Data.List.Chain
import Mathlib.Tactic.Linarith

/-!
# Tilings of a range

A range of addresses is cut into consecutive pieces, each of which records its own
size. The pieces are known by where they start. Nothing is said about how a piece
records its size, only that sizes satisfy a given predicate.
-/
namespace AetherOS.Tiling

/-- The pieces that start at `bs` follow each other from `a` to `e` without gap. -/
def Tiles (size : ℕ → ℕ) (ok : ℕ → Prop) : ℕ → List ℕ → ℕ → Prop
  | a, [], e => a = e
  | a, b :: bs, e => b = a ∧ ok (size b) ∧ Tiles size ok (b + size b) bs e

variable {size size' : ℕ → ℕ} {ok : ℕ → Prop} {a e b c : ℕ} {bs l r : List ℕ}

lemma mem_middle : c ∈ l ++ b :: r ↔ c = b ∨ c ∈ l ++ r := by
  simp only [List.mem_append, List.mem_cons]
  tauto

lemma Tiles.append_iff : Tiles size ok a (l ++ r) e ↔ ∃ d, Tiles size ok a l d ∧ Tiles size ok d r e := by
  induction l generalizing a with
  | nil =>
    constructor
    · exact fun h => ⟨a, rfl, h⟩
    · rintro ⟨d, rfl, h⟩
      exact h
  | cons x l ih =>
    simp only [List.cons_append, Tiles, ih]
    constructor
    · rintro ⟨h1, h2, d, h3, h4⟩
      exact ⟨d, ⟨h1, h2, h3⟩, h4⟩
    · rintro ⟨d, ⟨h1, h2, h3⟩, h4⟩
      exact ⟨h1, h2, d, h3, h4⟩

section

variable (h : Tiles size ok a bs e)
include h

lemma Tiles.congr (hs : ∀ b ∈ bs, size' b = size b) : Tiles size' ok a bs e := by
  induction bs generalizing a with
  | nil => exact h
  | cons b bs ih =>
    obtain ⟨h1, h2, h3⟩ := h
    have hb := hs b (by simp)
    refine ⟨h1, by rwa [hb], ?_⟩
    rw [hb]
    exact ih h3 fun c hc => hs c (by simp [hc])

lemma Tiles.le : a ≤ e := by
  induction bs generalizing a with
  | nil => exact h.le
  | cons b bs ih =>
    obtain ⟨rfl, -, h3⟩ := h
    have := ih h3
    omega

lemma Tiles.bounds : ∀ b ∈ bs, a ≤ b ∧ b + size b ≤ e ∧ ok (size b) := by
  induction bs generalizing a with
  | nil => simp
  | cons c bs ih =>
    obtain ⟨rfl, h2, h3⟩ := h
    intro b hb
    rcases List.mem_cons.mp hb with rfl | hb
    · exact ⟨le_rfl, h3.le, h2⟩
    · obtain ⟨h4, h5⟩ := ih h3 b hb
      exact ⟨by omega, h5⟩

lemma Tiles.pairwise : bs.Pairwise fun b c => b + size b ≤ c := by
  induction bs generalizing a with
  | nil => exact List.Pairwise.nil
  | cons b bs ih =>
    obtain ⟨rfl, -, h3⟩ := h
    exact List.Pairwise.cons (fun c hc => (h3.bounds c hc).1) (ih h3)

lemma Tiles.apart (hb : b ∈ bs) (hc : c ∈ bs) (hne : b ≠ c) :
    b + size b ≤ c ∨ c + size c ≤ b := by
  have : Std.Symm fun b c => b + size b ≤ c ∨ c + size c ≤ b := ⟨fun _ _ => Or.symm⟩
  have hpair : bs.Pairwise fun b c => b + size b ≤ c ∨ c + size c ≤ b := h.pairwise.imp Or.inl
  exact hpair.forall hb hc hne

lemma Tiles.length_le (hpos : ∀ n, ok n → 0 < n) : a + bs.length ≤ e := by
  induction bs generalizing a with
  | nil => exact h.le
  | cons b bs ih =>
    obtain ⟨rfl, h2, h3⟩ := h
    have hlen := ih h3
    have h0 := hpos _ h2
    simp only [List.length_cons]
    omega

end

lemma Tiles.split {n : ℕ} (h : Tiles size ok a (l ++ b :: r) e) (hl : ∀ c ∈ l, size' c = size c)
    (hr : ∀ c ∈ r, size' c = size c) (hb : size' b = n) (hrest : n + size' (b + n) = size b)
    (hok : ok n) (hok' : ok (size' (b + n))) : Tiles size' ok a (l ++ b :: (b + n) :: r) e := by
  obtain ⟨d, h1, h2, h3, h4⟩ := Tiles.append_iff.mp h
  refine Tiles.append_iff.mpr ⟨d, h1.congr hl, h2, by rwa [hb], by rw [hb], hok', ?_⟩
  rw [add_assoc, hrest]
  exact h4.congr hr

lemma Tiles.join (h : Tiles size ok a (l ++ b :: c :: r) e) (hl : ∀ x ∈ l, size' x = size x)
    (hr : ∀ x ∈ r, size' x = size x) (hb : size' b = size b + size c) (hok : ok (size b + size c)) :
    Tiles size' ok a (l ++ b :: r) e := by
  obtain ⟨d, h1, h2, h3, h4, h5, h6⟩ := Tiles.append_iff.mp h
  refine Tiles.append_iff.mpr ⟨d, h1.congr hl, h2, by rwa [hb], ?_⟩
  rw [hb, ← add_assoc, ← h4]
  exact h6.congr hr

lemma Tiles.next (h : Tiles size ok a (l ++ b :: c :: r) e) : c = b + size b := by
  obtain ⟨d, -, -, -, h4, -⟩ := Tiles.append_iff.mp h
  exact h4

lemma Tiles.next_end (h : Tiles size ok a (l ++ [b]) e) : b + size b = e := by
  obtain ⟨d, -, -, -, h4⟩ := Tiles.append_iff.mp h
  exact h4

end AetherOS.Tiling
