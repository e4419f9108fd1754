import Mathlib.Data.List.GetD
import Mathlib.Data.Nat.ModEq
import Mathlib.Tactic.Common

/-!
# Rings with a phase bit

A producer writes entries into a ring of `N` slots and marks each with the phase of its lap,
which alternates from lap to lap. A consumer that follows at a distance of at most `N` entries
needs no counter of the producer: the entry in its slot is new exactly if it has the phase of
the consumer's own lap. Both sides keep a cursor, a slot with a phase.
-/
namespace AetherOS.PhaseRing
open Function Nat

variable {ε : Type*} {N : ℕ}

/-- The phase of the `k`-th entry, set in the first lap. -/
def lap (N k : ℕ) : Bool := decide (k / N % 2 = 0)

/-- A slot, and the phase of the lap. -/
structure Cursor where
  slot : ℕ
  phase : Bool
  deriving DecidableEq, Repr

/-- The next slot; the phase changes with the lap. -/
def Cursor.next (N : ℕ) (c : Cursor) : Cursor :=
  let slot := (c.slot + 1) % N
  ⟨slot, if slot = 0 then !c.phase else c.phase⟩

/-- The cursor after `k` entries. -/
def cursorAt (N k : ℕ) : Cursor := ⟨k % N, lap N k⟩

lemma lap_add_self (hN : 0 < N) (k : ℕ) : lap N (k + N) = !lap N k := by
  have hdiv : (k + N) / N = k / N + 1 := add_div_right k hN
  rw [lap, lap, hdiv, ← decide_not, decide_eq_decide]
  omega

lemma next_cursorAt (k : ℕ) : (cursorAt N k).next N = cursorAt N (k + 1) := by
  have hslot : (k % N + 1) % N = (k + 1) % N := mod_add_mod k N 1
  simp only [Cursor.next, cursorAt, hslot, Cursor.mk.injEq, true_and]
  by_cases h0 : (k + 1) % N = 0
  · -- a new lap begins
    have hdiv : (k + 1) / N = k / N + 1 := by rw [Nat.succ_div, if_pos (dvd_of_mod_eq_zero h0)]
    rw [if_pos h0, lap, lap, hdiv, ← decide_not, decide_eq_decide]
    omega
  have hdiv : (k + 1) / N = k / N := by
    rw [Nat.succ_div, if_neg fun hd => h0 (mod_eq_zero_of_dvd hd), add_zero]
  rw [if_neg h0, lap, lap, hdiv]

/-- The ring after the entries `log` were posted: it holds the last lap of them, and slots
that were never written to do not have the phase of the first lap. -/
structure Posted (N : ℕ) (phase : ε → Bool) (ring : ℕ → ε) (log : List ε) : Prop where
  stored : ∀ k (hk : k < log.length), log.length ≤ k + N → ring (k % N) = log[k]
  phases : ∀ k (hk : k < log.length), phase log[k] = lap N k
  fresh : ∀ k, k < N → log.length ≤ k → phase (ring k) = false

namespace Posted

variable {phase : ε → Bool} {ring : ℕ → ε} {log : List ε} {m : ℕ} {e : ε}

lemma init (h : ∀ k, k < N → phase (ring k) = false) : Posted N phase ring [] := by
  refine ⟨?_, ?_, fun k hk _ => h k hk⟩
  · intro k hk
    cases hk
  · intro k hk
    cases hk

section

variable (h : Posted N phase ring log)
include h

lemma post (he : phase e = lap N log.length) : Posted N phase (update ring (log.length % N) e) (log ++ [e]) := by
  refine ⟨?_, ?_, ?_⟩
  · intro k hk hfit
    rw [List.length_append, List.length_singleton] at hk hfit
    by_cases hlast : k = log.length
    · subst hlast
      rw [update_self, List.getElem_append_right (le_refl _)]
      simp
    -- the entries of the last lap are in other slots
    have hk' : k < log.length := by omega
    have hslot : k % N ≠ log.length % N := by
      intro heq
      have hdvd : N ∣ log.length - k := (modEq_iff_dvd' hk'.le).mp heq
      have hle := le_of_dvd (by omega) hdvd
      omega
    rw [update_of_ne hslot, List.getElem_append_left hk']
    exact h.stored k hk' (by omega)
  · intro k hk
    rw [List.length_append, List.length_singleton] at hk
    by_cases hlast : k = log.length
    · subst hlast
      rw [List.getElem_append_right (le_refl _)]
      simpa using he
    have hk' : k < log.length := by omega
    rw [List.getElem_append_left hk']
    exact h.phases k hk'
  · intro k hkN hk
    rw [List.length_append, List.length_singleton] at hk
    have hslot : k ≠ log.length % N := by
      have hle := mod_le log.length N
      omega
    rw [update_of_ne hslot]
    exact h.fresh k hkN (by omega)

/-- A consumer that is behind finds the oldest entry it has not seen, with its own phase. -/
lemma at_behind (hm : m < log.length) (hfit : log.length ≤ m + N) :
    ring (cursorAt N m).slot = log[m] ∧ phase (ring (cursorAt N m).slot) = (cursorAt N m).phase := by
  have hring : ring (m % N) = log[m] := h.stored m hm hfit
  exact ⟨hring, by rw [cursorAt, hring, h.phases m hm]⟩

lemma at_end (hN : 0 < N) : phase (ring (cursorAt N log.length).slot) ≠ (cursorAt N log.length).phase := by
  simp only [cursorAt]
  by_cases hlap : log.length < N
  · rw [mod_eq_of_lt hlap, h.fresh _ hlap (le_refl _), lap, div_eq_of_lt hlap]
    decide
  obtain ⟨k, hk⟩ := Nat.exists_eq_add_of_le' (Nat.le_of_not_lt hlap)
  have hklt : k < log.length := by omega
  have hring : ring (k % N) = log[k] := h.stored k hklt (by omega)
  have hphase := h.phases k hklt
  rw [hk, add_mod_right, lap_add_self hN, hring, hphase]
  exact Bool.self_ne_not _

end

end Posted

end AetherOS.PhaseRing
