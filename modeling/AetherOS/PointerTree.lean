import Mathlib.Data.List.Induction
import Mathlib.Data.List.Flatten
import Mathlib.Data.List.Nodup

/-!
# Trees of pointers

Nodes in a store refer to other nodes through numbered slots; `step k n i` is the node
that slot `i` of the node `n` refers to, read at distance `k` from the root. Nothing in
the store says that the nodes form a tree. `NoSharing` does, up to a depth: different
paths lead to different nodes. Then a change of one slot is seen from one path only.
-/
namespace AetherOS.PointerTree
open List Option

variable {N I : Type*}

/-- The node at the end of a path that starts in `n`, at distance `k` from the root. -/
def walk (step : ℕ → N → I → Option N) : ℕ → N → List I → Option N
  | _, n, [] => some n
  | k, n, i :: p => (step k n i).bind fun c => walk step (k + 1) c p

/-- Paths of at most `d` slots from the root lead to different nodes. -/
def NoSharing (step : ℕ → N → I → Option N) (root : N) (d : ℕ) : Prop :=
  ∀ p q n, p.length ≤ d → q.length ≤ d → walk step 0 root p = some n → walk step 0 root q = some n → p = q

section

variable {step step' : ℕ → N → I → Option N} {root n t c : N} {d k : ℕ} {p q : List I} {i : I}

lemma walk_append (p q : List I) (k : ℕ) (n : N) :
    walk step k n (p ++ q) = (walk step k n p).bind fun m => walk step (k + p.length) m q := by
  induction p generalizing k n with
  | nil => rfl
  | cons i p ih =>
    simp only [cons_append, walk, length_cons]
    cases step k n i with
    | none => rfl
    | some c =>
      simp only [bind_some, ih (k + 1) c]
      rw [Nat.add_right_comm, Nat.add_assoc]

lemma walk_concat (p : List I) (i : I) (n : N) :
    walk step 0 n (p ++ [i]) = (walk step 0 n p).bind fun m => step p.length m i := by
  rw [walk_append]
  cases walk step 0 n p with
  | none => rfl
  | some m => simp [walk]

/-- Unsharedness, as a property of the references: each node is the target of at most
one slot, and the root of none. -/
theorem noSharing_of_unique
    (hroot : ∀ p n i, p.length < d → walk step 0 root p = some n → step p.length n i ≠ some root)
    (hunique : ∀ p q m n i j c, p.length < d → q.length < d → walk step 0 root p = some m →
      walk step 0 root q = some n → step p.length m i = some c → step q.length n j = some c →
      m = n ∧ i = j) : NoSharing step root d := by
  intro p
  induction p using List.reverseRecOn with
  | nil =>
    intro q n _ hq hp hqn
    cases hp
    rcases eq_nil_or_concat' q with rfl | ⟨q, j, rfl⟩
    · rfl
    rw [walk_concat] at hqn
    obtain ⟨m, hm, hj⟩ := bind_eq_some_iff.mp hqn
    simp only [length_append, length_singleton] at hq
    exact absurd hj (hroot q m j (by omega) hm)
  | append_singleton p i ih =>
    intro q n hp hq hpn hqn
    simp only [length_append, length_singleton] at hp
    rw [walk_concat] at hpn
    obtain ⟨m, hm, hi⟩ := bind_eq_some_iff.mp hpn
    rcases eq_nil_or_concat' q with rfl | ⟨q, j, rfl⟩
    · cases hqn
      exact absurd hi (hroot p m i (by omega) hm)
    rw [walk_concat] at hqn
    obtain ⟨m', hm', hj⟩ := bind_eq_some_iff.mp hqn
    simp only [length_append, length_singleton] at hq
    obtain ⟨rfl, rfl⟩ := hunique p q m m' i j n (by omega) (by omega) hm hm' hi hj
    rw [ih q m (by omega) (by omega) hm hm']

/-- One more level of nodes, each the target of one slot of the level above. -/
theorem NoSharing.succ (h : NoSharing step root d)
    (hnew : ∀ p q n i c, p.length = d → q.length ≤ d → walk step 0 root p = some n →
      step p.length n i = some c → walk step 0 root q ≠ some c)
    (hunique : ∀ p q m n i j c, p.length = d → q.length = d → walk step 0 root p = some m →
      walk step 0 root q = some n → step p.length m i = some c → step q.length n j = some c →
      p = q ∧ i = j) : NoSharing step root (d + 1) := by
  intro p q n hp hq hpn hqn
  -- the last slot of a path of full length
  have hlast : ∀ r : List I, r.length ≤ d + 1 → ¬r.length ≤ d → walk step 0 root r = some n →
      ∃ r' i m, r = r' ++ [i] ∧ r'.length = d ∧ walk step 0 root r' = some m ∧ step r'.length m i = some n := by
    intro r hr hrd hrn
    rcases eq_nil_or_concat' r with rfl | ⟨r', i, rfl⟩
    · exact absurd (Nat.zero_le d) hrd
    rw [walk_concat] at hrn
    obtain ⟨m, hm, hi⟩ := bind_eq_some_iff.mp hrn
    simp only [length_append, length_singleton] at hr hrd
    exact ⟨r', i, m, rfl, by omega, hm, hi⟩
  by_cases hpd : p.length ≤ d
  · by_cases hqd : q.length ≤ d
    · exact h p q n hpd hqd hpn hqn
    · obtain ⟨q', j, m, rfl, hq', hm, hj⟩ := hlast q hq hqd hqn
      exact absurd hpn (hnew q' p m j n hq' hpd hm hj)
  obtain ⟨p', i, m, rfl, hp', hm, hi⟩ := hlast p hp hpd hpn
  by_cases hqd : q.length ≤ d
  · exact absurd hqn (hnew p' q m i n hp' hqd hm hi)
  obtain ⟨q', j, m', rfl, hq', hm', hj⟩ := hlast q hq hqd hqn
  obtain ⟨rfl, rfl⟩ := hunique p' q' m m' i j n hp' hq' hm hm' hi hj
  rfl

/-- Walks see only the slots of the nodes they pass. -/
theorem walk_congr
    (hstep : ∀ q n j, q.length < d → walk step 0 root q = some n → step' q.length n j = step q.length n j) :
    ∀ q, q.length ≤ d → walk step' 0 root q = walk step 0 root q := by
  intro q
  induction q using List.reverseRecOn with
  | nil => intro _; rfl
  | append_singleton q j ih =>
    intro hq
    simp only [length_append, length_singleton] at hq
    rw [walk_concat, walk_concat, ih (by omega)]
    cases hn : walk step 0 root q with
    | none => rfl
    | some n => exact hstep q n j (by omega) hn

/-- Changing what slot `i` of the node at the end of `p` refers to, where neither the old
nor the new node has children: the other paths are the same. The paths are those of a set
that contains the initial parts of its paths. -/
theorem walk_replace [DecidableEq I] {P : List I → Prop} (hP : ∀ q j, P (q ++ [j]) → P q) {a b : Option N}
    (hp : walk step 0 root p = some t) (hold : step p.length t i = a) (hnew : step' p.length t i = b)
    (hleaf : ∀ c j, a = some c → P (p ++ [i] ++ [j]) → step (p.length + 1) c j = none)
    (hleaf' : ∀ c j, b = some c → P (p ++ [i] ++ [j]) → step' (p.length + 1) c j = none)
    (hother : ∀ q n j, P (q ++ [j]) → walk step 0 root q = some n → ¬(q = p ∧ j = i) →
      step' q.length n j = step q.length n j) :
    ∀ q, P q → walk step' 0 root q = if q = p ++ [i] then b else walk step 0 root q := by
  intro q
  induction q using List.reverseRecOn with
  | nil =>
    intro _
    rw [if_neg (by simp)]
    rfl
  | append_singleton q j ih =>
    intro hq
    rw [walk_concat, walk_concat, ih (hP q j hq)]
    by_cases hqp : q = p ++ [i]
    · -- below the slot there is nothing, before and after
      have hne : ¬q ++ [j] = p ++ [i] := by
        intro he
        have := congrArg List.length he
        simp [hqp] at this
      have hlen : q.length = p.length + 1 := by simp [hqp]
      subst hqp
      rw [if_pos rfl, if_neg hne, walk_concat, hp, bind_some, hold, hlen]
      have h1 : (a.bind fun m => step (p.length + 1) m j) = none := by
        cases ha : a with
        | none => rfl
        | some c => exact hleaf c j ha hq
      have h2 : (b.bind fun m => step' (p.length + 1) m j) = none := by
        cases hb : b with
        | none => rfl
        | some c => exact hleaf' c j hb hq
      rw [h1, h2]
    · rw [if_neg hqp]
      by_cases he : q = p ∧ j = i
      · obtain ⟨rfl, rfl⟩ := he
        rw [if_pos rfl, hp]
        exact hnew
      have hne : ¬q ++ [j] = p ++ [i] := by
        intro h
        obtain ⟨h1, h2⟩ := append_inj' h rfl
        exact he ⟨h1, by simpa using h2⟩
      rw [if_neg hne]
      cases hn : walk step 0 root q with
      | none => rfl
      | some n => exact hother q n j hq hn he

/-- Hanging a new node `c` without children into the empty slot `i` of the node at the
end of `p`: the paths are the old ones and the path to `c`. -/
theorem walk_graft [DecidableEq I] (hp : walk step 0 root p = some t)
    (hnone : step p.length t i = none) (hnew : step' p.length t i = some c)
    (hleaf : ∀ j, p.length + 1 < d → step' (p.length + 1) c j = none)
    (hother : ∀ q n j, q.length < d → walk step 0 root q = some n → ¬(q = p ∧ j = i) →
      step' q.length n j = step q.length n j) :
    ∀ q, q.length ≤ d → walk step' 0 root q = if q = p ++ [i] then some c else walk step 0 root q := by
  have hlen : ∀ (q : List I) (j : I), (q ++ [j]).length ≤ d ↔ q.length < d := by
    intro q j
    rw [length_append, length_singleton]
    exact Iff.rfl
  refine walk_replace (P := fun q => q.length ≤ d) (fun q j hq => Nat.le_of_lt ((hlen q j).mp hq)) hp hnone hnew
    (fun m j hm => by cases hm) (fun m j hm hj => ?_) fun q n j hq => hother q n j ((hlen q j).mp hq)
  cases hm
  refine hleaf j ?_
  rw [← length_singleton (a := i), ← length_append]
  exact (hlen _ j).mp hj

/-- A new node that no path led to keeps the store a tree. -/
theorem NoSharing.graft [DecidableEq I] (h : NoSharing step root d)
    (hwalk : ∀ q, q.length ≤ d → walk step' 0 root q = if q = p ++ [i] then some c else walk step 0 root q)
    (hfresh : ∀ q, q.length ≤ d → walk step 0 root q ≠ some c) : NoSharing step' root d := by
  intro q r n hq hr hqn hrn
  rw [hwalk q hq] at hqn
  rw [hwalk r hr] at hrn
  split at hqn
  next hqe =>
    split at hrn
    next hre => rw [hqe, hre]
    · exact absurd (hrn.trans hqn.symm) (hfresh r hr)
  split at hrn
  · exact absurd (hqn.trans hrn.symm) (hfresh q hq)
  · exact h q r n hq hr hqn hrn

end

/-- The nodes below `n` in the order of a traversal that visits a node after everything
below it, `d` levels deep; `slots k` are the slots of a node at distance `k`. -/
def below (step : ℕ → N → I → Option N) (slots : ℕ → List I) : ℕ → ℕ → N → List N
  | 0, _, _ => []
  | d + 1, k, n => (slots k).flatMap fun i =>
      match step k n i with
      | none => []
      | some c => below step slots d (k + 1) c ++ [c]

section

variable {step : ℕ → N → I → Option N} {slots : ℕ → List I} {root : N}

lemma mem_below (hslots : ∀ k n i c, step k n i = some c → i ∈ slots k) (d k : ℕ) (n c : N) :
    c ∈ below step slots d k n ↔ ∃ r, r ≠ [] ∧ r.length ≤ d ∧ walk step k n r = some c := by
  induction d generalizing k n with
  | zero =>
    constructor
    · intro h
      simp [below] at h
    · rintro ⟨r, hr, hlen, -⟩
      exact absurd (length_eq_zero_iff.mp (Nat.le_zero.mp hlen)) hr
  | succ d ih =>
    simp only [below, mem_flatMap]
    constructor
    · rintro ⟨i, -, hc⟩
      cases hi : step k n i with
      | none => simp [hi] at hc
      | some m =>
        simp only [hi, mem_append, mem_singleton] at hc
        rcases hc with hc | rfl
        · obtain ⟨r, -, hlen, hw⟩ := (ih (k + 1) m).mp hc
          exact ⟨i :: r, by simp, by simp [hlen], by simp [walk, hi, hw]⟩
        · exact ⟨[i], by simp, by simp, by simp [walk, hi]⟩
    rintro ⟨r, hr, hlen, hw⟩
    cases r with
    | nil => exact absurd rfl hr
    | cons i r =>
      obtain ⟨m, hi, hm⟩ := bind_eq_some_iff.mp hw
      refine ⟨i, hslots k n i m hi, ?_⟩
      simp only [hi, mem_append, mem_singleton]
      by_cases hr0 : r = []
      · subst hr0
        right
        simpa [walk] using hm.symm
      · left
        exact (ih (k + 1) m).mpr ⟨r, hr0, by simpa using hlen, hm⟩

/-- In a tree the traversal meets no node twice. -/
theorem below_nodup {D : ℕ} (hns : NoSharing step root D)
    (hslots : ∀ k n i c, step k n i = some c → i ∈ slots k) (hnodup : ∀ k, (slots k).Nodup)
    (d : ℕ) : ∀ (p : List I) (n : N), p.length + d ≤ D → walk step 0 root p = some n →
      (below step slots d p.length n).Nodup := by
  induction d with
  | zero => intro p n _ _; exact nodup_nil
  | succ d ih =>
    intro p n hD hp
    -- what the traversal meets below slot `i` is at the end of a path through it
    have hpath : ∀ i c, c ∈ (match step p.length n i with
        | none => []
        | some m => below step slots d (p.length + 1) m ++ [m]) →
        ∃ r, r.length ≤ d ∧ walk step 0 root (p ++ i :: r) = some c := by
      intro i c hc
      cases hi : step p.length n i with
      | none => simp [hi] at hc
      | some m =>
        have hwalk : ∀ r, walk step 0 root (p ++ i :: r) = walk step (p.length + 1) m r := by
          intro r
          rw [walk_append, hp]
          simp [walk, hi]
        simp only [hi, mem_append, mem_singleton] at hc
        rcases hc with hc | rfl
        · obtain ⟨r, -, hlen, hw⟩ := (mem_below hslots d (p.length + 1) m c).mp hc
          exact ⟨r, hlen, (hwalk r).trans hw⟩
        · exact ⟨[], Nat.zero_le d, (hwalk []).trans rfl⟩
    simp only [below]
    rw [nodup_flatMap]
    refine ⟨fun i _ => ?_, ?_⟩
    · cases hi : step p.length n i with
      | none => exact nodup_nil
      | some m =>
        have hm : walk step 0 root (p ++ [i]) = some m := by
          rw [walk_concat, hp]
          exact hi
        have hlen : (p ++ [i]).length = p.length + 1 := by simp
        have hbelow := ih (p ++ [i]) m (by rw [hlen]; omega) hm
        rw [hlen] at hbelow
        simp only [← concat_eq_append]
        refine .concat (fun hmem => ?_) hbelow
        obtain ⟨r, hr, hrlen, hw⟩ := (mem_below hslots d (p.length + 1) m m).mp hmem
        have hm' : walk step 0 root ((p ++ [i]) ++ r) = some m := by
          rw [walk_append, hm, hlen, Nat.zero_add]
          exact hw
        have he := hns _ _ m (by simp; omega) (by simp; omega) hm' hm
        exact hr (by simpa using he)
    · refine (hnodup p.length).imp ?_
      intro i j hij c hci hcj
      obtain ⟨r, hr, hrw⟩ := hpath i c hci
      obtain ⟨r', hr', hrw'⟩ := hpath j c hcj
      have he := hns _ _ c (by simp; omega) (by simp; omega) hrw hrw'
      have := (append_cancel_left he)
      simp only [List.cons.injEq] at this
      exact hij this.1

end

end AetherOS.PointerTree
