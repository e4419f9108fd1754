import Mathlib.Data.List.Basic

/-!
# Runs of a transition system

A system is a relation between a state, the action taken and the state after it.
Safety results about a system are two small goals: what holds initially, and what
one step preserves.
-/
namespace AetherOS.Runs

variable {σ α : Type*}

/-- The actions `as` lead from the first state to the last one. -/
inductive Run (step : σ → α → σ → Prop) : σ → List α → σ → Prop
  | nil (s : σ) : Run step s [] s
  | cons {s t u : σ} {a : α} {as : List α} : step s a t → Run step t as u →
      Run step s (a :: as) u

/-- Some run from an initial state ends in `t`. -/
def Reachable (step : σ → α → σ → Prop) (init : σ → Prop) (t : σ) : Prop :=
  ∃ s as, init s ∧ Run step s as t

/-- A step writes one cell of a state that is a function. What is to be shown of every cell
is shown of the written one and of the others. -/
@[elab_as_elim]
lemma update_cases {ι β : Type*} [DecidableEq ι] {motive : ι → β → Prop} {f : ι → β} {i : ι} {b : β} (k : ι)
    (same : motive i b) (other : k ≠ i → motive k (f k)) : motive k (Function.update f i b k) := by
  by_cases h : k = i
  · rw [h, Function.update_self]
    exact same
  · rw [Function.update_of_ne h]
    exact other h

variable {step : σ → α → σ → Prop} {init I : σ → Prop} {s t : σ} {as : List α}

/-- What every step preserves holds at the end of a run if it held at its start. -/
theorem Run.invariant (hstep : ∀ s a t, I s → step s a t → I t) {s t : σ} {as : List α} (hr : Run step s as t)
    (hs : I s) : I t := by
  induction hr with
  | nil s => exact hs
  | cons h _ ih => exact ih (hstep _ _ _ hs h)

lemma Run.append {u : σ} {bs : List α} (h : Run step s as t) (h' : Run step t bs u) :
    Run step s (as ++ bs) u := by
  induction h with
  | nil s => exact h'
  | cons h _ ih => exact .cons h (ih h')

lemma Run.mono {step' : σ → α → σ → Prop} (himp : ∀ s a t, step s a t → step' s a t) (h : Run step s as t) :
    Run step' s as t := by
  induction h with
  | nil s => exact .nil s
  | cons h _ ih => exact .cons (himp _ _ _ h) ih

theorem Reachable.invariant (hinit : ∀ s, init s → I s) (hstep : ∀ s a t, I s → step s a t → I t)
    {t : σ} (hr : Reachable step init t) : I t := by
  obtain ⟨s, as, hs, hrun⟩ := hr
  exact hrun.invariant hstep (hinit s hs)

/-- A relation that every step of a restricted run establishes, under an invariant,
relates the two ends of the run. -/
theorem Run.relates {P : α → Prop} {R : σ → σ → Prop}
    (hrefl : ∀ s, R s s) (htrans : ∀ s t u, R s t → R t u → R s u)
    (hstep : ∀ s a t, I s → P a → step s a t → I t ∧ R s t)
    (hr : Run step s as t) (hs : I s) (hP : ∀ a ∈ as, P a) : R s t := by
  induction hr with
  | nil s => exact hrefl s
  | cons h _ ih =>
    obtain ⟨hI, hR⟩ := hstep _ _ _ hs (hP _ (by simp)) h
    exact htrans _ _ _ hR (ih hI fun a ha => hP a (by simp [ha]))

/-- Every run of a system that a second one simulates through `f` is a run of the
second. -/
theorem Run.simulates {τ : Type*} {step' : τ → α → τ → Prop} {f : σ → τ}
    (hstep : ∀ s a t, I s → step s a t → I t ∧ step' (f s) a (f t))
    (hr : Run step s as t) (hs : I s) : I t ∧ Run step' (f s) as (f t) := by
  induction hr with
  | nil s => exact ⟨hs, .nil (f s)⟩
  | cons h _ ih =>
    obtain ⟨hI, hR⟩ := hstep _ _ _ hs h
    obtain ⟨hI', hrun⟩ := ih hI
    exact ⟨hI', .cons hR hrun⟩

/-- The last state of the run that the computed steps `f` make. -/
def runSteps (f : σ → α → Option σ) (s : σ) : List α → Option σ
  | [] => some s
  | a :: as => (f s a).bind fun t => runSteps f t as

lemma Run.of_runSteps {f : σ → α → Option σ} :
    ∀ {s t : σ}, (∀ s, ∀ a ∈ as, ∀ t, f s a = some t → step s a t) → runSteps f s as = some t → Run step s as t := by
  induction as with
  | nil =>
    intro s t _ h
    cases h
    exact .nil s
  | cons a as ih =>
    intro s t hstep h
    obtain ⟨u, hu, h⟩ := Option.bind_eq_some_iff.mp h
    exact .cons (hstep s a (by simp) u hu) (ih (fun s b hb => hstep s b (by simp [hb])) h)

end AetherOS.Runs
