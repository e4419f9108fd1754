import AetherOS.Chains
import AetherOS.SchedQueues

/-!
# Mutexes

What `mutex_lock`, `mutex_try_lock` and `mutex_unlock` do under the spin lock of the mutex is
one step each. `mutex_unlock` does not hand the mutex over: it takes the first waiter off the
list, releases the spin lock and then wakes that thread, which has to compete for the mutex
again. Between the steps any other thread may run; a thread that is blocked does not.
-/
namespace AetherOS.Sync
open Sched Runs LinkedList Function

structure Mutex where
  locked : Bool
  owner : ℕ
  waiters : ℕ
  deriving DecidableEq, Repr

/-! ## The critical sections -/

/-- One round of `mutex_lock` for thread `cur`: it takes the mutex, or it joins the waiters
and is blocked. -/
def mutexLock (m : Mutex) (s : State) (cur : ℕ) : Bool × Mutex × State :=
  if m.locked then
    (false, { m with waiters := cur }, s.edit cur fun x => { x with waitNext := m.waiters, state := .blocked })
  else (true, { m with locked := true, owner := cur }, s)

def mutexTryLock (m : Mutex) (cur : ℕ) : Bool × Mutex :=
  if m.locked then (false, m) else (true, { m with locked := true, owner := cur })

/-- `mutex_unlock` up to the release of the spin lock, with the thread to be woken, if any. -/
def mutexUnlock (m : Mutex) (s : State) : Option ℕ × Mutex × State :=
  let m := { m with locked := false, owner := 0 }
  if m.waiters ≠ 0 then
    let woken := m.waiters
    (some woken, { m with waiters := (s.threads woken).waitNext }, s.edit woken fun x => { x with waitNext := 0 })
  else (none, m, s)

/-! ## Threads that use a mutex -/

/-- Where a thread is: outside the three functions, in the loop of `mutex_lock` after it
joined the waiters, or in `mutex_unlock` before it wakes a thread. -/
inductive Place where
  | outside
  | queued
  | waking (woken : ℕ)
  deriving DecidableEq, Repr

/-- The mutex, the threads, where they are, and which of them hold the mutex. -/
structure MutexRun where
  mutex : Mutex
  sched : State
  place : ℕ → Place
  holds : ℕ → Bool

inductive MutexAction where
  | lock (t : ℕ)
  | tryLock (t : ℕ)
  | unlock (t : ℕ)
  | wake (t : ℕ)
  | schedule (sched : State)

namespace MutexRun

def Blocked (s : MutexRun) (t : ℕ) : Prop := (s.sched.threads t).state = .blocked

/-- Only a thread that is running takes steps. -/
def Executes (s : MutexRun) (t : ℕ) : Prop := t ≠ 0 ∧ (s.sched.threads t).state = .running

def waitNext (s : MutexRun) (t : ℕ) : ℕ := (s.sched.threads t).waitNext

def lock (s : MutexRun) (t : ℕ) : MutexRun :=
  match mutexLock s.mutex s.sched t with
  | (true, m, sched) => ⟨m, sched, update s.place t .outside, update s.holds t true⟩
  | (false, m, sched) => ⟨m, sched, update s.place t .queued, s.holds⟩

def tryLock (s : MutexRun) (t : ℕ) : MutexRun :=
  match mutexTryLock s.mutex t with
  | (true, m) => { s with mutex := m, holds := update s.holds t true }
  | (false, m) => { s with mutex := m }

def unlock (s : MutexRun) (t : ℕ) : MutexRun :=
  match mutexUnlock s.mutex s.sched with
  | (some woken, m, sched) => ⟨m, sched, update s.place t (.waking woken), update s.holds t false⟩
  | (none, m, sched) => ⟨m, sched, s.place, update s.holds t false⟩

end MutexRun

/-- The steps of threads that unlock only what they locked. A thread that was woken goes on
with the loop of `mutex_lock`. -/
def mutexStep (s : MutexRun) : MutexAction → MutexRun → Prop
  | .lock t, s' => s.Executes t ∧ (s.place t = .outside ∨ s.place t = .queued) ∧ s' = s.lock t
  | .tryLock t, s' => s.Executes t ∧ s.place t = .outside ∧ s' = s.tryLock t
  | .unlock t, s' => s.Executes t ∧ s.place t = .outside ∧ s.holds t = true ∧ s' = s.unlock t
  | .wake t, s' => s.Executes t ∧ ∃ woken sched, s.place t = .waking woken ∧ schedWake s.sched woken = some sched ∧
      s' = { s with sched := sched, place := update s.place t .outside }
  | .schedule sched, s' => LeavesWaiting (s.place · = .queued) s.sched sched ∧ s' = { s with sched := sched }

/-- `MUTEX_INIT`, and no thread uses the mutex yet. -/
structure MutexStart (s : MutexRun) : Prop where
  mutex : s.mutex = ⟨false, 0, 0⟩
  place : ∀ t, s.place t = .outside
  holds : ∀ t, s.holds t = false

/-! ## What every step keeps -/

/-- The waiters are the threads `l`. A thread that joined them and is no longer among them
was taken off by an unlock: that call is about to wake it, or has done so. -/
structure MutexInv (s : MutexRun) (l : List ℕ) : Prop where
  chain : Chain 0 s.waitNext s.mutex.waiters l
  members : ∀ t ∈ l, s.place t = .queued ∧ s.Blocked t
  taken : ∀ u t, s.place u = .waking t → s.place t = .queued ∧ s.Blocked t ∧ t ∉ l
  single : ∀ u v t, s.place u = .waking t → s.place v = .waking t → u = v
  pending : ∀ t, s.place t = .queued → s.Blocked t → t ∉ l → ∃ u, s.place u = .waking t
  owner : ∀ t, s.holds t = true → s.mutex.locked = true ∧ s.mutex.owner = t
  transit : s.mutex.locked = false → l ≠ [] → ∃ t, s.place t = .queued ∧ t ∉ l

namespace MutexInv

variable {s s' : MutexRun} {l : List ℕ} {t u : ℕ} {x y : Place}

lemma init (h : MutexStart s) : MutexInv s [] := by
  obtain ⟨hm, hplace, hholds⟩ := h
  refine ⟨by rw [hm]; exact Chain.nil _, by simp, ?_, ?_, ?_, ?_, fun _ hl => absurd rfl hl⟩
  · intro u t hu
    rw [hplace] at hu
    cases hu
  · intro u v t hu
    rw [hplace] at hu
    cases hu
  · intro t ht
    rw [hplace] at ht
    cases ht
  intro t ht
  rw [hholds] at ht
  cases ht

lemma not_blocked (h : s.Executes t) : ¬s.Blocked t := by
  intro hb
  have hstate := h.2
  rw [hb] at hstate
  cases hstate

lemma not_mem (h : MutexInv s l) (ht : s.Executes t) : t ∉ l :=
  fun hmem => not_blocked ht (h.members t hmem).2

lemma place_of_ne (h : update s.place t x u = y) (hx : x ≠ y) : u ≠ t ∧ s.place u = y := by
  revert h
  exact update_cases u (fun h => absurd h hx) fun hut h => ⟨hut, h⟩

lemma keeps_place (hu : s.place u = y) (ht : s.place t ≠ y) : update s.place t x u = y := by
  have hut : u ≠ t := by
    rintro rfl
    exact ht hu
  rw [update_of_ne hut, hu]

lemma not_waking (h : s.place t = .outside ∨ s.place t = .queued) (x : ℕ) : s.place t ≠ .waking x := by
  intro hx
  rw [hx] at h
  rcases h with h | h <;> cases h

section

variable (h : MutexInv s l) {sched : State}
include h

lemma single_update (hx : ∀ y, x ≠ .waking y) (u v y : ℕ) (hu : update s.place t x u = .waking y)
    (hv : update s.place t x v = .waking y) : u = v :=
  h.single u v y (place_of_ne hu (hx y)).2 (place_of_ne hv (hx y)).2

section

variable (ht : s.Executes t)
include ht

section

variable (hplace : s.place t = .outside ∨ s.place t = .queued)
include hplace

lemma take (hfree : s.mutex.locked = false) :
    MutexInv ⟨{ s.mutex with locked := true, owner := t }, s.sched,
      update s.place t .outside, update s.holds t true⟩ l := by
  refine ⟨h.chain, ?_, ?_, h.single_update (by simp), ?_, ?_, fun hl => Bool.noConfusion hl⟩
  · intro x hx
    have hxt : x ≠ t := fun he => h.not_mem ht (he ▸ hx)
    obtain ⟨hqueued, hblocked⟩ := h.members x hx
    exact ⟨(update_of_ne hxt ..).trans hqueued, hblocked⟩
  · intro u x hu
    obtain ⟨-, hux⟩ := place_of_ne hu (by simp)
    obtain ⟨hqueued, hblocked, hx⟩ := h.taken u x hux
    have hxt : x ≠ t := fun he => not_blocked ht (he ▸ hblocked)
    exact ⟨(update_of_ne hxt ..).trans hqueued, hblocked, hx⟩
  · intro x hx hblocked hxl
    obtain ⟨-, hqueued⟩ := place_of_ne hx (by decide)
    obtain ⟨u, hu⟩ := h.pending x hqueued hblocked hxl
    exact ⟨u, keeps_place hu (not_waking hplace x)⟩
  intro x hx
  by_cases hxt : x = t
  · exact ⟨rfl, hxt.symm⟩
  simp only [update_of_ne hxt] at hx
  rw [(h.owner x hx).1] at hfree
  cases hfree

lemma join (hlocked : s.mutex.locked = true) :
    MutexInv ⟨{ s.mutex with waiters := t },
      s.sched.edit t fun x => { x with waitNext := s.mutex.waiters, state := .blocked },
      update s.place t .queued, s.holds⟩ (t :: l) := by
  have hother : ∀ f u, u ≠ t → (s.sched.edit t f).threads u = s.sched.threads u :=
    fun f u hu => edit_of_ne _ _ _ hu
  have hnext : MutexRun.waitNext ⟨{ s.mutex with waiters := t },
      s.sched.edit t fun x => { x with waitNext := s.mutex.waiters, state := .blocked },
      update s.place t .queued, s.holds⟩ = update s.waitNext t s.mutex.waiters :=
    comp_update Thread.waitNext s.sched.threads t _
  refine ⟨?_, ?_, ?_, h.single_update (by simp), ?_, h.owner, ?_⟩
  · rw [hnext]
    exact h.chain.push ht.1 (h.not_mem ht)
  · intro x hx
    by_cases hxt : x = t
    · subst hxt
      exact ⟨update_self .., by simp [MutexRun.Blocked]⟩
    obtain ⟨hqueued, hblocked⟩ := h.members x ((List.mem_cons.mp hx).resolve_left hxt)
    refine ⟨(update_of_ne hxt ..).trans hqueued, ?_⟩
    simpa only [MutexRun.Blocked, hother _ x hxt] using hblocked
  · intro u x hu
    obtain ⟨-, hux⟩ := place_of_ne hu (by simp)
    obtain ⟨hqueued, hblocked, hx⟩ := h.taken u x hux
    have hxt : x ≠ t := fun he => not_blocked ht (he ▸ hblocked)
    refine ⟨(update_of_ne hxt ..).trans hqueued, ?_, ?_⟩
    · simpa only [MutexRun.Blocked, hother _ x hxt] using hblocked
    · rw [List.mem_cons, not_or]
      exact ⟨hxt, hx⟩
  · intro x hx hblocked hxl
    rw [List.mem_cons, not_or] at hxl
    simp only [update_of_ne hxl.1] at hx
    simp only [MutexRun.Blocked, hother _ x hxl.1] at hblocked
    obtain ⟨u, hu⟩ := h.pending x hx hblocked hxl.2
    exact ⟨u, keeps_place hu (not_waking hplace x)⟩
  · intro hl
    rw [hlocked] at hl
    cases hl

lemma lock : ∃ l', MutexInv (s.lock t) l' := by
  unfold MutexRun.lock mutexLock
  by_cases hlocked : s.mutex.locked = true
  · rw [if_pos hlocked]
    exact ⟨t :: l, h.join ht hplace hlocked⟩
  · rw [if_neg hlocked]
    exact ⟨l, h.take ht hplace (Bool.not_eq_true _ ▸ hlocked)⟩

end

lemma tryLock (hplace : s.place t = .outside) : MutexInv (s.tryLock t) l := by
  unfold MutexRun.tryLock mutexTryLock
  by_cases hlocked : s.mutex.locked = true
  · rw [if_pos hlocked]
    exact h
  rw [if_neg hlocked]
  have htake := h.take ht (.inl hplace) (Bool.not_eq_true _ ▸ hlocked)
  rwa [← hplace, update_eq_self] at htake

end

lemma released (hheld : s.holds t = true) (x : ℕ) : update s.holds t false x = false := by
  refine update_cases x rfl fun hxt => ?_
  by_contra hx
  have hx' := (h.owner x (Bool.not_eq_false _ ▸ hx)).2
  exact hxt (hx'.symm.trans (h.owner t hheld).2)

/-- The first waiter is taken off the list; to wake it is the caller's next step. -/
lemma dequeue (ht : s.Executes t) (hplace : s.place t = .outside)
    (hheld : s.holds t = true) (hwaiters : s.mutex.waiters ≠ 0) :
    ∃ l', MutexInv ⟨⟨false, 0, s.waitNext s.mutex.waiters⟩,
      s.sched.edit s.mutex.waiters fun x => { x with waitNext := 0 },
      update s.place t (.waking s.mutex.waiters), update s.holds t false⟩ l' := by
  obtain ⟨l', hl, hnot, hchain⟩ := h.chain.pop hwaiters 0
  obtain ⟨hqueued, hblocked⟩ := h.members _ (h.chain.head_mem hwaiters)
  have hne : s.mutex.waiters ≠ t := fun he => not_blocked ht (he ▸ hblocked)
  have hsub : ∀ x ∈ l', x ∈ l := fun x hx => hl ▸ List.mem_cons_of_mem _ hx
  have hstate : ∀ u, ((s.sched.edit s.mutex.waiters fun x => { x with waitNext := 0 }).threads u).state =
      (s.sched.threads u).state := edit_field Thread.state s.sched s.mutex.waiters rfl
  have hwaiting : ∀ u x, update s.place t (.waking s.mutex.waiters) u = .waking x →
      u = t ∧ x = s.mutex.waiters ∨ u ≠ t ∧ s.place u = .waking x := by
    intro u x
    exact update_cases u (fun hu => .inl ⟨rfl, (Place.waking.inj hu).symm⟩) fun hut hu => .inr ⟨hut, hu⟩
  have hstays : ∀ x, s.place x = .queued → update s.place t (.waking s.mutex.waiters) x = .queued :=
    fun x hx => keeps_place hx (by simp [hplace])
  refine ⟨l', ?_, ?_, ?_, ?_, ?_, ?_, fun _ _ => ⟨s.mutex.waiters, hstays _ hqueued, hnot⟩⟩
  · exact hchain.congr fun u _ => congrFun (comp_update Thread.waitNext s.sched.threads s.mutex.waiters _) u
  · intro x hx
    obtain ⟨hxq, hxb⟩ := h.members x (hsub x hx)
    exact ⟨hstays x hxq, (hstate x).trans hxb⟩
  · intro u x hu
    rcases hwaiting u x hu with ⟨-, rfl⟩ | ⟨-, hux⟩
    · exact ⟨hstays _ hqueued, (hstate _).trans hblocked, hnot⟩
    · obtain ⟨hxq, hxb, hxl⟩ := h.taken u x hux
      exact ⟨hstays x hxq, (hstate x).trans hxb, fun hx => hxl (hsub x hx)⟩
  · -- the thread that was first on the list had no waker
    have hfresh : ∀ u, s.place u ≠ .waking s.mutex.waiters :=
      fun u hu => (h.taken u _ hu).2.2 (h.chain.head_mem hwaiters)
    intro u v x hu hv
    rcases hwaiting u x hu with ⟨rfl, rfl⟩ | ⟨-, hux⟩
    · rcases hwaiting v _ hv with ⟨rfl, -⟩ | ⟨-, hvx⟩
      · rfl
      · exact absurd hvx (hfresh v)
    rcases hwaiting v x hv with ⟨rfl, rfl⟩ | ⟨-, hvx⟩
    · exact absurd hux (hfresh u)
    · exact h.single u v x hux hvx
  · intro x hx hxb hxl
    obtain ⟨-, hxq⟩ := place_of_ne hx (by simp)
    by_cases hxw : x = s.mutex.waiters
    · rw [hxw]
      exact ⟨t, update_self ..⟩
    have hxl' : x ∉ l := by
      rw [hl, List.mem_cons, not_or]
      exact ⟨hxw, hxl⟩
    obtain ⟨u, hu⟩ := h.pending x hxq ((hstate x).symm.trans hxb) hxl'
    exact ⟨u, keeps_place hu (not_waking (.inl hplace) x)⟩
  · intro x hx
    cases (h.released hheld x).symm.trans hx

lemma unlock (ht : s.Executes t) (hplace : s.place t = .outside)
    (hheld : s.holds t = true) : ∃ l', MutexInv (s.unlock t) l' := by
  unfold MutexRun.unlock mutexUnlock
  by_cases hwaiters : s.mutex.waiters = 0
  · rw [if_neg (not_not.mpr hwaiters)]
    have hl : l = [] := by
      have hchain := h.chain
      rw [hwaiters] at hchain
      exact hchain.eq_nil
    refine ⟨l, h.chain, h.members, h.taken, h.single, h.pending, ?_, fun _ hne => absurd hl hne⟩
    intro x hx
    cases (h.released hheld x).symm.trans hx
  · rw [if_pos hwaiters]
    exact h.dequeue ht hplace hheld hwaiters

lemma wake (hplace : s.place t = .waking u) (hw : schedWake s.sched u = some sched) :
    MutexInv { s with sched := sched, place := update s.place t .outside } l := by
  obtain ⟨hready, hstate, hnext⟩ := schedWake_frame hw
  obtain ⟨-, -, hul⟩ := h.taken t u hplace
  have hstays : ∀ x, s.place x = .queued → update s.place t .outside x = .queued :=
    fun x hx => keeps_place hx (by simp [hplace])
  refine ⟨h.chain.congr fun x _ => hnext x, ?_, ?_, h.single_update (by simp), ?_, h.owner, ?_⟩
  · intro x hx
    have hxu : x ≠ u := fun he => hul (he ▸ hx)
    obtain ⟨hxq, hxb⟩ := h.members x hx
    exact ⟨hstays x hxq, (hstate x hxu).trans hxb⟩
  · intro v x hv
    obtain ⟨hvt, hvx⟩ := place_of_ne hv (by simp)
    have hxu : x ≠ u := fun he => hvt (h.single v t u (he ▸ hvx) hplace)
    obtain ⟨hxq, hxb, hxl⟩ := h.taken v x hvx
    exact ⟨hstays x hxq, (hstate x hxu).trans hxb, hxl⟩
  · intro x hx hxb hxl
    have hxu : x ≠ u := by
      rintro rfl
      have hstill : (sched.threads x).state = .blocked := hxb
      rw [hready] at hstill
      cases hstill
    obtain ⟨-, hxq⟩ := place_of_ne hx (by simp)
    obtain ⟨v, hv⟩ := h.pending x hxq ((hstate x hxu).symm.trans hxb) hxl
    refine ⟨v, keeps_place hv ?_⟩
    rw [hplace]
    exact fun he => hxu (Place.waking.inj he).symm
  · intro hlocked hl
    obtain ⟨x, hxq, hxl⟩ := h.transit hlocked hl
    exact ⟨x, hstays x hxq, hxl⟩

lemma schedule
    (hw : LeavesWaiting (s.place · = .queued) s.sched sched) : MutexInv { s with sched := sched } l := by
  have hblocked : ∀ x, s.place x = .queued → s.Blocked x → (sched.threads x).state = .blocked :=
    fun x hx hb => ((hw x hx).1 hb).1
  refine ⟨h.chain.congr fun x hx => ?_, ?_, ?_, h.single, ?_, h.owner, h.transit⟩
  · obtain ⟨hxq, hxb⟩ := h.members x hx
    exact ((hw x hxq).1 hxb).2
  · intro x hx
    obtain ⟨hxq, hxb⟩ := h.members x hx
    exact ⟨hxq, hblocked x hxq hxb⟩
  · intro u x hu
    obtain ⟨hxq, hxb, hxl⟩ := h.taken u x hu
    exact ⟨hxq, hblocked x hxq hxb, hxl⟩
  intro x hxq hxb hxl
  have hb : s.Blocked x := by
    by_contra hc
    exact (hw x hxq).2 hc hxb
  exact h.pending x hxq hb hxl

end

end MutexInv

/-- One step. -/
theorem mutexStep_inv {s s' : MutexRun} {a : MutexAction} (h : ∃ l, MutexInv s l) (hs : mutexStep s a s') :
    ∃ l, MutexInv s' l := by
  obtain ⟨l, h⟩ := h
  cases a with
  | lock t =>
    obtain ⟨ht, hplace, rfl⟩ := hs
    exact h.lock ht hplace
  | tryLock t =>
    obtain ⟨ht, hplace, rfl⟩ := hs
    exact ⟨l, h.tryLock ht hplace⟩
  | unlock t =>
    obtain ⟨ht, hplace, hheld, rfl⟩ := hs
    exact h.unlock ht hplace hheld
  | wake t =>
    obtain ⟨-, woken, sched, hplace, hw, rfl⟩ := hs
    exact ⟨l, h.wake hplace hw⟩
  | schedule sched =>
    obtain ⟨hw, rfl⟩ := hs
    exact ⟨l, h.schedule hw⟩

/-! ## Safety -/

/-- An unlock took the thread off the waiters and it has not looked at the mutex since. -/
structure InTransit (s : MutexRun) (l : List ℕ) (t : ℕ) : Prop where
  queued : s.place t = .queued
  off : t ∉ l

/-- At most one thread holds the mutex. The waiters are on the list once and are blocked. If
the mutex is free and has waiters, some thread that an unlock chose is on its way: it has
been woken, unless the unlock that chose it is just about to do so. -/
structure MutexSafe (s : MutexRun) (l : List ℕ) : Prop where
  oneHolder : ∀ t u, s.holds t = true → s.holds u = true → t = u
  waiters : Chain 0 s.waitNext s.mutex.waiters l
  blocked : ∀ t ∈ l, s.Blocked t
  notStranded : s.mutex.locked = false → l ≠ [] → ∃ t, InTransit s l t ∧ (s.Blocked t → ∃ u, s.place u = .waking t)

theorem mutex_safe_of_reachable {s : MutexRun} (hr : Reachable mutexStep MutexStart s) : ∃ l, MutexSafe s l := by
  have hinv : ∃ l, MutexInv s l := by
    refine hr.invariant (I := fun s => ∃ l, MutexInv s l) ?_ ?_
    · intro s hs
      exact ⟨[], MutexInv.init hs⟩
    · intro s a s' h hs
      exact mutexStep_inv h hs
  obtain ⟨l, h⟩ := hinv
  refine ⟨l, ?_, h.chain, fun t ht => (h.members t ht).2, ?_⟩
  · intro t u ht hu
    rw [← (h.owner t ht).2, (h.owner u hu).2]
  intro hlocked hl
  obtain ⟨t, hqueued, hoff⟩ := h.transit hlocked hl
  exact ⟨t, ⟨hqueued, hoff⟩, fun hb => h.pending t hqueued hb hoff⟩

/-- Every thread is running, and nobody uses the mutex. -/
def busyThreads : MutexRun where
  mutex := ⟨false, 0, 0⟩
  sched :=
    { threads := fun _ => ⟨0, .running, false, false, 0, 0, 0, 0⟩
      rqHead := 0
      rqTail := 0
      sleepHead := 0
      ticks := 0
      cpus := fun _ => ⟨0, 0, 0, 0, .running⟩
      freed := [] }
  place _ := .outside
  holds _ := false

/-- Threads 2 and 3 wait for thread 1, which unlocks the mutex. -/
def contended : MutexRun := (((busyThreads.lock 1).lock 2).lock 3).unlock 1

lemma contended_reachable : Reachable mutexStep MutexStart contended := by
  have hstart : MutexStart busyThreads := ⟨rfl, fun _ => rfl, fun _ => rfl⟩
  let s1 := busyThreads.lock 1
  have h1 : mutexStep busyThreads (.lock 1) s1 := ⟨⟨by decide, rfl⟩, .inl rfl, rfl⟩
  have h2 : mutexStep s1 (.lock 2) (s1.lock 2) := ⟨⟨by decide, rfl⟩, .inl rfl, rfl⟩
  have h3 : mutexStep (s1.lock 2) (.lock 3) ((s1.lock 2).lock 3) := ⟨⟨by decide, rfl⟩, .inl rfl, rfl⟩
  have h4 : mutexStep ((s1.lock 2).lock 3) (.unlock 1) contended := ⟨⟨by decide, rfl⟩, rfl, rfl, rfl⟩
  exact ⟨busyThreads, _, hstart, .cons h1 (.cons h2 (.cons h3 (.cons h4 (.nil _))))⟩

/-- Thread 3 was chosen, and thread 2 still waits. -/
theorem mutex_safe_contended : contended.mutex = ⟨false, 0, 2⟩ ∧ contended.place 1 = .waking 3 ∧
    ∃ l, MutexSafe contended l :=
  ⟨by decide, by decide, mutex_safe_of_reachable contended_reachable⟩

end AetherOS.Sync
