import AetherOS.Process
import AetherOS.SchedTick

/-!
# Killed processes

`process_kill` marks the thread of a process dead, wherever the thread is at that
moment. The mark keeps a thread off the CPUs only if no queue of the scheduler
still holds it and nothing puts it back into one. `Shelved` says of one thread that
no link of the scheduler points to it. Every step that does not take hold of the
thread itself leaves it on its shelf, and no tick enters it from there.
-/
namespace AetherOS.Proc
open Sched Runs Function Option

/-- A step of the scheduler, or a call of the process layer. -/
inductive Event where
  | sched (a : Action)
  | wait (c : Fin maxCpus) (p : ℕ)
  | kill (p : ℕ)

/-- The system and the threads of the processes that were killed. -/
structure KillRun where
  system : System
  killed : List ℕ

def KillRun.perform (fuel : ℕ) (s : KillRun) : Event → Option KillRun
  | .sched a =>
    (Sched.perform fuel s.system.sched a).map fun t => { s with system := { s.system with sched := t } }
  | .wait c p =>
    if (s.system.sched.cpus c).phase = .running ∧ (s.system.sched.cpus c).current ≠ 0 then
      some { s with system := processWait s.system c p }
    else none
  | .kill p =>
    (processKill fuel s.system p).map fun t =>
      { system := t, killed := (s.system.procs p).thread :: s.killed }

/-- A process has a thread, which is not the idle thread of a CPU. -/
def KillRun.Allowed (s : KillRun) : Event → Prop
  | .kill p => p ≠ 0 ∧ (s.system.procs p).thread ≠ 0 ∧ ∀ c, (s.system.sched.cpus c).idle ≠ (s.system.procs p).thread
  | _ => True

/-- A call returns when its loops end, after any number of rounds. -/
def killStep (s : KillRun) (e : Event) (s' : KillRun) : Prop :=
  s.Allowed e ∧ ∃ fuel, s.perform fuel e = some s'

/-- Any state of the scheduler, with nothing killed yet. -/
def killStart (s : KillRun) : Prop := s.killed = []

/-- No tick enters the thread of a killed process. -/
def KillFinal (s : KillRun) : Prop :=
  ∀ t ∈ s.killed, ∀ c s', killStep s (.sched (.tick c)) s' → (s'.system.sched.cpus c).current ≠ t

/-! ## Threads no queue points to -/

/-- No link of the scheduler points to `t`, and its state is one of `K`. -/
structure Shelved (K : ThreadState → Prop) (t : ℕ) (s : State) : Prop where
  ne_zero : t ≠ 0
  state : K (s.threads t).state
  rqHead : s.rqHead ≠ t
  rqTail : s.rqTail ≠ t
  sleepHead : s.sleepHead ≠ t
  runNext : ∀ u, (s.threads u).runNext ≠ t
  sleepNext : ∀ u, (s.threads u).sleepNext ≠ t
  idle : ∀ c, (s.cpus c).idle ≠ t

namespace Shelved

variable {K : ThreadState → Prop} {t u fuel x : ℕ} {s s' : State} {c : Fin maxCpus}

section

variable (h : Shelved K t s)
include h

lemma edit {f : Thread → Thread} (hrun : (f (s.threads u)).runNext ≠ t) (hsleep : (f (s.threads u)).sleepNext ≠ t)
    (hstate : u = t → K (f (s.threads u)).state) : Shelved K t (s.edit u f) := by
  refine { h with state := ?_, runNext := fun v => ?_, sleepNext := fun v => ?_ }
  · by_cases hu : t = u
    · subst hu
      rw [edit_self]
      exact hstate rfl
    · rw [edit_of_ne _ _ _ hu]
      exact h.state
  · exact edit_cases v hrun fun _ => h.runNext v
  · exact edit_cases v hsleep fun _ => h.sleepNext v

lemma editCpu {g : Cpu → Cpu} (hg : (g (s.cpus c)).idle = (s.cpus c).idle) : Shelved K t (s.editCpu c g) := by
  exact { h with idle := fun d => editCpu_cases d (hg ▸ h.idle c) fun _ => h.idle d }

lemma setRq {y : ℕ} (hx : x ≠ t) (hy : y ≠ t) : Shelved K t { s with rqHead := x, rqTail := y } :=
  { h with rqHead := hx, rqTail := hy }

lemma setSleepHead (hx : x ≠ t) : Shelved K t { s with sleepHead := x } :=
  { h with sleepHead := hx }

lemma setTicks (n : ℕ) : Shelved K t { s with ticks := n } :=
  { h with }

lemma setFreed (l : List ℕ) : Shelved K t { s with freed := l } :=
  { h with }

lemma rqAdd (hu : u ≠ t) : Shelved K t (rqAdd s u) := by
  let s1 := s.edit u fun x => { x with runNext := 0 }
  have h1 : Shelved K t s1 := h.edit (Ne.symm h.ne_zero) (h.sleepNext u) fun he => absurd he hu
  simp only [Sched.rqAdd]
  split
  · have h2 : Shelved K t (s1.edit s1.rqTail fun x => { x with runNext := u }) :=
      h1.edit hu (h1.sleepNext _) fun he => absurd he h1.rqTail
    exact h2.setRq h2.rqHead hu
  · exact h1.setRq hu hu

lemma rqTake : (Sched.rqTake s).1 ≠ t ∧ Shelved K t (Sched.rqTake s).2 := by
  simp only [Sched.rqTake]
  split
  · exact ⟨Ne.symm h.ne_zero, h⟩
  refine ⟨h.rqHead, ?_⟩
  have hnext := h.runNext s.rqHead
  have hclear {s' : State} (h1 : Shelved K t s') : Shelved K t (s'.edit s.rqHead fun x => { x with runNext := 0 }) :=
    h1.edit (Ne.symm h.ne_zero) (h1.sleepNext _) fun he => absurd he h.rqHead
  split
  · exact hclear (h.setRq hnext (Ne.symm h.ne_zero))
  · exact hclear (h.setRq hnext h.rqTail)

lemma schedWake (hu : u ≠ t) (hs : schedWake s u = some s') : Shelved K t s' := by
  simp only [Sched.schedWake] at hs
  split at hs
  · cases hs
  · cases hs
    exact (h.edit (h.runNext u) (h.sleepNext u) fun he => absurd he hu).rqAdd hu

lemma writeSlot (sp : Slot) (hx : x ≠ t) : Shelved K t (s.writeSlot sp x) := by
  cases sp with
  | head => exact h.setSleepHead hx
  | next v =>
    simp only [State.writeSlot]
    refine h.edit ?_ ?_ ?_
    · exact h.runNext v
    · exact hx
    · rintro rfl
      exact h.state

end

lemma wakeSleepers (fuel : ℕ) : ∀ {s : State} {sp : Slot}, Shelved K t s →
    wakeSleepers fuel s sp = some s' → Shelved K t s' := by
  induction fuel with
  | zero =>
    intro s sp _ hs
    simp [Sched.wakeSleepers] at hs
  | succ fuel ih =>
    intro s sp h hs
    have hst : s.readSlot sp ≠ t := by
      cases sp with
      | head => exact h.sleepHead
      | next v => exact h.sleepNext v
    simp only [Sched.wakeSleepers] at hs
    split at hs
    · cases hs
      exact h
    split at hs
    · refine ih ?_ hs
      have h1 := h.writeSlot sp (h.sleepNext (s.readSlot sp))
      exact (h1.edit (h1.runNext _) (Ne.symm h.ne_zero) fun he => absurd he hst).rqAdd hst
    · exact ih h hs

lemma reap (h : Shelved K t s) : Shelved K t (reap s c) := by
  unfold Sched.reap
  split
  · exact (h.editCpu rfl).setFreed _
  · exact h

lemma requeue (h : Shelved (· ≠ .running) t s) (cur : ℕ) : Shelved (· ≠ .running) t (requeue s c cur) := by
  unfold Sched.requeue
  split
  next hrun =>
    have hcur : cur ≠ t := by
      rintro rfl
      exact h.state hrun.1
    exact (h.edit (h.runNext cur) (h.sleepNext cur) fun he => absurd he hcur).rqAdd hcur
  · split
    · exact h.editCpu rfl
    · exact h

lemma pickNext (h : Shelved K t s) : (pickNext s c).1 ≠ t ∧ Shelved K t (Sched.pickNext s c).2 := by
  obtain ⟨hne, hs⟩ := h.rqTake
  simp only [Sched.pickNext]
  refine ⟨?_, hs⟩
  split
  · exact h.idle c
  · exact hne

lemma handOff (h : Shelved K t s) {cur next : ℕ} (hn : next ≠ t) : Shelved K t (handOff s c cur next) := by
  have h1 : Shelved K t (s.edit next fun x => { x with state := .running }) :=
    h.edit (h.runNext next) (h.sleepNext next) fun he => absurd he hn
  simp only [Sched.handOff]
  refine Shelved.editCpu ?_ rfl
  split
  · have h2 := h1.edit (f := fun x => { x with onCpu := false }) (h1.runNext cur) (h1.sleepNext cur) fun he => he ▸ h1.state
    exact h2.edit (h2.runNext next) (h2.sleepNext next) fun he => absurd he hn
  · exact h1.edit (h1.runNext next) (h1.sleepNext next) fun he => absurd he hn

lemma schedTick (h : Shelved (· ≠ .running) t s) (hs : schedTick fuel s c = some s') :
    (s'.cpus c).current ≠ t ∧ Shelved (· ≠ .running) t s' := by
  rw [schedTick_eq] at hs
  obtain ⟨s2, hw, rfl⟩ := Option.map_eq_some_iff.mp hs
  have h1 : Shelved (· ≠ .running) t (Sched.reap s c) := h.reap
  have h2 : Shelved (· ≠ .running) t (enterTick s c) := (h1.edit (h1.runNext _) (h1.sleepNext _)
    (by intro he; rw [he]; exact h1.state)).setTicks _
  have h3 := h2.wakeSleepers fuel hw
  obtain ⟨hne, h4⟩ := (h3.requeue (s.cpus c).current).pickNext (c := c)
  refine ⟨?_, h4.handOff hne⟩
  rw [handOff_cpus, editCpu_self]
  exact hne

lemma schedSleepMs (h : Shelved K t s) {ms : ℕ} (hc : (s.cpus c).current ≠ t) :
    Shelved K t (schedSleepMs s c ms) := by
  simp only [Sched.schedSleepMs]
  split
  · exact h
  refine Shelved.editCpu (Shelved.setSleepHead (h.edit ?_ ?_ fun he => absurd he hc) hc) rfl
  · exact h.runNext _
  · exact h.sleepHead

lemma stopCurrent (h : Shelved K t s) {st : ThreadState} (hst : K st) : Shelved K t (stopCurrent s c st) := by
  refine Shelved.editCpu (h.edit ?_ ?_ fun _ => hst) rfl
  · exact h.runNext _
  · exact h.sleepNext _

/-- The threads a scheduler step takes hold of by name. -/
def Takes (s : State) : Action → ℕ → Prop
  | .sleep c _, t => (s.cpus c).current = t
  | .wake u, t => u = t
  | .create u, t => u = t
  | .add u, t => u = t
  | _, _ => False

lemma perform (h : Shelved (· ≠ .running) t s) {a : Action} (ha : ¬Takes s a t)
    (hs : perform fuel s a = some s') : Shelved (· ≠ .running) t s' := by
  cases a with
  | tick c =>
    simp only [Sched.perform] at hs
    split at hs
    · cases hs
    split at hs
    · cases hs
    · exact (h.schedTick hs).2
  | switch c =>
    simp only [Sched.perform] at hs
    split at hs
    · cases hs
      exact h.editCpu rfl
    · cases hs
  | sleep c ms =>
    obtain ⟨-, ⟨⟩⟩ := ite_none_right_eq_some.mp hs
    exact h.schedSleepMs ha
  | block c | exit c =>
    obtain ⟨-, ⟨⟩⟩ := ite_none_right_eq_some.mp hs
    exact h.stopCurrent (by decide)
  | wake u => exact h.schedWake ha hs
  | create u =>
    cases hs
    exact h.edit (Ne.symm h.ne_zero) (h.sleepNext u) fun he => absurd he ha
  | add u =>
    cases hs
    exact h.rqAdd ha

end Shelved

/-! ## Wait queues -/

/-- `t` stands on the wait queue that starts at `w`. -/
inductive OnQueue (next : ℕ → ℕ) (t : ℕ) : ℕ → Prop
  | here : t ≠ 0 → OnQueue next t t
  | there {w : ℕ} : w ≠ 0 → OnQueue next t (next w) → OnQueue next t w

lemma OnQueue.of_cut {next : ℕ → ℕ} {t v w : ℕ} (h : OnQueue (update next v 0) t w) : OnQueue next t w := by
  induction h with
  | here h0 => exact .here h0
  | @there w h0 hn ih =>
    by_cases hw : w = v
    · subst hw
      -- the queue ends behind the cut
      rw [update_self] at hn
      cases hn with
      | here h1 | there h1 _ => exact absurd rfl h1
    · rw [update_of_ne hw] at ih
      exact .there h0 ih

section

variable {K : ThreadState → Prop} {t : ℕ}

def waitNext (s : State) (w : ℕ) : ℕ := (s.threads w).waitNext

lemma rqAdd_waitNext (s : State) (u : ℕ) : waitNext (rqAdd s u) = waitNext s := by
  have hedit : ∀ (s : State) (v x : ℕ), waitNext (s.edit v fun y => { y with runNext := x }) = waitNext s :=
    fun s v x => funext (edit_field Thread.waitNext s v rfl)
  simp only [rqAdd]
  split
  · exact (hedit _ _ _).trans (hedit s u 0)
  · exact hedit s u 0

lemma schedWake_waitNext {s s' : State} {u : ℕ} (hs : schedWake s u = some s') : waitNext s' = waitNext s := by
  simp only [schedWake] at hs
  split at hs
  · cases hs
  cases hs
  rw [rqAdd_waitNext]
  exact funext (edit_field Thread.waitNext s u rfl)

lemma Shelved.wakeWaiters (fuel : ℕ) : ∀ {s s' : State} {w : ℕ}, Shelved K t s →
    ¬OnQueue (waitNext s) t w → wakeWaiters fuel s w = some s' → Shelved K t s' := by
  induction fuel with
  | zero =>
    intro s s' w _ _ hs
    simp [Proc.wakeWaiters] at hs
  | succ fuel ih =>
    intro s s' w h hq hs
    simp only [Proc.wakeWaiters] at hs
    split at hs
    · cases hs
      exact h
    rename_i hw0
    split at hs
    · cases hs
    rename_i s1 hwake
    have hwt : w ≠ t := by
      rintro rfl
      exact hq (.here hw0)
    have hcut : waitNext (s.edit w fun x => { x with waitNext := 0 }) = update (waitNext s) w 0 :=
      comp_update Thread.waitNext s.threads w _
    have h1 : Shelved K t (s.edit w fun x => { x with waitNext := 0 }) :=
      h.edit (h.runNext w) (h.sleepNext w) fun he => absurd he hwt
    refine ih (h1.schedWake hwt hwake) ?_ hs
    rw [schedWake_waitNext hwake, hcut]
    exact fun hon => hq (.there hw0 hon.of_cut)

lemma processKill_cases {fuel p : ℕ} {s s' : System} (hs : processKill fuel s p = some s')
    (he : (s.procs p).exited = false) (hp : p ≠ 0) (ht : (s.procs p).thread ≠ 0) :
    ∃ s1, wakeWaiters fuel s.sched (s.procs p).waitQueue = some s1 ∧
      s'.sched = s1.edit (s.procs p).thread fun x => { x with state := .dead } := by
  obtain ⟨hsched, hproc⟩ := closeFds_frame s p
  obtain ⟨hthread, hqueue⟩ := hproc p
  simp only [processKill, hp, he, Bool.false_eq_true, or_self_iff, if_false, processMarkExited,
    editProc_sched, hsched, hqueue] at hs
  rcases hw : Proc.wakeWaiters fuel s.sched (s.procs p).waitQueue with _ | s1
  · simp [hw] at hs
  refine ⟨s1, rfl, ?_⟩
  simp only [hw, System.editProc, update_self, hthread, ne_eq, ht, not_false_eq_true, if_true, some.injEq] at hs
  rw [← hs]

end

/-! ## Runs -/

/-- The first kill of a process finds it alive and its thread outside the queues. -/
structure KilledOutside (s : KillRun) (p : ℕ) : Prop where
  alive : (s.system.procs p).exited = false
  rqHead : s.system.sched.rqHead ≠ (s.system.procs p).thread
  rqTail : s.system.sched.rqTail ≠ (s.system.procs p).thread
  sleepHead : s.system.sched.sleepHead ≠ (s.system.procs p).thread
  runNext : ∀ u, (s.system.sched.threads u).runNext ≠ (s.system.procs p).thread
  sleepNext : ∀ u, (s.system.sched.threads u).sleepNext ≠ (s.system.procs p).thread
  waiters : ∀ t ∈ (s.system.procs p).thread :: s.killed,
    ¬OnQueue (waitNext s.system.sched) t (s.system.procs p).waitQueue

/-- Kills find the thread outside the queues, and no later step takes hold of the
thread of a killed process. -/
def LeavesShelved (s : KillRun) : Event → Prop
  | .sched a => ∀ t ∈ s.killed, ¬Shelved.Takes s.system.sched a t
  | .wait _ _ => True
  | .kill p => KilledOutside s p ∨ (s.system.procs p).exited = true ∧ (s.system.procs p).thread ∈ s.killed

lemma Shelved.processWait {t : ℕ} {s : System} (h : Shelved (· ≠ .running) t s.sched)
    (c : Fin maxCpus) (p : ℕ) : Shelved (· ≠ .running) t (processWait s c p).sched := by
  simp only [Proc.processWait]
  split
  · exact h
  refine Shelved.stopCurrent (h.edit ?_ ?_ ?_) (by decide)
  · exact h.runNext _
  · exact h.sleepNext _
  intro he
  rw [he]
  exact h.state

lemma Shelved.processKill {fuel p t : ℕ} {s : KillRun} {s' : System}
    (hall : s.Allowed (.kill p)) (ho : KilledOutside s p)
    (hk : ∀ u ∈ s.killed, Shelved (· ≠ .running) u s.system.sched) (hs : processKill fuel s.system p = some s')
    (ht : t ∈ (s.system.procs p).thread :: s.killed) : Shelved (· ≠ .running) t s'.sched := by
  obtain ⟨hp, hthread, hidle⟩ := hall
  obtain ⟨s1, hw, hs1⟩ := processKill_cases hs ho.alive hp hthread
  rw [hs1]
  rcases List.mem_cons.mp ht with rfl | hkilled
  · -- until the mark the thread may be in any state, running included
    have h0 : Shelved (fun _ => True) (s.system.procs p).thread s.system.sched :=
      { ho with ne_zero := hthread, state := trivial, idle := hidle }
    have h1 := h0.wakeWaiters fuel (ho.waiters _ ht) hw
    have h2 : Shelved (fun _ => True) (s.system.procs p).thread
        (s1.edit (s.system.procs p).thread fun x => { x with state := .dead }) :=
      h1.edit (h1.runNext _) (h1.sleepNext _) fun _ => trivial
    exact { h2 with state := by simp }
  · have h1 := (hk t hkilled).wakeWaiters fuel (ho.waiters t ht) hw
    exact h1.edit (h1.runNext _) (h1.sleepNext _) fun _ => by simp

lemma shelved_step {s s' : KillRun} {e : Event}
    (hk : ∀ t ∈ s.killed, Shelved (· ≠ .running) t s.system.sched) (hs : killStep s e s')
    (hl : LeavesShelved s e) : ∀ t ∈ s'.killed, Shelved (· ≠ .running) t s'.system.sched := by
  obtain ⟨hall, fuel, hs⟩ := hs
  cases e with
  | sched a =>
    obtain ⟨t1, ht1, rfl⟩ := map_eq_some_iff.mp hs
    exact fun t ht => (hk t ht).perform (hl t ht) ht1
  | wait c p =>
    obtain ⟨-, ⟨⟩⟩ := ite_none_right_eq_some.mp hs
    exact fun t ht => (hk t ht).processWait c p
  | kill p =>
    obtain ⟨t1, ht1, rfl⟩ := map_eq_some_iff.mp hs
    rcases hl with ho | ⟨hex, hmem⟩
    · exact fun t ht => Shelved.processKill hall ho hk ht1 ht
    -- a second kill returns at once
    simp only [processKill, hex, or_true, if_true, some.injEq] at ht1
    subst ht1
    intro t ht
    rcases List.mem_cons.mp ht with rfl | hkilled
    · exact hk _ hmem
    · exact hk t hkilled

/-- A thread record as it is between two runs of the thread. -/
def parkedThread (t : ℕ) : Thread := ⟨t, .ready, false, false, 0, 0, 0, 0⟩

/-- CPU 0 runs thread 2 and CPU 1 thread `other`; their idle threads are 3 and 4. The
run queue holds `queued` or nothing, and process 10 owns thread 1. -/
def twoCpus (other queued : ℕ) : KillRun where
  system :=
    { sched :=
        { threads := fun t =>
            if t = 2 ∨ t = other then { parkedThread t with state := .running, onCpu := true }
            else if t = 3 ∨ t = 4 then { parkedThread t with state := .running, isIdle := true }
            else parkedThread t
          rqHead := queued
          rqTail := queued
          sleepHead := 0
          ticks := 0
          cpus := fun c =>
            if c = 0 then ⟨2, 3, 0, 2, .running⟩
            else if c = 1 then ⟨other, 4, 0, other, .running⟩
            else ⟨0, 0, 0, 0, .running⟩
          freed := [] }
      procs := fun p => ⟨if p = 10 then 1 else 0, false, 0, 0, fun _ => ⟨false, .none, 0⟩⟩
      pipes := fun _ => ⟨false, false, false⟩ }
  killed := []

/-- In every run whose kills find the thread outside the queues, and in which nothing
takes hold of a killed thread afterwards, kills are final. -/
theorem kill_final_of_leavesShelved {s : KillRun}
    (hr : Reachable (fun s e s' => killStep s e s' ∧ LeavesShelved s e) killStart s) : KillFinal s := by
  have hk : ∀ t ∈ s.killed, Shelved (· ≠ .running) t s.system.sched := by
    refine hr.invariant (I := fun s => ∀ t ∈ s.killed, Shelved (· ≠ .running) t s.system.sched)
      (fun s hs t ht => ?_) fun s e s' hk hs => shelved_step hk hs.1 hs.2
    rw [hs] at ht
    exact absurd ht (by simp)
  rintro t ht c s' ⟨-, fuel, hs⟩
  obtain ⟨t1, ht1, rfl⟩ := map_eq_some_iff.mp hs
  simp only [Sched.perform] at ht1
  split at ht1
  · cases ht1
  split at ht1
  · cases ht1
  · exact ((hk t ht).schedTick ht1).1

/-- The process is killed while its thread runs on CPU 1. -/
theorem kill_final_of_running_thread : ∃ s,
    Reachable (fun s e s' => killStep s e s' ∧ LeavesShelved s e) killStart s ∧ s.killed = [1] ∧ KillFinal s := by
  have h1 : ((twoCpus 1 0).perform 1 (.kill 10)).isSome = true := by decide +kernel
  have hkilled : (Option.get _ h1).killed = [1] := by decide +kernel +revert
  have hlinks : ∀ u, ((twoCpus 1 0).system.sched.threads u).runNext = 0 ∧
      ((twoCpus 1 0).system.sched.threads u).sleepNext = 0 := by
    intro u
    simp only [twoCpus]
    split
    · exact ⟨rfl, rfl⟩
    · split <;> exact ⟨rfl, rfl⟩
  have hleaves : LeavesShelved (twoCpus 1 0) (.kill 10) := by
    refine .inl ⟨rfl, by decide, by decide, by decide, fun u => ?_, fun u => ?_, fun t _ hq => ?_⟩
    · rw [(hlinks u).1]
      decide
    · rw [(hlinks u).2]
      decide
    cases hq with
    | here h0 | there h0 _ => exact h0 rfl
  have hr : Reachable (fun s e s' => killStep s e s' ∧ LeavesShelved s e) killStart (Option.get _ h1) :=
    ⟨twoCpus 1 0, [.kill 10], rfl,
      .cons ⟨⟨⟨by decide, by decide, by decide⟩, 1, (some_get h1).symm⟩, hleaves⟩ (.nil _)⟩
  exact ⟨_, hr, hkilled, kill_final_of_leavesShelved hr⟩

/-- The process is killed while its thread waits in the run queue; the next tick
enters the thread. -/
theorem kill_of_queued_thread_not_final :
    ∃ s, killStart (twoCpus 5 1) ∧ Run killStep (twoCpus 5 1) [.kill 10] s ∧ ¬KillFinal s := by
  have h1 : ((twoCpus 5 1).perform 1 (.kill 10)).isSome = true := by decide +kernel
  have h2 : ((Option.get _ h1).perform 1 (.sched (.tick 0))).isSome = true := by decide +kernel +revert
  have hmem : 1 ∈ (Option.get _ h1).killed := by decide +kernel +revert
  have hcurrent : ((Option.get _ h2).system.sched.cpus 0).current = 1 := by decide +kernel +revert
  refine ⟨Option.get _ h1, rfl, .cons ⟨⟨by decide, by decide, by decide⟩, 1, (some_get h1).symm⟩ (.nil _),
    fun hfinal => ?_⟩
  exact hfinal 1 hmem 0 (Option.get _ h2) ⟨trivial, 1, (some_get h2).symm⟩ hcurrent

end AetherOS.Proc
