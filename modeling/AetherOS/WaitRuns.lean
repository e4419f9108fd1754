import AetherOS.Chains
import AetherOS.SchedQueues
import AetherOS.Process

/-!
# Waiting for the exit of a process

`process_wait` and `process_mark_exited` change the wait queue and the exit flag of a process
under one lock; each such section is a step. The exit takes the whole queue under the lock and
wakes the threads on it one by one afterwards, while other threads go on. Queues and the
lists that are being woken are threaded through the same link field of the threads.
-/
namespace AetherOS.Proc
open Sched Runs LinkedList Function List

/-- What a thread does: it waits for a process after it joined the queue, or it wakes the
waiters of a process that exited, from `w` on. -/
inductive Doing where
  | outside
  | waiting (p : ℕ)
  | exiting (p w : ℕ)
  deriving DecidableEq, Repr

/-- The system, what the threads do, and in the order of events, latest first, the waits that
joined a queue and the wake-ups, each with its process and its thread. -/
structure WaitRun where
  system : System
  doing : ℕ → Doing
  enqueued : List (ℕ × ℕ)
  woken : List (ℕ × ℕ)

inductive WaitAction where
  | wait (c : Fin maxCpus) (p : ℕ)
  | exit (e p : ℕ) (status : ℤ)
  | drain (e : ℕ)
  | finish (e : ℕ)
  | schedule (sched : State)

/-! ## The steps -/

/-- `process_mark_exited` up to the release of the lock. -/
def markExited (s : System) (p : ℕ) (status : ℤ) : System :=
  s.editProc p fun x => { x with exitStatus := status, exited := true, waitQueue := 0 }

/-- One round of the loop of `process_mark_exited`, with the next thread; `none` while the
thread is still on a CPU. -/
def wakeWaiter (s : State) (w : ℕ) : Option State :=
  schedWake (s.edit w fun x => { x with waitNext := 0 }) w

namespace WaitRun

def Blocked (s : WaitRun) (t : ℕ) : Prop := (s.system.sched.threads t).state = .blocked

/-- Only a thread that is running takes steps. -/
def Executes (s : WaitRun) (t : ℕ) : Prop := t ≠ 0 ∧ (s.system.sched.threads t).state = .running

def waitNext (s : WaitRun) (t : ℕ) : ℕ := (s.system.sched.threads t).waitNext

def Exited (s : WaitRun) (p : ℕ) : Prop := (s.system.procs p).exited = true

/-- One round of `process_wait` on CPU `c`. -/
def wait (s : WaitRun) (c : Fin maxCpus) (p : ℕ) : WaitRun :=
  let t := (s.system.sched.cpus c).current
  let exited := (s.system.procs p).exited
  { system := processWait s.system c p
    doing := update s.doing t (if exited then .outside else .waiting p)
    enqueued := if exited then s.enqueued else (p, t) :: s.enqueued
    woken := s.woken }

def exit (s : WaitRun) (e p : ℕ) (status : ℤ) : WaitRun :=
  { s with
    system := markExited s.system p status
    doing := update s.doing e (.exiting p (s.system.procs p).waitQueue) }

def drained (s : WaitRun) (e p w : ℕ) (sched : State) : WaitRun :=
  { s with
    system := { s.system with sched := sched }
    doing := update s.doing e (.exiting p (s.waitNext w))
    woken := (p, w) :: s.woken }

end WaitRun

/-- The steps of threads that wait, exit, wake waiters, and are scheduled. -/
def waitStep (s : WaitRun) : WaitAction → WaitRun → Prop
  | .wait c p, s' =>
    let t := (s.system.sched.cpus c).current
    s.Executes t ∧ (s.doing t = .outside ∨ s.doing t = .waiting p) ∧ s' = s.wait c p
  | .exit e p status, s' => s.Executes e ∧ s.doing e = .outside ∧ s' = s.exit e p status
  | .drain e, s' => ∃ p w sched, s.doing e = .exiting p w ∧ w ≠ 0 ∧
      wakeWaiter s.system.sched w = some sched ∧ s' = s.drained e p w sched
  | .finish e, s' => ∃ p, s.doing e = .exiting p 0 ∧ s' = { s with doing := update s.doing e .outside }
  | .schedule sched, s' => LeavesWaiting (fun t => ∃ p, s.doing t = .waiting p) s.system.sched sched ∧
      s' = { s with system := { s.system with sched := sched } }

/-- Nobody waits. -/
structure WaitStart (s : WaitRun) : Prop where
  queues : ∀ p, (s.system.procs p).waitQueue = 0
  doing : ∀ t, s.doing t = .outside
  enqueued : s.enqueued = []
  woken : s.woken = []

lemma wakeWaiters_run {e p : ℕ} (fuel : ℕ) {s : WaitRun} {w : ℕ} {sched : State}
    (he : s.doing e = .exiting p w) (hw : wakeWaiters fuel s.system.sched w = some sched) :
    ∃ as s', Run waitStep s as s' ∧ s'.system = { s.system with sched := sched } ∧
      s'.doing = update s.doing e .outside := by
  induction fuel generalizing s w with
  | zero => cases hw
  | succ fuel ih =>
    rw [wakeWaiters] at hw
    by_cases h0 : w = 0
    · rw [if_pos h0] at hw
      cases hw
      subst h0
      exact ⟨[.finish e], _, .cons ⟨p, he, rfl⟩ (.nil _), rfl, rfl⟩
    rw [if_neg h0] at hw
    cases hone : wakeWaiter s.system.sched w with
    | none =>
      rw [wakeWaiter] at hone
      simp only [hone] at hw
      cases hw
    | some sched' =>
      rw [wakeWaiter] at hone
      simp only [hone] at hw
      have hstep : waitStep s (.drain e) (s.drained e p w sched') := ⟨p, w, sched', he, h0, hone, rfl⟩
      have hnext : (s.drained e p w sched').doing e = .exiting p (s.waitNext w) :=
        update_self ..
      obtain ⟨as, s', hrun, hsys, hdoing⟩ := ih hnext hw
      refine ⟨.drain e :: as, s', .cons hstep hrun, hsys, ?_⟩
      rw [hdoing]
      exact update_idem ..

/-- The heads of lists of waiting threads: the queue of a process, or what a thread that exits
a process has still to wake. -/
inductive WaitHead where
  | queue (p : ℕ)
  | drain (e : ℕ)
  deriving DecidableEq

namespace WaitRun

def head (s : WaitRun) : WaitHead → ℕ
  | .queue p => (s.system.procs p).waitQueue
  | .drain e =>
    match s.doing e with
    | .exiting _ w => w
    | _ => 0

/-- The list at the head is of threads that wait for `p`. -/
def Waits (s : WaitRun) (p : ℕ) : WaitHead → Prop
  | .queue q => q = p
  | .drain e => ∃ w, s.doing e = .exiting p w

end WaitRun

/-- Every thread that joined a queue is on it, or on the list of a thread that wakes the
queue, or was woken; an exited process has no queue. -/
structure WaitInv (s : WaitRun) (L : WaitHead → List ℕ) : Prop where
  chains : Chains 0 s.waitNext s.head L
  members : ∀ i t, t ∈ L i → s.Blocked t ∧ ∃ p, s.Waits p i ∧ s.doing t = .waiting p ∧ (p, t) ∉ s.woken
  quiet : ∀ p, s.Exited p → L (.queue p) = []
  exiting : ∀ e p w, s.doing e = .exiting p w → s.Exited p
  accounted : ∀ p t, (p, t) ∈ s.enqueued ↔ (∃ i, s.Waits p i ∧ t ∈ L i) ∨ (p, t) ∈ s.woken
  joinedOnce : s.enqueued.Nodup
  wokenOnce : s.woken.Nodup
  wokenExited : ∀ p t, (p, t) ∈ s.woken → s.Exited p

namespace WaitInv

variable {s s' : WaitRun} {L : WaitHead → List ℕ} {t e p w : ℕ} {i : WaitHead} {c : Fin maxCpus} {sched : State}
  {x : Doing}

lemma init (h : WaitStart s) : WaitInv s fun _ => [] := by
  obtain ⟨hqueues, hdoing, henq, hwoken⟩ := h
  have hhead : ∀ i, s.head i = 0 := by
    intro i
    cases i with
    | queue p => exact hqueues p
    | drain e => rw [WaitRun.head, hdoing]
  refine ⟨⟨fun i => ?_, by simp⟩, by simp, fun _ _ => rfl, ?_, ?_, ?_, ?_, ?_⟩
  · rw [hhead]
    exact Chain.nil _
  · intro e p w he
    rw [hdoing] at he
    cases he
  · simp [henq, hwoken]
  · simp [henq]
  · simp [hwoken]
  · simp [hwoken]

lemma not_blocked (h : s.Executes t) : ¬s.Blocked t := by
  intro hb
  have hstate := h.2
  rw [hb] at hstate
  cases hstate

lemma not_mem (h : WaitInv s L) (ht : s.Executes t) (i : WaitHead) : t ∉ L i :=
  fun hmem => not_blocked ht (h.members i t hmem).1

lemma same_proc {q : ℕ} (hp : s.Waits p i) (hq : s.Waits q i) : p = q := by
  cases i with
  | queue r => exact hp.symm.trans hq
  | drain e =>
    obtain ⟨w, hw⟩ := hp
    obtain ⟨w', hw'⟩ := hq
    rw [hw] at hw'
    exact (Doing.exiting.inj hw').1

section

variable (hd : ∀ e p w, s'.doing e = .exiting p w ↔ s.doing e = .exiting p w)
include hd

lemma waits_congr : s'.Waits p i ↔ s.Waits p i := by
  cases i with
  | queue q => exact Iff.rfl
  | drain e => exact exists_congr fun w => hd e p w

lemma head_drain_congr (e : ℕ) : s'.head (.drain e) = s.head (.drain e) := by
  cases he : s.doing e with
  | exiting p w =>
    have he' := (hd e p w).mpr he
    rw [WaitRun.head, WaitRun.head, he, he']
  | _ =>
    have hnone : ∀ p w, s'.doing e ≠ .exiting p w := by
      intro p w hw
      rw [hd, he] at hw
      cases hw
    rw [WaitRun.head, WaitRun.head, he]
    split
    next p w hw => exact absurd hw (hnone p w)
    · rfl

end

lemma exiting_update (ht : ∀ p w, s.doing t ≠ .exiting p w) (hx : ∀ p w, x ≠ .exiting p w)
    (e p w : ℕ) : update s.doing t x e = .exiting p w ↔ s.doing e = .exiting p w := by
  exact update_cases e (iff_of_false (hx p w) (ht p w)) fun _ => .rfl

lemma doing_update {u : ℕ} (hu : s.doing u = .waiting p) (hut : u ≠ t) : update s.doing t x u = .waiting p := by
  rw [update_of_ne hut, hu]

lemma processWait_eq (hexited : (s.system.procs p).exited = false) (ht : (s.system.sched.cpus c).current = t) :
    (processWait s.system c p).procs = update s.system.procs p
        { s.system.procs p with waitQueue := t } ∧
      (processWait s.system c p).sched.threads = update s.system.sched.threads t
        { s.system.sched.threads t with waitNext := (s.system.procs p).waitQueue, state := .blocked } := by
  subst ht
  rw [processWait, if_neg (by rw [hexited]; decide)]
  refine ⟨rfl, ?_⟩
  simp [stopCurrent, State.edit, State.editCpu, System.editProc, update_idem]

section

variable (h : WaitInv s L) (ht : s.Executes t) (hnot : ∀ q w, s.doing t ≠ .exiting q w)
include h ht hnot

lemma join (hexited : ¬s.Exited p)
    (hprocs : s'.system.procs = update s.system.procs p { s.system.procs p with waitQueue := t })
    (hthreads : s'.system.sched.threads = update s.system.sched.threads t
      { s.system.sched.threads t with waitNext := (s.system.procs p).waitQueue, state := .blocked })
    (hdoing : s'.doing = update s.doing t (.waiting p))
    (henq : s'.enqueued = (p, t) :: s.enqueued) (hwoken : s'.woken = s.woken) :
    WaitInv s' (update L (.queue p) (t :: L (.queue p))) := by
  have hd : ∀ e q w, s'.doing e = .exiting q w ↔ s.doing e = .exiting q w := by
    rw [hdoing]
    exact exiting_update hnot (by simp)
  have hnext : s'.waitNext = update s.waitNext t (s.head (.queue p)) := by
    have hcomp := comp_update Thread.waitNext s.system.sched.threads t
    exact (congrArg (Thread.waitNext ∘ ·) hthreads).trans (hcomp _)
  have hhead : s'.head = update s.head (.queue p) t := by
    funext i
    cases i with
    | queue q =>
      by_cases hq : q = p
      · subst hq
        simp [WaitRun.head, hprocs]
      · have hne : WaitHead.queue q ≠ .queue p := fun he => hq (WaitHead.queue.inj he)
        simp [WaitRun.head, hprocs, update_of_ne hq, update_of_ne hne]
    | drain e =>
      have hne : WaitHead.drain e ≠ .queue p := by simp
      rw [update_of_ne hne, head_drain_congr hd]
  have hblocked : ∀ u, u ≠ t → s.Blocked u → s'.Blocked u := by
    intro u hut hu
    simpa only [WaitRun.Blocked, hthreads, update_of_ne hut] using hu
  have hexit : ∀ q, s'.Exited q ↔ s.Exited q := by
    intro q
    by_cases hq : q = p
    · subst hq
      simp [WaitRun.Exited, hprocs]
    · simp [WaitRun.Exited, hprocs, update_of_ne hq]
  have hfresh : (p, t) ∉ s.enqueued := by
    intro hmem
    rcases (h.accounted p t).mp hmem with ⟨i, -, hi⟩ | hw
    · exact h.not_mem ht i hi
    · exact hexited (h.wokenExited p t hw)
  refine ⟨?_, ?_, ?_, ?_, ?_, ?_, ?_, ?_⟩
  · rw [hnext, hhead]
    exact h.chains.push ht.1 (h.not_mem ht) _
  · intro i u hu
    rcases Chains.mem_pushed.mp hu with ⟨rfl, rfl⟩ | hui
    · refine ⟨by simp [WaitRun.Blocked, hthreads], p, rfl, ?_, ?_⟩
      · rw [hdoing, update_self]
      · rw [hwoken]
        exact fun hw => hexited (h.wokenExited p u hw)
    have hut : u ≠ t := fun he => h.not_mem ht i (he ▸ hui)
    obtain ⟨hub, q, hq, hdu, huw⟩ := h.members i u hui
    refine ⟨hblocked u hut hub, q, (waits_congr hd).mpr hq, ?_, hwoken ▸ huw⟩
    rw [hdoing]
    exact doing_update hdu hut
  · intro q hq
    rw [hexit] at hq
    have hne : WaitHead.queue q ≠ .queue p := by
      intro he
      exact hexited (WaitHead.queue.inj he ▸ hq)
    rw [update_of_ne hne]
    exact h.quiet q hq
  · intro e q w he
    rw [hexit]
    exact h.exiting e q w ((hd e q w).mp he)
  · intro q u
    have hlists : (∃ i, s'.Waits q i ∧ u ∈ update L (.queue p) (t :: L (.queue p)) i) ↔
        (q, u) = (p, t) ∨ ∃ i, s.Waits q i ∧ u ∈ L i := by
      constructor
      · rintro ⟨i, hq, hu⟩
        rw [waits_congr hd] at hq
        rcases Chains.mem_pushed.mp hu with ⟨rfl, rfl⟩ | hui
        · obtain rfl : p = q := hq
          exact .inl rfl
        · exact .inr ⟨i, hq, hui⟩
      · rintro (he | ⟨i, hq, hu⟩)
        · obtain ⟨rfl, rfl⟩ := Prod.mk.inj he
          exact ⟨.queue q, rfl, Chains.mem_pushed.mpr (.inl ⟨rfl, rfl⟩)⟩
        · exact ⟨i, (waits_congr hd).mpr hq, Chains.mem_pushed.mpr (.inr hu)⟩
    rw [henq, hwoken, mem_cons, h.accounted, hlists, or_assoc]
  · rw [henq]
    exact nodup_cons.mpr ⟨hfresh, h.joinedOnce⟩
  · rw [hwoken]
    exact h.wokenOnce
  · intro q u hu
    rw [hwoken] at hu
    rw [hexit]
    exact h.wokenExited q u hu

end

lemma drain_nil (h : WaitInv s L) (he : s.head (.drain e) = 0) : L (.drain e) = [] := by
  have hchain := h.chains.chain (.drain e)
  rw [he] at hchain
  exact hchain.eq_nil

/-- A thread leaves its call, in no queue itself and with nobody left to wake. -/
lemma outside (h : WaitInv s L) (ht : ∀ i, t ∉ L i) (hhead : s.head (.drain t) = 0) :
    WaitInv { s with doing := update s.doing t .outside } L := by
  have hwaits : ∀ q i u, u ∈ L i →
      (WaitRun.Waits { s with doing := update s.doing t .outside } q i ↔ s.Waits q i) := by
    intro q i u hu
    cases i with
    | queue r => exact Iff.rfl
    | drain e =>
      have het : e ≠ t := by
        rintro rfl
        rw [h.drain_nil hhead] at hu
        cases hu
      simp [WaitRun.Waits, het]
  refine { h with chains := h.chains.congr (fun _ _ _ => rfl) ?_, members := ?_, exiting := ?_, accounted := ?_ }
  · intro i
    cases i with
    | queue q => rfl
    | drain e =>
      by_cases het : e = t
      · subst het
        rw [hhead]
        simp [WaitRun.head]
      · simp [WaitRun.head, het]
  · intro i u hu
    obtain ⟨hub, q, hq, hdu, huw⟩ := h.members i u hu
    exact ⟨hub, q, (hwaits q i u hu).mpr hq, doing_update hdu fun he => ht i (he ▸ hu), huw⟩
  · intro e q w
    dsimp only
    exact update_cases e (fun he => by cases he) fun _ => h.exiting e q w
  · intro q u
    rw [h.accounted]
    apply or_congr_left
    exact exists_congr fun i => and_congr_left fun hu => (hwaits q i u hu).symm

lemma wait (h : WaitInv s L) (ht : s.Executes (s.system.sched.cpus c).current)
    (hdoing : s.doing (s.system.sched.cpus c).current = .outside ∨
      s.doing (s.system.sched.cpus c).current = .waiting p) : ∃ L', WaitInv (s.wait c p) L' := by
  have hnot : ∀ q w, s.doing (s.system.sched.cpus c).current ≠ .exiting q w := by
    intro q w hq
    rw [hq] at hdoing
    rcases hdoing with hd | hd <;> cases hd
  by_cases hexited : (s.system.procs p).exited = true
  · have hwait : s.wait c p = { s with doing := update s.doing (s.system.sched.cpus c).current .outside } := by
      simp [WaitRun.wait, processWait, hexited]
    rw [hwait]
    exact ⟨L, h.outside (h.not_mem ht) (by rcases hdoing with hd | hd <;> rw [WaitRun.head, hd])⟩
  have hflag : (s.system.procs p).exited = false := Bool.not_eq_true _ ▸ hexited
  obtain ⟨hprocs, hthreads⟩ := processWait_eq hflag rfl
  refine ⟨_, h.join ht hnot hexited hprocs hthreads ?_ ?_ rfl⟩
  · simp [WaitRun.wait, hflag]
  · simp [WaitRun.wait, hflag]

lemma head_exit (status : ℤ) : (s.exit e p status).head =
    update (update s.head (.drain e) (s.head (.queue p))) (.queue p) 0 := by
  funext i
  cases i with
  | queue q =>
    by_cases hq : q = p
    · subst hq
      simp [WaitRun.head, WaitRun.exit, markExited, System.editProc]
    · simp [WaitRun.head, WaitRun.exit, markExited, System.editProc, hq]
  | drain e' =>
    by_cases he' : e' = e
    · subst he'
      simp [WaitRun.head, WaitRun.exit]
    · simp [WaitRun.head, WaitRun.exit, he']

lemma exited_exit (status : ℤ) (q : ℕ) : (s.exit e p status).Exited q ↔ q = p ∨ s.Exited q := by
  by_cases hq : q = p
  · subst hq
    simp [WaitRun.Exited, WaitRun.exit, markExited, System.editProc]
  · simp [WaitRun.Exited, WaitRun.exit, markExited, System.editProc, hq]

lemma waits_exit (status : ℤ) (q : ℕ) (i : WaitHead) :
    (s.exit e p status).Waits q i ↔ i = .drain e ∧ q = p ∨ i ≠ .drain e ∧ s.Waits q i := by
  cases i with
  | queue r => simp [WaitRun.Waits]
  | drain e' =>
    by_cases he' : e' = e
    · subst he'
      simp [WaitRun.Waits, WaitRun.exit, eq_comm]
    · simp [WaitRun.Waits, WaitRun.exit, he']

/-- The threads on a list wait for the same process when an exit takes the queue over. -/
lemma lists_exit (hnone : L (.drain e) = []) (status : ℤ) (q u : ℕ) :
    (∃ i, (s.exit e p status).Waits q i ∧ u ∈ update (update L (.drain e) (L (.queue p))) (.queue p) [] i) ↔
        ∃ i, s.Waits q i ∧ u ∈ L i := by
  have hne : WaitHead.queue p ≠ .drain e := by simp
  constructor
  · rintro ⟨i, hq, hu⟩
    rcases (Chains.mem_moved hnone hne).mp hu with ⟨rfl, huq⟩ | ⟨-, hui⟩
    · rcases (waits_exit status q _).mp hq with ⟨-, rfl⟩ | ⟨hc, -⟩
      · exact ⟨.queue q, rfl, huq⟩
      · exact absurd rfl hc
    rcases (waits_exit status q i).mp hq with ⟨rfl, -⟩ | ⟨-, hqi⟩
    · rw [hnone] at hui
      cases hui
    · exact ⟨i, hqi, hui⟩
  rintro ⟨i, hq, hu⟩
  by_cases hi : i = .queue p
  · subst hi
    obtain rfl : p = q := hq
    exact ⟨.drain e, (waits_exit status ..).mpr (.inl ⟨rfl, rfl⟩),
      (Chains.mem_moved hnone hne).mpr (.inl ⟨rfl, hu⟩)⟩
  have hie : i ≠ .drain e := by
    rintro rfl
    rw [hnone] at hu
    cases hu
  exact ⟨i, (waits_exit status ..).mpr (.inr ⟨hie, hq⟩), (Chains.mem_moved hnone hne).mpr (.inr ⟨hi, hu⟩)⟩

lemma exit (h : WaitInv s L) (he : s.Executes e) (hdoing : s.doing e = .outside) (status : ℤ) :
    WaitInv (s.exit e p status) (update (update L (.drain e) (L (.queue p))) (.queue p) []) := by
  have hne : WaitHead.queue p ≠ .drain e := by simp
  have hnone : L (.drain e) = [] := h.drain_nil (by rw [WaitRun.head, hdoing])
  have hmoved : ∀ {i u}, u ∈ update (update L (.drain e) (L (.queue p))) (.queue p) [] i ↔
      i = .drain e ∧ u ∈ L (.queue p) ∨ i ≠ .queue p ∧ u ∈ L i := Chains.mem_moved hnone hne
  refine ⟨?_, ?_, ?_, ?_, ?_, h.joinedOnce, h.wokenOnce, ?_⟩
  · rw [head_exit]
    exact h.chains.move hnone hne
  · intro i u hu
    have hself : ∀ j, u ∈ L j → u ≠ e := fun j hj heq => h.not_mem he j (heq ▸ hj)
    rcases hmoved.mp hu with ⟨rfl, huq⟩ | ⟨-, hui⟩
    · obtain ⟨hub, q, hq, hdu, huw⟩ := h.members _ u huq
      obtain rfl : p = q := hq
      exact ⟨hub, p, (waits_exit status ..).mpr (.inl ⟨rfl, rfl⟩), doing_update hdu (hself _ huq), huw⟩
    obtain ⟨hub, q, hq, hdu, huw⟩ := h.members i u hui
    have hie : i ≠ .drain e := by
      rintro rfl
      rw [hnone] at hui
      cases hui
    exact ⟨hub, q, (waits_exit status ..).mpr (.inr ⟨hie, hq⟩), doing_update hdu (hself i hui), huw⟩
  · intro q hq
    by_cases hqp : q = p
    · rw [hqp, update_self]
    have hqne : WaitHead.queue q ≠ .queue p := fun heq => hqp (WaitHead.queue.inj heq)
    rw [update_of_ne hqne, update_of_ne (by simp)]
    exact h.quiet q (((exited_exit status q).mp hq).resolve_left hqp)
  · intro e' q w he'
    rw [exited_exit]
    by_cases hee : e' = e
    · left
      subst hee
      simp only [WaitRun.exit, update_self, Doing.exiting.injEq] at he'
      exact he'.1.symm
    right
    simp only [WaitRun.exit, update_of_ne hee] at he'
    exact h.exiting e' q w he'
  · intro q u
    rw [lists_exit hnone]
    exact h.accounted q u
  · intro q u hu
    rw [exited_exit]
    exact .inr (h.wokenExited q u hu)

lemma waits_drained (he : s.doing e = .exiting p w) (q : ℕ) (i : WaitHead) :
    (s.drained e p w sched).Waits q i ↔ s.Waits q i := by
  cases i with
  | queue r => exact Iff.rfl
  | drain e' =>
    by_cases hee : e' = e
    · subst hee
      simp [WaitRun.Waits, WaitRun.drained, he]
    · simp [WaitRun.Waits, WaitRun.drained, hee]

lemma head_drained : (s.drained e p w sched).head = update s.head (.drain e) (s.waitNext w) := by
  funext i
  cases i with
  | queue q =>
    rw [update_of_ne (by simp)]
    rfl
  | drain e' =>
    by_cases hee : e' = e
    · subst hee
      simp [WaitRun.head, WaitRun.drained]
    · simp [WaitRun.head, WaitRun.drained, hee]

/-- The link of the thread that is woken is cleared, and the other waiters stay blocked. -/
lemma wakeWaiter_frame (hw : wakeWaiter s.system.sched w = some sched) :
    (s.drained e p w sched).waitNext = update s.waitNext w 0 ∧
      ∀ u, u ≠ w → s.Blocked u → (s.drained e p w sched).Blocked u := by
  obtain ⟨-, hstate, hnext⟩ := schedWake_frame hw
  constructor
  · funext u
    exact (hnext u).trans (congrFun (comp_update Thread.waitNext s.system.sched.threads w _) u)
  · intro u hu hub
    refine (hstate u hu).trans ?_
    rw [edit_of_ne _ _ _ hu]
    exact hub

lemma drain (h : WaitInv s L) (he : s.doing e = .exiting p w) (hw0 : w ≠ 0)
    (hw : wakeWaiter s.system.sched w = some sched) : ∃ L', WaitInv (s.drained e p w sched) L' := by
  obtain ⟨hlinks, hblocked⟩ := wakeWaiter_frame (e := e) (p := p) hw
  have hheadw : s.head (.drain e) = w := by rw [WaitRun.head, he]
  have hexited := h.exiting e p w he
  obtain ⟨l, hl, hchains⟩ := h.chains.pop (i := .drain e) (by rwa [hheadw]) 0
  rw [hheadw] at hl hchains
  have hwl : w ∈ L (.drain e) := by
    rw [hl]
    exact mem_cons_self
  refine ⟨update L (.drain e) l, ?_, ?_, ?_, ?_, ?_, h.joinedOnce, ?_, ?_⟩
  · rw [hlinks, head_drained]
    exact hchains
  · intro i u hu
    obtain ⟨hui, huw⟩ := (h.chains.mem_popped hl).mp hu
    obtain ⟨hub, q, hq, hdu, hwoken⟩ := h.members i u hui
    have hue : u ≠ e := by
      rintro rfl
      rw [he] at hdu
      cases hdu
    refine ⟨hblocked u huw hub, q, (waits_drained he q i).mpr hq, doing_update hdu hue, ?_⟩
    intro hmem
    rcases mem_cons.mp hmem with heq | hmem
    · exact huw (Prod.mk.inj heq).2
    · exact hwoken hmem
  · intro q hq
    rw [update_of_ne (by simp)]
    exact h.quiet q hq
  · intro e' q w' he'
    by_cases hee : e' = e
    · subst hee
      simp only [WaitRun.drained, update_self, Doing.exiting.injEq] at he'
      exact he'.1 ▸ hexited
    · simp only [WaitRun.drained, update_of_ne hee] at he'
      exact h.exiting e' q w' he'
  · intro q u
    have hsplit : (∃ i, s.Waits q i ∧ u ∈ L i) ↔
        (∃ i, (s.drained e p w sched).Waits q i ∧ u ∈ update L (.drain e) l i) ∨ (q, u) = (p, w) := by
      constructor
      · rintro ⟨i, hq, hu⟩
        by_cases huw : u = w
        · subst huw
          obtain rfl := h.chains.apart i _ u hu hwl
          exact .inr (by rw [same_proc hq ⟨u, he⟩])
        · exact .inl ⟨i, (waits_drained he q i).mpr hq, (h.chains.mem_popped hl).mpr ⟨hu, huw⟩⟩
      · rintro (⟨i, hq, hu⟩ | heq)
        · exact ⟨i, (waits_drained he q i).mp hq, ((h.chains.mem_popped hl).mp hu).1⟩
        · obtain ⟨rfl, rfl⟩ := Prod.mk.inj heq
          exact ⟨.drain e, ⟨u, he⟩, hwl⟩
    show (q, u) ∈ s.enqueued ↔ _ ∨ (q, u) ∈ (p, w) :: s.woken
    rw [h.accounted, hsplit, mem_cons, or_assoc]
  · obtain ⟨-, q, hq, -, hfresh⟩ := h.members _ w hwl
    rw [same_proc hq ⟨w, he⟩] at hfresh
    exact nodup_cons.mpr ⟨hfresh, h.wokenOnce⟩
  · intro q u hu
    rcases mem_cons.mp hu with heq | hu
    · exact (Prod.mk.inj heq).1 ▸ hexited
    · exact h.wokenExited q u hu

lemma schedule (h : WaitInv s L) (hw : LeavesWaiting (fun t => ∃ p, s.doing t = .waiting p) s.system.sched sched) :
    WaitInv { s with system := { s.system with sched := sched } } L := by
  refine { h with chains := h.chains.congr ?_ fun i => by cases i <;> rfl, members := ?_ }
  · intro i u hu
    obtain ⟨hub, q, -, hdu, -⟩ := h.members i u hu
    exact ((hw u ⟨q, hdu⟩).1 hub).2
  intro i u hu
  obtain ⟨hub, q, hq, hdu, huw⟩ := h.members i u hu
  exact ⟨((hw u ⟨q, hdu⟩).1 hub).1, q, hq, hdu, huw⟩

end WaitInv

/-- One step. -/
theorem waitStep_inv {s s' : WaitRun} {a : WaitAction} (h : ∃ L, WaitInv s L) (hs : waitStep s a s') :
    ∃ L, WaitInv s' L := by
  obtain ⟨L, h⟩ := h
  cases a with
  | wait c p =>
    obtain ⟨ht, hdoing, rfl⟩ := hs
    exact h.wait ht hdoing
  | exit e p status =>
    obtain ⟨he, hdoing, rfl⟩ := hs
    exact ⟨_, h.exit he hdoing status⟩
  | drain e =>
    obtain ⟨p, w, sched, he, hw0, hw, rfl⟩ := hs
    exact h.drain he hw0 hw
  | finish e =>
    obtain ⟨p, he, rfl⟩ := hs
    refine ⟨L, h.outside (fun i hi => ?_) (by rw [WaitRun.head, he])⟩
    obtain ⟨-, q, -, hdoing, -⟩ := h.members i e hi
    rw [he] at hdoing
    cases hdoing
  | schedule sched =>
    obtain ⟨hw, rfl⟩ := hs
    exact ⟨L, h.schedule hw⟩

lemma waitStep_enqueued {s s' : WaitRun} {a : WaitAction} {p t : ℕ} (hs : waitStep s a s')
    (hexited : s.Exited p) (ht : (p, t) ∈ s'.enqueued) : (p, t) ∈ s.enqueued := by
  cases a with
  | wait c q =>
    obtain ⟨-, -, rfl⟩ := hs
    rw [WaitRun.wait] at ht
    by_cases hq : (s.system.procs q).exited = true
    · simpa only [hq, if_true] using ht
    simp only [hq] at ht
    rcases mem_cons.mp ht with heq | ht
    · obtain ⟨rfl, -⟩ := Prod.mk.inj heq
      exact absurd hexited hq
    · exact ht
  | exit e q status =>
    obtain ⟨-, -, rfl⟩ := hs
    exact ht
  | drain e =>
    obtain ⟨q, w, sched, -, -, -, rfl⟩ := hs
    exact ht
  | finish e =>
    obtain ⟨q, -, rfl⟩ := hs
    exact ht
  | schedule sched =>
    obtain ⟨-, rfl⟩ := hs
    exact ht

/-! ## No wake-up is lost -/

/-- What holds of the waits for `p`: after the exit its queue is empty and nobody joins it; a
thread that joined it, which it did once, was not woken before the exit, and it was woken
exactly once when no exit of `p` is in progress; while one is, those it has not woken yet are
on the list that it works through. -/
structure WaitSafe (s : WaitRun) (p : ℕ) : Prop where
  queue : s.Exited p → (s.system.procs p).waitQueue = 0
  late : ∀ t a s', s.Exited p → waitStep s a s' → (p, t) ∈ s'.enqueued → (p, t) ∈ s.enqueued
  atMostOnce : ∀ t, s.woken.count (p, t) ≤ s.enqueued.count (p, t) ∧ s.enqueued.count (p, t) ≤ 1
  before : ∀ t, (p, t) ∈ s.enqueued → ¬s.Exited p → (p, t) ∉ s.woken ∧ s.Blocked t
  toCome : ∀ t, (p, t) ∈ s.enqueued → s.Exited p → (p, t) ∉ s.woken →
    ∃ e w l, s.doing e = .exiting p w ∧ Chain 0 s.waitNext w l ∧ t ∈ l
  exactlyOnce : ∀ t, (p, t) ∈ s.enqueued → s.Exited p → (∀ e w, s.doing e ≠ .exiting p w) → s.woken.count (p, t) = 1

/-- In every state that is reached, for every process. -/
theorem wait_safe_of_reachable {s : WaitRun} (hr : Reachable waitStep WaitStart s) (p : ℕ) : WaitSafe s p := by
  have hinv : ∃ L, WaitInv s L := by
    refine hr.invariant (I := fun s => ∃ L, WaitInv s L) ?_ ?_
    · intro s hs
      exact ⟨_, WaitInv.init hs⟩
    · intro s a s' h hs
      exact waitStep_inv h hs
  obtain ⟨L, h⟩ := hinv
  have htoCome : ∀ t, (p, t) ∈ s.enqueued → s.Exited p → (p, t) ∉ s.woken →
      ∃ e w l, s.doing e = .exiting p w ∧ Chain 0 s.waitNext w l ∧ t ∈ l := by
    intro t ht hexited hnot
    obtain ⟨i, hwaits, hti⟩ := ((h.accounted p t).mp ht).resolve_right hnot
    cases i with
    | queue q =>
      obtain rfl : q = p := hwaits
      rw [h.quiet q hexited] at hti
      cases hti
    | drain e =>
      obtain ⟨w, he⟩ := hwaits
      have hchain := h.chains.chain (.drain e)
      rw [WaitRun.head, he] at hchain
      exact ⟨e, w, _, he, hchain, hti⟩
  refine ⟨?_, fun t a s' he hs ht => waitStep_enqueued hs he ht, ?_, ?_, htoCome, ?_⟩
  · intro hexited
    exact (h.chains.chain (.queue p)).head_eq_null (h.quiet p hexited)
  · intro t
    refine ⟨?_, nodup_iff_count_le_one.mp h.joinedOnce _⟩
    by_cases ht : (p, t) ∈ s.woken
    · have henq : (p, t) ∈ s.enqueued := (h.accounted p t).mpr (.inr ht)
      rw [count_eq_one_of_mem h.wokenOnce ht, count_eq_one_of_mem h.joinedOnce henq]
    · rw [count_eq_zero_of_not_mem ht]
      exact Nat.zero_le _
  · intro t ht hexited
    have hnot : (p, t) ∉ s.woken := fun hw => hexited (h.wokenExited p t hw)
    obtain ⟨i, -, hti⟩ := ((h.accounted p t).mp ht).resolve_right hnot
    exact ⟨hnot, (h.members i t hti).1⟩
  intro t ht hexited hno
  apply count_eq_one_of_mem h.wokenOnce
  by_contra hnot
  obtain ⟨e, w, -, he, -, -⟩ := htoCome t ht hexited hnot
  exact hno e w he

/-- Threads 1 and 2 run on two CPUs, thread 3 on a third one; nobody waits. -/
def threeRunning : WaitRun where
  system :=
    { sched :=
        { threads := fun _ => ⟨0, .running, false, false, 0, 0, 0, 0⟩
          rqHead := 0
          rqTail := 0
          sleepHead := 0
          ticks := 0
          cpus := fun c => ⟨c.val + 1, 0, 0, c.val + 1, .running⟩
          freed := [] }
      procs := fun p => ⟨p, false, 0, 0, fun _ => ⟨false, .none, 0⟩⟩
      pipes := fun _ => ⟨false, false, false⟩ }
  doing _ := .outside
  enqueued := []
  woken := []

/-- Threads 1 and 2 wait for process 7. -/
def bothWaiting : WaitRun := (threeRunning.wait 0 7).wait 1 7

/-- Threads 1 and 2 wait for process 7, which thread 3 lets exit. -/
def bothWaited : WaitRun := ((threeRunning.wait 0 7).wait 1 7).exit 3 7 0

lemma bothWaited_reachable : Reachable waitStep WaitStart bothWaited := by
  have hstart : WaitStart threeRunning := ⟨fun _ => rfl, fun _ => rfl, rfl, rfl⟩
  let s1 := threeRunning.wait 0 7
  have h1 : waitStep threeRunning (.wait 0 7) s1 := ⟨⟨by decide, rfl⟩, .inl rfl, rfl⟩
  have h2 : waitStep s1 (.wait 1 7) (s1.wait 1 7) := ⟨⟨by decide, rfl⟩, .inl rfl, rfl⟩
  have h3 : waitStep (s1.wait 1 7) (.exit 3 7 0) bothWaited := ⟨⟨by decide, rfl⟩, rfl, rfl⟩
  exact ⟨threeRunning, _, hstart, .cons h1 (.cons h2 (.cons h3 (.nil _)))⟩

/-- The exit has both threads on its list. -/
theorem wait_safe_bothWaited : bothWaited.enqueued = [(7, 2), (7, 1)] ∧ bothWaited.doing 3 = .exiting 7 2 ∧
    bothWaited.waitNext 2 = 1 ∧ WaitSafe bothWaited 7 :=
  ⟨by decide, by decide, by decide, wait_safe_of_reachable bothWaited_reachable 7⟩

end AetherOS.Proc
