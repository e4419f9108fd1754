import AetherOS.Mutex
import AetherOS.StackRuns
import AetherOS.WaitRuns

/-!
# Interrupts and spin locks

System calls run with interrupts enabled: between any two instructions of `mutex_lock`,
`process_wait` and the functions of the scheduler the timer can interrupt them. Here every CPU
is at an instruction of these functions, and what an instruction does to a shared variable is
one step. `sched_tick` keeps where the thread was that it switches out, with the interrupt
flag in the frame on its stack, and goes on where the next thread was.
-/
namespace AetherOS.Intr
open Sched Runs LinkedList Function Option

/-- The spin lock of a mutex, `proc_wait_lock` and `rq_lock`. -/
inductive Lock where
  | mutex (m : ℕ)
  | procWait
  | rq
  deriving DecidableEq, Repr

/-- What `mutex_lock` and `process_wait` wait for. -/
inductive Site where
  | mutex (m : ℕ)
  | process (p : ℕ)
  deriving DecidableEq, Repr

def Site.lock : Site → Lock
  | .mutex m => .mutex m
  | .process _ => .procWait

/-- The next instruction. From `acquire` to `leave`: `mutex_lock` and `process_wait`. From
`unlock` on: `mutex_unlock`. From `exit` to `drain`: `process_mark_exited`. From `spin` to
`woken`: `sched_wake`, called for `w`, with the thread `n` to be woken after it. -/
inductive Place where
  | outside
  | acquire (k : Site)
  | test (k : Site)
  | link (k : Site)
  | push (k : Site)
  | mark (k : Site)
  | release (k : Site)
  | cli (k : Site)
  | yield (k : Site)
  | sti (k : Site)
  | take (k : Site)
  | leave (k : Site)
  | unlock (m : ℕ)
  | clear (m : ℕ)
  | unlocked (m w : ℕ)
  | exit (p : ℕ) (status : ℤ)
  | exited (p : ℕ) (status : ℤ)
  | drained (w : ℕ)
  | drain (w : ℕ)
  | spin (w n : ℕ)
  | wake (w n : ℕ)
  | wakeAdd (w n : ℕ)
  | woken (n : ℕ)
  | add (t : ℕ)
  | addQueue (t : ℕ)
  | added
  | sleep (ms : ℕ)
  | sleepQueue (ms : ℕ)
  | sleepRelease
  | sleepCli
  | sleepYield
  | sleepSti
  | dying
  deriving DecidableEq, Repr

/-- Where the handler of vector 0x20 is: not running, before it has `rq_lock`, with the lock, or
with the next thread chosen. -/
inductive Handler where
  | quiet
  | entered
  | locked
  | leaving
  deriving DecidableEq, Repr

/-- The interrupt flag, and the one in the frame of the interrupt that is handled. -/
structure IntrCpu where
  place : Place
  ints : Bool
  frame : Bool
  handler : Handler
  deriving DecidableEq, Repr

/-- The variables of the kernel, what each CPU executes, and where the threads were when they
were switched out, with their interrupt flags. -/
structure IntrRun where
  sched : State
  mutexes : ℕ → Sync.Mutex
  procs : ℕ → Proc.Process
  locks : Lock → Bool
  cpus : Fin maxCpus → IntrCpu
  saved : ℕ → Place × Bool
  created : List ℕ

namespace IntrRun

variable (s : IntrRun) (c : Fin maxCpus)

def current : ℕ := (s.sched.cpus c).current

def state (t : ℕ) : ThreadState := (s.sched.threads t).state

def editCpu (f : IntrCpu → IntrCpu) : IntrRun := { s with cpus := update s.cpus c (f (s.cpus c)) }

def goto (x : Place) : IntrRun := s.editCpu c fun y => { y with place := x }

def setInts (b : Bool) : IntrRun := s.editCpu c fun y => { y with ints := b }

/-- An interrupt gate: the flag goes to the frame and is cleared. -/
def interrupt : IntrRun := s.editCpu c fun y => { y with frame := y.ints, ints := false, handler := .entered }

/-- `none` while the lock is taken: the call spins. -/
def acquire (l : Lock) : Option IntrRun :=
  if s.locks l then none else some { s with locks := update s.locks l true }

def release (l : Lock) : IntrRun := { s with locks := update s.locks l false }

def edit (t : ℕ) (f : Thread → Thread) : IntrRun := { s with sched := s.sched.edit t f }

def editProc (p : ℕ) (f : Proc.Process → Proc.Process) : IntrRun :=
  { s with procs := update s.procs p (f (s.procs p)) }

def editMutex (m : ℕ) (f : Sync.Mutex → Sync.Mutex) : IntrRun :=
  { s with mutexes := update s.mutexes m (f (s.mutexes m)) }

def waits : Site → Bool
  | .mutex m => (s.mutexes m).locked
  | .process p => !(s.procs p).exited

def waiters : Site → ℕ
  | .mutex m => (s.mutexes m).waiters
  | .process p => (s.procs p).waitQueue

def setWaiters (t : ℕ) : Site → IntrRun
  | .mutex m => s.editMutex m fun x => { x with waiters := t }
  | .process p => s.editProc p fun x => { x with waitQueue := t }

/-- `mutex_lock` takes the mutex; `process_wait` has nothing to take. -/
def takeOver (t : ℕ) : Site → IntrRun
  | .mutex m => s.editMutex m fun x => { x with locked := true, owner := t }
  | .process _ => s

end IntrRun

/-- Where the thread goes on after the next instruction. -/
def IntrRun.nextPlace (s : IntrRun) (c : Fin maxCpus) : Place :=
  match (s.cpus c).place with
  | .outside => .outside
  | .acquire k => .test k
  | .test k => if s.waits k then .link k else .take k
  | .link k => .push k
  | .push k => .mark k
  | .mark k => .release k
  | .release k => .cli k
  | .cli k => .yield k
  | .yield k => .sti k
  | .sti k => .acquire k
  | .take k => .leave k
  | .leave _ => .outside
  | .unlock m => .clear m
  | .clear m => .unlocked m ((Sync.mutexUnlock (s.mutexes m) s.sched).1.getD 0)
  | .unlocked _ w => if w = 0 then .outside else .spin w 0
  | .exit p status => .exited p status
  | .exited p _ => .drained (s.procs p).waitQueue
  | .drained w => .drain w
  | .drain w => if w = 0 then .outside else .spin w (s.sched.threads w).waitNext
  | .spin w n => .wake w n
  | .wake w n => .wakeAdd w n
  | .wakeAdd _ n => .woken n
  | .woken n => .drain n
  | .add t => .addQueue t
  | .addQueue _ => .added
  | .added => .outside
  | .sleep ms => .sleepQueue ms
  | .sleepQueue _ => .sleepRelease
  | .sleepRelease => .sleepCli
  | .sleepCli => .sleepYield
  | .sleepYield => .sleepSti
  | .sleepSti => .outside
  | .dying => .dying

/-- What the next instruction does to the variables of the kernel; `none` while it spins, and
outside the functions. -/
def IntrRun.store (s : IntrRun) (c : Fin maxCpus) : Option IntrRun :=
  match (s.cpus c).place with
  | .outside => none
  | .acquire k => s.acquire k.lock
  | .link k => some (s.edit (s.current c) fun x => { x with waitNext := s.waiters k })
  | .push k => some (s.setWaiters (s.current c) k)
  | .mark _ => some (s.edit (s.current c) fun x => { x with state := .blocked })
  | .release k | .leave k => some (s.release k.lock)
  | .take k => some (s.takeOver (s.current c) k)
  | .unlock m => s.acquire (.mutex m)
  | .clear m =>
    let r := Sync.mutexUnlock (s.mutexes m) s.sched
    some { s with sched := r.2.2, mutexes := update s.mutexes m r.2.1 }
  | .unlocked m _ => some (s.release (.mutex m))
  | .exit _ _ => s.acquire .procWait
  | .exited p status =>
    some (s.editProc p fun x => { x with exitStatus := status, exited := true, waitQueue := 0 })
  | .drained _ => some (s.release .procWait)
  | .drain w => some (if w = 0 then s else s.edit w fun x => { x with waitNext := 0 })
  | .spin w _ => if (s.sched.threads w).onCpu then none else some s
  | .wake _ _ | .add _ | .sleep _ => s.acquire .rq
  | .wakeAdd w _ => some { s with sched := rqAdd (s.sched.edit w fun x => { x with state := .ready }) w }
  | .addQueue t => some { s with sched := rqAdd s.sched t }
  | .sleepQueue ms =>
    some { s with sched := { s.sched.edit (s.current c) (fallAsleep s.sched ms) with sleepHead := s.current c } }
  | .woken _ | .added | .sleepRelease => some (s.release .rq)
  | .test _ | .cli _ | .yield _ | .sti _ | .sleepCli | .sleepYield | .sleepSti | .dying => some s

/-- What the next instruction does to the CPU, which goes on at `x`: `cli` and `sti` set the flag,
`int 0x20` enters the handler. -/
def IntrCpu.execute (y : IntrCpu) (x : Place) : IntrCpu :=
  match y.place with
  | .cli _ | .sleepCli => { y with place := x, ints := false }
  | .sti _ | .sleepSti => { y with place := x, ints := true }
  | .yield _ | .sleepYield | .dying => { y with place := x, frame := y.ints, ints := false, handler := .entered }
  | _ => { y with place := x }

/-- One instruction of the thread that `c` runs. -/
def advance (s : IntrRun) (c : Fin maxCpus) : Option IntrRun :=
  (s.store c).map fun m => m.editCpu c fun y => y.execute (s.nextPlace c)

/-- The calls of the code outside, that of `thread_yield` and `thread_exit` among them. -/
inductive Call where
  | lock (m : ℕ)
  | unlock (m : ℕ)
  | wait (p : ℕ)
  | exited (p : ℕ) (status : ℤ)
  | add (t : ℕ)
  | sleep (ms : ℕ)
  | yield
  | exit
  deriving DecidableEq, Repr

def begin (s : IntrRun) (c : Fin maxCpus) : Call → IntrRun
  | .lock m => s.goto c (.acquire (.mutex m))
  | .unlock m => s.goto c (.unlock m)
  | .wait p => s.goto c (.acquire (.process p))
  | .exited p status => s.goto c (.exit p status)
  | .add t => s.goto c (.add t)
  | .sleep ms => s.goto c (.sleep ms)
  | .yield => s.interrupt c
  | .exit =>
    (s.edit (s.current c) fun x => { x with state := .dead }).editCpu c fun y =>
      { y with place := .dying, ints := false }

/-- `lockTick`, `tick` and `resume` are `sched_tick`: the acquisition of `rq_lock`, what is done
with the lock, and its release with the return from the interrupt. -/
inductive IntrAction where
  | call (c : Fin maxCpus) (f : Call)
  | run (c : Fin maxCpus)
  | timer (c : Fin maxCpus)
  | lockTick (c : Fin maxCpus)
  | tick (c : Fin maxCpus)
  | resume (c : Fin maxCpus)
  | cli (c : Fin maxCpus)
  | sti (c : Fin maxCpus)
  | create (t : ℕ)
  deriving DecidableEq, Repr

/-- The CPU executes its thread. -/
def IntrRun.Executes (s : IntrRun) (c : Fin maxCpus) : Prop := s.current c ≠ 0 ∧ (s.cpus c).handler = .quiet

instance (s : IntrRun) (c : Fin maxCpus) : Decidable (s.Executes c) := inferInstanceAs (Decidable (_ ∧ _))

/-- The code outside makes the calls with any interrupt flag; the idle loop makes none. The timer
interrupts only a CPU whose flag is set. -/
def intrPerform (fuel : ℕ) (s : IntrRun) : IntrAction → Option IntrRun
  | .call c f =>
    if s.Executes c ∧ (s.cpus c).place = .outside ∧ (s.sched.threads (s.current c)).isIdle = false then
      some (begin s c f)
    else none
  | .run c => if s.Executes c then advance s c else none
  | .timer c => if s.Executes c ∧ (s.cpus c).ints = true then some (s.interrupt c) else none
  | .lockTick c =>
    if (s.cpus c).handler = .entered then
      (s.acquire .rq).map fun s => s.editCpu c fun y => { y with handler := .locked }
    else none
  | .tick c =>
    if (s.cpus c).handler = .locked then
      (schedTick fuel s.sched c).map fun sched =>
        { s with
          sched := sched
          saved := update s.saved (s.current c) ((s.cpus c).place, (s.cpus c).frame) }.editCpu c
            fun y => { y with handler := .leaving }
    else none
  | .resume c =>
    if (s.cpus c).handler = .leaving then
      some ((s.release .rq).editCpu c fun y =>
        { y with place := (s.saved (s.current c)).1, ints := (s.saved (s.current c)).2, handler := .quiet })
    else none
  | .cli c => if s.Executes c ∧ (s.cpus c).place = .outside then some (s.setInts c false) else none
  | .sti c => if s.Executes c ∧ (s.cpus c).place = .outside then some (s.setInts c true) else none
  | .create t =>
    if t ≠ 0 ∧ t ∉ s.created then
      some { s with
        sched := threadCreateUser s.sched t
        saved := update s.saved t (.outside, true)
        created := t :: s.created }
    else none

def intrStep (s : IntrRun) (a : IntrAction) (s' : IntrRun) : Prop := ∃ fuel, intrPerform fuel s a = some s'

/-- No thread is inside one of the functions or blocked, and every CPU that was started runs a
thread and has an idle thread of its own. -/
structure Quiet (s : IntrRun) : Prop where
  place : ∀ c, (s.cpus c).place = .outside ∧ (s.cpus c).handler = .quiet
  saved : ∀ t, (s.saved t).1 = .outside
  state : ∀ t, s.state t ≠ .blocked
  started : ∀ c, s.current c ≠ 0 → (s.sched.cpus c).idle ≠ 0
  currents : ∀ c d, c ≠ d → s.current c ≠ 0 → s.current c ≠ s.current d ∧ s.current c ≠ (s.sched.cpus d).idle
  idles : ∀ c d, c ≠ d → (s.sched.cpus c).idle ≠ 0 → (s.sched.cpus c).idle ≠ (s.sched.cpus d).idle

/-- `mutex_lock` or `process_wait` holds its lock. -/
def Place.Holds : Place → Prop
  | .test _ | .link _ | .push _ | .mark _ | .release _ | .take _ | .leave _ => True
  | _ => False

/-- No thread that was switched out inside one of the critical sections is blocked. -/
def NoBlockedHolder (s : IntrRun) : Prop :=
  ∀ t, (∀ c, s.current c ≠ t) → (s.saved t).1.Holds → s.state t ≠ .blocked

/-- `sched_add`, `sched_wake` or `sched_sleep_ms` holds `rq_lock`. -/
def Place.HoldsRq : Place → Prop
  | .wakeAdd _ _ | .woken _ | .addQueue _ | .added | .sleepQueue _ | .sleepRelease => True
  | _ => False

/-- No `sched_tick` waits for the code that it interrupted. -/
def NoSelfWait (s : IntrRun) : Prop := ∀ c, (s.cpus c).handler = .entered → ¬(s.cpus c).place.HoldsRq

/-- What a tick of `c` may take from the queue or the sleep list does not belong to another CPU,
as the thread it runs or as its idle thread. -/
def TakesOwn (s : State) (c : Fin maxCpus) : Prop :=
  ∀ t, t ≠ 0 →
    (t = s.rqHead ∨ ∃ l, Links 0 (fun u => (s.threads u).sleepNext) s.sleepHead l t ∧ dueNext s t = true) →
    ∀ d, d ≠ c → t ≠ (s.cpus d).current ∧ t ≠ (s.cpus d).idle

/-- The timer does not fire between the marking as blocked and the release of the lock. -/
def OutsideMark (s : IntrRun) : IntrAction → Prop
  | .timer c => ∀ k, (s.cpus c).place ≠ .release k
  | .tick c => TakesOwn s.sched c
  | _ => True

/-- The next instruction calls `sched_wake`. -/
def Place.CallsWake : Place → Prop
  | .unlocked _ w | .drain w => w ≠ 0
  | _ => False

/-- `sched_add`, `sched_sleep_ms` and `sched_wake` are called with interrupts disabled. -/
def IntsOff (s : IntrRun) : IntrAction → Prop
  | .call c (.add _) | .call c (.sleep _) => (s.cpus c).ints = false
  | .run c => (s.cpus c).place.CallsWake → (s.cpus c).ints = false
  | _ => True

instance : DecidablePred Place.CallsWake := fun p => by
  cases p <;> (unfold Place.CallsWake; infer_instance)

instance (s : IntrRun) : DecidablePred (IntsOff s) := fun a => by
  unfold IntsOff
  split <;> infer_instance

/-! ## What a tick takes -/

section

variable {s s' : State} {c : Fin maxCpus}

lemma rqAdd_head (s : State) (t : ℕ) :
    (rqAdd s t).rqHead = (if s.rqTail ≠ 0 then s.rqHead else t) ∧ (rqAdd s t).rqTail = t := by
  refine ⟨?_, rfl⟩
  simp only [rqAdd]
  split
  next h => exact (if_pos h).symm
  next h => exact (if_neg h).symm

lemma edit_ready_blocked {t u : ℕ} {f : Thread → Thread} (hf : (f (s.threads t)).state ≠ .blocked)
    (h : ((s.edit t f).threads u).state = .blocked) : (s.threads u).state = .blocked ∧ u ≠ t := by
  revert h
  exact edit_cases u (fun h => absurd h hf) fun hu h => ⟨h, hu⟩

/-- The scan blocks nobody, and what it puts first in an empty queue is a sleeper that is due. -/
lemma wakeSleepers_frame (fuel : ℕ) : ∀ {s s' : State} {sp : Slot}, wakeSleepers fuel s sp = some s' →
    s'.cpus = s.cpus ∧ (∀ u, (s'.threads u).state = .blocked → (s.threads u).state = .blocked) ∧
      (s.rqTail ≠ 0 → s'.rqHead = s.rqHead) ∧
      (s'.rqHead = s.rqHead ∨ ∃ l t, Links 0 (fun u => (s.threads u).sleepNext) (s.readSlot sp) l t ∧ t ≠ 0 ∧
        due s t = true ∧ s'.rqHead = t) := by
  induction fuel with
  | zero =>
    intro s s' sp h
    cases h
  | succ fuel ih =>
    intro s s' sp h
    rw [wakeSleepers_succ] at h
    split at h
    · cases h
      exact ⟨rfl, fun _ => id, fun _ => rfl, .inl rfl⟩
    rename_i h0
    split at h
    next hdue =>
      obtain ⟨hhead0, htail0, -, hcpus0⟩ := unhook_frame s sp (s.readSlot sp)
      have hlinks := rqAdd_onlyRunLinks (unhook s sp (s.readSlot sp)) (s.readSlot sp)
      obtain ⟨hhead, htail⟩ := rqAdd_head (unhook s sp (s.readSlot sp)) (s.readSlot sp)
      obtain ⟨hcpus, hblocked, hkeep, -⟩ := ih h
      have hsame := hkeep (by rw [htail]; exact h0)
      refine ⟨hcpus.trans (hlinks.cpus.trans hcpus0), fun u hu => ?_, fun ht => ?_, ?_⟩
      · have hu' := hblocked u hu
        rw [hlinks.threads u, unhook_threads] at hu'
        exact (ite_eq_iff.mp hu').elim (fun hr => nomatch hr.2) And.right
      · rw [hsame, hhead, htail0, if_pos ht, hhead0]
      rw [hsame, hhead, hhead0]
      split
      · exact .inl rfl
      · exact .inr ⟨[], s.readSlot sp, rfl, h0, decide_eq_true hdue, rfl⟩
    · obtain ⟨hcpus, hblocked, hkeep, hhead⟩ := ih h
      refine ⟨hcpus, hblocked, hkeep, hhead.imp_right ?_⟩
      rintro ⟨l, t, hl, ht, hdue, he⟩
      exact ⟨s.readSlot sp :: l, t, ⟨rfl, h0, hl⟩, ht, hdue, he⟩

lemma requeue_blocks (s : State) (c : Fin maxCpus) (cur : ℕ) : SameCpus s (requeue s c cur) ∧
    (∀ u, ((requeue s c cur).threads u).state = .blocked → (s.threads u).state = .blocked) ∧
    ((requeue s c cur).rqHead = s.rqHead ∨ (requeue s c cur).rqHead = cur) := by
  unfold requeue
  split
  · have hlinks := rqAdd_onlyRunLinks (s.edit cur fun x => { x with state := .ready }) cur
    refine ⟨sameCpus_of_eq hlinks.cpus, fun u hu => ?_, ?_⟩
    · rw [hlinks.threads u] at hu
      exact (edit_ready_blocked (by simp) hu).1
    rw [(rqAdd_head _ cur).1]
    split
    · exact .inl rfl
    · exact .inr rfl
  · split
    · exact ⟨sameCpus_reapPending s c cur, fun _ => id, .inl rfl⟩
    · exact ⟨sameCpus_of_eq rfl, fun _ => id, .inl rfl⟩

lemma handOff_state (s : State) (c : Fin maxCpus) (cur n u : ℕ) :
    ((handOff s c cur n).threads u).state = if u = n then .running else (s.threads u).state := by
  rw [handOff_field s c cur n Thread.state u fun _ _ => rfl]
  exact edit_cases u (if_pos rfl).symm fun hu => (if_neg hu).symm

/-- A tick enters the interrupted thread again, the idle thread of its CPU, the first thread of
the run queue or a sleeper that is due, whatever the lists look like, and blocks nobody. -/
lemma schedTick_takes {fuel : ℕ} (h : schedTick fuel s c = some s') : ∃ n, (s'.cpus c).current = n ∧
    (∀ d, (s'.cpus d).idle = (s.cpus d).idle) ∧ (∀ d, d ≠ c → (s'.cpus d).current = (s.cpus d).current) ∧
    (∀ u, (s'.threads u).state = .blocked → (s.threads u).state = .blocked ∧ u ≠ n) ∧
    (n = (s.cpus c).current ∨ n = (s.cpus c).idle ∨ n ≠ 0 ∧ (n = s.rqHead ∨
      ∃ l, Links 0 (fun u => (s.threads u).sleepNext) s.sleepHead l n ∧ dueNext s n = true)) := by
  rw [schedTick_eq] at h
  obtain ⟨s1, hw, rfl⟩ := map_eq_some_iff.mp h
  obtain ⟨-, hhead0, -, hsleep0, -, hcpus0⟩ := reap_frame s c
  obtain ⟨hcpus1, hblocked1, -, hhead1⟩ := wakeSleepers_frame fuel hw
  obtain ⟨hcpus2, hblocked2, hhead2⟩ := requeue_blocks s1 c (s.cpus c).current
  generalize requeue s1 c (s.cpus c).current = s2 at *
  have henter : SameCpus s (enterTick s c) := hcpus0
  have hcpus : SameCpus s s2 := (henter.trans (sameCpus_of_eq hcpus1)).trans hcpus2
  have hblocked : ∀ u, (s2.threads u).state = .blocked → (s.threads u).state = .blocked := by
    intro u hu
    rw [← enterTick_field (c := c) Thread.state u fun _ _ => rfl]
    exact hblocked1 u (hblocked2 u hu)
  have hhead : s2.rqHead = s.rqHead ∨ s2.rqHead = (s.cpus c).current ∨
      ∃ l, Links 0 (fun u => (s.threads u).sleepNext) s.sleepHead l s2.rqHead ∧ dueNext s s2.rqHead = true := by
    rcases hhead2 with he | he
    · rw [he]
      rcases hhead1 with he1 | ⟨l, t, hl, -, hdue, he1⟩
      · exact .inl (he1.trans hhead0)
      refine .inr (.inr ⟨l, ?_, ?_⟩)
      · rw [he1, ← hsleep0]
        exact hl.congr fun u _ => (enterTick_field Thread.sleepNext u fun _ _ => rfl).symm
      · rw [he1, ← enterTick_due (c := c)]
        exact hdue
    · exact .inr (.inl he)
  have hlinks := rqTake_onlyRunLinks s2
  refine ⟨(pickNext s2 c).1, ?_, fun d => ?_, fun d hd => ?_, fun u hu => ?_, ?_⟩
  · rw [handOff_cpus, editCpu_self]
  · rw [handOff_cpus]
    have hidle : ∀ e, ((pickNext s2 c).2.cpus e).idle = (s.cpus e).idle := by
      intro e
      rw [← (hcpus e).idle]
      exact congrArg (fun f => (f e).idle) hlinks.cpus
    exact editCpu_cases d (hidle c) fun _ => hidle d
  · rw [handOff_cpus, editCpu_of_ne _ _ _ hd, ← (hcpus d).current]
    exact congrArg (fun f => (f d).current) hlinks.cpus
  · rw [handOff_state] at hu
    split at hu
    · cases hu
    rename_i hne
    have hu2 : (s2.threads u).state = .blocked := by
      have hsame := hlinks.threads u
      change ((rqTake s2).2.threads u).state = .blocked at hu
      rw [hsame] at hu
      exact hu
    exact ⟨hblocked u hu2, hne⟩
  simp only [pickNext, rqTake_fst]
  split
  · exact .inr (.inl (hcpus c).idle)
  next h0 =>
    rcases hhead with he | he | hdue
    · exact .inr (.inr ⟨h0, .inl he⟩)
    · exact .inl he
    · exact .inr (.inr ⟨h0, .inr hdue⟩)

end

/-! ## What an instruction does -/

/-- Between the marking as blocked and the return from the interrupt that the thread makes. -/
def Place.Parking : Place → Prop
  | .release _ | .cli _ | .yield _ | .sti _ | .sleepRelease | .sleepCli | .sleepYield | .sleepSti => True
  | _ => False

/-- The thread has made its interrupt. -/
def Place.Awake : Place → Prop
  | .sti _ | .sleepSti => True
  | _ => False

/-- A CPU whose thread is blocked: it has not got beyond its own interrupt. -/
structure Parked (y : IntrCpu) : Prop where
  handler : y.handler ≠ .leaving
  place : y.place.Parking
  awake : y.place.Awake → y.handler ≠ .quiet

/-- In `sched_add`, `sched_wake` or `sched_sleep_ms`, up to the release of `rq_lock`. -/
def Place.InSection : Place → Prop
  | .spin _ _ | .wake _ _ | .wakeAdd _ _ | .woken _ | .add _ | .addQueue _ | .added | .sleep _ | .sleepQueue _
  | .sleepRelease => True
  | _ => False

lemma Place.HoldsRq.inSection {x : Place} (h : x.HoldsRq) : x.InSection := by
  cases x <;> first | exact h | exact trivial

/-- The next instruction marks the thread as blocked. -/
def Place.Marks : Place → Prop
  | .mark _ | .sleepQueue _ => True
  | _ => False

/-- From `s` to `m` the variables of the kernel change as by an instruction of `c`: only its own
thread may become blocked. -/
structure Stored (c : Fin maxCpus) (s m : IntrRun) : Prop where
  cpus : m.cpus = s.cpus
  saved : m.saved = s.saved
  sched : m.sched.cpus = s.sched.cpus
  state : ∀ t, m.state t = .blocked → s.state t = .blocked ∨ t = s.current c ∧ (s.cpus c).place.Marks

section

variable {s s' m : IntrRun} {c : Fin maxCpus} {f : Thread → Thread}

@[simp] lemma editCpu_cpus_self (s : IntrRun) (c : Fin maxCpus) (f : IntrCpu → IntrCpu) :
    (s.editCpu c f).cpus c = f (s.cpus c) := update_self ..

lemma editCpu_cpus_of_ne (s : IntrRun) {d : Fin maxCpus} (f : IntrCpu → IntrCpu) (h : d ≠ c) :
    (s.editCpu c f).cpus d = s.cpus d := update_of_ne h ..

lemma Stored.refl (s : IntrRun) : Stored c s s := ⟨rfl, rfl, rfl, fun _ => .inl⟩

lemma Stored.acquire {l : Lock} (h : s.acquire l = some m) : Stored c s m := by
  unfold IntrRun.acquire at h
  split at h
  · cases h
  · cases h
    exact ⟨rfl, rfl, rfl, fun _ => .inl⟩

lemma Stored.release (l : Lock) : Stored c s (s.release l) := ⟨rfl, rfl, rfl, fun _ => .inl⟩

lemma Stored.edit {t : ℕ} (hf : (f (s.sched.threads t)).state = .blocked → s.state t = .blocked) :
    Stored c s (s.edit t f) := by
  refine ⟨rfl, rfl, rfl, fun u => ?_⟩
  change ((s.sched.edit t f).threads u).state = .blocked → _
  exact edit_cases u (fun hu => .inl (hf hu)) fun _ => .inl

lemma Stored.rqAdd (h : Stored c s m) (t : ℕ) : Stored c s { m with sched := rqAdd m.sched t } := by
  have hlinks := rqAdd_onlyRunLinks m.sched t
  refine ⟨h.cpus, h.saved, hlinks.cpus.trans h.sched, fun u hu => h.state u ?_⟩
  change ((Sched.rqAdd m.sched t).threads u).state = .blocked at hu
  rw [hlinks.threads u] at hu
  exact hu

lemma Stored.mark (hp : (s.cpus c).place.Marks) (head : ℕ) :
    Stored c s { s with sched := { s.sched.edit (s.current c) f with sleepHead := head } } := by
  refine ⟨rfl, rfl, rfl, fun u => ?_⟩
  change ((s.sched.edit (s.current c) f).threads u).state = .blocked → _
  exact edit_cases u (fun _ => .inr ⟨rfl, hp⟩) fun _ => .inl

lemma Stored.unlock (mutex : ℕ → Sync.Mutex) (m : Sync.Mutex) :
    Stored c s { s with sched := (Sync.mutexUnlock m s.sched).2.2, mutexes := mutex } := by
  simp only [Sync.mutexUnlock]
  split
  · have hedit := Stored.edit (s := s) (c := c) (t := m.waiters) (f := fun x => { x with waitNext := 0 }) id
    exact { hedit with }
  · exact ⟨rfl, rfl, rfl, fun _ => .inl⟩

/-- What the instructions store. -/
theorem store_spec (h : s.store c = some m) : Stored c s m := by
  unfold IntrRun.store at h
  split at h
  case h_1 => cases h
  case h_2 | h_9 | h_12 | h_17 | h_18 | h_19 => exact .acquire h
  case h_3 => exact some.inj h ▸ .edit id
  case h_4 k _ | h_8 k _ =>
    cases h
    cases k <;> exact ⟨rfl, rfl, rfl, fun _ => .inl⟩
  case h_5 k hp =>
    cases h
    exact Stored.mark (f := fun x => { x with state := .blocked }) (by rw [hp]; trivial) s.sched.sleepHead
  case h_6 | h_7 | h_11 | h_14 | h_23 | h_24 | h_25 => exact some.inj h ▸ .release _
  case h_10 => exact some.inj h ▸ .unlock _ _
  case h_13 => exact some.inj h ▸ ⟨rfl, rfl, rfl, fun _ => .inl⟩
  case h_15 =>
    cases h
    split
    · exact .refl s
    · exact .edit id
  case h_16 =>
    split at h
    · cases h
    · exact some.inj h ▸ .refl s
  case h_20 w _ _ =>
    cases h
    exact (Stored.edit (t := w) (f := fun x => { x with state := .ready }) nofun).rqAdd w
  case h_21 t _ =>
    cases h
    exact (Stored.refl s).rqAdd t
  case h_22 ms hp =>
    cases h
    exact Stored.mark (by rw [hp]; trivial) _
  all_goals exact some.inj h ▸ .refl s

lemma editCpu_cpus (h : m.cpus = s.cpus) (y : IntrCpu) : (m.editCpu c fun _ => y).cpus = update s.cpus c y := by
  rw [← h]
  rfl

lemma Stored.editCpu_eq (hst : Stored c s m) (f : IntrCpu → IntrCpu) :
    m.editCpu c f = m.editCpu c fun _ => f (s.cpus c) := by
  rw [← hst.cpus]
  rfl

lemma not_handling {y : IntrCpu} (h : y.handler = .quiet ∨ y.handler = .leaving) :
    ¬(y.handler = .entered ∨ y.handler = .locked) := by
  rintro (hin | hin)
  · rw [hin] at h
    exact h.elim nofun nofun
  · rw [hin] at h
    exact h.elim nofun nofun

section

variable (hq : (s.cpus c).handler = .quiet)
include hq

lemma execute_parked (hp : (s.cpus c).place.Marks ∨ (s.cpus c).place.Parking ∧ ¬(s.cpus c).place.Awake) :
    Parked ((s.cpus c).execute (s.nextPlace c)) := by
  have hleaving : (s.cpus c).handler ≠ .leaving := by
    rw [hq]
    exact nofun
  cases hx : (s.cpus c).place <;> rw [hx] at hp <;> simp only [IntrRun.nextPlace, IntrCpu.execute, hx]
  all_goals first
    | exact (hp.elim False.elim fun h => h.2 trivial).elim
    | exact (hp.elim False.elim fun h => h.1).elim
    | exact ⟨hleaving, trivial, False.elim⟩
    | exact ⟨nofun, trivial, fun _ => nofun⟩

/-- The interrupts that threads make are not between the marking and the release of the lock. -/
lemma execute_release (hin : ((s.cpus c).execute (s.nextPlace c)).handler ≠ .quiet) (k : Site) :
    ((s.cpus c).execute (s.nextPlace c)).place ≠ .release k := by
  cases hx : (s.cpus c).place <;> simp only [IntrRun.nextPlace, IntrCpu.execute, hx] at hin ⊢
  all_goals first
    | exact absurd hq hin
    | exact nofun

/-- The scheduler's sections are entered by calls only, and interrupts stay as they are in them. -/
lemma execute_section (hoff : (s.cpus c).place.InSection ∨ (s.cpus c).place.CallsWake → (s.cpus c).ints = false) :
    (((s.cpus c).execute (s.nextPlace c)).handler = .quiet →
      ((s.cpus c).execute (s.nextPlace c)).place.InSection → ((s.cpus c).execute (s.nextPlace c)).ints = false) ∧
    (((s.cpus c).execute (s.nextPlace c)).handler ≠ .quiet →
      ¬((s.cpus c).execute (s.nextPlace c)).place.InSection) := by
  cases hx : (s.cpus c).place <;> rw [hx] at hoff <;> simp only [IntrRun.nextPlace, IntrCpu.execute, hx]
  all_goals first
    | exact ⟨fun _ => False.elim, fun _ => id⟩
    | exact ⟨fun _ _ => hoff (.inl trivial), fun hin => absurd hq hin⟩
    | skip
  case test k => split <;> exact ⟨fun _ => False.elim, fun _ => id⟩
  case unlocked w | drain w =>
    split
    · exact ⟨fun _ => False.elim, fun _ => id⟩
    next h0 => exact ⟨fun _ _ => hoff (.inr h0), fun hin => absurd hq hin⟩

end

lemma Place.release_of_parking {x : Place} (hh : x.Holds) (hp : x.Parking) : ∃ k, x = .release k := by
  cases x <;> first | cases hh; done | cases hp; done | exact ⟨_, rfl⟩

end

/-! ## Blocked threads inside the critical sections -/

/-- A CPU has threads of its own. A thread that is blocked is on its way to the interrupt it
makes, and was not interrupted before the release of the lock. -/
structure HolderInv (s : IntrRun) : Prop where
  started : ∀ c, s.current c ≠ 0 → (s.sched.cpus c).idle ≠ 0
  currents : ∀ c d, c ≠ d → s.current c ≠ 0 → s.current c ≠ s.current d ∧ s.current c ≠ (s.sched.cpus d).idle
  idles : ∀ c d, c ≠ d → (s.sched.cpus c).idle ≠ 0 → (s.sched.cpus c).idle ≠ (s.sched.cpus d).idle
  online : ∀ c, (s.cpus c).handler ≠ .quiet → s.current c ≠ 0
  parked : ∀ c, s.current c ≠ 0 → s.state (s.current c) = .blocked → Parked (s.cpus c)
  handling : ∀ c, (s.cpus c).handler = .entered ∨ (s.cpus c).handler = .locked → ∀ k, (s.cpus c).place ≠ .release k
  switched : NoBlockedHolder s

namespace HolderInv

variable {s s' m : IntrRun} {c : Fin maxCpus}

lemma init (h : Quiet s) : HolderInv s := by
  refine ⟨h.started, h.currents, h.idles, fun c hc => absurd (h.place c).2 hc,
    fun c _ hb => absurd hb (h.state _), fun c _ k hp => ?_, fun t _ _ => h.state t⟩
  rw [(h.place c).1] at hp
  cases hp

section

variable (h : HolderInv s)
include h

lemma own (hst : Stored c s m) {y : IntrCpu} (hown : s.current c ≠ 0 → m.state (s.current c) = .blocked → Parked y)
    (honline : y.handler ≠ .quiet → s.current c ≠ 0)
    (hhandling : y.handler = .entered ∨ y.handler = .locked → ∀ k, y.place ≠ .release k) :
    HolderInv (m.editCpu c fun _ => y) := by
  have hcur : ∀ d, (m.editCpu c fun _ => y).current d = s.current d :=
    fun d => congrArg (fun f => (f d).current) hst.sched
  have hidle : ∀ d, ((m.editCpu c fun _ => y).sched.cpus d).idle = (s.sched.cpus d).idle :=
    fun d => congrArg (fun f => (f d).idle) hst.sched
  have hstate : ∀ u, u ≠ s.current c → m.state u = .blocked → s.state u = .blocked :=
    fun u hu hb => (hst.state u hb).resolve_right fun hc => hu hc.1
  refine ⟨fun d => ?_, fun d e hde => ?_, fun d e hde => ?_, fun d => ?_, fun d => ?_, fun d => ?_, fun u hu hh => ?_⟩
  · rw [hcur d, hidle d]
    exact h.started d
  · rw [hcur d, hcur e, hidle e]
    exact h.currents d e hde
  · rw [hidle d, hidle e]
    exact h.idles d e hde
  · rw [hcur d, editCpu_cpus hst.cpus]
    exact update_cases d honline fun _ => h.online d
  · rw [hcur d, editCpu_cpus hst.cpus]
    refine update_cases d hown fun hdc h0 hb => ?_
    exact h.parked d h0 (hstate _ (h.currents d c hdc h0).1 hb)
  · rw [editCpu_cpus hst.cpus]
    exact update_cases d hhandling fun _ => h.handling d
  have hnot : ∀ d, s.current d ≠ u := fun d => hcur d ▸ hu d
  change (m.saved u).1.Holds at hh
  rw [hst.saved] at hh
  intro hb
  exact h.switched u hnot hh (hstate u (fun he => hnot c he.symm) hb)

lemma not_blocked (h0 : s.current c ≠ 0) (hp : (s.cpus c).place = .outside) : s.state (s.current c) ≠ .blocked := by
  intro hb
  have hpark := (h.parked c h0 hb).place
  rw [hp] at hpark
  exact hpark

lemma call (hc : s.Executes c) (hp : (s.cpus c).place = .outside) (f : Call) : HolderInv (begin s c f) := by
  have hnot := h.not_blocked hc.1 hp
  have hgoto : ∀ x, HolderInv (s.goto c x) := fun x =>
    h.own (Stored.refl s) (fun _ hb => absurd hb hnot) (fun hq => absurd hc.2 hq)
      fun hin => absurd hin (not_handling (.inl hc.2))
  cases f with
  | lock m | unlock m | wait p | exited p status | add t | sleep ms => exact hgoto _
  | yield =>
    refine h.own (Stored.refl s) (fun _ hb => absurd hb hnot) (fun _ => hc.1) fun _ k hr => ?_
    exact absurd (hp.symm.trans hr) nofun
  | exit =>
    refine h.own (Stored.edit (t := s.current c) (f := fun x => { x with state := .dead }) nofun) (fun _ hb => ?_)
      (fun hq => absurd hc.2 hq) fun _ k => nofun
    change ((s.sched.edit (s.current c) fun x => { x with state := .dead }).threads (s.current c)).state =
      .blocked at hb
    rw [edit_self] at hb
    cases hb

lemma run (hc : s.Executes c) (hs : advance s c = some s') : HolderInv s' := by
  obtain ⟨m, hm, rfl⟩ := map_eq_some_iff.mp hs
  have hst := store_spec hm
  rw [hst.editCpu_eq]
  refine h.own hst (fun _ hb => execute_parked hc.2 ?_) (fun _ => hc.1) fun hin k => execute_release hc.2 ?_ k
  · rcases hst.state _ hb with hold | ⟨-, hmarks⟩
    · have hpark := h.parked c hc.1 hold
      exact .inr ⟨hpark.place, fun ha => hpark.awake ha hc.2⟩
    · exact .inl hmarks
  · exact fun hq => not_handling (.inl hq) hin

lemma timer (hc : s.Executes c) (hout : ∀ k, (s.cpus c).place ≠ .release k) : HolderInv (s.interrupt c) := by
  refine h.own (Stored.refl s) (fun h0 hb => ?_) (fun _ => hc.1) fun _ => hout
  have hpark := h.parked c h0 hb
  exact ⟨nofun, hpark.place, fun _ => nofun⟩

lemma lockTick (hin : (s.cpus c).handler = .entered) (hs : s.acquire .rq = some m) :
    HolderInv (m.editCpu c fun y => { y with handler := .locked }) := by
  have hst : Stored c s m := .acquire hs
  rw [hst.editCpu_eq]
  refine h.own hst (fun h0 hb => ?_) (fun _ => h.online c (by rw [hin]; exact nofun)) fun _ =>
    h.handling c (.inl hin)
  have hb' : s.state (s.current c) = .blocked := by
    unfold IntrRun.acquire at hs
    split at hs
    · cases hs
    · cases hs
      exact hb
  exact ⟨nofun, (h.parked c h0 hb').place, fun _ => nofun⟩

lemma resume (hin : (s.cpus c).handler = .leaving) :
    HolderInv ((s.release .rq).editCpu c fun y =>
      { y with place := (s.saved (s.current c)).1, ints := (s.saved (s.current c)).2, handler := .quiet }) := by
  refine h.own (Stored.release .rq) (fun h0 hb => ?_) (fun hq => absurd rfl hq) fun hin' => ?_
  · exact absurd hin (h.parked c h0 hb).handler
  · exact absurd hin' (not_handling (.inl rfl))

/-- The tick switches out a thread that is not blocked inside its critical section. -/
lemma tick (hin : (s.cpus c).handler = .locked) (hown : TakesOwn s.sched c) {fuel : ℕ} {sched : State}
    (hs : schedTick fuel s.sched c = some sched) :
    HolderInv ({ s with
      sched := sched
      saved := update s.saved (s.current c) ((s.cpus c).place, (s.cpus c).frame) }.editCpu c
        fun y => { y with handler := .leaving }) := by
  obtain ⟨n, hn, hidle, hcur, hstate, hfrom⟩ := schedTick_takes hs
  have h0 := h.online c (by rw [hin]; exact nofun)
  have hn0 : n ≠ 0 := by
    rcases hfrom with rfl | rfl | ⟨hn0, -⟩
    · exact h0
    · exact h.started c h0
    · exact hn0
  -- the next thread belongs to no other CPU
  have hfree : ∀ d, d ≠ c → n ≠ s.current d ∧ n ≠ (s.sched.cpus d).idle := by
    intro d hd
    rcases hfrom with rfl | rfl | ⟨-, hline⟩
    · exact h.currents c d hd.symm h0
    · refine ⟨fun he => ?_, h.idles c d hd.symm (h.started c h0)⟩
      have hd0 : s.current d ≠ 0 := he ▸ h.started c h0
      exact (h.currents d c hd hd0).2 he.symm
    · exact hown n hn0 hline d hd
  have hnow : ∀ d, (sched.cpus d).current = if d = c then n else s.current d := by
    intro d
    by_cases hd : d = c
    · rw [if_pos hd, hd]
      exact hn
    · rw [if_neg hd]
      exact hcur d hd
  refine ⟨fun d hd => ?_, fun d e hde hd => ?_, fun d e hde => ?_, fun d hd => ?_, fun d hd hb => ?_, fun d hd => ?_,
    fun u hu hh hb => ?_⟩
  · change (sched.cpus d).idle ≠ 0
    change (sched.cpus d).current ≠ 0 at hd
    rw [hidle d]
    rw [hnow d] at hd
    split at hd
    next hdc =>
      rw [hdc]
      exact h.started c h0
    · exact h.started d hd
  · change (sched.cpus d).current ≠ 0 at hd
    change (sched.cpus d).current ≠ (sched.cpus e).current ∧ (sched.cpus d).current ≠ (sched.cpus e).idle
    rw [hnow d] at hd
    rw [hidle e, hnow d, hnow e]
    by_cases hdc : d = c
    · have hec : e ≠ c := fun he => hde (hdc.trans he.symm)
      rw [if_pos hdc, if_neg hec]
      exact hfree e hec
    rw [if_neg hdc] at hd ⊢
    by_cases hec : e = c
    · rw [if_pos hec, hec]
      exact ⟨fun he => (hfree d hdc).1 he.symm, (h.currents d c hdc hd).2⟩
    · rw [if_neg hec]
      exact h.currents d e hde hd
  · change (sched.cpus d).idle ≠ 0 → (sched.cpus d).idle ≠ (sched.cpus e).idle
    rw [hidle d, hidle e]
    exact h.idles d e hde
  · change (sched.cpus d).current ≠ 0
    rw [hnow d]
    by_cases hdc : d = c
    · rw [if_pos hdc]
      exact hn0
    rw [editCpu_cpus_of_ne _ _ hdc] at hd
    rw [if_neg hdc]
    exact h.online d hd
  · change (sched.cpus d).current ≠ 0 at hd
    change (sched.threads (sched.cpus d).current).state = .blocked at hb
    obtain ⟨hold, hne⟩ := hstate _ hb
    by_cases hdc : d = c
    · exact absurd (hnow d ▸ if_pos hdc) hne
    rw [hnow d, if_neg hdc] at hd hold
    rw [editCpu_cpus_of_ne _ _ hdc]
    exact h.parked d hd hold
  · by_cases hdc : d = c
    · subst hdc
      rw [editCpu_cpus_self] at hd
      exact absurd hd (not_handling (.inr rfl))
    · rw [editCpu_cpus_of_ne _ _ hdc] at hd ⊢
      exact h.handling d hd
  obtain ⟨hold, hne⟩ := hstate u hb
  change (update s.saved (s.current c) ((s.cpus c).place, (s.cpus c).frame) u).1.Holds at hh
  by_cases huc : u = s.current c
  · subst huc
    rw [update_self] at hh
    obtain ⟨k, hk⟩ := Place.release_of_parking hh (h.parked c h0 hold).place
    exact h.handling c (.inr hin) k hk
  rw [update_of_ne huc] at hh
  refine h.switched u (fun d hd => ?_) hh hold
  by_cases hdc : d = c
  · exact huc (hdc ▸ hd.symm)
  have hud := hu d
  change (sched.cpus d).current ≠ u at hud
  rw [hnow d, if_neg hdc] at hud
  exact hud hd

lemma create (t : ℕ) (l : List ℕ) :
    HolderInv { s with
      sched := threadCreateUser s.sched t
      saved := update s.saved t (.outside, true)
      created := l } := by
  have hstate : ∀ u, ((threadCreateUser s.sched t).threads u).state = .blocked → s.state u = .blocked :=
    fun u hu => (edit_ready_blocked (by simp) hu).1
  refine { h with parked := fun c h0 hb => h.parked c h0 (hstate _ hb), switched := fun u hu => ?_ }
  change (update s.saved t (.outside, true) u).1.Holds → _
  exact update_cases u False.elim fun _ hh hb => h.switched u hu hh (hstate u hb)

/-- One step whose condition is met. -/
theorem step {a : IntrAction} (hs : intrStep s a s') (hout : OutsideMark s a) : HolderInv s' := by
  obtain ⟨fuel, hs⟩ := hs
  cases a with
  | call c f =>
    obtain ⟨⟨hc, hp, -⟩, hs⟩ := ite_none_right_eq_some.mp hs
    cases hs
    exact h.call hc hp f
  | run c =>
    obtain ⟨hc, hs⟩ := ite_none_right_eq_some.mp hs
    exact h.run hc hs
  | timer c =>
    obtain ⟨⟨hc, -⟩, hs⟩ := ite_none_right_eq_some.mp hs
    cases hs
    exact h.timer hc hout
  | lockTick c =>
    obtain ⟨hin, hs⟩ := ite_none_right_eq_some.mp hs
    obtain ⟨m, hm, rfl⟩ := map_eq_some_iff.mp hs
    exact h.lockTick hin hm
  | tick c =>
    obtain ⟨hin, hs⟩ := ite_none_right_eq_some.mp hs
    obtain ⟨sched, hsched, rfl⟩ := map_eq_some_iff.mp hs
    exact h.tick hin hout hsched
  | resume c =>
    obtain ⟨hin, hs⟩ := ite_none_right_eq_some.mp hs
    cases hs
    exact h.resume hin
  | cli c | sti c =>
    obtain ⟨⟨hc, hp⟩, hs⟩ := ite_none_right_eq_some.mp hs
    cases hs
    exact h.own (Stored.refl s) (fun h0 hb => absurd hb (h.not_blocked h0 hp)) (fun _ => hc.1) (h.handling c)
  | create t =>
    obtain ⟨-, hs⟩ := ite_none_right_eq_some.mp hs
    cases hs
    exact h.create t _

end

end HolderInv

/-- In every run in which the timer does not fire between the marking of a thread as blocked and
the release of the lock, and no tick takes a thread of another CPU: no thread is switched out as
blocked while it holds the lock of `mutex_lock` or `process_wait`. -/
theorem noBlockedHolder_of_outsideMark {s : IntrRun}
    (hr : Reachable (fun s a s' => intrStep s a s' ∧ OutsideMark s a) Quiet s) : NoBlockedHolder s :=
  (hr.invariant (fun _ h => HolderInv.init h) fun _ _ _ h hs => h.step hs.1 hs.2).switched

/-- The two CPUs after boot with thread 4 in the run queue. Thread 4 holds mutex 0. -/
def threadQueued : IntrRun where
  sched := { twoCpusUp.sched with rqHead := 4, rqTail := 4 }
  mutexes m := if m = 0 then ⟨true, 4, 0⟩ else ⟨false, 0, 0⟩
  procs _ := ⟨4, false, 0, 0, fun _ => ⟨false, .none, 0⟩⟩
  locks _ := false
  cpus _ := ⟨.outside, true, true, .quiet⟩
  saved _ := (.outside, true)
  created := [1, 2, 3, 4]

lemma quiet_threadQueued : Quiet threadQueued := by
  refine ⟨fun _ => ⟨rfl, rfl⟩, fun _ => rfl, fun t => ?_, by decide +kernel, by decide +kernel, by decide +kernel⟩
  change (if t = 1 ∨ t = 2 ∨ t = 3 then ThreadState.running else .ready) ≠ .blocked
  split <;> exact nofun

lemma takesOwn_of_head {s : State} {c : Fin maxCpus} (hsleep : s.sleepHead = 0)
    (hhead : ∀ d, d ≠ c → s.rqHead ≠ (s.cpus d).current ∧ s.rqHead ≠ (s.cpus d).idle) : TakesOwn s c := by
  rintro t h0 (rfl | ⟨l, hl, -⟩)
  · exact hhead
  rw [hsleep] at hl
  cases l with
  | nil => exact absurd hl.symm h0
  | cons u l => exact absurd hl.1.symm hl.2.1

/-- Thread 1 is interrupted in `process_wait` before it is marked, and thread 4 is next. -/
theorem noBlockedHolder_preempted : ∃ s,
    Reachable (fun s a s' => intrStep s a s' ∧ OutsideMark s a) Quiet s ∧ (s.saved 1).1 = .link (.process 5) ∧
      s.current 0 = 4 ∧ NoBlockedHolder s := by
  have h1 : (runSteps (intrPerform 1) threadQueued [.call 0 (.wait 5), .run 0, .run 0]).isSome = true := by
    decide +kernel
  have h2 : (intrPerform 1 (Option.get _ h1) (.timer 0)).isSome = true := by decide +kernel +revert
  have h3 : (intrPerform 1 (Option.get _ h2) (.lockTick 0)).isSome = true := by decide +kernel +revert
  have h4 : (intrPerform 1 (Option.get _ h3) (.tick 0)).isSome = true := by decide +kernel +revert
  have hplace : ((Option.get _ h1).cpus 0).place = .link (.process 5) := by decide +kernel +revert
  have hsleep : (Option.get _ h3).sched.sleepHead = 0 := by decide +kernel +revert
  have hhead : ∀ d, d ≠ 0 → (Option.get _ h3).sched.rqHead ≠ ((Option.get _ h3).sched.cpus d).current ∧
      (Option.get _ h3).sched.rqHead ≠ ((Option.get _ h3).sched.cpus d).idle := by decide +kernel +revert
  have hend : ((Option.get _ h4).saved 1).1 = .link (.process 5) ∧ (Option.get _ h4).current 0 = 4 := by
    decide +kernel +revert
  have hr1 : Run (fun s a s' => intrStep s a s' ∧ OutsideMark s a) threadQueued
      [.call 0 (.wait 5), .run 0, .run 0] (Option.get _ h1) := by
    refine .of_runSteps (fun s a ha t ht => ⟨⟨1, ht⟩, ?_⟩) (some_get h1).symm
    rcases List.mem_cons.mp ha with rfl | ha
    · trivial
    · obtain rfl : a = .run 0 := by simpa using ha
      trivial
  have hrun := hr1.append (.cons ⟨⟨1, (some_get h2).symm⟩, fun k hk => by simp [hplace] at hk⟩
    (.cons ⟨⟨1, (some_get h3).symm⟩, trivial⟩
      (.cons ⟨⟨1, (some_get h4).symm⟩, takesOwn_of_head hsleep hhead⟩ (.nil _))))
  have hr : Reachable (fun s a s' => intrStep s a s' ∧ OutsideMark s a) Quiet (Option.get _ h4) :=
    ⟨threadQueued, _, quiet_threadQueued, hrun⟩
  exact ⟨_, hr, hend.1, hend.2, noBlockedHolder_of_outsideMark hr⟩

/-- Thread 1 calls `f` on CPU 0, and the timer fires after its fifth instruction. -/
def timerAfterMark (f : Call) : List IntrAction :=
  [.call 0 f, .run 0, .run 0, .run 0, .run 0, .run 0, .timer 0, .lockTick 0, .tick 0]

/-- A thread that is switched out before the release, as blocked, still holds the lock. -/
lemma blockedHolder_of_timerAfterMark {f : Call} {k : Site}
    (hend : (runSteps (intrPerform 1) threadQueued (timerAfterMark f)).map
      (fun s => (decide (∀ c, s.current c ≠ 1), s.state 1, (s.saved 1).1)) = some (true, .blocked, .release k)) :
    ∃ s, Reachable intrStep Quiet s ∧ (s.saved 1).1 = .release k ∧ ¬NoBlockedHolder s := by
  obtain ⟨s, hs, hend⟩ := map_eq_some_iff.mp hend
  simp only [Prod.mk.injEq, decide_eq_true_eq] at hend
  obtain ⟨hcur, hstate, hsaved⟩ := hend
  have hrun : Run intrStep threadQueued (timerAfterMark f) s := .of_runSteps (fun _ _ _ _ ht => ⟨1, ht⟩) hs
  refine ⟨s, ⟨threadQueued, _, quiet_threadQueued, hrun⟩, hsaved, fun hno => ?_⟩
  exact hno 1 hcur (by rw [hsaved]; trivial) hstate

/-- The timer fires after the marking, in `mutex_lock` and in `process_wait`: the thread is
switched out as blocked, with the lock. -/
theorem blocked_holder_switched_out :
    (∃ s, Reachable intrStep Quiet s ∧ (s.saved 1).1 = .release (.mutex 0) ∧ ¬NoBlockedHolder s) ∧
      ∃ s, Reachable intrStep Quiet s ∧ (s.saved 1).1 = .release (.process 5) ∧ ¬NoBlockedHolder s := by
  constructor
  · exact blockedHolder_of_timerAfterMark (f := .lock 0) (by decide +kernel)
  · exact blockedHolder_of_timerAfterMark (f := .wait 5) (by decide +kernel)

/-! ## Waiting for the interrupted code -/

/-- The sections on `rq_lock` run with interrupts disabled, and no thread is switched out there. -/
structure SectionInv (s : IntrRun) : Prop where
  running : ∀ c, (s.cpus c).handler = .quiet → (s.cpus c).place.InSection → (s.cpus c).ints = false
  handling : ∀ c, (s.cpus c).handler = .entered ∨ (s.cpus c).handler = .locked → ¬(s.cpus c).place.InSection
  saved : ∀ t, ¬(s.saved t).1.InSection

namespace SectionInv

variable {s s' m : IntrRun} {c : Fin maxCpus}

lemma init (h : Quiet s) : SectionInv s := by
  refine ⟨fun c _ hin => ?_, fun c _ hin => ?_, fun t hin => ?_⟩
  · rw [(h.place c).1] at hin
    exact hin.elim
  · rw [(h.place c).1] at hin
    exact hin.elim
  · rw [h.saved t] at hin
    exact hin.elim

section

variable (h : SectionInv s)
include h

lemma own (hcpus : m.cpus = s.cpus) (hsaved : ∀ t, ¬(m.saved t).1.InSection) {y : IntrCpu}
    (hrunning : y.handler = .quiet → y.place.InSection → y.ints = false)
    (hhandling : y.handler = .entered ∨ y.handler = .locked → ¬y.place.InSection) :
    SectionInv (m.editCpu c fun _ => y) := by
  refine ⟨fun d => ?_, fun d => ?_, hsaved⟩ <;> rw [editCpu_cpus hcpus]
  · exact update_cases d hrunning fun _ => h.running d
  · exact update_cases d hhandling fun _ => h.handling d

lemma call (hc : s.Executes c) (hp : (s.cpus c).place = .outside) {f : Call}
    (hoff : IntsOff s (.call c f)) : SectionInv (begin s c f) := by
  have hgoto : ∀ x : Place, (x.InSection → (s.cpus c).ints = false) → SectionInv (s.goto c x) :=
    fun x hx => h.own rfl h.saved (fun _ => hx) fun hin => absurd hin (not_handling (.inl hc.2))
  cases f with
  | lock m | unlock m | wait p | exited p status => exact hgoto _ False.elim
  | add t | sleep ms => exact hgoto _ fun _ => hoff
  | yield =>
    refine h.own rfl h.saved nofun fun _ hin => ?_
    change (s.cpus c).place.InSection at hin
    rw [hp] at hin
    exact hin
  | exit =>
    refine own (m := s.edit (s.current c) fun x => { x with state := .dead }) h rfl h.saved (fun _ => fun hin => ?_)
      fun _ hin => False.elim hin
    exact False.elim hin

lemma run (hc : s.Executes c) (hoff : IntsOff s (.run c)) (hs : advance s c = some s') : SectionInv s' := by
  obtain ⟨m, hm, rfl⟩ := map_eq_some_iff.mp hs
  have hst := store_spec hm
  rw [hst.editCpu_eq]
  obtain ⟨hrunning, hhandling⟩ := execute_section hc.2 fun hin => hin.elim (h.running c hc.2) hoff
  exact h.own hst.cpus (hst.saved ▸ h.saved) hrunning fun hin => hhandling fun hq => not_handling (.inl hq) hin

lemma timer (hc : s.Executes c) (hints : (s.cpus c).ints = true) : SectionInv (s.interrupt c) := by
  refine h.own rfl h.saved nofun fun _ hin => ?_
  rw [h.running c hc.2 hin] at hints
  cases hints

/-- One step whose condition is met. -/
theorem step {a : IntrAction} (hs : intrStep s a s') (hoff : IntsOff s a) : SectionInv s' := by
  obtain ⟨fuel, hs⟩ := hs
  cases a with
  | call c f =>
    obtain ⟨⟨hc, hp, -⟩, hs⟩ := ite_none_right_eq_some.mp hs
    cases hs
    exact h.call hc hp hoff
  | run c =>
    obtain ⟨hc, hs⟩ := ite_none_right_eq_some.mp hs
    exact h.run hc hoff hs
  | timer c =>
    obtain ⟨⟨hc, hints⟩, hs⟩ := ite_none_right_eq_some.mp hs
    cases hs
    exact h.timer hc hints
  | lockTick c =>
    obtain ⟨hin, hs⟩ := ite_none_right_eq_some.mp hs
    obtain ⟨m, hm, rfl⟩ := map_eq_some_iff.mp hs
    have hst : Stored c s m := .acquire hm
    refine h.own hst.cpus (hst.saved ▸ h.saved) nofun fun _ => ?_
    rw [hst.cpus]
    exact h.handling c (.inl hin)
  | tick c =>
    obtain ⟨hin, hs⟩ := ite_none_right_eq_some.mp hs
    obtain ⟨sched, -, rfl⟩ := map_eq_some_iff.mp hs
    refine own (m := { s with
      sched := sched
      saved := update s.saved (s.current c) ((s.cpus c).place, (s.cpus c).frame) }) h rfl (fun t => ?_)
      (fun hq => ?_) fun hin' => ?_
    · change ¬(update s.saved (s.current c) ((s.cpus c).place, (s.cpus c).frame) t).1.InSection
      exact update_cases t (h.handling c (.inr hin)) fun _ => h.saved t
    · cases hq
    · exact absurd hin' (not_handling (.inr rfl))
  | resume c =>
    obtain ⟨-, hs⟩ := ite_none_right_eq_some.mp hs
    cases hs
    refine own (m := s.release .rq) h rfl h.saved (fun _ => fun hin => absurd hin (h.saved (s.current c)))
      fun hin' => ?_
    exact absurd hin' (not_handling (.inl rfl))
  | cli c =>
    obtain ⟨-, hs⟩ := ite_none_right_eq_some.mp hs
    cases hs
    exact h.own rfl h.saved (fun _ _ => rfl) (h.handling c)
  | sti c =>
    obtain ⟨⟨-, hp⟩, hs⟩ := ite_none_right_eq_some.mp hs
    cases hs
    refine h.own rfl h.saved (fun _ hin => ?_) (h.handling c)
    change (s.cpus c).place.InSection at hin
    rw [hp] at hin
    exact hin.elim
  | create t =>
    obtain ⟨-, hs⟩ := ite_none_right_eq_some.mp hs
    cases hs
    refine ⟨h.running, h.handling, fun u => ?_⟩
    change ¬(update s.saved t (.outside, true) u).1.InSection
    exact update_cases u id fun _ => h.saved u

end

end SectionInv

/-- In every run in which `sched_add`, `sched_wake` and `sched_sleep_ms` are called with
interrupts disabled, no `sched_tick` waits for a lock that the code it interrupted holds. -/
theorem noSelfWait_of_intsOff {s : IntrRun}
    (hr : Reachable (fun s a s' => intrStep s a s' ∧ IntsOff s a) Quiet s) : NoSelfWait s := by
  have hinv := hr.invariant (fun _ h => SectionInv.init h) fun _ _ _ h hs => h.step hs.1 hs.2
  intro c hin hrq
  exact hinv.handling c (.inl hin) hrq.inSection

/-- Thread 1 queues thread 5 with interrupts disabled, and the timer fires after it. -/
theorem noSelfWait_after_add : ∃ s,
    Reachable (fun s a s' => intrStep s a s' ∧ IntsOff s a) Quiet s ∧ (s.cpus 0).handler = .entered ∧
      s.sched.rqTail = 5 ∧ NoSelfWait s := by
  obtain ⟨s, hs, hend⟩ := map_eq_some_iff.mp (by decide +kernel :
    (runSteps (fun s a => if IntsOff s a then intrPerform 1 s a else none) threadQueued
      [.create 5, .cli 0, .call 0 (.add 5), .run 0, .run 0, .run 0, .sti 0, .timer 0]).map
      (fun s => ((s.cpus 0).handler, s.sched.rqTail)) = some (.entered, 5))
  obtain ⟨hin, htail⟩ := Prod.mk.inj hend
  have hr : Reachable (fun s a s' => intrStep s a s' ∧ IntsOff s a) Quiet s := by
    refine ⟨threadQueued, _, quiet_threadQueued, .of_runSteps (fun s a _ t ht => ?_) hs⟩
    split at ht
    next hoff => exact ⟨⟨1, ht⟩, hoff⟩
    · cases ht
  exact ⟨s, hr, hin, htail, noSelfWait_of_intsOff hr⟩

/-- The timer fires while `sched_add` holds the lock. -/
theorem tick_waits_for_add : ∃ s, Reachable intrStep Quiet s ∧ ¬NoSelfWait s := by
  obtain ⟨s, hs, hend⟩ := map_eq_some_iff.mp (by decide +kernel :
    (runSteps (intrPerform 1) threadQueued [.create 5, .call 0 (.add 5), .run 0, .timer 0]).map
      (fun s => ((s.cpus 0).handler, (s.cpus 0).place)) = some (.entered, .addQueue 5))
  obtain ⟨hin, hplace⟩ := Prod.mk.inj hend
  have hrun : Run intrStep threadQueued [.create 5, .call 0 (.add 5), .run 0, .timer 0] s :=
    .of_runSteps (fun _ _ _ _ ht => ⟨1, ht⟩) hs
  refine ⟨s, ⟨threadQueued, _, quiet_threadQueued, hrun⟩, fun hno => hno 0 hin ?_⟩
  rw [hplace]
  trivial

end AetherOS.Intr
