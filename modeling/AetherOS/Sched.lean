import Mathlib.Tactic
import AetherOS.Runs

/-!
# The scheduler

Threads are addresses of thread records, 0 being the null pointer; the run queue
and the sleep list are threaded through the records. `sched_tick` is cut where it
releases the queue lock: the interrupt handler still runs on the old stack then,
and `switchStack` is the moment it leaves it. Likewise a thread that blocks has
released the lock before its `int 0x20`. Page-table roots and the TSS are left out.
-/
namespace AetherOS.Sched

inductive ThreadState where
  | ready
  | running
  | blocked
  | dead
  deriving DecidableEq, Repr

/-- A thread record. The saved stack pointer is known by the thread whose stack it
points into, 0 before the first save. -/
structure Thread where
  rsp : ℕ
  state : ThreadState
  isIdle : Bool
  onCpu : Bool
  runNext : ℕ
  waitNext : ℕ
  sleepNext : ℕ
  sleepDeadline : ℕ
  deriving DecidableEq, Repr

abbrev maxCpus : ℕ := 64

instance : NeZero maxCpus := ⟨by decide⟩

/-- Where a CPU is: executing its current thread, between the blocking of its thread
and `int 0x20`, or between the release of the lock in `sched_tick` and the switch to
the stack of `next`. -/
inductive Phase where
  | running
  | yielding
  | switching (next : ℕ)
  deriving DecidableEq, Repr

/-- The per-CPU variables, with the thread whose stack the CPU is on. -/
structure Cpu where
  current : ℕ
  idle : ℕ
  reapPending : ℕ
  stack : ℕ
  phase : Phase
  deriving DecidableEq, Repr

structure State where
  threads : ℕ → Thread
  rqHead : ℕ
  rqTail : ℕ
  sleepHead : ℕ
  ticks : ℕ
  cpus : Fin maxCpus → Cpu
  /-- Thread records given back to the heap. -/
  freed : List ℕ

namespace State

def edit (s : State) (t : ℕ) (f : Thread → Thread) : State :=
  { s with threads := Function.update s.threads t (f (s.threads t)) }

def editCpu (s : State) (c : Fin maxCpus) (f : Cpu → Cpu) : State :=
  { s with cpus := Function.update s.cpus c (f (s.cpus c)) }

end State

def rqAdd (s : State) (t : ℕ) : State :=
  let s := s.edit t fun x => { x with runNext := 0 }
  let s :=
    if s.rqTail ≠ 0 then s.edit s.rqTail fun x => { x with runNext := t }
    else { s with rqHead := t }
  { s with rqTail := t }

def rqTake (s : State) : ℕ × State :=
  if s.rqHead = 0 then (0, s)
  else
    let t := s.rqHead
    let s := { s with rqHead := (s.threads t).runNext }
    let s := if s.rqHead = 0 then { s with rqTail := 0 } else s
    (t, s.edit t fun x => { x with runNext := 0 })

def schedAdd (s : State) (t : ℕ) : State := rqAdd s t

/-- `none` while the thread is still on a CPU: the call spins. -/
def schedWake (s : State) (t : ℕ) : Option State :=
  if (s.threads t).onCpu then none
  else some (rqAdd (s.edit t fun x => { x with state := .ready }) t)

/-- A place that holds a link of the sleep list. -/
inductive Slot where
  | head
  | next (t : ℕ)

def State.readSlot (s : State) : Slot → ℕ
  | .head => s.sleepHead
  | .next t => (s.threads t).sleepNext

def State.writeSlot (s : State) (sp : Slot) (t : ℕ) : State :=
  match sp with
  | .head => { s with sleepHead := t }
  | .next u => s.edit u fun x => { x with sleepNext := t }

/-- The scan for expired sleepers, `none` when the fuel does not suffice. -/
def wakeSleepers : ℕ → State → Slot → Option State
  | 0, _, _ => none
  | fuel + 1, s, sp =>
    let st := s.readSlot sp
    if st = 0 then some s
    else if (s.threads st).sleepDeadline ≤ s.ticks then
      let s := s.writeSlot sp (s.threads st).sleepNext
      let s := s.edit st fun x => { x with sleepNext := 0, state := .ready }
      wakeSleepers fuel (rqAdd s st) sp
    else wakeSleepers fuel s (.next st)

/-- Free the thread that died during the previous tick of this CPU. -/
def reap (s : State) (c : Fin maxCpus) : State :=
  if (s.cpus c).reapPending ≠ 0 then
    { s.editCpu c fun x => { x with reapPending := 0 } with
      freed := (s.cpus c).reapPending :: s.freed }
  else s

/-- What becomes of the thread that is leaving the CPU. -/
def requeue (s : State) (c : Fin maxCpus) (cur : ℕ) : State :=
  if (s.threads cur).state = .running ∧ ¬(s.threads cur).isIdle then
    rqAdd (s.edit cur fun x => { x with state := .ready }) cur
  else if (s.threads cur).state = .dead then
    s.editCpu c fun x => { x with reapPending := cur }
  else s

/-- The thread that is entered next. -/
def pickNext (s : State) (c : Fin maxCpus) : ℕ × State :=
  let r := rqTake s
  (if r.1 = 0 then (s.cpus c).idle else r.1, r.2)

def handOff (s : State) (c : Fin maxCpus) (cur next : ℕ) : State :=
  let s := s.edit next fun x => { x with state := .running }
  let s := if cur ≠ next then s.edit cur fun x => { x with onCpu := false } else s
  let s := s.edit next fun x => { x with onCpu := true }
  s.editCpu c fun x => { x with current := next, phase := .switching next }

/-- `sched_tick` up to the release of the queue lock. -/
def schedTick (fuel : ℕ) (s : State) (c : Fin maxCpus) : Option State :=
  let s := reap s c
  let cur := (s.cpus c).current
  let s := s.edit cur fun x => { x with rsp := (s.cpus c).stack }
  let s := { s with ticks := (s.ticks + 1) % 2 ^ 64 }
  match wakeSleepers fuel s .head with
  | none => none
  | some s =>
    let r := pickNext (requeue s c cur) c
    some (handOff r.2 c cur r.1)

/-- The rest of the interrupt handler: load the saved stack pointer. -/
def switchStack (s : State) (c : Fin maxCpus) (next : ℕ) : State :=
  s.editCpu c fun x => { x with stack := (s.threads next).rsp, phase := .running }

/-- `sched_sleep_ms` up to the release of the queue lock. -/
def schedSleepMs (s : State) (c : Fin maxCpus) (ms : ℕ) : State :=
  let t := (s.cpus c).current
  if t = 0 ∨ (s.threads t).isIdle then s
  else
    let s := s.edit t fun x =>
      { x with
        sleepDeadline := (s.ticks + ms) % 2 ^ 64
        state := .blocked
        sleepNext := s.sleepHead }
    { s with sleepHead := t }.editCpu c fun x => { x with phase := .yielding }

/-- A thread marks itself blocked, as every wait queue of the kernel does, or dead. -/
def stopCurrent (s : State) (c : Fin maxCpus) (st : ThreadState) : State :=
  (s.edit (s.cpus c).current fun x => { x with state := st }).editCpu c fun x => { x with phase := .yielding }

/-- `thread_create_user`: a parked thread with its initial frame. The sleep fields
are not initialised. -/
def threadCreateUser (s : State) (t : ℕ) : State :=
  s.edit t fun x =>
    { x with
      rsp := t
      state := .ready
      isIdle := false
      onCpu := false
      runNext := 0
      waitNext := 0 }

/-- The steps of the scheduler and of the threads it runs. -/
inductive Action where
  | tick (c : Fin maxCpus)
  | switch (c : Fin maxCpus)
  | sleep (c : Fin maxCpus) (ms : ℕ)
  | block (c : Fin maxCpus)
  | exit (c : Fin maxCpus)
  | wake (t : ℕ)
  | create (t : ℕ)
  | add (t : ℕ)

/-- One step; `none` when the CPU is not where the step starts. A CPU that has not
been started has no current thread. -/
def perform (fuel : ℕ) (s : State) : Action → Option State
  | .tick c =>
    match (s.cpus c).phase with
    | .switching _ => none
    | _ => if (s.cpus c).current = 0 then none else schedTick fuel s c
  | .switch c =>
    match (s.cpus c).phase with
    | .switching next => some (switchStack s c next)
    | _ => none
  | .sleep c ms =>
    if (s.cpus c).phase = .running ∧ (s.cpus c).current ≠ 0 then some (schedSleepMs s c ms) else none
  | .block c =>
    if (s.cpus c).phase = .running ∧ (s.cpus c).current ≠ 0 then some (stopCurrent s c .blocked)
    else none
  | .exit c =>
    if (s.cpus c).phase = .running ∧ (s.cpus c).current ≠ 0 then some (stopCurrent s c .dead)
    else none
  | .wake t => schedWake s t
  | .create t => some (threadCreateUser s t)
  | .add t => some (schedAdd s t)

section

variable (s : State) (t : ℕ) (f : Thread → Thread) (c : Fin maxCpus) (g : Cpu → Cpu)

@[simp] lemma edit_self : (s.edit t f).threads t = f (s.threads t) := by simp [State.edit]

lemma edit_of_ne {u : ℕ} (h : u ≠ t) : (s.edit t f).threads u = s.threads u := by simp [State.edit, h]

@[simp] lemma edit_rqHead : (s.edit t f).rqHead = s.rqHead := rfl
@[simp] lemma edit_rqTail : (s.edit t f).rqTail = s.rqTail := rfl
@[simp] lemma edit_ticks : (s.edit t f).ticks = s.ticks := rfl
@[simp] lemma edit_cpus : (s.edit t f).cpus = s.cpus := rfl

@[simp] lemma editCpu_self : (s.editCpu c g).cpus c = g (s.cpus c) := by simp [State.editCpu]

lemma editCpu_of_ne {d : Fin maxCpus} (h : d ≠ c) : (s.editCpu c g).cpus d = s.cpus d := by
  simp [State.editCpu, h]

@[simp] lemma editCpu_threads : (s.editCpu c g).threads = s.threads := rfl

variable {s t f c g}

@[elab_as_elim]
lemma edit_cases {motive : ℕ → Thread → Prop} (u : ℕ) (same : motive t (f (s.threads t)))
    (other : u ≠ t → motive u (s.threads u)) : motive u ((s.edit t f).threads u) := by
  simp only [State.edit]
  exact Runs.update_cases u same other

@[elab_as_elim]
lemma editCpu_cases {motive : Fin maxCpus → Cpu → Prop} (d : Fin maxCpus) (same : motive c (g (s.cpus c)))
    (other : d ≠ c → motive d (s.cpus d)) : motive d ((s.editCpu c g).cpus d) := by
  simp only [State.editCpu]
  exact Runs.update_cases d same other

end

lemma edit_field {β : Type*} (f : Thread → β) (s : State) (t : ℕ) {g : Thread → Thread}
    (hf : f (g (s.threads t)) = f (s.threads t)) (u : ℕ) : f ((s.edit t g).threads u) = f (s.threads u) :=
  edit_cases u hf fun _ => rfl

end AetherOS.Sched
