import AetherOS.Sched

/-!
# Processes: waiting for an exit and killing

The process record as far as termination uses it, the pipe ends that a dying
process closes, and the wait queue of its parents. Every waiter is woken through
`sched_wake`, which spins while the waiter is still on a CPU; a call that spins has
no result here.
-/
namespace AetherOS.Proc
open Sched

abbrev maxFds : ℕ := 32
abbrev maxPipes : ℕ := 8

inductive FdType where
  | none
  | file
  | socket
  | pipeRead
  | pipeWrite
  deriving DecidableEq, Repr

structure FdEntry where
  isOpen : Bool
  type : FdType
  id : ℤ
  deriving DecidableEq, Repr

/-- The flags of a pipe that say which ends are in use. -/
structure Pipe where
  inUse : Bool
  writeClosed : Bool
  readClosed : Bool
  deriving DecidableEq, Repr

/-- A process record; `thread` and `waitQueue` are thread addresses. -/
structure Process where
  thread : ℕ
  exited : Bool
  exitStatus : ℤ
  waitQueue : ℕ
  fds : Fin maxFds → FdEntry

structure System where
  sched : State
  procs : ℕ → Process
  pipes : Fin maxPipes → Pipe

namespace System

def editProc (s : System) (p : ℕ) (f : Process → Process) : System :=
  { s with procs := Function.update s.procs p (f (s.procs p)) }

end System

/-- Close one end of a pipe and free the pipe with its second end. -/
def pipeClose (read : Bool) (pipes : Fin maxPipes → Pipe) (idx : ℤ) : Fin maxPipes → Pipe :=
  fun i =>
    if (i.val : ℤ) = idx ∧ (pipes i).inUse then
      let p := pipes i
      let p := if read then { p with readClosed := true } else { p with writeClosed := true }
      if p.readClosed ∧ p.writeClosed then { p with inUse := false } else p
    else pipes i

def pipeCloseRead := pipeClose true
def pipeCloseWrite := pipeClose false

/-- What `process_kill` does with the descriptor `i`. -/
def killFd (p : ℕ) (s : System) (i : Fin maxFds) : System :=
  let e := (s.procs p).fds i
  if e.isOpen then
    let pipes := if e.type = .pipeRead then pipeCloseRead s.pipes e.id else s.pipes
    let pipes := if e.type = .pipeWrite then pipeCloseWrite pipes e.id else pipes
    { s with pipes := pipes }.editProc p fun x =>
      { x with fds := Function.update x.fds i { e with isOpen := false } }
  else s

def closeFds (s : System) (p : ℕ) : System := (List.finRange maxFds).foldl (killFd p) s

/-- Wake the waiters from `w` on; `none` when one of them is still on a CPU, or
when the fuel does not suffice. -/
def wakeWaiters : ℕ → State → ℕ → Option State
  | 0, _, _ => none
  | fuel + 1, s, w =>
    if w = 0 then some s
    else
      let nxt := (s.threads w).waitNext
      match schedWake (s.edit w fun x => { x with waitNext := 0 }) w with
      | none => none
      | some s => wakeWaiters fuel s nxt

def processMarkExited (fuel : ℕ) (s : System) (p : ℕ) (status : ℤ) : Option System :=
  let w := (s.procs p).waitQueue
  let s := s.editProc p fun x => { x with exitStatus := status, exited := true, waitQueue := 0 }
  match wakeWaiters fuel s.sched w with
  | none => none
  | some sched => some { s with sched := sched }

def processKill (fuel : ℕ) (s : System) (p : ℕ) : Option System :=
  if p = 0 ∨ (s.procs p).exited then some s
  else
    match processMarkExited fuel (closeFds s p) p 130 with
    | none => none
    | some s =>
      let t := (s.procs p).thread
      if t ≠ 0 then
        some { s with sched := s.sched.edit t fun x => { x with state := .dead } }
      else some s

/-- The critical section of `process_wait` on CPU `c`. -/
def processWait (s : System) (c : Fin maxCpus) (p : ℕ) : System :=
  if (s.procs p).exited then s
  else
    let t := (s.sched.cpus c).current
    let queue := (s.procs p).waitQueue
    let s := s.editProc p fun x => { x with waitQueue := t }
    { s with sched :=
        stopCurrent (s.sched.edit t fun x => { x with waitNext := queue }) c .blocked }

@[simp] lemma editProc_sched (s : System) (p : ℕ) (f : Process → Process) :
    (s.editProc p f).sched = s.sched := rfl

lemma killFd_sched (p : ℕ) (s : System) (i : Fin maxFds) : (killFd p s i).sched = s.sched := by
  simp only [killFd]
  split <;> rfl

lemma killFd_proc (p : ℕ) (s : System) (i : Fin maxFds) (q : ℕ) :
    ((killFd p s i).procs q).thread = (s.procs q).thread ∧
      ((killFd p s i).procs q).exited = (s.procs q).exited ∧
      ((killFd p s i).procs q).waitQueue = (s.procs q).waitQueue := by
  simp only [killFd]
  split
  · by_cases hq : q = p
    · subst hq
      simp [System.editProc]
    · simp [System.editProc, hq]
  · exact ⟨rfl, rfl, rfl⟩

/-- Closing the descriptors touches neither the scheduler nor what termination
reads of a process. -/
lemma closeFds_frame (s : System) (p : ℕ) : (closeFds s p).sched = s.sched ∧
    ∀ q, ((closeFds s p).procs q).thread = (s.procs q).thread ∧
      ((closeFds s p).procs q).waitQueue = (s.procs q).waitQueue := by
  unfold closeFds
  induction List.finRange maxFds generalizing s with
  | nil => exact ⟨rfl, fun _ => ⟨rfl, rfl⟩⟩
  | cons i is ih =>
    obtain ⟨hsched, hproc⟩ := ih (killFd p s i)
    refine ⟨hsched.trans (killFd_sched p s i), fun q => ?_⟩
    obtain ⟨h1, -, h3⟩ := killFd_proc p s i q
    exact ⟨(hproc q).1.trans h1, (hproc q).2.trans h3⟩

end AetherOS.Proc
