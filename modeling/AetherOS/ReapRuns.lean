import AetherOS.ProcessTable
import AetherOS.WaitRuns

/-!
# Waiting for processes and freeing their records

`sys_waitpid` looks up a process once and keeps the pointer, across blocking, until it passes
the record to `kfree`. Every caller that waits for the process does so; all of them are woken
by the exit. Process records are numbered by their allocation: a pointer that is kept after
`kfree` still names the record that is gone, whatever the memory is used for next.
-/
namespace AetherOS.Proc
open Sched Runs Function

/-- Where a thread is: in `sys_waitpid` with the pointer to its target, or waking the waiters of
a process that exited, from `w` on. -/
inductive WaitPlace where
  | outside
  | check (p : ℕ)
  | peek (p : ℕ)
  | kill (p : ℕ)
  | drain (p w : ℕ)
  | bury (p : ℕ)
  | wait (p : ℕ)
  | collect (p : ℕ)
  | unlink (p : ℕ)
  | free (p : ℕ)
  | exiting (w : ℕ)
  deriving DecidableEq, Repr

namespace WaitPlace

/-- The pointer that the call keeps. -/
def target : WaitPlace → Option ℕ
  | check p | peek p | kill p | drain p _ | bury p | wait p | collect p | unlink p | free p => some p
  | outside | exiting _ => none

/-- The record that the next step of the call reads. -/
def reads : WaitPlace → Option ℕ
  | check p | kill p | bury p | wait p | collect p => some p
  | _ => none

lemma target_of_reads {x : WaitPlace} {p : ℕ} (h : x.reads = some p) : x.target = some p := by
  cases x <;> first | exact h | cases h

end WaitPlace

/-- The system, the table, where the threads are, the records that were ever allocated, and
those that `process_reap` passed to `kfree`, latest first. -/
structure ReapRun where
  system : System
  table : ProcTable
  place : ℕ → WaitPlace
  created : List ℕ
  freed : List ℕ

/-- The steps are taken by the thread that the CPU runs. -/
inductive ReapAction where
  | create (p : ℕ) (record : Process)
  | find (c : Fin maxCpus) (pid : UInt32)
  | check (c : Fin maxCpus)
  | peek (c : Fin maxCpus) (interrupt : Bool)
  | kill (c : Fin maxCpus)
  | drain (c : Fin maxCpus)
  | bury (c : Fin maxCpus)
  | wait (c : Fin maxCpus)
  | collect (c : Fin maxCpus)
  | unlink (c : Fin maxCpus)
  | free (c : Fin maxCpus)
  | exit (c : Fin maxCpus) (p : ℕ) (status : ℤ)
  | sched (a : Action)

namespace ReapRun

variable (s : ReapRun)

def current (c : Fin maxCpus) : ℕ := (s.system.sched.cpus c).current

/-- The CPU runs its thread, which is not blocked. -/
def Executes (c : Fin maxCpus) : Prop :=
  s.current c ≠ 0 ∧ (s.system.sched.threads (s.current c)).state = .running

def placeOn (c : Fin maxCpus) : WaitPlace := s.place (s.current c)

def go (c : Fin maxCpus) (x : WaitPlace) : ReapRun := { s with place := update s.place (s.current c) x }

def setSched (sched : State) : ReapRun := { s with system := { s.system with sched := sched } }

def exited (p : ℕ) : Bool := (s.system.procs p).exited

end ReapRun

/-- A new record: not exited, and nobody waits. -/
structure NewRecord (r : Process) : Prop where
  exited : r.exited = false
  waitQueue : r.waitQueue = 0

/-- The steps of `sys_waitpid` with `process_kill`, `process_wait` and `process_reap`, of the exit
of a process, and of the scheduler. -/
def reapStep (s : ReapRun) : ReapAction → ReapRun → Prop
  | .create p r, s' => p ≠ 0 ∧ p ∉ s.created ∧ NewRecord r ∧ s' = { s with
        system := s.system.editProc p fun _ => r
        table := publish s.table p
        created := p :: s.created }
  | .find c pid, s' => s.Executes c ∧ s.placeOn c = .outside ∧
      s' = if processFind s.table pid = 0 then s else s.go c (.check (processFind s.table pid))
  | .check c, s' => s.Executes c ∧ ∃ p, s.placeOn c = .check p ∧
      s' = s.go c (if s.exited p then .collect p else .peek p)
  | .peek c interrupt, s' => s.Executes c ∧ ∃ p, s.placeOn c = .peek p ∧
      s' = s.go c (if interrupt then .kill p else .wait p)
  | .kill c, s' => s.Executes c ∧ ∃ p, s.placeOn c = .kill p ∧ s' = if s.exited p then s.go c (.collect p)
        else { s.go c (.drain p ((closeFds s.system p).procs p).waitQueue) with
          system := markExited (closeFds s.system p) p 130 }
  | .drain c, s' => s.Executes c ∧
      ((∃ p w sched, s.placeOn c = .drain p w ∧ w ≠ 0 ∧ wakeWaiter s.system.sched w = some sched ∧
          s' = (s.go c (.drain p (s.system.sched.threads w).waitNext)).setSched sched) ∨
        (∃ p, s.placeOn c = .drain p 0 ∧ s' = s.go c (.bury p)) ∨
        (∃ w sched, s.placeOn c = .exiting w ∧ w ≠ 0 ∧ wakeWaiter s.system.sched w = some sched ∧
          s' = (s.go c (.exiting (s.system.sched.threads w).waitNext)).setSched sched) ∨
        (s.placeOn c = .exiting 0 ∧ s' = s.go c .outside))
  | .bury c, s' => s.Executes c ∧ ∃ p, s.placeOn c = .bury p ∧ s' = if (s.system.procs p).thread ≠ 0 then
          (s.go c (.collect p)).setSched
            (s.system.sched.edit (s.system.procs p).thread fun x => { x with state := .dead })
        else s.go c (.collect p)
  | .wait c, s' => s.Executes c ∧ ∃ p, s.placeOn c = .wait p ∧
      s' = { s.go c (if s.exited p then .check p else .wait p) with system := processWait s.system c p }
  | .collect c, s' => s.Executes c ∧ ∃ p, s.placeOn c = .collect p ∧ s' = s.go c (.unlink p)
  | .unlink c, s' => s.Executes c ∧ ∃ p, s.placeOn c = .unlink p ∧
      s' = { s.go c (.free p) with table := unpublish s.table p }
  | .free c, s' => s.Executes c ∧ ∃ p, s.placeOn c = .free p ∧ s' = { s.go c .outside with freed := p :: s.freed }
  | .exit c p status, s' => s.Executes c ∧ s.placeOn c = .outside ∧
      s' = { s.go c (.exiting (s.system.procs p).waitQueue) with system := markExited s.system p status }
  | .sched a, s' => ∃ fuel sched, perform fuel s.system.sched a = some sched ∧ s' = s.setSched sched

/-- No process exists, and no thread is in one of the calls. -/
structure ReapStart (s : ReapRun) : Prop where
  slots : ∀ i, s.table.slots i = 0
  place : ∀ t, s.place t = .outside
  created : s.created = []
  freed : s.freed = []

/-- No record was freed twice, and no call is about to read one that was freed. -/
structure ReapedOnce (s : ReapRun) : Prop where
  once : s.freed.Nodup
  reads : ∀ t p, (s.place t).reads = some p → p ∉ s.freed

/-- A thread waits only for a process that no other thread waits for. -/
def SoleWaiter (s : ReapRun) : ReapAction → Prop
  | .find _ pid => processFind s.table pid ≠ 0 → ∀ t, (s.place t).target ≠ some (processFind s.table pid)
  | _ => True

/-! ## What every step keeps -/

/-- A record that is in the table or that a call keeps was not freed. A record is in one slot at
most and kept by one call at most, and it has left the table before it is freed. -/
structure ReapInv (s : ReapRun) : Prop where
  created_ne_zero : ∀ p ∈ s.created, p ≠ 0
  slots : ∀ i, s.table.slots i ≠ 0 → s.table.slots i ∈ s.created ∧ s.table.slots i ∉ s.freed
  slotOnce : ∀ i j, s.table.slots i ≠ 0 → s.table.slots i = s.table.slots j → i = j
  held : ∀ t p, (s.place t).target = some p → p ∈ s.created ∧ p ∉ s.freed
  sole : ∀ t u p, (s.place t).target = some p → (s.place u).target = some p → t = u
  unlinked : ∀ t p, s.place t = .free p → ∀ i, s.table.slots i ≠ p
  freed : ∀ p ∈ s.freed, p ∈ s.created
  once : s.freed.Nodup

namespace ReapInv

variable {s s' : ReapRun} {c : Fin maxCpus} {p : ℕ}

lemma init (h : ReapStart s) : ReapInv s := by
  refine ⟨by simp [h.created], fun i hi => absurd (h.slots i) hi, fun i j hi => absurd (h.slots i) hi, ?_, ?_, ?_,
    by simp [h.freed], by rw [h.freed]; exact List.nodup_nil⟩
  · intro t p ht
    rw [h.place t] at ht
    cases ht
  · intro t u p ht
    rw [h.place t] at ht
    cases ht
  intro t p ht
  rw [h.place t] at ht
  cases ht

section

variable (h : ReapInv s)
include h

lemma reapedOnce : ReapedOnce s :=
  ⟨h.once, fun t p ht => (h.held t p (WaitPlace.target_of_reads ht)).2⟩

lemma quiet (htable : s'.table = s.table) (hcreated : s'.created = s.created) (hfreed : s'.freed = s.freed)
    (hplace : ∀ t, (s'.place t).target = none ∨ (s'.place t).target = (s.place t).target)
    (hfree : ∀ t p, s'.place t = .free p → s.place t = .free p) : ReapInv s' := by
  have htarget : ∀ t p, (s'.place t).target = some p → (s.place t).target = some p := by
    intro t p ht
    rcases hplace t with h0 | h0
    · rw [h0] at ht
      cases ht
    · rw [← h0]
      exact ht
  refine ⟨by rw [hcreated]; exact h.created_ne_zero, by rw [htable, hcreated, hfreed]; exact h.slots,
    by rw [htable]; exact h.slotOnce, ?_, ?_, ?_, by rw [hfreed, hcreated]; exact h.freed,
    by rw [hfreed]; exact h.once⟩
  · intro t p ht
    rw [hcreated, hfreed]
    exact h.held t p (htarget t p ht)
  · intro t u p ht hu
    exact h.sole t u p (htarget t p ht) (htarget u p hu)
  intro t p ht
  rw [htable]
  exact h.unlinked t p (hfree t p ht)

lemma setSystem (sys : System) : ReapInv { s with system := sys } :=
  h.quiet rfl rfl rfl (fun _ => .inr rfl) fun _ _ ht => ht

lemma go {x y : WaitPlace} (hy : s.placeOn c = y) (hx : x.target = none ∨ x.target = y.target)
    (hfree : ∀ p, x ≠ .free p) : ReapInv (s.go c x) := by
  subst hy
  refine h.quiet rfl rfl rfl (fun t => ?_) fun t p => ?_ <;> simp only [ReapRun.go]
  · exact update_cases t hx fun _ => .inr rfl
  · exact update_cases t (fun ht => absurd ht (hfree p)) fun _ => id

lemma goWith {y : WaitPlace} (x : WaitPlace) (hy : s.placeOn c = y)
    (hx : x.target = none ∨ x.target = y.target) (hfree : ∀ p, x ≠ .free p) (sys : System) :
    ReapInv { s.go c x with system := sys } :=
  (h.go hy hx hfree).setSystem sys

lemma create (h0 : p ≠ 0) (hp : p ∉ s.created) (r : Process) :
    ReapInv { s with
      system := s.system.editProc p fun _ => r
      table := publish s.table p
      created := p :: s.created } := by
  have hpf : p ∉ s.freed := fun hf => hp (h.freed p hf)
  have hslotp : ∀ i, s.table.slots i ≠ p := by
    rintro i rfl
    exact hp (h.slots i h0).1
  have hslots : ∀ i, (publish s.table p).slots i = s.table.slots i ∨ (publish s.table p).slots i = p := by
    intro i
    rcases publish_slots s.table p with ⟨j, -, hj⟩ | ⟨-, hsame⟩
    · rw [hj]
      exact update_cases i (.inr rfl) fun _ => .inl rfl
    · exact .inl (congrFun hsame i)
  have hheld : ∀ t, (s.place t).target ≠ some p := fun t ht => hp (h.held t p ht).1
  refine ⟨List.forall_mem_cons.mpr ⟨h0, h.created_ne_zero⟩, fun i hi => ?_, ?_, fun t q ht => ?_,
    h.sole, fun t q ht i => ?_, fun q hq => List.mem_cons_of_mem _ (h.freed q hq), h.once⟩
  · rcases hslots i with he | he
    · simp only [he] at hi ⊢
      exact ⟨List.mem_cons_of_mem _ (h.slots i hi).1, (h.slots i hi).2⟩
    · simp only [he]
      exact ⟨List.mem_cons_self, hpf⟩
  · rcases publish_slots s.table p with ⟨k, -, hk⟩ | ⟨-, hsame⟩
    · simp only [hk]
      exact once_update k h.slotOnce fun i _ => hslotp i
    · simp only [hsame]
      exact h.slotOnce
  · exact ⟨List.mem_cons_of_mem _ (h.held t q ht).1, (h.held t q ht).2⟩
  · rcases hslots i with he | he
    · simp only [he]
      exact h.unlinked t q ht i
    simp only [he]
    rintro rfl
    exact hheld t (by rw [ht]; rfl)

lemma find {pid : UInt32} (h0 : processFind s.table pid ≠ 0)
    (hsole : ∀ t, (s.place t).target ≠ some (processFind s.table pid)) :
    ReapInv (s.go c (.check (processFind s.table pid))) := by
  obtain ⟨i, hi⟩ : ∃ i, s.table.slots i = processFind s.table pid := by
    rw [processFind, findLocked] at h0 ⊢
    split at h0
    next i _ => exact ⟨i, rfl⟩
    · exact absurd rfl h0
  have hslot := h.slots i (hi ▸ h0)
  rw [hi] at hslot
  generalize processFind s.table pid = p at *
  have hplace : ∀ t q, ((s.go c (.check p)).place t).target = some q →
      t = s.current c ∧ q = p ∨ (s.place t).target = some q := by
    intro t q
    simp only [ReapRun.go]
    exact update_cases t (fun ht => .inl ⟨rfl, (Option.some.inj ht).symm⟩) fun _ => .inr
  refine { h with held := fun t q ht => ?_, sole := fun t u q ht hu => ?_, unlinked := fun t q => ?_ }
  · rcases hplace t q ht with ⟨-, rfl⟩ | ht
    · exact hslot
    · exact h.held t q ht
  · rcases hplace t q ht with ⟨rfl, rfl⟩ | ht'
    · rcases hplace u q hu with ⟨rfl, -⟩ | hu'
      · rfl
      · exact absurd hu' (hsole u)
    rcases hplace u q hu with ⟨rfl, rfl⟩ | hu'
    · exact absurd ht' (hsole t)
    · exact h.sole t u q ht' hu'
  simp only [ReapRun.go]
  exact update_cases t (fun ht => by cases ht) fun _ => h.unlinked t q

lemma unlink (hp : s.placeOn c = .unlink p) : ReapInv { s.go c (.free p) with table := unpublish s.table p } := by
  generalize htable : unpublish s.table p = table
  have htarget : (s.place (s.current c)).target = some p := by
    have hc : s.place (s.current c) = .unlink p := hp
    rw [hc]
    rfl
  have h0 := h.created_ne_zero p (h.held _ p htarget).1
  have hslots : ∀ i, table.slots i ≠ 0 → table.slots i = s.table.slots i ∧ s.table.slots i ≠ p := by
    intro i
    rw [← htable, unpublish]
    cases hj : slotHolding s.table p with
    | none => exact fun _ => ⟨rfl, slotHolding_eq_none.mp hj i⟩
    | some j =>
      simp only [setSlot]
      refine update_cases i (absurd rfl) fun hij hi => ⟨rfl, fun he => hij ?_⟩
      exact h.slotOnce i j hi (he.trans (slotHolding_eq_some hj).symm)
  have hplace : ∀ t q, (update s.place (s.current c) (.free p) t).target = some q → (s.place t).target = some q := by
    exact fun t q => update_cases t htarget.trans fun _ => id
  refine ⟨h.created_ne_zero, fun i hi => ?_, fun i j hi hij => ?_, fun t q ht => h.held t q (hplace t q ht),
    fun t u q ht hu => h.sole t u q (hplace t q ht) (hplace u q hu), fun t q ht i hq => ?_, h.freed, h.once⟩
  · have hsame := (hslots i hi).1
    have hi : table.slots i ≠ 0 := hi
    change table.slots i ∈ s.created ∧ table.slots i ∉ s.freed
    rw [hsame] at hi ⊢
    exact h.slots i hi
  · have hi' : table.slots i ≠ 0 := hi
    have hij' := hij
    have hne : s.table.slots i ≠ 0 := by
      rw [← (hslots i hi').1]
      exact hi'
    have hj' : table.slots j ≠ 0 := by
      rw [← hij']
      exact hi'
    rw [(hslots i hi').1, (hslots j hj').1] at hij'
    exact h.slotOnce i j hne hij'
  have hq' : table.slots i = q := hq
  have hq0 : q ≠ 0 := by
    refine h.created_ne_zero q (h.held t q (hplace t q ?_)).1
    rw [show update s.place (s.current c) (.free p) t = .free q from ht]
    rfl
  obtain ⟨hsame, hne⟩ := hslots i (hq' ▸ hq0)
  rw [hsame] at hq'
  revert ht
  change update s.place (s.current c) (.free p) t = .free q → False
  exact update_cases t (fun ht => hne (WaitPlace.free.inj ht ▸ hq')) fun _ ht => h.unlinked t q ht i hq'

lemma free (hp : s.placeOn c = .free p) : ReapInv { s.go c .outside with freed := p :: s.freed } := by
  have hc : s.place (s.current c) = .free p := hp
  have htarget : (s.place (s.current c)).target = some p := by
    rw [hc]
    rfl
  obtain ⟨hcreated, hfreed⟩ := h.held _ p htarget
  have hplace : ∀ t, update s.place (s.current c) .outside t = .outside ∨
      t ≠ s.current c ∧ update s.place (s.current c) .outside t = s.place t := by
    exact fun t => update_cases t (.inl rfl) fun htc => .inr ⟨htc, rfl⟩
  have hkept : ∀ t q, (update s.place (s.current c) .outside t).target = some q →
      t ≠ s.current c ∧ (s.place t).target = some q := by
    intro t q ht
    rcases hplace t with he | ⟨hne, he⟩
    · rw [he] at ht
      cases ht
    · rw [he] at ht
      exact ⟨hne, ht⟩
  refine ⟨h.created_ne_zero, fun i hi => ⟨(h.slots i hi).1, ?_⟩, h.slotOnce, fun t q ht => ?_,
    fun t u q ht hu => h.sole t u q (hkept t q ht).2 (hkept u q hu).2, fun t q ht => ?_, ?_, ?_⟩
  · intro hmem
    rcases List.mem_cons.mp hmem with he | he
    · exact h.unlinked _ p hc i he
    · exact (h.slots i hi).2 he
  · obtain ⟨hne, hq⟩ := hkept t q ht
    refine ⟨(h.held t q hq).1, fun hmem => ?_⟩
    rcases List.mem_cons.mp hmem with he | he
    · exact hne (h.sole t _ p (he ▸ hq) htarget)
    · exact (h.held t q hq).2 he
  · rcases hplace t with he | ⟨-, he⟩
    · have ht : update s.place (s.current c) .outside t = .free q := ht
      rw [he] at ht
      cases ht
    · exact h.unlinked t q (he.symm.trans ht)
  · exact List.forall_mem_cons.mpr ⟨hcreated, h.freed⟩
  · exact List.nodup_cons.mpr ⟨hfreed, h.once⟩

theorem step {a : ReapAction} (hs : reapStep s a s') (hsole : SoleWaiter s a) : ReapInv s' := by
  cases a with
  | create p r =>
    obtain ⟨h0, hp, -, rfl⟩ := hs
    exact h.create h0 hp r
  | find c pid =>
    obtain ⟨-, -, rfl⟩ := hs
    split
    · exact h
    next h0 => exact h.find h0 (hsole h0)
  | check c | peek c interrupt =>
    obtain ⟨-, p, hp, rfl⟩ := hs
    split
    · exact h.go hp (.inr rfl) fun _ => nofun
    · exact h.go hp (.inr rfl) fun _ => nofun
  | kill c =>
    obtain ⟨-, p, hp, rfl⟩ := hs
    split
    · exact h.go hp (.inr rfl) fun _ => nofun
    · exact h.goWith (.drain p _) hp (.inr rfl) (fun _ => nofun) _
  | drain c =>
    obtain ⟨-, ⟨p, w, sched, hp, -, hw, rfl⟩ | ⟨p, hp, rfl⟩ | ⟨w, sched, hp, -, hw, rfl⟩ | ⟨hp, rfl⟩⟩ := hs
    · exact h.goWith (.drain p (s.system.sched.threads w).waitNext) hp (.inr rfl) (fun _ => nofun) _
    · exact h.go hp (.inr rfl) fun _ => nofun
    · exact h.goWith (.exiting (s.system.sched.threads w).waitNext) hp (.inr rfl) (fun _ => nofun) _
    · exact h.go hp (.inl rfl) fun _ => nofun
  | bury c =>
    obtain ⟨-, p, hp, rfl⟩ := hs
    split
    · exact h.goWith (.collect p) hp (.inr rfl) (fun _ => nofun) _
    · exact h.go hp (.inr rfl) fun _ => nofun
  | wait c =>
    obtain ⟨-, p, hp, rfl⟩ := hs
    split
    · exact h.goWith (.check p) hp (.inr rfl) (fun _ => nofun) _
    · exact h.goWith (.wait p) hp (.inr rfl) (fun _ => nofun) _
  | collect c =>
    obtain ⟨-, p, hp, rfl⟩ := hs
    exact h.go hp (.inr rfl) fun _ => nofun
  | unlink c =>
    obtain ⟨-, p, hp, rfl⟩ := hs
    exact h.unlink hp
  | free c =>
    obtain ⟨-, p, hp, rfl⟩ := hs
    exact h.free hp
  | exit c p status =>
    obtain ⟨-, hp, rfl⟩ := hs
    exact h.goWith (.exiting _) hp (.inl rfl) (fun _ => nofun) _
  | sched a =>
    obtain ⟨fuel, sched, -, rfl⟩ := hs
    exact h.setSystem _

end

end ReapInv

/-- In every run in which a thread waits only for a process that no other thread waits for, no
record is freed twice or read after it was freed. -/
theorem reapedOnce_of_soleWaiter {s : ReapRun}
    (hr : Reachable (fun s a s' => reapStep s a s' ∧ SoleWaiter s a) ReapStart s) : ReapedOnce s :=
  (hr.invariant (fun _ h => ReapInv.init h) fun _ _ _ h hs => h.step hs.1 hs.2).reapedOnce

/-! ## One process and its waiters -/

lemma run_collect {s : ReapRun} {c : Fin maxCpus} {p : ℕ} (hc : s.Executes c) (hp : s.placeOn c = .check p)
    (hexited : s.exited p = true) :
    ∃ s', Run (fun s a s' => reapStep s a s' ∧ SoleWaiter s a) s [.check c, .collect c, .unlink c, .free c] s' ∧
      s'.system = s.system ∧ s'.freed = p :: s.freed ∧ ∀ t, t ≠ s.current c → s'.place t = s.place t := by
  let s1 := s.go c (.collect p)
  let s2 := s1.go c (.unlink p)
  let s3 : ReapRun := { s2.go c (.free p) with table := unpublish s2.table p }
  let s4 : ReapRun := { s3.go c .outside with freed := p :: s3.freed }
  have hplace : ∀ (u : ReapRun) (x : WaitPlace), (u.go c x).placeOn c = x := fun u x => update_self ..
  have h1 : reapStep s (.check c) s1 := ⟨hc, p, hp, by rw [if_pos hexited]⟩
  have h2 : reapStep s1 (.collect c) s2 := ⟨hc, p, hplace _ _, rfl⟩
  have h3 : reapStep s2 (.unlink c) s3 := ⟨hc, p, hplace _ _, rfl⟩
  have h4 : reapStep s3 (.free c) s4 := ⟨hc, p, hplace s2 (.free p), rfl⟩
  refine ⟨s4, .cons ⟨h1, trivial⟩ (.cons ⟨h2, trivial⟩ (.cons ⟨h3, trivial⟩ (.cons ⟨h4, trivial⟩ (.nil s4)))), rfl, rfl,
    fun t ht => ?_⟩
  have hkeep : ∀ (u : ReapRun) (x : WaitPlace), u.current c = s.current c → (u.go c x).place t = u.place t :=
    fun u x hu => update_of_ne (hu ▸ ht) ..
  calc s4.place t = s3.place t := hkeep s3 .outside rfl
    _ = s2.place t := hkeep s2 (.free p) rfl
    _ = s1.place t := hkeep s1 (.unlink p) rfl
    _ = s.place t := hkeep s (.collect p) rfl

/-- Threads 1, 2 and 3 run on three CPUs; there are no processes. -/
def noRecords : ReapRun where
  system := threeRunning.system
  table := noProcs.table
  place _ := .outside
  created := []
  freed := []

lemma noRecords_start : ReapStart noRecords := ⟨fun _ => rfl, fun _ => rfl, rfl, rfl⟩

/-- The record of a process with main thread 3. -/
def newRecord : Process := ⟨3, false, 0, 0, fun _ => ⟨false, .none, 0⟩⟩

/-- Process 5 with pid 1. -/
def oneProcess : ReapRun :=
  { noRecords with
    system := noRecords.system.editProc 5 fun _ => newRecord
    table := publish noRecords.table 5
    created := [5] }

lemma create_oneProcess : reapStep noRecords (.create 5 newRecord) oneProcess :=
  ⟨by decide, by decide, ⟨rfl, rfl⟩, rfl⟩

lemma find_oneProcess : processFind oneProcess.table 1 = 5 := by decide +kernel

/-- Thread 3 lets process 5 exit. -/
def exitFive (s : ReapRun) : ReapRun := { s.go 2 (.exiting 0) with system := markExited s.system 5 0 }

lemma find_first : reapStep oneProcess (.find 0 1) (oneProcess.go 0 (.check 5)) := by
  refine ⟨⟨by decide, rfl⟩, rfl, ?_⟩
  rw [find_oneProcess]
  rfl

/-- Thread 1 waits for the process, and frees its record. -/
theorem reapedOnce_one_waiter :
    ∃ s as, Run reapStep noRecords (.create 5 newRecord :: .find 0 1 :: .exit 2 5 0 :: as) s ∧
      s.freed = [5] ∧ ReapedOnce s := by
  let s1 := oneProcess.go 0 (.check 5)
  have h2 : reapStep s1 (.exit 2 5 0) (exitFive s1) := ⟨⟨by decide, rfl⟩, by decide, rfl⟩
  have hsole : SoleWaiter oneProcess (.find 0 1) := fun _ _ => nofun
  obtain ⟨s, hrun, -, hfreed, -⟩ :=
    run_collect (s := exitFive s1) (c := 0) (p := 5) ⟨by decide, rfl⟩ (by decide) (by decide)
  have hall : Run (fun s a s' => reapStep s a s' ∧ SoleWaiter s a) noRecords _ s :=
    .cons ⟨create_oneProcess, trivial⟩ (.cons ⟨find_first, hsole⟩ (.cons ⟨h2, trivial⟩ hrun))
  exact ⟨s, _, hall.mono (fun _ _ _ hs => hs.1), hfreed, reapedOnce_of_soleWaiter ⟨noRecords, _, noRecords_start, hall⟩⟩

/-- Threads 1 and 2 both hold the pointer when the process exits. After thread 1 has freed the
record, thread 2 reads it and frees it again. -/
theorem two_waiters_free_twice : ∃ s s' as bs, ReapStart noRecords ∧ Run reapStep noRecords as s ∧
    5 ∈ s.freed ∧ (s.place 2).reads = some 5 ∧ Run reapStep s bs s' ∧ s'.freed = [5, 5] := by
  let s1 := oneProcess.go 0 (.check 5)
  let s2 := s1.go 1 (.check 5)
  have h2 : reapStep s1 (.find 1 1) s2 := by
    refine ⟨⟨by decide, rfl⟩, by decide, ?_⟩
    change s2 = if processFind oneProcess.table 1 = 0 then s1 else s1.go 1 (.check (processFind oneProcess.table 1))
    rw [find_oneProcess]
    rfl
  have h3 : reapStep s2 (.exit 2 5 0) (exitFive s2) := ⟨⟨by decide, rfl⟩, by decide, rfl⟩
  obtain ⟨s, hrun, hsys, hfreed, hplace⟩ :=
    run_collect (s := exitFive s2) (c := 0) (p := 5) ⟨by decide, rfl⟩ (by decide) (by decide)
  have hcpu : s.current 1 = 2 := by
    rw [ReapRun.current, hsys]
    rfl
  have htwo : s.place 2 = .check 5 := by
    rw [hplace 2 (by decide)]
    decide
  have hexec : s.Executes 1 := by
    rw [ReapRun.Executes, hcpu, hsys]
    exact ⟨by decide, rfl⟩
  obtain ⟨s', hrun', -, hfreed', -⟩ := run_collect (s := s) (c := 1) (p := 5) hexec
    (by rw [ReapRun.placeOn, hcpu]; exact htwo) (by rw [ReapRun.exited, hsys]; decide)
  refine ⟨s, s', _, _, noRecords_start,
    .cons create_oneProcess (.cons find_first (.cons h2 (.cons h3 (hrun.mono fun _ _ _ hs => hs.1)))),
    by rw [hfreed]; exact List.mem_cons_self, by rw [htwo]; rfl, hrun'.mono fun _ _ _ hs => hs.1, ?_⟩
  rw [hfreed', hfreed]
  rfl

end AetherOS.Proc
