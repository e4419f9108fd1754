import AetherOS.SchedQueues

/-!
# One tick of the scheduler

What the locked part of `sched_tick` does, in terms of the lists the queues hold: due
sleepers join the run queue, the preempted thread joins behind them, and the first
thread of the result becomes the current one.
-/
namespace AetherOS.Sched
open LinkedList

/-- The variables of a CPU agree up to the dead thread waiting to be freed. -/
structure SameCpu (x y : Cpu) : Prop where
  current : y.current = x.current
  idle : y.idle = x.idle
  stack : y.stack = x.stack
  phase : y.phase = x.phase

def SameCpus (s s' : State) : Prop := ∀ d, SameCpu (s.cpus d) (s'.cpus d)

variable {s s' : State} {q sl : List ℕ} {c : Fin maxCpus} {cur : ℕ}

lemma SameCpu.refl (x : Cpu) : SameCpu x x := ⟨rfl, rfl, rfl, rfl⟩

lemma SameCpu.trans {x y z : Cpu} (h1 : SameCpu x y) (h2 : SameCpu y z) : SameCpu x z :=
  ⟨h2.current.trans h1.current, h2.idle.trans h1.idle, h2.stack.trans h1.stack, h2.phase.trans h1.phase⟩

lemma SameCpus.trans {s'' : State} (h1 : SameCpus s s') (h2 : SameCpus s' s'') :
    SameCpus s s'' := fun d => (h1 d).trans (h2 d)

lemma sameCpus_of_eq (h : s'.cpus = s.cpus) : SameCpus s s' := by
  intro d
  rw [h]
  exact .refl _

lemma sameCpus_reapPending (s : State) (c : Fin maxCpus) (x : ℕ) :
    SameCpus s (s.editCpu c fun y => { y with reapPending := x }) := by
  exact fun d => editCpu_cases d ⟨rfl, rfl, rfl, rfl⟩ fun _ => .refl _

lemma RunQueue.congr (hq : RunQueue s q) (hn : ∀ u, (s'.threads u).runNext = (s.threads u).runNext)
    (hhead : s'.rqHead = s.rqHead) (htail : s'.rqTail = s.rqTail) : RunQueue s' q := by
  refine ⟨?_, htail.trans hq.tail, hq.nodup⟩
  rw [hhead]
  exact hq.links.congr fun u _ => hn u

lemma Sleepers.congr (hs : Sleepers s sl) (hn : ∀ u, (s'.threads u).sleepNext = (s.threads u).sleepNext)
    (hhead : s'.sleepHead = s.sleepHead) : Sleepers s' sl := by
  refine ⟨?_, hs.nodup⟩
  rw [hhead]
  exact hs.links.congr fun u _ => hn u

lemma setState_lists (hq : RunQueue s q) (hs : Sleepers s sl) (t : ℕ) (st : ThreadState) :
    RunQueue (s.edit t fun x => { x with state := st }) q ∧ Sleepers (s.edit t fun x => { x with state := st }) sl :=
  ⟨hq.congr (edit_field Thread.runNext s t rfl) rfl rfl, hs.congr (edit_field Thread.sleepNext s t rfl) rfl⟩

lemma reap_frame (s : State) (c : Fin maxCpus) : (reap s c).threads = s.threads ∧
    (reap s c).rqHead = s.rqHead ∧ (reap s c).rqTail = s.rqTail ∧
    (reap s c).sleepHead = s.sleepHead ∧ (reap s c).ticks = s.ticks ∧ SameCpus s (reap s c) := by
  unfold reap
  split
  · exact ⟨rfl, rfl, rfl, rfl, rfl, sameCpus_reapPending s c 0⟩
  · exact ⟨rfl, rfl, rfl, rfl, rfl, sameCpus_of_eq rfl⟩

/-- The thread that leaves the CPU is still able to run. -/
def Preempted (s : State) (cur : ℕ) : Prop :=
  (s.threads cur).state = .running ∧ (s.threads cur).isIdle = false

instance (s : State) (cur : ℕ) : Decidable (Preempted s cur) :=
  inferInstanceAs (Decidable (_ ∧ _))

lemma requeue_spec (hq : RunQueue s q) (hs : Sleepers s sl) (hcur : Preempted s cur → cur ∉ q) (h0 : cur ≠ 0) :
    RunQueue (requeue s c cur) (q ++ if Preempted s cur then [cur] else []) ∧
      Sleepers (requeue s c cur) sl ∧ SameCpus s (requeue s c cur) ∧
      (∀ u, ((requeue s c cur).threads u).rsp = (s.threads u).rsp ∧
        ((requeue s c cur).threads u).isIdle = (s.threads u).isIdle) ∧
      ∀ u, ((requeue s c cur).threads u).state = .running →
        (s.threads u).state = .running ∧ ¬(Preempted s cur ∧ u = cur) := by
  by_cases hp : Preempted s cur
  · obtain ⟨s0, hs0⟩ : ∃ s0, s.edit cur (fun x => { x with state := .ready }) = s0 := ⟨_, rfl⟩
    have heq : requeue s c cur = rqAdd s0 cur := by
      unfold requeue
      rw [if_pos ⟨hp.1, by simp [hp.2]⟩, hs0]
    have hfield : ∀ u, (s0.threads u).rsp = (s.threads u).rsp ∧ (s0.threads u).isIdle = (s.threads u).isIdle := by
      intro u
      rw [← hs0]
      exact ⟨edit_field Thread.rsp s cur rfl u, edit_field Thread.isIdle s cur rfl u⟩
    have hcpus0 : s0.cpus = s.cpus := by rw [← hs0]; rfl
    obtain ⟨hq0, hsl0⟩ := hs0 ▸ setState_lists hq hs cur .ready
    have hlinks := rqAdd_onlyRunLinks s0 cur
    rw [heq, if_pos hp]
    refine ⟨rqAdd_spec hq0 (hcur hp) h0, hlinks.sleepers hsl0,
      sameCpus_of_eq (hlinks.cpus.trans hcpus0), fun u => ?_, fun u hu => ?_⟩
    · rw [hlinks.threads u]
      exact hfield u
    rw [hlinks.threads u, ← hs0] at hu
    revert hu
    exact edit_cases u nofun fun huc hu => ⟨hu, fun h => huc h.2⟩
  · rw [if_neg hp, List.append_nil]
    have hnot : ¬((s.threads cur).state = .running ∧ ¬(s.threads cur).isIdle) := by
      intro h
      exact hp ⟨h.1, by simpa using h.2⟩
    unfold requeue
    rw [if_neg hnot]
    split
    · exact ⟨{ hq with }, { hs with }, sameCpus_reapPending s c cur,
        fun _ => ⟨rfl, rfl⟩, fun u hu => ⟨hu, fun h => hp h.1⟩⟩
    · exact ⟨hq, hs, sameCpus_of_eq rfl, fun _ => ⟨rfl, rfl⟩, fun u hu => ⟨hu, fun h => hp h.1⟩⟩

/-- The tick has made `n` the current thread of `c`. -/
structure Entered (s s' : State) (c : Fin maxCpus) (n : ℕ) : Prop where
  current : (s'.cpus c).current = n
  phase : (s'.cpus c).phase = .switching n
  idle : (s'.cpus c).idle = (s.cpus c).idle
  stack : (s'.cpus c).stack = (s.cpus c).stack
  others : ∀ d, d ≠ c → SameCpu (s.cpus d) (s'.cpus d)

section

variable (s : State) (c : Fin maxCpus) (cur n : ℕ)

lemma handOff_lists : (handOff s c cur n).rqHead = s.rqHead ∧ (handOff s c cur n).rqTail = s.rqTail ∧
    (handOff s c cur n).sleepHead = s.sleepHead := by
  simp only [handOff]
  split <;> exact ⟨rfl, rfl, rfl⟩

lemma handOff_cpus : (handOff s c cur n).cpus =
    (s.editCpu c fun x => { x with current := n, phase := .switching n }).cpus := by
  simp only [handOff]
  split <;> rfl

lemma handOff_field {β : Type*} (f : Thread → β) (u : ℕ) (hon : ∀ y z, f { y with onCpu := z } = f y) :
    f ((handOff s c cur n).threads u) = f ((s.edit n fun x => { x with state := .running }).threads u) := by
  simp only [handOff, editCpu_threads]
  split
  · rw [edit_field f _ _ (hon _ _), edit_field f _ _ (hon _ _)]
  · rw [edit_field f _ _ (hon _ _)]

lemma handOff_keeps {β : Type*} (f : Thread → β) (u : ℕ) (hon : ∀ y z, f { y with onCpu := z } = f y)
    (hst : ∀ y z, f { y with state := z } = f y) : f ((handOff s c cur n).threads u) = f (s.threads u) :=
  (handOff_field s c cur n f u hon).trans (edit_field f s n (hst _ _) u)

end

lemma handOff_spec (hq : RunQueue s q) (hs : Sleepers s sl) (cur n : ℕ) :
    RunQueue (handOff s c cur n) q ∧ Sleepers (handOff s c cur n) sl ∧ Entered s (handOff s c cur n) c n ∧
      (∀ u, ((handOff s c cur n).threads u).rsp = (s.threads u).rsp ∧
        ((handOff s c cur n).threads u).isIdle = (s.threads u).isIdle) ∧
      ∀ u, u ≠ n → ((handOff s c cur n).threads u).state = (s.threads u).state := by
  obtain ⟨hhead, htail, hsleep⟩ := handOff_lists s c cur n
  have hcpus := fun d => congrFun (handOff_cpus s c cur n) d
  refine ⟨hq.congr (fun u => ?_) hhead htail, hs.congr (fun u => ?_) hsleep,
    ⟨?_, ?_, ?_, ?_, fun d hd => ?_⟩, fun u => ⟨?_, ?_⟩, fun u hu => ?_⟩
  · exact handOff_keeps s c cur n Thread.runNext u (fun _ _ => rfl) fun _ _ => rfl
  · exact handOff_keeps s c cur n Thread.sleepNext u (fun _ _ => rfl) fun _ _ => rfl
  · rw [hcpus c, editCpu_self]
  · rw [hcpus c, editCpu_self]
  · rw [hcpus c, editCpu_self]
  · rw [hcpus c, editCpu_self]
  · rw [hcpus d, editCpu_of_ne _ _ _ hd]
    exact .refl _
  · exact handOff_keeps s c cur n Thread.rsp u (fun _ _ => rfl) fun _ _ => rfl
  · exact handOff_keeps s c cur n Thread.isIdle u (fun _ _ => rfl) fun _ _ => rfl
  · rw [handOff_field s c cur n Thread.state u fun _ _ => rfl, edit_of_ne _ _ _ hu]

lemma pickNext_spec (hq : RunQueue s q) : ∃ q',
    ((q = [] ∧ (pickNext s c).1 = (s.cpus c).idle ∧ q' = []) ∨ q = (pickNext s c).1 :: q') ∧
      RunQueue (pickNext s c).2 q' ∧ OnlyRunLinks s (pickNext s c).2 := by
  have hlinks : OnlyRunLinks s (pickNext s c).2 := rqTake_onlyRunLinks s
  rcases rqTake_spec hq with ⟨rfl, htake⟩ | ⟨t, l, rfl, htake, hrest⟩
  · refine ⟨[], .inl ⟨rfl, by simp [pickNext, htake], rfl⟩, ?_, hlinks⟩
    simp only [pickNext, htake]
    exact hq
  have ht0 : t ≠ 0 := hq.ne_zero t (by simp)
  refine ⟨l, .inr ?_, hrest, hlinks⟩
  simp [pickNext, htake, ht0]

/-- The thread will have slept long enough at the next tick. -/
def dueNext (s : State) (t : ℕ) : Bool := (s.threads t).sleepDeadline ≤ (s.ticks + 1) % 2 ^ 64

/-- The run queue as a tick of `c` looks at it: due sleepers have joined it, and the
current thread has if it was preempted. -/
def lineUp (s : State) (c : Fin maxCpus) (q sl : List ℕ) : List ℕ :=
  q ++ sl.filter (dueNext s) ++ if Preempted s (s.cpus c).current then [(s.cpus c).current] else []

/-- The tick of `c` has entered `n` from the run queue `q` and the sleep list `sl`, and
has left `q'` in the run queue. -/
structure Ticked (s s' : State) (c : Fin maxCpus) (q sl q' : List ℕ) (n : ℕ) : Prop where
  next : (lineUp s c q sl = [] ∧ n = (s.cpus c).idle ∧ q' = []) ∨ lineUp s c q sl = n :: q'
  queue : RunQueue s' q'
  sleepers : Sleepers s' (sl.filter fun t => !dueNext s t)
  entered : Entered s s' c n
  rsp : ∀ u, (s'.threads u).rsp = if u = (s.cpus c).current then (s.cpus c).stack else (s.threads u).rsp
  isIdle : ∀ u, (s'.threads u).isIdle = (s.threads u).isIdle
  running : ∀ u, u ≠ n → (s'.threads u).state = .running → (s.threads u).state = .running ∧
    ¬(Preempted s (s.cpus c).current ∧ u = (s.cpus c).current)

/-- The state in which the scan of the sleep list starts. -/
def enterTick (s : State) (c : Fin maxCpus) : State :=
  { (reap s c).edit (s.cpus c).current fun x => { x with rsp := (s.cpus c).stack } with
    ticks := (s.ticks + 1) % 2 ^ 64 }

lemma schedTick_eq (fuel : ℕ) (s : State) (c : Fin maxCpus) : schedTick fuel s c =
    (wakeSleepers fuel (enterTick s c) .head).map fun t =>
      handOff (pickNext (requeue t c (s.cpus c).current) c).2 c (s.cpus c).current
        (pickNext (requeue t c (s.cpus c).current) c).1 := by
  obtain ⟨-, -, -, -, hticks, hcpus⟩ := reap_frame s c
  have henter : { (reap s c).edit ((reap s c).cpus c).current fun x =>
      { x with rsp := ((reap s c).cpus c).stack } with
        ticks := ((reap s c).ticks + 1) % 2 ^ 64 } = enterTick s c := by
    rw [(hcpus c).current, (hcpus c).stack, hticks]
    rfl
  simp only [schedTick, edit_ticks, (hcpus c).current]
  rw [(hcpus c).current] at henter
  rw [henter]
  rcases wakeSleepers fuel (enterTick s c) .head with _ | t
  · rfl
  · rfl

lemma enterTick_field {β : Type*} (f : Thread → β) (u : ℕ) (hf : ∀ y z, f { y with rsp := z } = f y) :
    f ((enterTick s c).threads u) = f (s.threads u) := by
  have he := edit_field f (reap s c) (s.cpus c).current
    (g := fun x => { x with rsp := (s.cpus c).stack }) (hf _ _) u
  rw [(reap_frame s c).1] at he
  exact he

lemma enterTick_due : due (enterTick s c) = dueNext s := by
  funext t
  simp only [due, dueNext, enterTick_field Thread.sleepDeadline t fun _ _ => rfl]
  rfl

lemma enterTick_frame (hq : RunQueue s q) (hs : Sleepers s sl) :
    RunQueue (enterTick s c) q ∧ Sleepers (enterTick s c) sl ∧ SameCpus s (enterTick s c) ∧
      (∀ u, ((enterTick s c).threads u).rsp =
        if u = (s.cpus c).current then (s.cpus c).stack else (s.threads u).rsp) ∧
      (∀ u, ((enterTick s c).threads u).isIdle = (s.threads u).isIdle ∧
        ((enterTick s c).threads u).state = (s.threads u).state) ∧
      due (enterTick s c) = dueNext s := by
  obtain ⟨hthreads, hhead, htail, hsleep, -, hcpus⟩ := reap_frame s c
  refine ⟨hq.congr (fun u => enterTick_field Thread.runNext u fun _ _ => rfl) hhead htail,
    hs.congr (fun u => enterTick_field Thread.sleepNext u fun _ _ => rfl) hsleep, hcpus, fun u => ?_,
    fun u => ⟨enterTick_field Thread.isIdle u fun _ _ => rfl, enterTick_field Thread.state u fun _ _ => rfl⟩,
    enterTick_due⟩
  by_cases hu : u = (s.cpus c).current
  · simp [enterTick, hu]
  · simp [enterTick, edit_of_ne _ _ _ hu, hthreads, hu]

/-- The locked part of `sched_tick` ends, and enters the first thread in line, or the
idle thread when there is none. -/
theorem schedTick_spec (hq : RunQueue s q) (hs : Sleepers s sl) (hdisj : ∀ t ∈ sl, t ∉ q)
    (hlist : ∀ t ∈ q ++ sl, (s.threads t).state ≠ .running) (h0 : (s.cpus c).current ≠ 0) (fuel : ℕ) :
    (sl.length < fuel → ∃ s', schedTick fuel s c = some s') ∧
      ∀ s', schedTick fuel s c = some s' → ∃ n q', Ticked s s' c q sl q' n := by
  obtain ⟨hq1, hs1, hcpus1, hrsp1, hkeep1, hdue⟩ := enterTick_frame (c := c) hq hs
  obtain ⟨htotal, hspec⟩ := wakeSleepers_spec hq1 hs1 hdisj fuel
  rw [schedTick_eq]
  refine ⟨fun hf => ?_, fun s' h => ?_⟩
  · obtain ⟨t, ht⟩ := htotal hf
    rw [ht]
    exact ⟨_, rfl⟩
  obtain ⟨s2, hw, rfl⟩ := Option.map_eq_some_iff.mp h
  have hwoken := hspec s2 hw
  rw [hdue] at hwoken
  -- a thread that is still running was not in one of the lists
  have hpre : Preempted s2 (s.cpus c).current ↔ Preempted s (s.cpus c).current := by
    simp only [Preempted, hwoken.state, hwoken.isIdle, (hkeep1 _).1, (hkeep1 _).2]
    by_cases hm : (s.cpus c).current ∈ sl.filter (dueNext s)
    · have hnot := hlist _ (List.mem_append_right q (List.mem_of_mem_filter hm))
      simp [hm, hnot]
    · rw [if_neg hm]
  have hcurq : Preempted s2 (s.cpus c).current → (s.cpus c).current ∉ q ++ sl.filter (dueNext s) := by
    intro hp hm
    refine hlist _ ?_ (hpre.mp hp).1
    rcases List.mem_append.mp hm with hm | hm
    · exact List.mem_append_left _ hm
    · exact List.mem_append_right _ (List.mem_of_mem_filter hm)
  obtain ⟨hq3, hs3, hcpus3, hkeep3, hstate3⟩ :=
    requeue_spec (c := c) hwoken.queue hwoken.sleepers hcurq h0
  have hcpus : SameCpus s (requeue s2 c (s.cpus c).current) :=
    (hcpus1.trans (sameCpus_of_eq hwoken.cpus)).trans hcpus3
  have hline : (q ++ sl.filter (dueNext s) ++
      if Preempted s2 (s.cpus c).current then [(s.cpus c).current] else []) = lineUp s c q sl := by
    unfold lineUp
    simp only [hpre]
  rw [hline] at hq3
  generalize requeue s2 c (s.cpus c).current = s3 at hq3 hs3 hcpus3 hkeep3 hstate3 hcpus ⊢
  obtain ⟨q', hnext, hq4, hlinks⟩ := pickNext_spec (c := c) hq3
  generalize pickNext s3 c = r at hnext hq4 hlinks ⊢
  obtain ⟨hq5, hs5, hent, hkeep5, hstate5⟩ :=
    handOff_spec (c := c) hq4 (hlinks.sleepers hs3) (s.cpus c).current r.1
  have hcpus4 : SameCpus s r.2 := hcpus.trans (sameCpus_of_eq hlinks.cpus)
  refine ⟨r.1, q', ?_, hq5, hs5, ⟨hent.current, hent.phase, hent.idle.trans (hcpus4 c).idle,
    hent.stack.trans (hcpus4 c).stack, fun d hd => (hcpus4 d).trans (hent.others d hd)⟩,
    fun u => ?_, fun u => ?_, fun u hu hrun => ?_⟩
  · rw [← (hcpus c).idle]
    exact hnext
  · rw [(hkeep5 u).1, hlinks.threads u, (hkeep3 u).1, hwoken.rsp u, hrsp1 u]
  · rw [(hkeep5 u).2, hlinks.threads u, (hkeep3 u).2, hwoken.isIdle u, (hkeep1 u).1]
  rw [hstate5 u hu, hlinks.threads u] at hrun
  obtain ⟨hrun2, hnot⟩ := hstate3 u hrun
  rw [hwoken.state u, (hkeep1 u).2] at hrun2
  refine ⟨?_, fun h => hnot ⟨hpre.mpr h.1, h.2⟩⟩
  split at hrun2
  · cases hrun2
  · exact hrun2

end AetherOS.Sched
