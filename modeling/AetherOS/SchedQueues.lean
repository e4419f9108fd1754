import AetherOS.LinkedList
import AetherOS.Sched

/-!
# The queues of the scheduler as lists

The run queue is a singly linked list with a tail pointer, the sleep list one that
is edited in the middle through a pointer to a link. On the lists they represent the
operations are: append, take the first, and move the expired sleepers.
-/
namespace AetherOS.Sched
open LinkedList List Runs

/-- The run queue holds the threads `q` in this order, each once. -/
structure RunQueue (s : State) (q : List ℕ) : Prop where
  links : Links 0 (fun t => (s.threads t).runNext) s.rqHead q 0
  tail : s.rqTail = q.getLastD 0
  nodup : q.Nodup

/-- The sleep list holds the threads `sl`, each once. -/
structure Sleepers (s : State) (sl : List ℕ) : Prop where
  links : Links 0 (fun t => (s.threads t).sleepNext) s.sleepHead sl 0
  nodup : sl.Nodup

/-- From `s` to `s'` only links of the run queue change. -/
structure OnlyRunLinks (s s' : State) : Prop where
  threads : ∀ u, s'.threads u = { s.threads u with runNext := (s'.threads u).runNext }
  sleepHead : s'.sleepHead = s.sleepHead
  ticks : s'.ticks = s.ticks
  cpus : s'.cpus = s.cpus

section

variable {s s' : State} {q sl pre : List ℕ} {t st : ℕ} {sp : Slot}

lemma OnlyRunLinks.refl (s : State) : OnlyRunLinks s s := ⟨fun _ => rfl, rfl, rfl, rfl⟩

lemma OnlyRunLinks.trans {s'' : State} (h1 : OnlyRunLinks s s') (h2 : OnlyRunLinks s' s'') : OnlyRunLinks s s'' := by
  refine ⟨fun u => ?_, h2.sleepHead.trans h1.sleepHead, h2.ticks.trans h1.ticks, h2.cpus.trans h1.cpus⟩
  rw [h2.threads u, h1.threads u]

lemma OnlyRunLinks.edit (s : State) (t x : ℕ) : OnlyRunLinks s (s.edit t fun y => { y with runNext := x }) := by
  exact ⟨fun u => edit_cases u rfl fun _ => rfl, rfl, rfl, rfl⟩

lemma OnlyRunLinks.sleepers (h : OnlyRunLinks s s') (hs : Sleepers s sl) : Sleepers s' sl := by
  refine ⟨?_, hs.nodup⟩
  rw [h.sleepHead]
  refine hs.links.congr fun u _ => ?_
  rw [h.threads u]

lemma rqAdd_onlyRunLinks (s : State) (t : ℕ) : OnlyRunLinks s (rqAdd s t) := by
  have h1 := OnlyRunLinks.edit s t 0
  simp only [rqAdd]
  split
  · have h2 := h1.trans (OnlyRunLinks.edit (s.edit t fun y => { y with runNext := 0 })
      (s.edit t fun y => { y with runNext := 0 }).rqTail t)
    exact { h2 with }
  · exact { h1 with }

/-- Waking a thread makes it ready, and nothing but links of the run queue changes besides. -/
lemma schedWake_frame (h : schedWake s t = some s') :
    (s'.threads t).state = .ready ∧ (∀ u, u ≠ t → (s'.threads u).state = (s.threads u).state) ∧
      ∀ u, (s'.threads u).waitNext = (s.threads u).waitNext := by
  rw [schedWake] at h
  split at h
  · cases h
  cases h
  have hthreads := (rqAdd_onlyRunLinks (s.edit t fun x => { x with state := .ready }) t).threads
  refine ⟨?_, fun u hu => ?_, fun u => ?_⟩
  · rw [hthreads t, edit_self]
  · rw [hthreads u, edit_of_ne _ _ _ hu]
  rw [hthreads u]
  exact edit_field Thread.waitNext s t rfl u

/-- What the scheduler and the rest of the kernel leave alone while the threads `waits` are
inside a wait: one that is blocked stays so and keeps its link, one that was woken is not
blocked again. -/
def LeavesWaiting (waits : ℕ → Prop) (s s' : State) : Prop :=
  ∀ t, waits t → ((s.threads t).state = .blocked →
      (s'.threads t).state = .blocked ∧ (s'.threads t).waitNext = (s.threads t).waitNext) ∧
    ((s.threads t).state ≠ .blocked → (s'.threads t).state ≠ .blocked)

lemma rqTake_onlyRunLinks (s : State) : OnlyRunLinks s (rqTake s).2 := by
  simp only [rqTake]
  split
  · exact .refl s
  have h1 := OnlyRunLinks.edit s s.rqHead 0
  split <;> exact { h1 with }

lemma rqTake_fst (s : State) : (rqTake s).1 = s.rqHead := by
  unfold rqTake
  split
  next h0 => exact h0.symm
  · rfl

lemma RunQueue.ne_zero (hq : RunQueue s q) : ∀ u ∈ q, u ≠ 0 := hq.links.ne_null

lemma Sleepers.ne_zero (hs : Sleepers s sl) : ∀ u ∈ sl, u ≠ 0 := hs.links.ne_null

lemma RunQueue.eq_nil (hq : RunQueue s q) (h0 : s.rqHead = 0) : q = [] := hq.links.eq_nil h0

lemma Sleepers.eq_nil (hs : Sleepers s sl) (h0 : s.sleepHead = 0) : sl = [] := hs.links.eq_nil h0

/-- `rq_add` appends. -/
theorem rqAdd_spec (hq : RunQueue s q) (ht : t ∉ q) (ht0 : t ≠ 0) : RunQueue (rqAdd s t) (q ++ [t]) := by
  have hnodup : (q ++ [t]).Nodup := concat_eq_append ▸ hq.nodup.concat ht
  have htail : (rqAdd s t).rqTail = (q ++ [t]).getLastD 0 := by
    rw [getLastD_concat]
    rfl
  refine ⟨?_, htail, hnodup⟩
  rcases eq_nil_or_concat' q with rfl | ⟨xs, x, rfl⟩
  · have h0 : s.rqTail = 0 := hq.tail
    simp only [rqAdd, edit_rqTail, h0, ne_eq, not_true_eq_false, if_false]
    exact ⟨rfl, ht0, by simp [Links]⟩
  have hx : s.rqTail = x := by rw [hq.tail, getLastD_concat]
  have hx0 : x ≠ 0 := hq.ne_zero x (by simp)
  have hxt : x ≠ t := by
    rintro rfl
    exact ht (by simp)
  have hlast : x ∉ xs := fun hm => hq.nodup.disjoint hm (by simp)
  simp only [rqAdd, edit_rqTail, hx, ne_eq, hx0, not_false_eq_true, if_true, edit_rqHead]
  refine hq.links.snoc hlast ht ht0 ?_ ?_ ?_
  · simp
  · simp only [edit_of_ne _ _ _ (Ne.symm hxt), edit_self]
  · intro y hyx hyt
    simp [edit_of_ne _ _ _ hyx, edit_of_ne _ _ _ hyt]

/-- `rq_take` returns null on an empty queue, and else the first thread. -/
theorem rqTake_spec (hq : RunQueue s q) :
    (q = [] ∧ rqTake s = (0, s)) ∨ ∃ t l, q = t :: l ∧ (rqTake s).1 = t ∧ RunQueue (rqTake s).2 l := by
  rcases hq.links.head_cases with ⟨h0, rfl⟩ | ⟨h0, l, rfl, hrest⟩
  · exact .inl ⟨rfl, by simp [rqTake, h0]⟩
  right
  have hnodup := nodup_cons.mp hq.nodup
  refine ⟨s.rqHead, l, rfl, rqTake_fst s, ?_, ?_, hnodup.2⟩
  · have hpath : Links 0 (fun t => ((s.edit s.rqHead fun x => { x with runNext := 0 }).threads
        t).runNext) (s.threads s.rqHead).runNext l 0 := by
      refine hrest.congr fun u hu => ?_
      have hne : u ≠ s.rqHead := by
        rintro rfl
        exact hnodup.1 hu
      simp [edit_of_ne _ _ _ hne]
    simp only [rqTake, h0, if_false]
    split <;> exact hpath
  · simp only [rqTake, h0, if_false]
    have htail := hq.tail
    rcases hrest.head_cases with ⟨hn0, rfl⟩ | ⟨hn0, l', rfl, _⟩
    · simp [hn0]
    · simp only [hn0, if_false, edit_rqTail]
      rw [htail, getLastD_cons, getLastD_cons, getLastD_cons]

/-- The link behind the threads `pre` of the sleep list. -/
def SlotAt (sp : Slot) (pre : List ℕ) : Prop :=
  (pre = [] ∧ sp = .head) ∨ ∃ xs u, pre = xs ++ [u] ∧ sp = .next u

lemma Sleepers.readSlot (hs : Sleepers s (pre ++ sl)) (hsp : SlotAt sp pre) :
    Links 0 (fun u => (s.threads u).sleepNext) (s.readSlot sp) sl 0 := by
  obtain ⟨k, hpre, hk⟩ := links_append.mp hs.links
  rcases hsp with ⟨rfl, rfl⟩ | ⟨xs, u, rfl, rfl⟩
  · obtain rfl := hpre
    exact hk
  · obtain ⟨_, _, rfl, _, rfl⟩ := links_append.mp hpre
    exact hk

lemma writeSlot_threads (s : State) (sp : Slot) (x u : ℕ) : (s.writeSlot sp x).threads u =
    { s.threads u with sleepNext := ((s.writeSlot sp x).threads u).sleepNext } := by
  cases sp with
  | head => rfl
  | next v =>
    simp only [State.writeSlot]
    exact edit_cases u rfl fun _ => rfl

/-- The sleeper `st` is taken from the list through the link `sp`. -/
def unhook (s : State) (sp : Slot) (st : ℕ) : State :=
  (s.writeSlot sp (s.threads st).sleepNext).edit st fun x => { x with sleepNext := 0, state := .ready }

lemma wakeSleepers_succ (fuel : ℕ) : wakeSleepers (fuel + 1) s sp = if s.readSlot sp = 0 then some s
    else if (s.threads (s.readSlot sp)).sleepDeadline ≤ s.ticks then
      wakeSleepers fuel (rqAdd (unhook s sp (s.readSlot sp)) (s.readSlot sp)) sp
    else wakeSleepers fuel s (.next (s.readSlot sp)) := rfl

lemma unhook_threads (s : State) (sp : Slot) (st u : ℕ) : (unhook s sp st).threads u = { s.threads u with
    sleepNext := ((unhook s sp st).threads u).sleepNext
    state := if u = st then .ready else (s.threads u).state } := by
  unfold unhook
  refine edit_cases u ?_ fun hu => ?_
  · rw [if_pos rfl, writeSlot_threads]
  · rw [if_neg hu]
    exact writeSlot_threads s sp _ u

lemma unhook_frame (s : State) (sp : Slot) (st : ℕ) : (unhook s sp st).rqHead = s.rqHead ∧
    (unhook s sp st).rqTail = s.rqTail ∧ (unhook s sp st).ticks = s.ticks ∧ (unhook s sp st).cpus = s.cpus := by
  cases sp <;> exact ⟨rfl, rfl, rfl, rfl⟩

lemma Sleepers.unlink (hs : Sleepers s (pre ++ st :: sl)) (hsp : SlotAt sp pre) :
    Sleepers (unhook s sp st) (pre ++ sl) := by
  have hnodup := hs.nodup
  have hkeep : (pre ++ sl).Nodup := by
    rw [nodup_middle] at hnodup
    exact (nodup_cons.mp hnodup).2
  have hst : st ∉ pre ++ sl := by
    rw [nodup_middle] at hnodup
    exact (nodup_cons.mp hnodup).1
  refine ⟨?_, hkeep⟩
  obtain ⟨k, hpre, hk⟩ := links_append.mp hs.links
  obtain ⟨rfl, hst0, hrest⟩ := hk
  have hnext : ∀ u ∈ sl, ((unhook s sp k).threads u).sleepNext = (s.threads u).sleepNext := by
    intro u hu
    have huk : u ≠ k := by
      rintro rfl
      exact hst (by simp [hu])
    rw [unhook, edit_of_ne _ _ _ huk]
    rcases hsp with ⟨rfl, rfl⟩ | ⟨xs, v, rfl, rfl⟩
    · rfl
    have huv : u ≠ v := by
      rintro rfl
      exact hkeep.disjoint (by simp) hu
    simp [State.writeSlot, edit_of_ne _ _ _ huv]
  refine links_append.mpr ⟨(s.threads k).sleepNext, ?_, hrest.congr hnext⟩
  rcases hsp with ⟨rfl, rfl⟩ | ⟨xs, v, rfl, rfl⟩
  · rfl
  -- the last thread before the gap now points behind it
  obtain ⟨w, hxs, rfl, hw0, -⟩ := links_append.mp hpre
  have hwk : w ≠ k := by
    rintro rfl
    exact hst (by simp)
  refine links_append.mpr ⟨w, hxs.congr fun u hu => ?_, rfl, hw0, ?_⟩
  · have huk : u ≠ k := by
      rintro rfl
      exact hst (by simp [hu])
    have huw : u ≠ w := by
      rintro rfl
      rw [append_assoc] at hkeep
      exact hkeep.disjoint hu (by simp)
    simp [unhook, State.writeSlot, edit_of_ne _ _ _ huk, edit_of_ne _ _ _ huw]
  · simp only [unhook, State.writeSlot, edit_of_ne _ _ _ hwk, edit_self]
    rfl

/-- The thread has slept long enough. -/
def due (s : State) (t : ℕ) : Bool := (s.threads t).sleepDeadline ≤ s.ticks

/-- The scan moved `woken` from the sleep list to the end of the run queue `q` and left
`kept` asleep. -/
structure Woken (s s' : State) (q kept woken : List ℕ) : Prop where
  queue : RunQueue s' (q ++ woken)
  sleepers : Sleepers s' kept
  state : ∀ u, (s'.threads u).state = if u ∈ woken then .ready else (s.threads u).state
  rsp : ∀ u, (s'.threads u).rsp = (s.threads u).rsp
  isIdle : ∀ u, (s'.threads u).isIdle = (s.threads u).isIdle
  ticks : s'.ticks = s.ticks
  cpus : s'.cpus = s.cpus

lemma wakeOne (hq : RunQueue s q) (hs : Sleepers s (pre ++ st :: sl)) (hsp : SlotAt sp pre) (hst : st ∉ q) :
    Woken s (rqAdd (unhook s sp st) st) q (pre ++ sl) [st] ∧
      ∀ u, ((rqAdd (unhook s sp st) st).threads u).sleepDeadline = (s.threads u).sleepDeadline := by
  obtain ⟨hhead, htail, hticks, hcpus⟩ := unhook_frame s sp st
  have hq0 : RunQueue (unhook s sp st) q := by
    refine ⟨?_, htail.trans hq.tail, hq.nodup⟩
    rw [hhead]
    refine hq.links.congr fun u _ => ?_
    rw [unhook_threads]
  have hlinks := rqAdd_onlyRunLinks (unhook s sp st) st
  refine ⟨⟨rqAdd_spec hq0 hst (hs.ne_zero st (by simp)), hlinks.sleepers (hs.unlink hsp), fun u => ?_,
    fun u => ?_, fun u => ?_, hlinks.ticks.trans hticks, hlinks.cpus.trans hcpus⟩, fun u => ?_⟩
  · rw [hlinks.threads u, unhook_threads]
    simp
  all_goals rw [hlinks.threads u, unhook_threads]

lemma wakeSleepers_slot : ∀ (sl : List ℕ) {s : State} {q pre : List ℕ} {sp : Slot} (fuel : ℕ),
    RunQueue s q → Sleepers s (pre ++ sl) → (∀ t ∈ sl, t ∉ q) → SlotAt sp pre →
    (sl.length < fuel → ∃ s', wakeSleepers fuel s sp = some s') ∧ ∀ s', wakeSleepers fuel s sp = some s' →
        Woken s s' q (pre ++ sl.filter fun t => !due s t) (sl.filter (due s)) := by
  intro sl s q pre sp fuel hq hs hdisj hsp
  induction fuel generalizing sl s q pre sp with
  | zero => exact ⟨fun h => absurd h (by simp), fun s' h => by simp [wakeSleepers] at h⟩
  | succ fuel ih =>
    cases sl with
    | nil =>
      have h0 : s.readSlot sp = 0 := hs.readSlot hsp
      simp only [wakeSleepers, h0, if_true, Option.some.injEq]
      refine ⟨fun _ => ⟨s, rfl⟩, ?_⟩
      rintro s' rfl
      exact ⟨by simpa using hq, by simpa using hs, fun _ => by simp, fun _ => rfl, fun _ => rfl, rfl, rfl⟩
    | cons st sl =>
      obtain ⟨hread, hst0, -⟩ := hs.readSlot hsp
      simp only [wakeSleepers_succ, hread, hst0, if_false, length_cons, Nat.add_lt_add_iff_right]
      by_cases hdue : (s.threads st).sleepDeadline ≤ s.ticks
      · obtain ⟨hw, hdl⟩ := wakeOne hq hs hsp (hdisj st (by simp))
        rw [if_pos hdue]
        generalize rqAdd (unhook s sp st) st = s1 at *
        have hnodup := hs.nodup
        rw [nodup_middle] at hnodup
        have hdisj1 : ∀ t ∈ sl, t ∉ q ++ [st] := by
          intro t ht hm
          rcases mem_append.mp hm with hm | hm
          · exact hdisj t (by simp [ht]) hm
          · exact (nodup_cons.mp hnodup).1 (by simp [mem_singleton.mp hm ▸ ht])
        have hsame : due s1 = due s := by
          funext t
          simp [due, hdl t, hw.ticks]
        obtain ⟨htotal, hspec⟩ := ih sl hw.queue hw.sleepers hdisj1 hsp
        refine ⟨htotal, fun s' hs' => ?_⟩
        have hw' := hspec s' hs'
        have hfilter : (st :: sl).filter (due s) = st :: sl.filter (due s) := by
          rw [filter_cons_of_pos (by simpa [due] using hdue)]
        have hfilter' : (st :: sl).filter (fun t => !due s t) = sl.filter fun t => !due s t := by
          rw [filter_cons_of_neg (by simpa [due] using hdue)]
        rw [hsame] at hw'
        rw [hfilter, hfilter']
        refine ⟨by simpa using hw'.queue, hw'.sleepers, fun u => ?_,
          fun u => (hw'.rsp u).trans (hw.rsp u), fun u => (hw'.isIdle u).trans (hw.isIdle u),
          hw'.ticks.trans hw.ticks, hw'.cpus.trans hw.cpus⟩
        rw [hw'.state u, hw.state u]
        by_cases hu : u ∈ sl.filter (due s)
        · rw [if_pos hu, if_pos (mem_cons_of_mem _ hu)]
        by_cases hus : u = st
        · simp [hus]
        rw [if_neg hu, if_neg (by simpa using hus), if_neg]
        rintro hm
        rcases mem_cons.mp hm with rfl | hm
        · exact hus rfl
        · exact hu hm
      · rw [if_neg hdue]
        have hs' : Sleepers s ((pre ++ [st]) ++ sl) := by
          rw [append_assoc]
          exact hs
        obtain ⟨htotal, hspec⟩ := ih sl hq hs' (fun t ht => hdisj t (by simp [ht]))
          (.inr ⟨pre, st, rfl, rfl⟩)
        refine ⟨htotal, fun s' h => ?_⟩
        have hw := hspec s' h
        have hfilter : (st :: sl).filter (due s) = sl.filter (due s) :=
          filter_cons_of_neg (by simpa [due] using hdue)
        have hfilter' : (st :: sl).filter (fun t => !due s t) = st :: sl.filter fun t => !due s t :=
          filter_cons_of_pos (by simpa [due] using hdue)
        rw [hfilter, hfilter']
        rw [append_assoc] at hw
        exact hw

/-- The scan of the whole sleep list ends, and moves exactly the expired sleepers. -/
theorem wakeSleepers_spec (hq : RunQueue s q) (hs : Sleepers s sl) (hdisj : ∀ t ∈ sl, t ∉ q)
    (fuel : ℕ) : (sl.length < fuel → ∃ s', wakeSleepers fuel s .head = some s') ∧
      ∀ s', wakeSleepers fuel s .head = some s' → Woken s s' q (sl.filter fun t => !due s t) (sl.filter (due s)) :=
  by
  have hslot : SlotAt .head [] := Or.inl ⟨rfl, rfl⟩
  have hs0 : Sleepers s ([] ++ sl) := hs
  exact wakeSleepers_slot sl fuel hq hs0 hdisj hslot

/-- A call on the run queue, with the thread that `rq_take` returned. -/
inductive RqCall
  | add (t : ℕ)
  | take (t : ℕ)

def rqStep (s : State) : RqCall → State → Prop
  | .add t, s' => s' = rqAdd s t
  | .take t, s' => (t, s') = rqTake s

/-- The same calls on a list; a thread that is in it is not added. -/
def fifoStep (q : List ℕ) : RqCall → List ℕ → Prop
  | .add t, q' => t ≠ 0 ∧ t ∉ q ∧ q' = q ++ [t]
  | .take t, q' => t = q.headD 0 ∧ q' = q.tail

lemma rqRun_spec {calls : List RqCall} {q' : List ℕ} (h : Run fifoStep q calls q') :
    ∀ {s}, RunQueue s q → ∃ s', Run rqStep s calls s' ∧ RunQueue s' q' := by
  induction h with
  | nil q => exact fun hq => ⟨_, .nil _, hq⟩
  | @cons q _ _ a _ hstep _ ih =>
    intro s hq
    cases a with
    | add t =>
      obtain ⟨ht0, ht, rfl⟩ := hstep
      obtain ⟨s', hr, hq'⟩ := ih (rqAdd_spec hq ht ht0)
      exact ⟨s', .cons rfl hr, hq'⟩
    | take t =>
      obtain ⟨rfl, rfl⟩ := hstep
      rcases rqTake_spec hq with ⟨rfl, he⟩ | ⟨u, l, rfl, hu, hl⟩
      · obtain ⟨s', hr, hq'⟩ := ih hq
        exact ⟨s', .cons he.symm hr, hq'⟩
      · obtain ⟨s', hr, hq'⟩ := ih hl
        exact ⟨s', .cons (Prod.ext hu.symm rfl) hr, hq'⟩

/-- The run queue is a queue, and the scan moves the expired sleepers to it. -/
theorem runQueue_fifo (hq : RunQueue s q) (hs : Sleepers s sl) (hdisj : ∀ t ∈ sl, t ∉ q) :
    (q = [] ↔ s.rqHead = 0 ∧ s.rqTail = 0) ∧
      (∀ calls q', Run fifoStep q calls q' → ∃ s', Run rqStep s calls s' ∧ RunQueue s' q') ∧
      ∀ fuel > sl.length, ∃ s', wakeSleepers fuel s .head = some s' ∧ RunQueue s' (q ++ sl.filter (due s)) ∧
        Sleepers s' (sl.filter fun t => !due s t) := by
  refine ⟨⟨?_, fun h0 => hq.eq_nil h0.1⟩, fun _ _ hr => rqRun_spec hr hq, fun fuel hf => ?_⟩
  · rintro rfl
    exact ⟨hq.links, hq.tail⟩
  · obtain ⟨htotal, hspec⟩ := wakeSleepers_spec hq hs hdisj fuel
    obtain ⟨s', hs'⟩ := htotal hf
    exact ⟨s', hs', (hspec s' hs').queue, (hspec s' hs').sleepers⟩

/-- Thread 1 is queued and thread 2 sleeps. -/
def twoThreads : State :=
  ⟨fun _ => ⟨0, .ready, false, false, 0, 0, 0, 0⟩, 1, 1, 2, 0, fun _ => ⟨0, 0, 0, 0, .running⟩, []⟩

theorem runQueue_fifo_woken : ∃ s', wakeSleepers 2 twoThreads .head = some s' ∧
    RunQueue s' ([1] ++ [2].filter (due twoThreads)) ∧ Sleepers s' ([2].filter fun t => !due twoThreads t) := by
  have hq : RunQueue twoThreads [1] := ⟨⟨rfl, by decide, rfl⟩, rfl, by simp⟩
  have hs : Sleepers twoThreads [2] := ⟨⟨rfl, by decide, rfl⟩, by simp⟩
  exact (runQueue_fifo hq hs (by simp)).2.2 2 (by simp)

end

end AetherOS.Sched
