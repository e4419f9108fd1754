import AetherOS.StackPlacement

/-!
# CPUs and kernel stacks

In the windows between the release of the queue lock and the switch of stacks another
CPU can take a thread that is still on its CPU. Outside them the scheduler is sound: a
run in which no tick takes a thread that another CPU has in its window never has a
thread on two CPUs.
-/
namespace AetherOS.Sched
open LinkedList Runs List Option

/-- The scheduler, with the threads that stand on some wait queue. -/
structure StackRun where
  sched : State
  waiting : List ℕ

def waitingAfter (r : StackRun) : Action → List ℕ
  | .block c => (r.sched.cpus c).current :: r.waiting
  | .wake t => r.waiting.erase t
  | _ => r.waiting

/-- Nothing refers to the record `t`. -/
structure Fresh (r : StackRun) (t : ℕ) : Prop where
  ne_zero : t ≠ 0
  queue : ∀ q, RunQueue r.sched q → t ∉ q
  sleepers : ∀ sl, Sleepers r.sched sl → t ∉ sl
  waiting : t ∉ r.waiting
  cpus : ∀ c, (r.sched.cpus c).current ≠ t ∧ (r.sched.cpus c).stack ≠ t ∧ (r.sched.cpus c).idle ≠ t

/-- What callers observe: only waiting threads are woken, only new and parked threads are
added, and the idle loop neither blocks nor exits. -/
def Allowed (r : StackRun) : Action → Prop
  | .wake t => t ∈ r.waiting
  | .create t => Fresh r t
  | .add t => Fresh r t ∧ (r.sched.threads t).state = .ready ∧
      (r.sched.threads t).isIdle = false ∧ (r.sched.threads t).rsp = t
  | .block c => (r.sched.threads (r.sched.cpus c).current).isIdle = false
  | .exit c => (r.sched.threads (r.sched.cpus c).current).isIdle = false
  | _ => True

def stackStep (r : StackRun) (a : Action) (r' : StackRun) : Prop :=
  Allowed r a ∧ (∃ fuel, perform fuel r.sched a = some r'.sched) ∧ r'.waiting = waitingAfter r a

/-- The queues are empty, and every started CPU runs a thread of its own on the stack of
this thread. -/
structure Booted (r : StackRun) : Prop where
  rqHead : r.sched.rqHead = 0
  rqTail : r.sched.rqTail = 0
  sleepHead : r.sched.sleepHead = 0
  waiting : r.waiting = []
  offline : ∀ c, (r.sched.cpus c).current = 0 → (r.sched.cpus c).stack = 0 ∧ (r.sched.cpus c).phase = .running
  online : ∀ c, (r.sched.cpus c).current ≠ 0 →
    (r.sched.cpus c).stack = (r.sched.cpus c).current ∧ (r.sched.cpus c).phase = .running
  idle : ∀ c, (r.sched.cpus c).current ≠ 0 → (r.sched.cpus c).idle ≠ 0 ∧
    (r.sched.threads (r.sched.cpus c).idle).isIdle = true ∧
    (OwnStack (r.sched.cpus c).idle (r.sched.threads (r.sched.cpus c).idle).rsp ∨
      (r.sched.cpus c).current = (r.sched.cpus c).idle)
  home : ∀ c, (r.sched.cpus c).current ≠ 0 → (r.sched.threads (r.sched.cpus c).current).isIdle = true →
    (r.sched.cpus c).current = (r.sched.cpus c).idle
  currents : ∀ c d, c ≠ d → (r.sched.cpus c).current ≠ 0 → (r.sched.cpus c).current ≠ (r.sched.cpus d).current
  idles : ∀ c d, c ≠ d → (r.sched.cpus c).current ≠ 0 → (r.sched.cpus d).current ≠ 0 →
    (r.sched.cpus c).idle ≠ (r.sched.cpus d).idle

/-- When a CPU ticks, the first thread in line is in no window of another CPU. -/
def OutsideWindows (r : StackRun) : Action → Prop
  | .tick c => ∀ q sl t l, RunQueue r.sched q → Sleepers r.sched sl →
      q ++ sl.filter (dueNext r.sched) = t :: l → ∀ d, d ≠ c → ¬InWindow r.sched d t
  | _ => True

/-- The thread that a step enters. -/
def entered (r : StackRun) : Action → List ℕ
  | .tick c => [(r.sched.cpus c).current]
  | _ => []

/-- The threads `l` were entered: first those of the queue `q`, in their order. Sleepers still
sleep or have been in line since. -/
structure Served (q sl l q' sl' : List ℕ) : Prop where
  queue : q <+: l ++ q'
  sleepers : ∀ t ∈ sl, t ∈ sl' ∨ t ∈ l ++ q'

lemma Served.refl (q sl : List ℕ) : Served q sl [] q sl := ⟨prefix_rfl, fun _ => .inl⟩

lemma Served.trans {q sl l q₁ sl₁ l' q' sl' : List ℕ} (h : Served q sl l q₁ sl₁) (h' : Served q₁ sl₁ l' q' sl') :
    Served q sl (l ++ l') q' sl' := by
  have hline : l ++ q₁ <+: l ++ l' ++ q' := by
    rw [append_assoc]
    exact (prefix_append_right_inj _).mpr h'.queue
  refine ⟨h.queue.trans hline, fun t ht => ?_⟩
  rcases h.sleepers t ht with ht | ht
  · rw [append_assoc]
    exact (h'.sleepers t ht).imp_right (mem_append_right l)
  · exact .inr (hline.subset ht)

/-- The lists of the scheduler are disjoint, and their threads are where they should be. -/
structure StackInv (r : StackRun) (q sl : List ℕ) : Prop where
  queue : RunQueue r.sched q
  sleepers : Sleepers r.sched sl
  nodup : (q ++ sl ++ r.waiting).Nodup
  placed : Placed r.sched (q ++ sl ++ r.waiting)

lemma Booted.inv {r : StackRun} (h : Booted r) : StackInv r [] [] := by
  refine ⟨⟨h.rqHead, h.rqTail, nodup_nil⟩, ⟨h.sleepHead, nodup_nil⟩, ?_, ?_⟩
  · rw [h.waiting]
    exact nodup_nil
  rw [h.waiting]
  refine ⟨h.offline, fun c hc => ?_, h.idles, fun c hc => ?_, fun c d hcd hc hd => ?_,
    fun c hc => ?_, fun t ht => by simp at ht, fun t ht => by simp at ht⟩
  · obtain ⟨h1, h2, h3⟩ := h.idle c hc
    refine ⟨h1, h2, h3.imp_right fun he => ⟨c, he, .inl ?_⟩⟩
    rw [(h.online c hc).1, he]
  · rw [(h.online c hc).1]
    exact ⟨h.home c hc, fun _ => h.home c hc⟩
  · rw [(h.online c hc).1, (h.online d hd).1]
    have hne := h.currents c d hcd hc
    exact ⟨hne, hne, fun _ => hne⟩
  unfold PhaseOk
  rw [(h.online c hc).2]
  exact ⟨.inl (h.online c hc).1, by simp⟩

section

variable {r r' : StackRun} {s s' : State} {q sl : List ℕ} {c : Fin maxCpus} {t : ℕ}

lemma calmer_edit (s : State) (t : ℕ) {f : Thread → Thread} (hf : Calmer (s.threads t) (f (s.threads t))) (u : ℕ) :
    Calmer (s.threads u) ((s.edit t f).threads u) :=
  edit_cases u hf fun _ => .refl _

lemma OnlyRunLinks.calmer (h : OnlyRunLinks s s') (u : ℕ) : Calmer (s.threads u) (s'.threads u) := by
  rw [h.threads u]
  exact ⟨rfl, rfl, id⟩

section

variable (h : StackInv r q sl) {fuel : ℕ}
include h

lemma StackInv.disjoint : ∀ t ∈ sl, t ∉ q := by
  intro t ht hm
  exact h.nodup.of_append_left.disjoint hm ht

lemma StackInv.tick (ho : OutsideWindows r (.tick c))
    (hs : perform fuel r.sched (.tick c) = some s') :
    ∃ q' sl', StackInv ⟨s', r.waiting⟩ q' sl' ∧ Served q sl [(s'.cpus c).current] q' sl' := by
  obtain ⟨hphase, hc, htick⟩ : (∀ m, (r.sched.cpus c).phase ≠ .switching m) ∧
      (r.sched.cpus c).current ≠ 0 ∧ schedTick fuel r.sched c = some s' := by
    simp only [perform] at hs
    split at hs
    · cases hs
    next hp =>
      split at hs
      · cases hs
      next hc => exact ⟨hp, hc, hs⟩
  have hlist : ∀ t ∈ q ++ sl, (r.sched.threads t).state ≠ .running := by
    intro t ht
    exact (h.placed.parked t (mem_append_left _ ht)).state
  obtain ⟨n, q', ht⟩ := (schedTick_spec h.queue h.sleepers h.disjoint hlist hc fuel).2 s' htick
  refine ⟨q', _, ⟨ht.queue, ht.sleepers, (h.placed.tick_lists ht hc h.nodup).1, ?_⟩, ?_⟩
  · exact h.placed.tick ht hc h.nodup hphase fun t l hl d hd => ho q sl t l h.queue h.sleepers hl d hd
  have hline : lineUp r.sched c q sl <+: [(s'.cpus c).current] ++ q' := by
    rw [ht.entered.current]
    rcases ht.next with ⟨hnil, -⟩ | hline
    · exact hnil ▸ nil_prefix
    · exact hline ▸ prefix_rfl
  refine ⟨.trans ?_ hline, fun t ht => ?_⟩
  · rw [lineUp, append_assoc]
    exact prefix_append ..
  by_cases hd : dueNext r.sched t = true
  · exact .inr (hline.subset (by simp [lineUp, ht, hd]))
  · exact .inl (by simp [ht, hd])

lemma StackInv.switch
    (hs : perform fuel r.sched (.switch c) = some s') : StackInv ⟨s', r.waiting⟩ q sl := by
  simp only [perform] at hs
  split at hs
  next n hphase =>
    cases hs
    have hc : (r.sched.cpus c).current ≠ 0 := by
      intro h0
      rw [(h.placed.offline c h0).2] at hphase
      cases hphase
    exact ⟨⟨h.queue.links, h.queue.tail, h.queue.nodup⟩, ⟨h.sleepers.links, h.sleepers.nodup⟩,
      h.nodup, h.placed.switchStack hc hphase⟩
  · cases hs

lemma StackInv.current_free (hrun : (r.sched.cpus c).phase = .running)
    (hc : (r.sched.cpus c).current ≠ 0) : (r.sched.cpus c).current ∉ q ++ sl ++ r.waiting := by
  have hp := h.placed.phase c hc
  unfold PhaseOk at hp
  rw [hrun] at hp
  exact hp.2

end

lemma nodup_insert {l m : List ℕ} (hn : (l ++ m).Nodup) (ht : t ∉ l ++ m) : (l ++ t :: m).Nodup := by
  rw [nodup_middle]
  exact nodup_cons.mpr ⟨ht, hn⟩

/-- The record of a thread that falls asleep for `ms` ticks. -/
def fallAsleep (s : State) (ms : ℕ) (x : Thread) : Thread :=
  { x with
    sleepDeadline := (s.ticks + ms) % 2 ^ 64
    state := .blocked
    sleepNext := s.sleepHead }

lemma schedSleepMs_eq (hc : (s.cpus c).current ≠ 0) (hidle : (s.threads (s.cpus c).current).isIdle = false) (ms : ℕ) :
    schedSleepMs s c ms = ({ s.edit (s.cpus c).current (fallAsleep s ms) with
      sleepHead := (s.cpus c).current }.editCpu c fun x => { x with phase := .yielding }) := by
  simp only [schedSleepMs, hc, hidle, Bool.false_eq_true, or_self_iff, if_false]
  rfl

section

variable (h : StackInv r q sl)
include h

lemma StackInv.sleep (ms : ℕ) (hrun : (r.sched.cpus c).phase = .running) (hc : (r.sched.cpus c).current ≠ 0) :
    ∃ sl', StackInv ⟨schedSleepMs r.sched c ms, r.waiting⟩ q sl' ∧ sl ⊆ sl' := by
  have hfree := h.current_free hrun hc
  by_cases hidle : (r.sched.threads (r.sched.cpus c).current).isIdle = true
  · have hsame : schedSleepMs r.sched c ms = r.sched := by simp [schedSleepMs, hidle]
    rw [hsame]
    exact ⟨sl, h, Subset.refl _⟩
  have hidle' : (r.sched.threads (r.sched.cpus c).current).isIdle = false := by simpa using hidle
  rw [schedSleepMs_eq hc hidle' ms]
  obtain ⟨cur, hcur⟩ : ∃ cur, (r.sched.cpus c).current = cur := ⟨_, rfl⟩
  rw [hcur] at hfree hidle' ⊢
  let e := r.sched.edit cur (fallAsleep r.sched ms)
  have hnodup : (q ++ (cur :: sl) ++ r.waiting).Nodup := by
    rw [append_assoc, cons_append]
    rw [append_assoc] at hfree
    exact nodup_insert (append_assoc q sl _ ▸ h.nodup) hfree
  have hnodup' := hnodup.of_append_left.of_append_right
  refine ⟨cur :: sl, ⟨?_, ⟨⟨rfl, hcur ▸ hc, ?_⟩, hnodup'⟩, hnodup, ?_⟩, subset_cons_self ..⟩
  · refine h.queue.congr (fun u => ?_) rfl rfl
    exact edit_field Thread.runNext r.sched cur rfl u
  · have hhead : (e.threads cur).sleepNext = r.sched.sleepHead := by
      rw [edit_self]
      rfl
    show Links 0 _ (e.threads cur).sleepNext sl 0
    rw [hhead]
    refine h.sleepers.links.congr fun u hu => ?_
    have hne : u ≠ cur := by
      rintro rfl
      exact hfree (by simp [hu])
    show (e.threads u).sleepNext = _
    rw [edit_of_ne _ _ _ hne]
  refine h.placed.stop hc hrun (hcur ▸ hidle') (fun u => ?_) ?_ rfl fun t ht => ?_
  · refine calmer_edit r.sched cur ⟨rfl, rfl, fun hr => ?_⟩ u
    cases hr
  · rw [hcur]
    show (e.threads cur).state ≠ _
    rw [edit_self]
    exact fun hr => by cases hr
  rw [hcur]
  simp only [append_assoc, cons_append, mem_append, mem_cons] at ht ⊢
  tauto

lemma stopCurrent_queue (c : Fin maxCpus) (st : ThreadState) :
    RunQueue (stopCurrent r.sched c st) q ∧ Sleepers (stopCurrent r.sched c st) sl := by
  obtain ⟨hq, hsl⟩ := setState_lists h.queue h.sleepers (r.sched.cpus c).current st
  exact ⟨{ hq with }, { hsl with }⟩

/-- The current thread blocks or exits, and joins the waiting threads or no list. -/
lemma StackInv.stop {st : ThreadState} (hst : st ≠ .running)
    (hrun : (r.sched.cpus c).phase = .running) (hc : (r.sched.cpus c).current ≠ 0)
    (hidle : (r.sched.threads (r.sched.cpus c).current).isIdle = false) {w : List ℕ}
    (hw : w = r.waiting ∨ w = (r.sched.cpus c).current :: r.waiting) :
    StackInv ⟨stopCurrent r.sched c st, w⟩ q sl := by
  obtain ⟨hq, hsl⟩ := stopCurrent_queue h c st
  have hfree := h.current_free hrun hc
  refine ⟨hq, hsl, ?_, ?_⟩
  · rcases hw with rfl | rfl
    · exact h.nodup
    · exact nodup_insert h.nodup hfree
  refine h.placed.stop hc hrun hidle (fun u => ?_) ?_ rfl fun t ht => ?_
  · refine calmer_edit r.sched _ (f := fun x => { x with state := st }) ⟨rfl, rfl, fun hr => ?_⟩ u
    exact absurd hr hst
  · simp only [stopCurrent, editCpu_threads, edit_self]
    exact hst
  rcases hw with rfl | rfl
  · exact .inl ht
  · simp only [mem_append, mem_cons] at ht ⊢
    tauto

lemma StackInv.wake (ht : t ∈ r.waiting) (hs : schedWake r.sched t = some s') :
    StackInv ⟨s', r.waiting.erase t⟩ (q ++ [t]) sl := by
  simp only [schedWake] at hs
  split at hs
  · cases hs
  cases hs
  obtain ⟨s0, hs0⟩ : ∃ s0, r.sched.edit t (fun x => { x with state := .ready }) = s0 := ⟨_, rfl⟩
  obtain ⟨hq0, hsl0⟩ := hs0 ▸ setState_lists h.queue h.sleepers t .ready
  have hcalm : ∀ u, Calmer (r.sched.threads u) (s0.threads u) := by
    intro u
    rw [← hs0]
    exact calmer_edit r.sched t ⟨rfl, rfl, fun hr => by cases hr⟩ u
  have hperm : (q ++ [t] ++ sl ++ r.waiting.erase t).Perm (q ++ sl ++ r.waiting) := by
    rw [append_assoc q, append_assoc q, append_assoc q]
    refine List.Perm.append_left q ?_
    rw [append_assoc]
    refine (perm_append_comm_assoc _ _ _).trans (List.Perm.append_left sl ?_)
    exact (perm_cons_erase ht).symm
  have hmem : t ∈ q ++ sl ++ r.waiting := mem_append_right _ ht
  have htq : t ∉ q := by
    intro hm
    exact h.nodup.disjoint (mem_append_left _ hm) ht
  have hlinks := rqAdd_onlyRunLinks s0 t
  rw [hs0]
  refine ⟨rqAdd_spec hq0 htq (h.placed.parked t hmem).ne_zero, hlinks.sleepers hsl0, hperm.nodup_iff.mpr h.nodup, ?_⟩
  refine h.placed.relist ?_ (fun u => .inl ?_) fun u hu => .inl (hperm.mem_iff.mp hu)
  · rw [hlinks.cpus, ← hs0]
    rfl
  have h1 := hcalm u
  have h2 := hlinks.calmer u
  exact ⟨h2.rsp.trans h1.rsp, h2.isIdle.trans h1.isIdle, fun hr => h1.running (h2.running hr)⟩

lemma Fresh.not_listed (hf : Fresh r t) : t ∉ q ++ sl ++ r.waiting := by
  simp only [mem_append, not_or]
  exact ⟨⟨hf.queue q h.queue, hf.sleepers sl h.sleepers⟩, hf.waiting⟩

lemma StackInv.create (hf : Fresh r t) : StackInv ⟨threadCreateUser r.sched t, r.waiting⟩ q sl := by
  have hnot := Fresh.not_listed h hf
  have hother : ∀ u, u ≠ t → (threadCreateUser r.sched t).threads u = r.sched.threads u :=
    fun u hu => edit_of_ne _ _ _ hu
  have hne : ∀ u ∈ q ++ sl ++ r.waiting, u ≠ t := by
    rintro u hu rfl
    exact hnot hu
  refine ⟨⟨h.queue.links.congr fun u hu => ?_, h.queue.tail, h.queue.nodup⟩,
    ⟨h.sleepers.links.congr fun u hu => ?_, h.sleepers.nodup⟩, h.nodup, ?_⟩
  · rw [hother u (hne u (by simp [hu]))]
  · rw [hother u (hne u (by simp [hu]))]
  refine h.placed.relist rfl (fun u => ?_) fun u hu => .inl hu
  by_cases hu : u = t
  · subst hu
    exact .inr ⟨hnot, hf.cpus⟩
  · rw [hother u hu]
    exact .inl (.refl _)

lemma StackInv.add (ha : Allowed r (.add t)) : StackInv ⟨schedAdd r.sched t, r.waiting⟩ (q ++ [t]) sl := by
  obtain ⟨hf, hstate, hidle, hrsp⟩ := ha
  have hnot := Fresh.not_listed h hf
  have hlinks := rqAdd_onlyRunLinks r.sched t
  have hnodup : (q ++ [t] ++ sl ++ r.waiting).Nodup := by
    simp only [append_assoc, cons_append, nil_append]
    rw [append_assoc] at hnot
    exact nodup_insert (append_assoc q sl _ ▸ h.nodup) hnot
  refine ⟨rqAdd_spec h.queue (hf.queue q h.queue) hf.ne_zero, hlinks.sleepers h.sleepers, hnodup, ?_⟩
  refine h.placed.relist hlinks.cpus (fun u => .inl (hlinks.calmer u)) fun u hu => ?_
  by_cases hut : u = t
  · subst hut
    have hk := hlinks.calmer u
    refine .inr ⟨⟨hf.ne_zero, fun hr => ?_, hk.isIdle.trans hidle⟩, .inl (hk.rsp.trans hrsp), fun d => (hf.cpus d).1⟩
    have hr' := hk.running hr
    rw [hstate] at hr'
    cases hr'
  · left
    simp only [append_assoc, mem_append, mem_cons, not_mem_nil] at hu ⊢
    tauto

/-- One step outside the windows. A tick enters the first thread of the queue, and all steps add
threads behind the last one only. -/
theorem StackInv.advance {a : Action} (hs : stackStep r a r')
    (ho : OutsideWindows r a) : ∃ q' sl', StackInv r' q' sl' ∧ Served q sl (entered r' a) q' sl' := by
  obtain ⟨ha, ⟨fuel, hp⟩, hw⟩ := hs
  obtain ⟨s', w⟩ := r'
  obtain rfl : w = waitingAfter r a := hw
  cases a with
  | tick c => exact h.tick ho hp
  | switch c => exact ⟨q, sl, h.switch hp, .refl q sl⟩
  | sleep c ms =>
    obtain ⟨⟨hrun, hc⟩, hp⟩ := ite_none_right_eq_some.mp hp
    cases hp
    obtain ⟨sl', h', hsl⟩ := h.sleep ms hrun hc
    exact ⟨q, sl', h', prefix_rfl, fun _ ht => .inl (hsl ht)⟩
  | block c =>
    obtain ⟨⟨hrun, hc⟩, hp⟩ := ite_none_right_eq_some.mp hp
    cases hp
    exact ⟨q, sl, h.stop (by decide) hrun hc ha (.inr rfl), .refl q sl⟩
  | exit c =>
    obtain ⟨⟨hrun, hc⟩, hp⟩ := ite_none_right_eq_some.mp hp
    cases hp
    exact ⟨q, sl, h.stop (by decide) hrun hc ha (.inl rfl), .refl q sl⟩
  | wake t => exact ⟨q ++ [t], sl, h.wake ha hp, prefix_append .., fun _ => .inl⟩
  | create t =>
    cases hp
    exact ⟨q, sl, h.create ha, .refl q sl⟩
  | add t =>
    cases hp
    exact ⟨q ++ [t], sl, h.add ha, prefix_append .., fun _ => .inl⟩

theorem StackInv.step {a : Action} (hs : stackStep r a r')
    (ho : OutsideWindows r a) : ∃ q' sl', StackInv r' q' sl' := by
  obtain ⟨q', sl', h', -⟩ := h.advance hs ho
  exact ⟨q', sl', h'⟩

end

/-- The steps outside the windows, with a record of the threads that are entered. -/
def recordedStep (x : StackRun × List ℕ) (a : Action) (y : StackRun × List ℕ) : Prop :=
  (stackStep x.1 a y.1 ∧ OutsideWindows x.1 a) ∧ y.2 = x.2 ++ entered y.1 a

lemma StackInv.run {x y : StackRun × List ℕ} {as : List Action} (hr : Run recordedStep x as y) :
    ∀ {q sl}, StackInv x.1 q sl → ∃ q' sl' l, StackInv y.1 q' sl' ∧ y.2 = x.2 ++ l ∧ Served q sl l q' sl' := by
  induction hr with
  | nil x => exact fun {q sl} h => ⟨q, sl, [], h, (append_nil _).symm, .refl q sl⟩
  | cons hs _ ih =>
    intro q sl h
    obtain ⟨q₁, sl₁, h₁, hq⟩ := h.advance hs.1.1 hs.1.2
    obtain ⟨q', sl', l, h', hl, hq'⟩ := ih h₁
    exact ⟨q', sl', _, h', by rw [hl, hs.2, append_assoc], hq.trans hq'⟩

end

/-- The state after boot: CPU 0 runs thread 1 and has the idle thread 2, CPU 1 runs its
idle thread 3. -/
def twoCpusUp : StackRun where
  sched :=
    { threads := fun t =>
        { rsp := 0
          state := if t = 1 ∨ t = 2 ∨ t = 3 then .running else .ready
          isIdle := t = 2 ∨ t = 3
          onCpu := t = 1 ∨ t = 3
          runNext := 0
          waitNext := 0
          sleepNext := 0
          sleepDeadline := 0 }
      rqHead := 0
      rqTail := 0
      sleepHead := 0
      ticks := 0
      cpus := fun c =>
        if c = 0 then ⟨1, 2, 0, 1, .running⟩
        else if c = 1 then ⟨3, 3, 0, 3, .running⟩
        else ⟨0, 0, 0, 0, .running⟩
      freed := [] }
  waiting := []

lemma stackStep_get {s : State} {a : Action} {fuel : ℕ} {waiting : List ℕ} (h : (perform fuel s a).isSome = true)
    (hallowed : Allowed ⟨s, waiting⟩ a) :
    stackStep ⟨s, waiting⟩ a ⟨(perform fuel s a).get h, waitingAfter ⟨s, waiting⟩ a⟩ :=
  ⟨hallowed, ⟨fuel, (Option.some_get h).symm⟩, rfl⟩

lemma booted_twoCpusUp : Booted twoCpusUp :=
  ⟨rfl, rfl, rfl, rfl, by decide +kernel, by decide +kernel, by decide +kernel, by decide +kernel,
    by decide +kernel, by decide +kernel⟩

/-- In every run in which no tick takes a thread out of a window of another CPU, no
thread is ever current on two CPUs, and no stack is in use by two CPUs. -/
theorem one_cpu_per_stack_of_outsideWindows {r : StackRun}
    (hr : Reachable (fun r a r' => stackStep r a r' ∧ OutsideWindows r a) Booted r) : OneCpuPerStack r.sched := by
  obtain ⟨q, sl, h⟩ : ∃ q sl, StackInv r q sl := by
    refine hr.invariant (I := fun r => ∃ q sl, StackInv r q sl) (fun r hb => ⟨[], [], hb.inv⟩) ?_
    rintro r a r' ⟨q, sl, h⟩ ⟨hs, ho⟩
    exact h.step hs ho
  exact h.placed.oneCpuPerStack

/-- No thread is passed over or forgotten: in every run from a reachable state, the first ticks
enter the threads that were in the run queue, one each and in their order, and a thread in the
sleep list stays there until it joins the line. -/
theorem queue_entered_in_order {x : StackRun × List ℕ} (hr : Reachable recordedStep (Booted ·.1) x) :
    ∃ q sl, RunQueue x.1.sched q ∧ Sleepers x.1.sched sl ∧ q.Disjoint sl ∧ ∀ as y, Run recordedStep x as y →
      ∃ q' sl' l, RunQueue y.1.sched q' ∧ Sleepers y.1.sched sl' ∧ y.2 = x.2 ++ l ∧ Served q sl l q' sl' := by
  obtain ⟨x₀, as, hb, hrun⟩ := hr
  obtain ⟨q, sl, -, h, -⟩ := StackInv.run hrun hb.inv
  refine ⟨q, sl, h.queue, h.sleepers, disjoint_of_nodup_append h.nodup.of_append_left, fun as y hrun => ?_⟩
  obtain ⟨q', sl', l, h', hl, hserved⟩ := StackInv.run hrun h
  exact ⟨q', sl', l, h'.queue, h'.sleepers, hl, hserved⟩

/-- Thread 4 is created and added to the run queue. -/
def fourAdded : State := schedAdd (threadCreateUser twoCpusUp.sched 4) 4

lemma adds_four : stackStep twoCpusUp (.create 4) ⟨threadCreateUser twoCpusUp.sched 4, []⟩ ∧
    stackStep ⟨threadCreateUser twoCpusUp.sched 4, []⟩ (.add 4) ⟨fourAdded, []⟩ := by
  have hfresh : ∀ s : State, s.rqHead = 0 → s.sleepHead = 0 → s.cpus = twoCpusUp.sched.cpus → Fresh ⟨s, []⟩ 4 := by
    intro s h0 h1 hcpus
    refine ⟨by decide, fun q hq => ?_, fun sl hs => ?_, by simp, fun c => ?_⟩
    · simp [hq.eq_nil h0]
    · simp [hs.eq_nil h1]
    rw [hcpus]
    revert c
    decide +kernel
  exact ⟨⟨hfresh _ rfl rfl rfl, ⟨0, rfl⟩, rfl⟩, ⟨hfresh _ rfl rfl rfl, by simp [threadCreateUser],
    by simp [threadCreateUser], by simp [threadCreateUser]⟩, ⟨0, rfl⟩, rfl⟩

/-- Thread 4 is in the run queue, and thread 1 sleeps. -/
theorem queue_entered_in_order_sleeper : ∃ x : StackRun × List ℕ,
    (x.1.sched.rqHead = 4 ∧ x.1.sched.sleepHead = 1) ∧
    ∃ q sl, RunQueue x.1.sched q ∧ Sleepers x.1.sched sl ∧ q.Disjoint sl ∧ ∀ as y, Run recordedStep x as y →
      ∃ q' sl' l, RunQueue y.1.sched q' ∧ Sleepers y.1.sched sl' ∧ y.2 = x.2 ++ l ∧ Served q sl l q' sl' := by
  have hsleep : (perform 0 fourAdded (.sleep 0 5)).isSome = true := by decide +kernel
  have hheads : (Option.get _ hsleep).rqHead = 4 ∧ (Option.get _ hsleep).sleepHead = 1 := by
    decide +kernel +revert
  have hcreate : recordedStep (twoCpusUp, []) (.create 4) (⟨threadCreateUser twoCpusUp.sched 4, []⟩, []) :=
    ⟨⟨adds_four.1, trivial⟩, rfl⟩
  have hadd : recordedStep (⟨threadCreateUser twoCpusUp.sched 4, []⟩, []) (.add 4) (⟨fourAdded, []⟩, []) :=
    ⟨⟨adds_four.2, trivial⟩, rfl⟩
  have hstep : recordedStep (⟨fourAdded, []⟩, []) (.sleep 0 5) (⟨Option.get _ hsleep, []⟩, []) :=
    ⟨⟨stackStep_get hsleep trivial, trivial⟩, rfl⟩
  exact ⟨_, hheads, queue_entered_in_order ⟨(twoCpusUp, []), _, booted_twoCpusUp,
    .cons hcreate (.cons hadd (.cons hstep (.nil _)))⟩⟩

/-- Thread 1 goes to sleep on CPU 0, and the tick of CPU 0 itself wakes and enters it. -/
theorem one_cpu_per_stack_own_tick : ∃ r, Reachable (fun r a r' => stackStep r a r' ∧ OutsideWindows r a) Booted r ∧
      (r.sched.cpus 0).current = 1 ∧ OneCpuPerStack r.sched := by
  have h1 : (perform 0 twoCpusUp.sched (.sleep 0 0)).isSome = true := by decide +kernel
  have hrunning : ∀ d, d ≠ 0 → ((Option.get _ h1).cpus d).phase = .running := by decide +kernel +revert
  have h2 : (perform 2 (Option.get _ h1) (.tick 0)).isSome = true := by decide +kernel +revert
  have hcurrent : ((Option.get _ h2).cpus 0).current = 1 := by decide +kernel +revert
  have houtside : OutsideWindows ⟨Option.get _ h1, []⟩ (.tick 0) := by
    intro q sl t l _ _ _ d hd
    simp [InWindow, hrunning d hd]
  have hr : Reachable (fun r a r' => stackStep r a r' ∧ OutsideWindows r a) Booted ⟨Option.get _ h2, []⟩ :=
    ⟨twoCpusUp, [.sleep 0 0, .tick 0], booted_twoCpusUp,
      .cons ⟨stackStep_get h1 trivial, trivial⟩ (.cons ⟨stackStep_get h2 trivial, houtside⟩ (.nil _))⟩
  exact ⟨_, hr, hcurrent, one_cpu_per_stack_of_outsideWindows hr⟩

/-- Thread 1 goes to sleep on CPU 0, and the tick of CPU 1 enters it before CPU 0 has left
it: the thread is current on both CPUs. And thread 1 is preempted on CPU 0, which enters
thread 4; before CPU 0 has left the stack of thread 1, CPU 1 enters thread 1 and is on the
same stack. -/
theorem windows_share_thread :
    (∃ r, Booted twoCpusUp ∧ Run stackStep twoCpusUp [.sleep 0 0, .tick 1] r ∧
      (r.sched.cpus 0).current = 1 ∧ (r.sched.cpus 1).current = 1 ∧ ¬OneCpuPerStack r.sched) ∧
    ∃ r, Run stackStep twoCpusUp [.create 4, .add 4, .tick 0, .tick 1, .switch 1] r ∧
      (r.sched.cpus 0).stack = 1 ∧ (r.sched.cpus 1).stack = 1 ∧ ¬OneCpuPerStack r.sched := by
  refine ⟨?_, ?_⟩
  · have h1 : (perform 0 twoCpusUp.sched (.sleep 0 0)).isSome = true := by decide +kernel
    have h2 : (perform 2 (Option.get _ h1) (.tick 1)).isSome = true := by decide +kernel +revert
    have hcurrent : ((Option.get _ h2).cpus 0).current = 1 ∧ ((Option.get _ h2).cpus 1).current = 1 := by
      decide +kernel +revert
    refine ⟨⟨Option.get _ h2, []⟩, booted_twoCpusUp,
      .cons (stackStep_get h1 trivial) (.cons (stackStep_get h2 trivial) (.nil _)), hcurrent.1, hcurrent.2,
      fun hone => ?_⟩
    exact (hone 0 1 (by decide)).1 (by simp [hcurrent.1]) (hcurrent.1.trans hcurrent.2.symm)
  obtain ⟨hcreate, hadd⟩ := adds_four
  have h3 : (perform 1 fourAdded (.tick 0)).isSome = true := by decide +kernel
  have h4 : (perform 1 (Option.get _ h3) (.tick 1)).isSome = true := by decide +kernel +revert
  have h5 : (perform 1 (Option.get _ h4) (.switch 1)).isSome = true := by decide +kernel +revert
  have hstack : ((Option.get _ h5).cpus 0).stack = 1 ∧ ((Option.get _ h5).cpus 1).stack = 1 := by
    decide +kernel +revert
  refine ⟨⟨Option.get _ h5, []⟩, .cons hcreate (.cons hadd (.cons (stackStep_get h3 trivial)
    (.cons (stackStep_get h4 trivial) (.cons (stackStep_get h5 trivial) (.nil _))))), hstack.1, hstack.2,
    fun hone => ?_⟩
  exact (hone 0 1 (by decide)).2 (by simp [hstack.1]) (hstack.1.trans hstack.2.symm)

end AetherOS.Sched
