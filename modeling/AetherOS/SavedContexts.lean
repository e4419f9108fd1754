import AetherOS.SchedTick

/-!
# Contexts that were saved

A thread has a stack pointer that can be loaded once `thread_create` or `thread_create_user`
built its frame, or once a tick interrupted it. The thread that `sched_init` makes of the boot
code and the idle threads start without one. The queues are taken as they come here: nothing
is assumed about the lists, which may be damaged, only that what they lead to was saved.
-/
namespace AetherOS.Sched
open LinkedList Runs List Option

/-! ## Starting the CPUs -/

/-- The sleep fields are not initialised. -/
def allocThread (s : State) (t : ℕ) : State :=
  s.edit t fun x =>
    { x with
      rsp := 0
      state := .ready
      isIdle := false
      onCpu := false
      runNext := 0
      waitNext := 0 }

/-- `thread_create`: the initial frame is on the thread's own stack. -/
def threadCreate (s : State) (t : ℕ) : State :=
  schedAdd ((allocThread s t).edit t fun x => { x with rsp := t }) t

def threadCreateCurrent (s : State) (t : ℕ) : State :=
  (allocThread s t).edit t fun x => { x with state := .running }

def threadCreateIdle (s : State) (t : ℕ) : State :=
  (allocThread s t).edit t fun x => { x with isIdle := true, state := .running }

/-- `sched_init`: the stack that the CPU is on becomes the stack of the thread `bsp`. -/
def schedInit (s : State) (c : Fin maxCpus) (bsp idle : ℕ) : State :=
  let s := threadCreateCurrent s bsp
  let s := s.editCpu c fun x => { x with current := bsp, stack := bsp }
  let s := s.edit bsp fun x => { x with onCpu := true }
  let s := threadCreateIdle s idle
  s.editCpu c fun x => { x with idle := idle }

def schedApPrepare (s : State) (c : Fin maxCpus) (idle : ℕ) : State :=
  (threadCreateIdle s idle).editCpu c fun x => { x with idle := idle }

/-- `sched_ap_enter`; `idle` is allocated if no idle thread was prepared. -/
def schedApEnter (s : State) (c : Fin maxCpus) (idle : ℕ) : State :=
  let s := if (s.cpus c).idle = 0 then schedApPrepare s c idle else s
  let s := s.editCpu c fun x => { x with current := x.idle, stack := x.idle }
  s.edit (s.cpus c).idle fun x => { x with onCpu := true }

/-- The scheduler with the threads on wait queues, the user threads that were not started yet,
the records that were allocated, and the threads whose stack pointer was built or stored. -/
structure BootRun where
  sched : State
  waiting : List ℕ
  parked : List ℕ
  created : List ℕ
  saved : List ℕ

inductive BootAction where
  | init (c : Fin maxCpus) (bsp idle : ℕ)
  | prepare (c : Fin maxCpus) (idle : ℕ)
  | enter (c : Fin maxCpus) (idle : ℕ)
  | thread (t : ℕ)
  | user (t : ℕ)
  | start (t : ℕ)
  | tick (c : Fin maxCpus)
  | switch (c : Fin maxCpus)
  | sleep (c : Fin maxCpus) (ms : ℕ)
  | block (c : Fin maxCpus)
  | wake (t : ℕ)

/-- The record was never used. -/
def BootRun.New (r : BootRun) (t : ℕ) : Prop := t ≠ 0 ∧ t ∉ r.created

/-- The first CPU is started by `sched_init`, the others are prepared before they enter; only
waiting threads are woken, only parked ones are started, and the idle loop does not block. -/
def bootStep (r : BootRun) : BootAction → BootRun → Prop
  | .init c bsp idle, r' => (∀ d, (r.sched.cpus d).current = 0) ∧ r.New bsp ∧ r.New idle ∧ bsp ≠ idle ∧
      r' = { r with sched := schedInit r.sched c bsp idle, created := idle :: bsp :: r.created }
  | .prepare c idle, r' => (r.sched.cpus c).current = 0 ∧ r.New idle ∧
      r' = { r with sched := schedApPrepare r.sched c idle, created := idle :: r.created }
  | .enter c idle, r' => (r.sched.cpus c).current = 0 ∧ r.New idle ∧ r' = { r with
        sched := schedApEnter r.sched c idle
        created := if (r.sched.cpus c).idle = 0 then idle :: r.created else r.created }
  | .thread t, r' => r.New t ∧
      r' = { r with sched := threadCreate r.sched t, created := t :: r.created, saved := t :: r.saved }
  | .user t, r' => r.New t ∧ r' = { r with
        sched := threadCreateUser r.sched t
        parked := t :: r.parked
        created := t :: r.created
        saved := t :: r.saved }
  | .start t, r' => t ∈ r.parked ∧ r' = { r with sched := schedAdd r.sched t, parked := r.parked.erase t }
  | .tick c, r' => ∃ fuel s, perform fuel r.sched (.tick c) = some s ∧
      r' = { r with sched := s, saved := (r.sched.cpus c).current :: r.saved }
  | .switch c, r' => ∃ s, perform 0 r.sched (.switch c) = some s ∧ r' = { r with sched := s }
  | .sleep c ms, r' => ∃ s, perform 0 r.sched (.sleep c ms) = some s ∧ r' = { r with sched := s }
  | .block c, r' => (r.sched.threads (r.sched.cpus c).current).isIdle = false ∧
      ∃ s, perform 0 r.sched (.block c) = some s ∧
        r' = { r with sched := s, waiting := (r.sched.cpus c).current :: r.waiting }
  | .wake t, r' => t ∈ r.waiting ∧ ∃ s, schedWake r.sched t = some s ∧
      r' = { r with sched := s, waiting := r.waiting.erase t }

/-- Nothing was allocated, and no CPU has a thread. -/
structure PowerOn (r : BootRun) : Prop where
  rqHead : r.sched.rqHead = 0
  rqTail : r.sched.rqTail = 0
  sleepHead : r.sched.sleepHead = 0
  cpus : ∀ c, (r.sched.cpus c).current = 0 ∧ (r.sched.cpus c).idle = 0 ∧ (r.sched.cpus c).phase = .running
  waiting : r.waiting = []
  parked : r.parked = []
  created : r.created = []

/-- A CPU that is about to load a stack pointer loads one that was built or stored. -/
def LoadsSaved (r : BootRun) : Prop :=
  ∀ c n, (r.sched.cpus c).phase = .switching n → n ∈ r.saved ∧ (r.sched.threads n).rsp ≠ 0

/-- A tick of `c` will find a thread: in the run queue, among the sleepers that are due, or the
one it interrupts. -/
def InLine (s : State) (c : Fin maxCpus) : Prop :=
  s.rqHead ≠ 0 ∨ Preempted s (s.cpus c).current ∨
    ∃ l t, Links 0 (fun u => (s.threads u).sleepNext) s.sleepHead l t ∧ t ≠ 0 ∧ dueNext s t = true

/-- The idle thread has a context, or is the one interrupted, or some
thread is in line. -/
def TickReady (s : State) (c : Fin maxCpus) : Prop :=
  (s.threads (s.cpus c).idle).rsp ≠ 0 ∨ (s.cpus c).current = (s.cpus c).idle ∨ InLine s c

/-- A CPU whose idle thread was never interrupted does not tick without a thread in line, and
the boot thread does not sleep before its first tick. -/
def ContextReady (r : BootRun) : BootAction → Prop
  | .tick c => TickReady r.sched c
  | .sleep c _ => (r.sched.threads (r.sched.cpus c).current).isIdle = false →
      (r.sched.threads (r.sched.cpus c).current).rsp ≠ 0
  | _ => True

/-! ## What the queues lead to -/

/-- The thread is one of `made` and its stack pointer can be loaded. -/
def Resumable (s : State) (made : ℕ → Prop) (t : ℕ) : Prop := made t ∧ (s.threads t).rsp ≠ 0

/-- The thread can be loaded, or is on a CPU still. -/
def Started (s : State) (t : ℕ) : Prop := (s.threads t).rsp ≠ 0 ∨ (s.threads t).onCpu = true

/-- What the links of the run queue and of the sleep list lead to can be loaded; `asleep` are
the threads that ever went to sleep. -/
structure Contexts (s : State) (made asleep : ℕ → Prop) : Prop where
  made_ne_zero : ∀ t, made t → t ≠ 0
  head : s.rqHead ≠ 0 → Resumable s made s.rqHead
  tail : s.rqHead = 0 → s.rqTail = 0
  next : ∀ t, made t → (s.threads t).runNext ≠ 0 → Resumable s made (s.threads t).runNext
  first : s.sleepHead ≠ 0 → asleep s.sleepHead
  sleeper : ∀ t, asleep t → Resumable s made t
  follow : ∀ t, asleep t → (s.threads t).sleepNext ≠ 0 → asleep (s.threads t).sleepNext

/-- Threads are not lost, nor are their contexts. -/
structure Grows (s : State) (made : ℕ → Prop) (s' : State) (made' : ℕ → Prop) : Prop where
  still : ∀ t, made t → made' t
  rsp : ∀ t, made t → (s.threads t).rsp ≠ 0 → (s'.threads t).rsp ≠ 0
  started : ∀ t, made t → Started s t → Started s' t

/-- From `s` to `s'` no context changes. -/
structure SameContexts (s s' : State) : Prop where
  rsp : ∀ u, (s'.threads u).rsp = (s.threads u).rsp
  onCpu : ∀ u, (s'.threads u).onCpu = (s.threads u).onCpu
  isIdle : ∀ u, (s'.threads u).isIdle = (s.threads u).isIdle
  cpus : SameCpus s s'

lemma edit_edit (s : State) (t : ℕ) (f g : Thread → Thread) :
    (s.edit t f).edit t g = s.edit t fun x => g (f x) := by simp [State.edit]

section

variable {s s' s'' : State} {made made' asleep : ℕ → Prop} {t : ℕ} {c : Fin maxCpus}

lemma SameContexts.trans (h : SameContexts s s') (h' : SameContexts s' s'') : SameContexts s s'' :=
  ⟨fun u => (h'.rsp u).trans (h.rsp u), fun u => (h'.onCpu u).trans (h.onCpu u),
    fun u => (h'.isIdle u).trans (h.isIdle u), h.cpus.trans h'.cpus⟩

lemma SameContexts.refl (s : State) : SameContexts s s :=
  ⟨fun _ => rfl, fun _ => rfl, fun _ => rfl, sameCpus_of_eq rfl⟩

lemma OnlyRunLinks.sameContexts (h : OnlyRunLinks s s') : SameContexts s s' := by
  refine ⟨fun u => ?_, fun u => ?_, fun u => ?_, sameCpus_of_eq h.cpus⟩
  · rw [h.threads u]
  · rw [h.threads u]
  · rw [h.threads u]

lemma SameContexts.grows (h : SameContexts s s') : Grows s made s' made := by
  refine ⟨fun _ => id, fun t _ ht => ?_, fun t _ ht => ?_⟩
  · rw [h.rsp t]
    exact ht
  · rw [Started, h.rsp t, h.onCpu t]
    exact ht

lemma Grows.trans {made'' : ℕ → Prop} (h : Grows s made s' made') (h' : Grows s' made' s'' made'') :
    Grows s made s'' made'' :=
  ⟨fun t ht => h'.still t (h.still t ht), fun t ht h0 => h'.rsp t (h.still t ht) (h.rsp t ht h0),
    fun t ht h0 => h'.started t (h.still t ht) (h.started t ht h0)⟩

lemma Grows.resumable (h : Grows s made s' made') (ht : Resumable s made t) : Resumable s' made' t :=
  ⟨h.still t ht.1, h.rsp t ht.1 ht.2⟩

section

variable (h : Contexts s made asleep)
include h

/-- Every link is as before, or leads to where such a link may lead. -/
lemma Contexts.keep (hg : Grows s made s' made') (h0 : ∀ t, made' t → t ≠ 0)
    (hhead : s'.rqHead = s.rqHead ∨ (s'.rqHead ≠ 0 → Resumable s' made' s'.rqHead))
    (htail : s'.rqHead = 0 → s'.rqTail = 0)
    (hrun : ∀ t, made' t → made t ∧ (s'.threads t).runNext = (s.threads t).runNext ∨
      ((s'.threads t).runNext ≠ 0 → Resumable s' made' (s'.threads t).runNext))
    (hfirst : s'.sleepHead = s.sleepHead ∨ (s'.sleepHead ≠ 0 → asleep s'.sleepHead))
    (hnext : ∀ t, asleep t → (s'.threads t).sleepNext = (s.threads t).sleepNext ∨
      ((s'.threads t).sleepNext ≠ 0 → asleep (s'.threads t).sleepNext)) : Contexts s' made' asleep := by
  refine ⟨h0, ?_, htail, fun t ht => ?_, ?_, fun t ht => hg.resumable (h.sleeper t ht), fun t ht => ?_⟩
  · rcases hhead with he | he
    · rw [he]
      exact fun hne => hg.resumable (h.head hne)
    · exact he
  · rcases hrun t ht with ⟨hm, he⟩ | he
    · rw [he]
      exact fun hne => hg.resumable (h.next t hm hne)
    · exact he
  · rcases hfirst with he | he
    · rw [he]
      exact h.first
    · exact he
  · rcases hnext t ht with he | he
    · rw [he]
      exact h.follow t ht
    · exact he

lemma Contexts.rqAdd (ht : Resumable s made t) : Contexts (rqAdd s t) made asleep ∧ (Sched.rqAdd s t).rqHead ≠ 0 := by
  have hsame := (rqAdd_onlyRunLinks s t).sameContexts
  have hlinks := rqAdd_onlyRunLinks s t
  have ht0 := h.made_ne_zero t ht.1
  have hres : Resumable (Sched.rqAdd s t) made t := hsame.grows.resumable ht
  have hhead : (Sched.rqAdd s t).rqHead ≠ 0 ∧
      ((Sched.rqAdd s t).rqHead = s.rqHead ∨ (Sched.rqAdd s t).rqHead = t) := by
    simp only [Sched.rqAdd]
    split
    next htail => exact ⟨fun h0 => htail (h.tail h0), .inl rfl⟩
    · exact ⟨ht0, .inr rfl⟩
  have hnext : ∀ u, ((Sched.rqAdd s t).threads u).runNext = (s.threads u).runNext ∨
      ((Sched.rqAdd s t).threads u).runNext = 0 ∨ ((Sched.rqAdd s t).threads u).runNext = t := by
    intro u
    have hzero : ((s.edit t fun x => { x with runNext := 0 }).threads u).runNext = (s.threads u).runNext ∨
        ((s.edit t fun x => { x with runNext := 0 }).threads u).runNext = 0 :=
      edit_cases u (.inr rfl) fun _ => .inl rfl
    simp only [Sched.rqAdd]
    split
    · by_cases hu : u = s.rqTail
      · simp [hu]
      · simp only [edit_rqTail, edit_of_ne _ _ _ hu]
        exact hzero.imp_right Or.inl
    · exact hzero.imp_right Or.inl
  refine ⟨h.keep hsame.grows h.made_ne_zero (hhead.2.imp_right fun he _ => by rw [he]; exact hres)
    (fun h0 => absurd h0 hhead.1) (fun u hu => ?_) (.inl hlinks.sleepHead) fun u _ => .inl (by rw [hlinks.threads u]), hhead.1⟩
  rcases hnext u with he | he | he
  · exact .inl ⟨hu, he⟩
  · exact .inr fun hne => absurd he hne
  · rw [he]
    exact .inr fun _ => hres

lemma Contexts.rqTake : Contexts (rqTake s).2 made asleep := by
  by_cases h0 : s.rqHead = 0
  · simp only [Sched.rqTake, h0, if_true]
    exact h
  have hsame := (rqTake_onlyRunLinks s).sameContexts
  have hlinks := rqTake_onlyRunLinks s
  have hhead : (Sched.rqTake s).2.rqHead = (s.threads s.rqHead).runNext ∧
      ((s.threads s.rqHead).runNext = 0 → (Sched.rqTake s).2.rqTail = 0) := by
    simp only [Sched.rqTake, if_neg h0]
    split
    · exact ⟨rfl, fun _ => rfl⟩
    next hne => exact ⟨rfl, fun hz => absurd hz hne⟩
  have hnext : ∀ u, ((Sched.rqTake s).2.threads u).runNext = (s.threads u).runNext ∨
      ((Sched.rqTake s).2.threads u).runNext = 0 := by
    intro u
    simp only [Sched.rqTake, if_neg h0]
    refine edit_cases u (.inr rfl) fun _ => .inl ?_
    split <;> rfl
  refine h.keep hsame.grows h.made_ne_zero (.inr ?_) (by rw [hhead.1]; exact hhead.2)
    (fun u hu => (hnext u).imp (fun he => ⟨hu, he⟩) fun he hne => absurd he hne) (.inl hlinks.sleepHead)
    fun u _ => .inl (by rw [hlinks.threads u])
  rw [hhead.1]
  exact fun hne => hsame.grows.resumable (h.next _ (h.head h0).1 hne)

end

/-- The link is the head of the sleep list or in a thread that went to sleep. -/
def SlotOk (asleep : ℕ → Prop) : Slot → Prop
  | .head => True
  | .next t => asleep t

lemma Contexts.unhook (h : Contexts s made asleep) {sp : Slot} (hsp : SlotOk asleep sp) {st : ℕ} (hst : asleep st) :
    Contexts (unhook s sp st) made asleep ∧ SameContexts s (Sched.unhook s sp st) := by
  obtain ⟨hhead, htail, -, hcpus⟩ := unhook_frame s sp st
  have hfirst : (Sched.unhook s sp st).sleepHead = s.sleepHead ∨
      (Sched.unhook s sp st).sleepHead = (s.threads st).sleepNext := by
    cases sp with
    | head => exact .inr rfl
    | next t => exact .inl rfl
  have hnext : ∀ u, ((Sched.unhook s sp st).threads u).sleepNext = (s.threads u).sleepNext ∨
      ((Sched.unhook s sp st).threads u).sleepNext = 0 ∨
      ((Sched.unhook s sp st).threads u).sleepNext = (s.threads st).sleepNext := by
    intro u
    unfold Sched.unhook
    refine edit_cases u (.inr (.inl rfl)) fun _ => ?_
    cases sp with
    | head => exact .inl rfl
    | next t =>
      simp only [State.writeSlot]
      exact edit_cases u (.inr (.inr rfl)) fun _ => .inl rfl
  have hsame : SameContexts s (Sched.unhook s sp st) := by
    refine ⟨fun u => ?_, fun u => ?_, fun u => ?_, sameCpus_of_eq hcpus⟩
    all_goals rw [unhook_threads]
  refine ⟨h.keep hsame.grows h.made_ne_zero (.inl hhead) (by rw [hhead, htail]; exact h.tail)
    (fun u hu => .inl ⟨hu, by rw [unhook_threads]⟩)
    (hfirst.imp_right fun he => by rw [he]; exact h.follow st hst) fun u _ => ?_, hsame⟩
  rcases hnext u with he | he | he
  · exact .inl he
  · exact .inr fun hne => absurd he hne
  · rw [he]
    exact .inr (h.follow st hst)

/-- A scan of the sleep list wakes somebody if a sleeper on it is due. -/
lemma Contexts.wakeSleepers (fuel : ℕ) : ∀ {s : State} {sp : Slot}, Contexts s made asleep → SlotOk asleep sp →
    ∀ s', wakeSleepers fuel s sp = some s' →
      Contexts s' made asleep ∧ SameContexts s s' ∧ (s' = s ∨ s'.rqHead ≠ 0) ∧ (s.rqHead ≠ 0 → s'.rqHead ≠ 0) ∧
      ∀ l t, Links 0 (fun u => (s.threads u).sleepNext) (s.readSlot sp) l t → t ≠ 0 → due s t = true →
        s'.rqHead ≠ 0 := by
  induction fuel with
  | zero =>
    intro s sp _ _ s' hw
    cases hw
  | succ fuel ih =>
    intro s sp h hsp s' hw
    rw [wakeSleepers_succ] at hw
    split at hw
    next hst0 =>
      cases hw
      refine ⟨h, .refl s, .inl rfl, id, fun l t hl ht0 _ => ?_⟩
      cases l with
      | nil => exact absurd (hl.symm.trans hst0) ht0
      | cons b l => exact absurd (hl.1.symm.trans hst0) hl.2.1
    rename_i hst0
    have hst : asleep (s.readSlot sp) := by
      cases sp with
      | head => exact h.first hst0
      | next t => exact h.follow t hsp hst0
    split at hw
    · obtain ⟨hun, hsame⟩ := h.unhook hsp hst
      have hready := hsame.grows.resumable (h.sleeper _ hst)
      obtain ⟨hadd, hne⟩ := hun.rqAdd hready
      obtain ⟨hc, hs, -, hhead, -⟩ := ih hadd hsp s' hw
      exact ⟨hc, (hsame.trans (rqAdd_onlyRunLinks _ _).sameContexts).trans hs, .inr (hhead hne), fun _ => hhead hne,
        fun _ _ _ _ _ => hhead hne⟩
    next hnot =>
      have hslot : SlotOk asleep (.next (s.readSlot sp)) := hst
      obtain ⟨hc, hs, hquiet, hhead, hdue⟩ := ih h hslot s' hw
      refine ⟨hc, hs, hquiet, hhead, fun l t hl ht0 ht => ?_⟩
      cases l with
      | nil =>
        obtain rfl := hl
        exact absurd (of_decide_eq_true ht) hnot
      | cons b l =>
        obtain ⟨rfl, -, hrest⟩ := hl
        exact hdue l t hrest ht0 ht

/-- An assignment to a field that is neither a link nor part of the context. -/
lemma Contexts.edit (h : Contexts s made asleep) {f : Thread → Thread} (hf : ∀ x, (f x).rsp = x.rsp ∧
      (f x).onCpu = x.onCpu ∧ (f x).isIdle = x.isIdle ∧ (f x).runNext = x.runNext ∧ (f x).sleepNext = x.sleepNext) :
    Contexts (s.edit t f) made asleep ∧ SameContexts s (s.edit t f) := by
  have hsame : SameContexts s (s.edit t f) :=
    ⟨edit_field Thread.rsp s t (hf _).1, edit_field Thread.onCpu s t (hf _).2.1,
      edit_field Thread.isIdle s t (hf _).2.2.1, sameCpus_of_eq rfl⟩
  exact ⟨h.keep hsame.grows h.made_ne_zero (.inl rfl) h.tail
    (fun u hu => .inl ⟨hu, edit_field Thread.runNext s t (hf _).2.2.2.1 u⟩) (.inl rfl)
    fun u _ => .inl (edit_field Thread.sleepNext s t (hf _).2.2.2.2 u), hsame⟩

lemma Contexts.requeue {cur : ℕ} (h : Contexts s made asleep) (hcur : Resumable s made cur) :
    Contexts (requeue s c cur) made asleep ∧ SameContexts s (Sched.requeue s c cur) ∧
      (s.rqHead ≠ 0 ∨ Preempted s cur → (Sched.requeue s c cur).rqHead ≠ 0) := by
  unfold Sched.requeue
  split
  next hp =>
    obtain ⟨hready, hsame⟩ := h.edit (t := cur) (f := fun x => { x with state := .ready })
      fun _ => ⟨rfl, rfl, rfl, rfl, rfl⟩
    obtain ⟨hadd, hne⟩ := hready.rqAdd (hsame.grows.resumable hcur)
    exact ⟨hadd, hsame.trans (rqAdd_onlyRunLinks _ _).sameContexts, fun _ => hne⟩
  next hp =>
    have hnot : s.rqHead ≠ 0 ∨ Preempted s cur → s.rqHead ≠ 0 := by
      rintro (hne | hpre)
      · exact hne
      · exact absurd ⟨hpre.1, by simp [hpre.2]⟩ hp
    split
    · have hsame : SameContexts s (s.editCpu c fun x => { x with reapPending := cur }) :=
        ⟨fun _ => rfl, fun _ => rfl, fun _ => rfl, sameCpus_reapPending s c cur⟩
      exact ⟨h.keep hsame.grows h.made_ne_zero (.inl rfl) h.tail (fun t ht => .inl ⟨ht, rfl⟩) (.inl rfl)
        fun _ _ => .inl rfl, hsame, hnot⟩
    · exact ⟨h, .refl s, hnot⟩

end

/-! ## The CPUs -/

/-- A CPU that was started has an idle thread and is on some stack, and what it is about to
load can be loaded. -/
structure CpuOk (s : State) (made : ℕ → Prop) (x : Cpu) : Prop where
  current : x.current ≠ 0 → made x.current ∧ Started s x.current
  stack : x.current ≠ 0 → x.stack ≠ 0
  started : x.current ≠ 0 → x.idle ≠ 0
  idle : x.idle ≠ 0 → made x.idle
  switching : ∀ n, x.phase = .switching n → Resumable s made n

section

variable {s s' : State} {made made' asleep : ℕ → Prop} {x y : Cpu} {c : Fin maxCpus} {cur n : ℕ}

lemma CpuOk.grows (h : CpuOk s made x) (hg : Grows s made s' made') : CpuOk s' made' x :=
  ⟨fun h0 => ⟨hg.still _ (h.current h0).1, hg.started _ (h.current h0).1 (h.current h0).2⟩, h.stack, h.started,
    fun h0 => hg.still _ (h.idle h0), fun n hn => hg.resumable (h.switching n hn)⟩

lemma CpuOk.congr (h : CpuOk s made x) (hxy : SameCpu x y) : CpuOk s made y := by
  refine ⟨?_, ?_, ?_, ?_, ?_⟩
  · rw [hxy.current]
    exact h.current
  · rw [hxy.current, hxy.stack]
    exact h.stack
  · rw [hxy.current, hxy.idle]
    exact h.started
  · rw [hxy.idle]
    exact h.idle
  · rw [hxy.phase]
    exact h.switching

section

variable (h : Contexts s made asleep)
include h

lemma enterTick_contexts (hc : CpuOk s made (s.cpus c)) (h0 : (s.cpus c).current ≠ 0) :
    Contexts (enterTick s c) made asleep ∧ Grows s made (enterTick s c) made ∧ SameCpus s (enterTick s c) ∧
      Resumable (enterTick s c) made (s.cpus c).current ∧
      (∀ u, u ≠ (s.cpus c).current → ((enterTick s c).threads u).rsp = (s.threads u).rsp) ∧
      ∀ u, ((enterTick s c).threads u).isIdle = (s.threads u).isIdle := by
  obtain ⟨hthreads, hhead, htail, hsleep, -, hcpus⟩ := reap_frame s c
  have hcur : ((enterTick s c).threads (s.cpus c).current).rsp = (s.cpus c).stack := by simp [enterTick]
  have hother : ∀ u, u ≠ (s.cpus c).current → ((enterTick s c).threads u).rsp = (s.threads u).rsp := by
    intro u hu
    simp [enterTick, edit_of_ne _ _ _ hu, hthreads]
  have hrsp : ∀ u, (s.threads u).rsp ≠ 0 → ((enterTick s c).threads u).rsp ≠ 0 := by
    intro u hu
    by_cases huc : u = (s.cpus c).current
    · rw [huc, hcur]
      exact hc.stack h0
    · rw [hother u huc]
      exact hu
  have hg : Grows s made (enterTick s c) made := by
    refine ⟨fun _ => id, fun u _ => hrsp u, fun u _ hu => hu.imp (hrsp u) fun hon => ?_⟩
    rw [enterTick_field Thread.onCpu u fun _ _ => rfl]
    exact hon
  refine ⟨h.keep hg h.made_ne_zero (.inl hhead) (fun h0 => htail.trans (h.tail (hhead.symm.trans h0)))
    (fun t ht => .inl ⟨ht, enterTick_field Thread.runNext t fun _ _ => rfl⟩) (.inl hsleep)
    fun t _ => .inl (enterTick_field Thread.sleepNext t fun _ _ => rfl), hg, hcpus, ⟨(hc.current h0).1, ?_⟩, hother,
    fun u => enterTick_field Thread.isIdle u fun _ _ => rfl⟩
  rw [hcur]
  exact hc.stack h0

lemma handOff_contexts (hcur : Resumable s made cur) (hn : Resumable s made n)
    (hcpus : ∀ d, CpuOk s made (s.cpus d)) (hstack : (s.cpus c).stack ≠ 0) (hidle : (s.cpus c).idle ≠ 0) :
    Contexts (handOff s c cur n) made asleep ∧ Grows s made (handOff s c cur n) made ∧
      (∀ u, ((handOff s c cur n).threads u).rsp = (s.threads u).rsp) ∧
      ∀ d, CpuOk (handOff s c cur n) made ((handOff s c cur n).cpus d) := by
  obtain ⟨hhead, htail, hsleep⟩ := handOff_lists s c cur n
  have hrsp : ∀ u, ((handOff s c cur n).threads u).rsp = (s.threads u).rsp :=
    fun u => handOff_keeps s c cur n Thread.rsp u (fun _ _ => rfl) fun _ _ => rfl
  have honCpu : ∀ u, u ≠ cur → (s.threads u).onCpu = true → ((handOff s c cur n).threads u).onCpu = true := by
    intro u hu hon
    simp only [handOff, editCpu_threads]
    refine edit_cases u rfl fun hun => ?_
    split
    · rw [edit_of_ne _ _ _ hu, edit_of_ne _ _ _ hun]
      exact hon
    · rw [edit_of_ne _ _ _ hun]
      exact hon
  have hg : Grows s made (handOff s c cur n) made := by
    refine ⟨fun _ => id, fun u _ hu => by rw [hrsp u]; exact hu, fun u _ hu => ?_⟩
    by_cases huc : u = cur
    · left
      rw [hrsp u, huc]
      exact hcur.2
    · rw [Started, hrsp u]
      exact hu.imp_right (honCpu u huc)
  refine ⟨h.keep hg h.made_ne_zero (.inl hhead) (fun h0 => htail.trans (h.tail (hhead.symm.trans h0)))
    (fun t ht => .inl ⟨ht, handOff_keeps s c cur n Thread.runNext t (fun _ _ => rfl) fun _ _ => rfl⟩) (.inl hsleep)
    fun t _ => .inl (handOff_keeps s c cur n Thread.sleepNext t (fun _ _ => rfl) fun _ _ => rfl), hg, hrsp, fun d => ?_⟩
  have hn' := hg.resumable hn
  rw [handOff_cpus]
  refine editCpu_cases d ?_ fun _ => (hcpus d).grows hg
  refine ⟨fun _ => ⟨hn'.1, .inl hn'.2⟩, fun _ => hstack, fun _ => hidle, (hcpus c).idle, fun m hm => ?_⟩
  obtain rfl := Phase.switching.inj hm
  exact hn'

lemma schedTick_contexts (hcpus : ∀ d, CpuOk s made (s.cpus d))
    (h0 : (s.cpus c).current ≠ 0) (hready : TickReady s c) {fuel : ℕ} (ht : schedTick fuel s c = some s') :
    Contexts s' made asleep ∧ Grows s made s' made ∧
      (∀ u, u ≠ (s.cpus c).current → (s'.threads u).rsp = (s.threads u).rsp) ∧ ∀ d, CpuOk s' made (s'.cpus d) := by
  rw [schedTick_eq] at ht
  obtain ⟨s1, hw, rfl⟩ := map_eq_some_iff.mp ht
  obtain ⟨hctx0, hg0, hsame0, hcur0, hrsp0, hidle0⟩ := enterTick_contexts h (hcpus c) h0
  have hslot : SlotOk asleep .head := trivial
  obtain ⟨hctx1, hsame1, hquiet, hhead1, hdue1⟩ := hctx0.wakeSleepers fuel hslot s1 hw
  have hcur1 := hsame1.grows.resumable hcur0
  obtain ⟨hctx2, hsame2, hhead2⟩ := hctx1.requeue (c := c) hcur1
  generalize requeue s1 c (s.cpus c).current = s2 at *
  -- what is in line before the tick is in the queue when a thread is taken
  have hline : InLine s c → s2.rqHead ≠ 0 := by
    have henter : (enterTick s c).rqHead = s.rqHead := (reap_frame s c).2.1
    rintro (hne | hpre | ⟨l, t, hl, ht0, hdue⟩)
    · exact hhead2 (.inl (hhead1 (henter ▸ hne)))
    · rcases hquiet with rfl | hne
      · refine hhead2 (.inr ?_)
        have hstate := enterTick_field (s := s) (c := c) Thread.state (s.cpus c).current fun _ _ => rfl
        exact ⟨hstate.trans hpre.1, (hidle0 _).trans hpre.2⟩
      · exact hhead2 (.inl hne)
    refine hhead2 (.inl (hdue1 l t ?_ ht0 ?_))
    · have hsleep : (enterTick s c).sleepHead = s.sleepHead := (reap_frame s c).2.2.2.1
      change Links 0 _ (enterTick s c).sleepHead l t
      rw [hsleep]
      exact hl.congr fun u _ => enterTick_field Thread.sleepNext u fun _ _ => rfl
    · rw [enterTick_due]
      exact hdue
  have hsame := hsame1.trans hsame2
  have hg2 := hg0.trans hsame.grows
  have hcpu2 : SameCpus s s2 := hsame0.trans hsame.cpus
  have hctx3 := hctx2.rqTake
  have hsame3 := (rqTake_onlyRunLinks s2).sameContexts
  have hg3 : Grows s made (rqTake s2).2 made := hg2.trans hsame3.grows
  have hcpu3 : SameCpus s (rqTake s2).2 := hcpu2.trans hsame3.cpus
  have hnext : Resumable (rqTake s2).2 made (pickNext s2 c).1 := by
    simp only [pickNext, rqTake_fst]
    split
    next hempty =>
      rw [(hcpu2 c).idle]
      have hmade := (hcpus c).idle ((hcpus c).started h0)
      rcases hready with hrsp | hsame' | hin
      · exact hg3.resumable ⟨hmade, hrsp⟩
      · rw [← hsame']
        exact hsame3.grows.resumable (hsame.grows.resumable hcur0)
      · exact absurd hempty (hline hin)
    next hne => exact hsame3.grows.resumable (hctx2.head hne)
  have hcpusOk : ∀ d, CpuOk (rqTake s2).2 made ((rqTake s2).2.cpus d) :=
    fun d => ((hcpus d).grows hg3).congr (hcpu3 d)
  obtain ⟨hctx4, hg4, hrsp4, hcpus4⟩ := handOff_contexts (c := c) hctx3
    (hsame3.grows.resumable (hsame.grows.resumable hcur0)) hnext hcpusOk
    (by rw [(hcpu3 c).stack]; exact (hcpus c).stack h0) (by rw [(hcpu3 c).idle]; exact (hcpus c).started h0)
  refine ⟨hctx4, hg3.trans hg4, fun u hu => ?_, hcpus4⟩
  exact (hrsp4 u).trans ((hsame3.rsp u).trans ((hsame.rsp u).trans (hrsp0 u hu)))

end

end

/-! ## What every step keeps -/

/-- The queues and the CPUs lead to saved contexts only; a thread that waits has one or is on its
CPU still. -/
structure BootInv (r : BootRun) (asleep : ℕ → Prop) : Prop where
  contexts : Contexts r.sched (· ∈ r.created) asleep
  cpus : ∀ c, CpuOk r.sched (· ∈ r.created) (r.sched.cpus c)
  waiting : ∀ t ∈ r.waiting, t ∈ r.created ∧ Started r.sched t
  parked : ∀ t ∈ r.parked, Resumable r.sched (· ∈ r.created) t
  saved : ∀ t ∈ r.created, (r.sched.threads t).rsp ≠ 0 → t ∈ r.saved

namespace BootInv

variable {r r' : BootRun} {asleep asleep' : ℕ → Prop} {s : State} {c : Fin maxCpus} {t fuel : ℕ} {p w : List ℕ}
  {f : Thread → Thread}

lemma init (h : PowerOn r) : BootInv r fun _ => False := by
  refine ⟨⟨by simp [h.created], fun h0 => absurd h.rqHead h0, fun _ => h.rqTail, by simp [h.created],
    fun h0 => absurd h.sleepHead h0, fun _ => False.elim, fun _ => False.elim⟩, fun c => ?_, by simp [h.waiting],
    by simp [h.parked], by simp [h.created]⟩
  obtain ⟨hcur, hidle, hphase⟩ := h.cpus c
  refine ⟨fun h0 => absurd hcur h0, fun h0 => absurd hcur h0, fun h0 => absurd hcur h0, fun h0 => absurd hidle h0, ?_⟩
  rw [hphase]
  exact nofun

section

variable (h : BootInv r asleep)
include h

lemma loadsSaved : LoadsSaved r := by
  intro c n hn
  have hres := (h.cpus c).switching n hn
  exact ⟨h.saved n hres.1 hres.2, hres.2⟩

lemma grow (hg : Grows r.sched (· ∈ r.created) r'.sched (· ∈ r'.created))
    (hctx : Contexts r'.sched (· ∈ r'.created) asleep')
    (hcpus : ∀ c, r'.sched.cpus c = r.sched.cpus c ∨ CpuOk r'.sched (· ∈ r'.created) (r'.sched.cpus c))
    (hwait : ∀ t ∈ r'.waiting, t ∈ r.waiting ∨ t ∈ r'.created ∧ Started r'.sched t)
    (hparked : ∀ t ∈ r'.parked, t ∈ r.parked ∨ Resumable r'.sched (· ∈ r'.created) t)
    (hsaved : ∀ t ∈ r'.created, (r'.sched.threads t).rsp ≠ 0 → t ∈ r'.saved) : BootInv r' asleep' := by
  refine ⟨hctx, fun c => ?_, fun t ht => ?_, fun t ht => ?_, hsaved⟩
  · rcases hcpus c with he | hok
    · rw [he]
      exact (h.cpus c).grows hg
    · exact hok
  · rcases hwait t ht with hold | hnew
    · exact ⟨hg.still t (h.waiting t hold).1, hg.started t (h.waiting t hold).1 (h.waiting t hold).2⟩
    · exact hnew
  rcases hparked t ht with hold | hnew
  · exact hg.resumable (h.parked t hold)
  · exact hnew

lemma tick (hready : TickReady r.sched c) (hs : perform fuel r.sched (.tick c) = some s) :
    BootInv { r with sched := s, saved := (r.sched.cpus c).current :: r.saved } asleep := by
  obtain ⟨h0, htick⟩ : (r.sched.cpus c).current ≠ 0 ∧ schedTick fuel r.sched c = some s := by
    simp only [perform] at hs
    split at hs
    · cases hs
    split at hs
    · cases hs
    next h0 => exact ⟨h0, hs⟩
  obtain ⟨hctx, hg, hrsp, hcpus⟩ := schedTick_contexts h.contexts h.cpus h0 hready htick
  refine h.grow hg hctx (fun d => .inr (hcpus d)) (fun t ht => .inl ht) (fun t ht => .inl ht) fun t ht hne => ?_
  by_cases htc : t = (r.sched.cpus c).current
  · rw [htc]
    exact mem_cons_self
  change (s.threads t).rsp ≠ 0 at hne
  rw [hrsp t htc] at hne
  exact mem_cons_of_mem _ (h.saved t ht hne)

lemma switch (hs : perform fuel r.sched (.switch c) = some s) : BootInv { r with sched := s } asleep := by
  simp only [perform] at hs
  split at hs
  next n hphase =>
    cases hs
    have hres := (h.cpus c).switching n hphase
    have hg : Grows r.sched (· ∈ r.created) (switchStack r.sched c n) (· ∈ r.created) :=
      ⟨fun _ => id, fun _ _ ht => ht, fun _ _ ht => ht⟩
    refine h.grow hg (h.contexts.keep hg h.contexts.made_ne_zero (.inl rfl) h.contexts.tail
      (fun t ht => .inl ⟨ht, rfl⟩) (.inl rfl) fun _ _ => .inl rfl) (fun d => ?_) (fun t ht => .inl ht) (fun t ht => .inl ht) h.saved
    have hcpu := (h.cpus c).grows hg
    simp only [switchStack]
    exact editCpu_cases d (.inr { hcpu with stack := fun _ => hres.2, switching := nofun }) fun _ => .inl rfl
  · cases hs

lemma stop (hf : ∀ x, (f x).rsp = x.rsp ∧ (f x).onCpu = x.onCpu)
    (hthreads : s.threads = (r.sched.edit (r.sched.cpus c).current f).threads)
    (hcpus : s.cpus = (r.sched.editCpu c fun x => { x with phase := .yielding }).cpus)
    (hctx : Contexts s (· ∈ r.created) asleep') (hw : ∀ t ∈ w, t ∈ r.waiting ∨ t = (r.sched.cpus c).current ∧ t ≠ 0) :
    BootInv { r with sched := s, waiting := w } asleep' := by
  have hrsp : ∀ u, (s.threads u).rsp = (r.sched.threads u).rsp := by
    intro u
    rw [hthreads]
    exact edit_field Thread.rsp r.sched _ (hf _).1 u
  have hon : ∀ u, (s.threads u).onCpu = (r.sched.threads u).onCpu := by
    intro u
    rw [hthreads]
    exact edit_field Thread.onCpu r.sched _ (hf _).2 u
  have hg : Grows r.sched (· ∈ r.created) s (· ∈ r.created) := by
    refine ⟨fun _ => id, fun t _ ht => by rw [hrsp t]; exact ht, fun t _ ht => ?_⟩
    rw [Started, hrsp t, hon t]
    exact ht
  refine h.grow hg hctx (fun d => ?_) (fun t ht => ?_) (fun t ht => .inl ht) fun t ht hne => ?_
  · have hcpu := (h.cpus c).grows hg
    simp only [hcpus]
    exact editCpu_cases d (.inr { hcpu with switching := nofun }) fun _ => .inl rfl
  · rcases hw t ht with hold | ⟨rfl, h0⟩
    · exact .inl hold
    · have hcur := ((h.cpus c).grows hg).current h0
      exact .inr hcur
  · change (s.threads t).rsp ≠ 0 at hne
    rw [hrsp t] at hne
    exact h.saved t ht hne

lemma block (hs : perform fuel r.sched (.block c) = some s) :
    BootInv { r with sched := s, waiting := (r.sched.cpus c).current :: r.waiting } asleep := by
  obtain ⟨⟨-, h0⟩, hp⟩ := ite_none_right_eq_some.mp hs
  cases hp
  obtain ⟨hedit, -⟩ := h.contexts.edit (t := (r.sched.cpus c).current) (f := fun x => { x with state := .blocked })
    fun _ => ⟨rfl, rfl, rfl, rfl, rfl⟩
  refine h.stop (s := stopCurrent r.sched c .blocked) (c := c) (f := fun x => { x with state := .blocked })
    (fun _ => ⟨rfl, rfl⟩) rfl rfl { hedit with }
    fun t ht => ?_
  rcases mem_cons.mp ht with rfl | ht
  · exact .inr ⟨rfl, h0⟩
  · exact .inl ht

lemma sleep {ms : ℕ} (hready : (r.sched.threads (r.sched.cpus c).current).isIdle = false →
      (r.sched.threads (r.sched.cpus c).current).rsp ≠ 0)
    (hs : perform fuel r.sched (.sleep c ms) = some s) : ∃ asleep', BootInv { r with sched := s } asleep' := by
  obtain ⟨⟨-, h0⟩, hp⟩ := ite_none_right_eq_some.mp hs
  cases hp
  simp only [schedSleepMs, h0, false_or]
  split
  · exact ⟨asleep, h⟩
  rename_i hidle
  have hcur : Resumable r.sched (· ∈ r.created) (r.sched.cpus c).current :=
    ⟨((h.cpus c).current h0).1, hready (by simpa using hidle)⟩
  generalize hcu : (r.sched.cpus c).current = cur at *
  let f : Thread → Thread := fun x =>
    { x with sleepDeadline := (r.sched.ticks + ms) % 2 ^ 64, state := .blocked, sleepNext := r.sched.sleepHead }
  let e := r.sched.edit cur f
  have hrun : ∀ u, (e.threads u).runNext = (r.sched.threads u).runNext := edit_field Thread.runNext r.sched cur rfl
  have hrsp : ∀ u, (e.threads u).rsp = (r.sched.threads u).rsp := edit_field Thread.rsp r.sched cur rfl
  have hres : ∀ u, Resumable r.sched (· ∈ r.created) u → (u ∈ r.created ∧ (e.threads u).rsp ≠ 0) :=
    fun u hu => ⟨hu.1, (hrsp u).trans_ne hu.2⟩
  let s' : State := { e with sleepHead := cur }.editCpu c fun x => { x with phase := .yielding }
  refine ⟨fun u => u = cur ∨ asleep u, h.stop (s := s') (c := c) (f := f) (fun _ => ⟨rfl, rfl⟩) (by rw [hcu]; rfl) rfl
    ⟨h.contexts.made_ne_zero, fun hne => hres _ (h.contexts.head hne), h.contexts.tail, fun t ht hne => ?_,
      fun _ => .inl rfl, fun t ht => ?_, fun t ht hne => ?_⟩ fun t ht => .inl ht⟩
  · change (e.threads t).runNext ≠ 0 at hne
    change Resumable _ _ (e.threads t).runNext
    rw [hrun t] at hne ⊢
    exact hres _ (h.contexts.next t ht hne)
  · rcases ht with rfl | ht
    · exact hres _ hcur
    · exact hres _ (h.contexts.sleeper t ht)
  revert hne
  change ((r.sched.edit cur f).threads t).sleepNext ≠ 0 → _ ∨ asleep ((r.sched.edit cur f).threads t).sleepNext
  exact edit_cases t (fun hne => .inr (h.contexts.first hne))
    fun htc hne => .inr (h.contexts.follow t (ht.resolve_left htc) hne)

lemma enqueue (hf : ∀ x, (f x).rsp = x.rsp ∧ (f x).onCpu = x.onCpu ∧ (f x).isIdle = x.isIdle ∧
      (f x).runNext = x.runNext ∧ (f x).sleepNext = x.sleepNext)
    (ht : Resumable r.sched (· ∈ r.created) t) (hw : ∀ u ∈ w, u ∈ r.waiting) (hp : ∀ u ∈ p, u ∈ r.parked) :
    BootInv { r with sched := rqAdd (r.sched.edit t f) t, waiting := w, parked := p } asleep := by
  obtain ⟨hctx, hsame⟩ := h.contexts.edit (t := t) hf
  have hall := hsame.trans (rqAdd_onlyRunLinks (r.sched.edit t f) t).sameContexts
  refine h.grow hall.grows (hctx.rqAdd (hsame.grows.resumable ht)).1
    (fun d => .inl (congrFun (rqAdd_onlyRunLinks (r.sched.edit t f) t).cpus d)) (fun u hu => .inl (hw u hu))
    (fun u hu => .inl (hp u hu)) fun u hu hne => ?_
  change ((rqAdd (r.sched.edit t f) t).threads u).rsp ≠ 0 at hne
  rw [hall.rsp u] at hne
  exact h.saved u hu hne

lemma wake (ht : t ∈ r.waiting) (hs : schedWake r.sched t = some s) :
    BootInv { r with sched := s, waiting := r.waiting.erase t } asleep := by
  rw [schedWake] at hs
  split at hs
  · cases hs
  rename_i hon
  cases hs
  have hres : Resumable r.sched (· ∈ r.created) t :=
    ⟨(h.waiting t ht).1, (h.waiting t ht).2.resolve_right hon⟩
  exact h.enqueue (f := fun x => { x with state := .ready }) (fun _ => ⟨rfl, rfl, rfl, rfl, rfl⟩) hres
    (fun u hu => mem_of_mem_erase hu) fun u hu => hu

lemma start (ht : Resumable r.sched (· ∈ r.created) t) (hp : ∀ u ∈ p, u ∈ r.parked) :
    BootInv { r with sched := schedAdd r.sched t, parked := p } asleep := by
  have hid : r.sched.edit t (fun x => x) = r.sched := by simp [State.edit]
  have hadd := h.enqueue (f := fun x => x) (fun _ => ⟨rfl, rfl, rfl, rfl, rfl⟩) ht (fun _ hu => hu) hp
  rw [hid] at hadd
  exact hadd

lemma create (hsub : ∀ t ∈ r.created, t ∈ r'.created) (h0 : ∀ t ∈ r'.created, t ≠ 0)
    (hold : ∀ t ∈ r.created, r'.sched.threads t = { r.sched.threads t with onCpu := (r'.sched.threads t).onCpu } ∧
      ((r.sched.threads t).onCpu = true → (r'.sched.threads t).onCpu = true))
    (hnew : ∀ t ∈ r'.created, t ∈ r.created ∨
      (r'.sched.threads t).runNext = 0 ∧ ((r'.sched.threads t).rsp ≠ 0 → t ∈ r'.saved))
    (hqueues : r'.sched.rqHead = r.sched.rqHead ∧ r'.sched.rqTail = r.sched.rqTail ∧
      r'.sched.sleepHead = r.sched.sleepHead)
    (hcpus : ∀ c, r'.sched.cpus c = r.sched.cpus c ∨ CpuOk r'.sched (· ∈ r'.created) (r'.sched.cpus c))
    (hwait : r'.waiting = r.waiting) (hparked : ∀ t ∈ r'.parked, t ∈ r.parked ∨ Resumable r'.sched (· ∈ r'.created) t)
    (hsaved : ∀ t ∈ r.saved, t ∈ r'.saved) : BootInv r' asleep := by
  have hrsp : ∀ t ∈ r.created, (r'.sched.threads t).rsp = (r.sched.threads t).rsp := by
    intro t ht
    rw [(hold t ht).1]
  have hg : Grows r.sched (· ∈ r.created) r'.sched (· ∈ r'.created) := by
    refine ⟨hsub, fun t ht hne => (hrsp t ht).trans_ne hne, fun t ht hs => ?_⟩
    exact hs.imp (hrsp t ht).trans_ne (hold t ht).2
  refine h.grow hg (h.contexts.keep hg h0 (.inl hqueues.1) (by rw [hqueues.1, hqueues.2.1]; exact h.contexts.tail)
    (fun t ht => ?_) (.inl hqueues.2.2) fun t ht => .inl ?_) hcpus
    (fun t ht => .inl (hwait ▸ ht)) hparked fun t ht hne => ?_
  · by_cases hmem : t ∈ r.created
    · refine .inl ⟨hmem, ?_⟩
      rw [(hold t hmem).1]
    · exact .inr fun hne => absurd ((hnew t ht).resolve_left hmem).1 hne
  · rw [(hold t (h.contexts.sleeper t ht).1).1]
  by_cases hmem : t ∈ r.created
  · exact hsaved t (h.saved t hmem ((hrsp t hmem).symm.trans_ne hne))
  · exact ((hnew t ht).resolve_left hmem).2 hne

lemma enterIdle (hidle : (r.sched.cpus c).idle ≠ 0) :
    BootInv { r with
      sched := (r.sched.editCpu c fun x => { x with current := x.idle, stack := x.idle }).edit
        (r.sched.cpus c).idle fun x => { x with onCpu := true } } asleep := by
  have hcreated := (h.cpus c).idle hidle
  refine h.create (fun _ ht => ht) h.contexts.made_ne_zero (fun u hu => ?_) (fun u hu => .inl hu) ⟨rfl, rfl, rfl⟩
    (fun d => ?_) rfl (fun u hu => .inl hu) fun _ hu => hu
  · dsimp only
    exact edit_cases u ⟨rfl, fun _ => rfl⟩ fun _ => ⟨rfl, id⟩
  simp only [edit_cpus]
  refine editCpu_cases d (.inr ?_) fun _ => .inl rfl
  refine ⟨fun _ => ⟨hcreated, .inr ?_⟩, fun _ => hidle, fun _ => hidle, fun _ => hcreated, fun n hn => ?_⟩
  · rw [edit_self]
  have hres := (h.cpus c).switching n hn
  refine ⟨hres.1, ?_⟩
  rw [edit_field Thread.rsp (r.sched.editCpu c _) _ rfl n]
  exact hres.2

section

variable (hn : r.New t)
include hn

lemma createOne (hf : ∀ x, (f x).runNext = 0) (cpus : Fin maxCpus → Cpu) {v : List ℕ}
    (hcpus : ∀ c, cpus c = r.sched.cpus c ∨
      CpuOk { r.sched.edit t f with cpus := cpus } (· ∈ t :: r.created) (cpus c))
    (hp : ∀ u ∈ p, u ∈ r.parked ∨ u = t ∧ ∀ x, (f x).rsp ≠ 0) (hv : ∀ u ∈ r.saved, u ∈ v)
    (hsaved : (f (r.sched.threads t)).rsp ≠ 0 → t ∈ v) :
    BootInv { r with
      sched := { r.sched.edit t f with cpus := cpus }
      created := t :: r.created
      parked := p
      saved := v } asleep := by
  have hself : (r.sched.edit t f).threads t = f (r.sched.threads t) := edit_self ..
  refine h.create (fun u hu => mem_cons_of_mem _ hu)
    (forall_mem_cons.mpr ⟨hn.1, h.contexts.made_ne_zero⟩) (fun u hu => ?_) (fun u hu => ?_) ⟨rfl, rfl, rfl⟩ hcpus
    rfl (fun u hu => ?_) hv
  · have hne : u ≠ t := by
      rintro rfl
      exact hn.2 hu
    change (r.sched.edit t f).threads u = _ ∧ (_ → ((r.sched.edit t f).threads u).onCpu = true)
    simp only [edit_of_ne _ _ _ hne]
    exact ⟨trivial, id⟩
  · rcases mem_cons.mp hu with rfl | hu
    · right
      change ((r.sched.edit u f).threads u).runNext = 0 ∧ (((r.sched.edit u f).threads u).rsp ≠ 0 → _)
      rw [hself]
      exact ⟨hf _, hsaved⟩
    · exact .inl hu
  rcases hp u hu with hold | ⟨rfl, hne⟩
  · exact .inl hold
  refine .inr ⟨mem_cons_self, ?_⟩
  change ((r.sched.edit u f).threads u).rsp ≠ 0
  rw [hself]
  exact hne _

lemma user : BootInv { r with
      sched := threadCreateUser r.sched t
      parked := t :: r.parked
      created := t :: r.created
      saved := t :: r.saved } asleep := by
  refine h.createOne hn (f := fun x =>
      { x with rsp := t, state := .ready, isIdle := false, onCpu := false, runNext := 0, waitNext := 0 })
    (fun _ => rfl) r.sched.cpus (fun _ => .inl rfl) (fun u hu => ?_)
    (fun u hu => mem_cons_of_mem t hu) fun _ => mem_cons_self
  rcases mem_cons.mp hu with rfl | hu
  · exact .inr ⟨rfl, fun _ => hn.1⟩
  · exact .inl hu

lemma thread :
    BootInv { r with sched := threadCreate r.sched t, created := t :: r.created, saved := t :: r.saved } asleep := by
  have hall := (h.user hn).start (t := t) ⟨mem_cons_self, ?_⟩ (p := r.parked) fun _ hu => mem_cons_of_mem t hu
  · rw [threadCreate, allocThread, edit_edit]
    exact hall
  · simp only [threadCreateUser, edit_self]
    exact hn.1

/-- A new idle thread of a CPU that has no thread, or that gets one which is started. -/
lemma createIdle {g : Cpu → Cpu} (hg : (g (r.sched.cpus c)).phase = (r.sched.cpus c).phase)
    (hcur : (g (r.sched.cpus c)).current ≠ 0 → (g (r.sched.cpus c)).stack ≠ 0 ∧
      (g (r.sched.cpus c)).current ∈ r.created ∧ Started r.sched (g (r.sched.cpus c)).current) :
    BootInv { r with
      sched := (threadCreateIdle r.sched t).editCpu c fun x => { g x with idle := t }
      created := t :: r.created } asleep := by
  have hold : ∀ u ∈ r.created, ∀ f, (r.sched.edit t f).threads u = r.sched.threads u := by
    intro u hu f
    refine edit_of_ne _ _ _ ?_
    rintro rfl
    exact hn.2 hu
  have hmade := h.createOne hn (f := fun x =>
      { x with rsp := 0, state := .running, isIdle := true, onCpu := false, runNext := 0, waitNext := 0 })
    (fun _ => rfl) (r.sched.editCpu c fun x => { g x with idle := t }).cpus (fun d => ?_)
    (fun u hu => .inl hu) (fun u hu => hu) fun hne => absurd rfl hne
  · rw [threadCreateIdle, allocThread, edit_edit]
    exact hmade
  refine editCpu_cases d (.inr ?_) fun _ => .inl rfl
  refine ⟨fun h0 => ?_, fun h0 => (hcur h0).1, fun _ => hn.1, fun _ => mem_cons_self, fun n hphase => ?_⟩
  · obtain ⟨-, hmem, hs⟩ := hcur h0
    refine ⟨mem_cons_of_mem _ hmem, ?_⟩
    simp only [Started, hold _ hmem]
    exact hs
  have hres := (h.cpus c).switching n (hg.symm.trans hphase)
  refine ⟨mem_cons_of_mem _ hres.1, ?_⟩
  simp only [hold n hres.1]
  exact hres.2

lemma prepare (hc : (r.sched.cpus c).current = 0) :
    BootInv { r with sched := schedApPrepare r.sched c t, created := t :: r.created } asleep :=
  h.createIdle hn (g := id) rfl fun h0 => absurd hc h0

lemma enter (hc : (r.sched.cpus c).current = 0) : BootInv { r with
      sched := schedApEnter r.sched c t
      created := if (r.sched.cpus c).idle = 0 then t :: r.created else r.created } asleep := by
  by_cases hidle : (r.sched.cpus c).idle = 0
  · have hprep := h.prepare hn hc
    have hne : ((schedApPrepare r.sched c t).cpus c).idle ≠ 0 := by
      rw [schedApPrepare, editCpu_self]
      exact hn.1
    simp only [schedApEnter, if_pos hidle, editCpu_self]
    exact hprep.enterIdle hne
  · simp only [schedApEnter, if_neg hidle, editCpu_self]
    exact h.enterIdle hidle

end

lemma bsp {b : ℕ} (hb : r.New b) (hn : r.New t) (hbt : b ≠ t) :
    BootInv { r with sched := schedInit r.sched c b t, created := t :: b :: r.created } asleep := by
  have hboot := h.createOne hb (f := fun x =>
      { x with rsp := 0, state := .running, isIdle := false, onCpu := true, runNext := 0, waitNext := 0 })
    (fun _ => rfl) r.sched.cpus (fun _ => .inl rfl) (fun u hu => .inl hu) (fun u hu => hu) fun hne => absurd rfl hne
  have hnew : t ∉ b :: r.created := by simp [hn.2, Ne.symm hbt]
  have hidle := hboot.createIdle (c := c) ⟨hn.1, hnew⟩ (g := fun x => { x with current := b, stack := b }) rfl
    fun _ => ⟨hb.1, mem_cons_self, .inr (by simp only [edit_self])⟩
  convert hidle using 2
  simp [schedInit, threadCreateCurrent, threadCreateIdle, allocThread, State.edit, State.editCpu]

/-- One step whose condition is met. -/
theorem step {a : BootAction} (hs : bootStep r a r') (hready : ContextReady r a) : ∃ asleep', BootInv r' asleep' := by
  cases a with
  | init c b t =>
    obtain ⟨-, hb, hn, hbt, rfl⟩ := hs
    exact ⟨asleep, h.bsp hb hn hbt⟩
  | prepare c t =>
    obtain ⟨hc, hn, rfl⟩ := hs
    exact ⟨asleep, h.prepare hn hc⟩
  | enter c t =>
    obtain ⟨hc, hn, rfl⟩ := hs
    exact ⟨asleep, h.enter hn hc⟩
  | thread t =>
    obtain ⟨hn, rfl⟩ := hs
    exact ⟨asleep, h.thread hn⟩
  | user t =>
    obtain ⟨hn, rfl⟩ := hs
    exact ⟨asleep, h.user hn⟩
  | start t =>
    obtain ⟨ht, rfl⟩ := hs
    exact ⟨asleep, h.start (h.parked t ht) fun u hu => mem_of_mem_erase hu⟩
  | tick c =>
    obtain ⟨fuel, s, hp, rfl⟩ := hs
    exact ⟨asleep, h.tick hready hp⟩
  | switch c =>
    obtain ⟨s, hp, rfl⟩ := hs
    exact ⟨asleep, h.switch hp⟩
  | sleep c ms =>
    obtain ⟨s, hp, rfl⟩ := hs
    exact h.sleep hready hp
  | block c =>
    obtain ⟨-, s, hp, rfl⟩ := hs
    exact ⟨asleep, h.block hp⟩
  | wake t =>
    obtain ⟨ht, s, hp, rfl⟩ := hs
    exact ⟨asleep, h.wake ht hp⟩

end

end BootInv

/-- For any number of CPUs and every run of starts, ticks, creations, blockings and wake-ups in
which every tick finds the idle thread of its CPU with a context or another thread in line, and
no thread sleeps before it has a context: only contexts that were built or stored are loaded. -/
theorem loadsSaved_of_contextReady {r : BootRun}
    (hr : Reachable (fun r a r' => bootStep r a r' ∧ ContextReady r a) PowerOn r) : LoadsSaved r := by
  obtain ⟨asleep, h⟩ : ∃ asleep, BootInv r asleep := by
    refine hr.invariant (I := fun r => ∃ asleep, BootInv r asleep) (fun r h => ⟨_, BootInv.init h⟩) ?_
    rintro r a r' ⟨asleep, h⟩ ⟨hs, hready⟩
    exact h.step hs hready
  exact h.loadsSaved

/-- The memory and the variables are zero. -/
def powerOn : BootRun where
  sched :=
    { threads := fun _ => ⟨0, .ready, false, false, 0, 0, 0, 0⟩
      rqHead := 0
      rqTail := 0
      sleepHead := 0
      ticks := 0
      cpus := fun _ => ⟨0, 0, 0, 0, .running⟩
      freed := [] }
  waiting := []
  parked := []
  created := []
  saved := []

lemma powerOn_start : PowerOn powerOn := ⟨rfl, rfl, rfl, fun _ => ⟨rfl, rfl, rfl⟩, rfl, rfl, rfl⟩

/-- CPU 0 runs the boot thread 1 and has the idle thread 2. -/
def bspUp : BootRun := { powerOn with sched := schedInit powerOn.sched 0 1 2, created := [2, 1] }

lemma init_bspUp : bootStep powerOn (.init 0 1 2) bspUp :=
  ⟨fun _ => rfl, ⟨by decide, by decide⟩, ⟨by decide, by decide⟩, by decide, rfl⟩

/-- CPU 1 has entered its idle thread 3. -/
def apUp : BootRun :=
  { bspUp with sched := schedApEnter (schedApPrepare bspUp.sched 1 3) 1 4, created := [3, 2, 1] }

lemma start_apUp : Run (fun r a r' => bootStep r a r' ∧ ContextReady r a) powerOn
    [.init 0 1 2, .prepare 1 3, .enter 1 4] apUp := by
  let r1 := { bspUp with sched := schedApPrepare bspUp.sched 1 3, created := [3, 2, 1] }
  have hprepare : bootStep bspUp (.prepare 1 3)
      r1 :=
    ⟨by decide, ⟨by decide, by decide⟩, rfl⟩
  have henter : bootStep r1
      (.enter 1 4) apUp :=
    ⟨by decide, ⟨by decide, by decide⟩, rfl⟩
  exact .cons ⟨init_bspUp, trivial⟩ (.cons ⟨hprepare, trivial⟩ (.cons ⟨henter, trivial⟩ (.nil _)))

/-- The first tick of CPU 1 stores the stack pointer of the idle thread, and loads it again. -/
theorem loadsSaved_first_tick : ∃ r, Run bootStep powerOn [.init 0 1 2, .prepare 1 3, .enter 1 4, .tick 1] r ∧
    (r.sched.cpus 1).phase = .switching 3 ∧ LoadsSaved r := by
  obtain ⟨s, hs⟩ := isSome_iff_exists.mp
    (by decide +kernel : (perform 1 apUp.sched (.tick 1)).isSome = true)
  have hphase : (perform 1 apUp.sched (.tick 1)).map (fun s => (s.cpus 1).phase) = some (.switching 3) := by
    decide +kernel
  rw [hs] at hphase
  have htick : bootStep apUp (.tick 1) { apUp with sched := s, saved := [3] } := ⟨1, s, hs, rfl⟩
  have hready : ContextReady apUp (.tick 1) := Or.inr (.inl (by decide))
  have hrun := start_apUp.append (.cons ⟨htick, hready⟩ (.nil _))
  exact ⟨_, hrun.mono fun _ _ _ h => h.1, some.inj hphase,
    loadsSaved_of_contextReady ⟨powerOn, _, powerOn_start, hrun⟩⟩

/-- The boot thread blocks while the run queue is empty: CPU 0 loads the stack pointer 0 of its
idle thread. And the boot thread sleeps before its first tick: CPU 1 wakes it and loads 0. -/
theorem tick_loads_null :
    (∃ r, PowerOn powerOn ∧ Run bootStep powerOn [.init 0 1 2, .block 0, .tick 0] r ∧
      (r.sched.cpus 0).phase = .switching 2 ∧ (r.sched.threads 2).rsp = 0) ∧
    ∃ r, Run bootStep powerOn [.init 0 1 2, .prepare 1 3, .enter 1 4, .sleep 0 0, .tick 1] r ∧
      (r.sched.cpus 1).phase = .switching 1 ∧ (r.sched.threads 1).rsp = 0 := by
  refine ⟨?_, ?_⟩
  · have hs : (perform 1 (stopCurrent bspUp.sched 0 .blocked) (.tick 0)).isSome = true := by decide +kernel
    have hend : ((Option.get _ hs).cpus 0).phase = .switching 2 ∧ ((Option.get _ hs).threads 2).rsp = 0 := by
      decide +kernel +revert
    have hblock : bootStep bspUp (.block 0)
        { bspUp with sched := stopCurrent bspUp.sched 0 .blocked, waiting := [1] } :=
      ⟨by decide, _, rfl, rfl⟩
    have htick : bootStep { bspUp with sched := stopCurrent bspUp.sched 0 .blocked, waiting := [1] } (.tick 0)
        { bspUp with sched := Option.get _ hs, waiting := [1], saved := [1] } := ⟨1, _, (some_get hs).symm, rfl⟩
    exact ⟨_, powerOn_start, .cons init_bspUp (.cons hblock (.cons htick (.nil _))), hend⟩
  · have hs : (perform 2 (schedSleepMs apUp.sched 0 0) (.tick 1)).isSome = true := by decide +kernel
    have hend : ((Option.get _ hs).cpus 1).phase = .switching 1 ∧ ((Option.get _ hs).threads 1).rsp = 0 := by
      decide +kernel +revert
    have hsleep : bootStep apUp (.sleep 0 0) { apUp with sched := schedSleepMs apUp.sched 0 0 } := ⟨_, rfl, rfl⟩
    have htick : bootStep { apUp with sched := schedSleepMs apUp.sched 0 0 } (.tick 1)
        { apUp with sched := Option.get _ hs, saved := [3] } := ⟨2, _, (some_get hs).symm, rfl⟩
    exact ⟨_, (start_apUp.mono fun _ _ _ h => h.1).append (.cons hsleep (.cons htick (.nil _))), hend⟩

end AetherOS.Sched
